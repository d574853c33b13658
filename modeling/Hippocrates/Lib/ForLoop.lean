import Mathlib.Tactic

/-!
Counting loops over a state of any type.

* `forWhile`: `for (; i < e && test; ++i)`, with `r` rounds left until the bound `e = i + r`.
* `forUp`: `for (i = 0; i < n; ++i)`. `forDown`: `for (i = n - 1; i >= 0; --i)`.

The rules `forWhile_inv`, `forUp_inv` and `forDown_inv` carry an invariant that mentions the
counter through the loop; `foldlM_inv` carries one through a loop over a list that may fail, and
`exists_round` gives its rounds. `LastNew` is what a loop has noted in the end that notes each
element it has not met before.
-/

namespace ForLoop

variable {α : Type*}

/-- The rounds from the counter `i` on, as long as the test holds, `r` of them at most. The
counter at the end comes with the state. -/
def forWhile (test : ℕ → α → Bool) (body : ℕ → α → α) : ℕ → ℕ → α → ℕ × α
  | 0, i, a => (i, a)
  | r + 1, i, a => if test i a then forWhile test body r (i + 1) (body i a) else (i, a)

/-- The rounds `0, …, n - 1`. -/
def forUp (body : ℕ → α → α) (n : ℕ) (a : α) : α := (forWhile (fun _ _ => true) body n 0 a).2

/-- The rounds `n - 1, …, 0`. -/
def forDown (body : ℕ → α → α) : ℕ → α → α
  | 0, a => a
  | n + 1, a => forDown body n (body n a)

/-- At the end the counter is at the bound or the test fails. -/
lemma forWhile_inv {t : ℕ → α → Bool} {f : ℕ → α → α} {I : ℕ → α → Prop} {r i : ℕ} {a : α}
    (hstart : I i a)
    (hstep : ∀ j a, i ≤ j → j < i + r → t j a = true → I j a → I (j + 1) (f j a)) :
    ∃ j a', forWhile t f r i a = (j, a') ∧ I j a' ∧ i ≤ j ∧ j ≤ i + r ∧
      (j < i + r → t j a' = false) := by
  induction r generalizing i a with
  | zero => exact ⟨i, a, rfl, hstart, le_rfl, le_rfl, fun h => absurd h (lt_irrefl i)⟩
  | succ r ih =>
      rw [forWhile]
      split_ifs with htest
      · have hnext := hstep i a le_rfl (by omega) htest hstart
        obtain ⟨j, a', hrun, hinv, hle, hbound, hend⟩ := ih hnext fun j b hj hlt =>
          hstep j b (by omega) (by omega)
        exact ⟨j, a', hrun, hinv, by omega, by omega, fun h => hend (by omega)⟩
      · exact ⟨i, a, rfl, hstart, le_rfl, by omega, fun _ => Bool.eq_false_iff.mpr htest⟩

lemma forUp_inv {body : ℕ → α → α} {I : ℕ → α → Prop} {n : ℕ} {a : α} (hstart : I 0 a)
    (hstep : ∀ j a, j < n → I j a → I (j + 1) (body j a)) : I n (forUp body n a) := by
  obtain ⟨j, a', hrun, hinv, -, hbound, hend⟩ :=
    forWhile_inv (t := fun _ _ => true) (r := n) hstart
      fun j b _ hlt _ => hstep j b (by omega)
  obtain rfl : j = n := by
    by_contra hne
    exact absurd (hend (by omega)) (by simp)
  rw [forUp, hrun]
  exact hinv

lemma forDown_inv {body : ℕ → α → α} {I : ℕ → α → Prop} {n : ℕ} {a : α} (hstart : I n a)
    (hstep : ∀ j a, j < n → I (j + 1) a → I j (body j a)) : I 0 (forDown body n a) := by
  induction n generalizing a with
  | zero => exact hstart
  | succ n ih =>
      exact ih (hstep n a (Nat.lt_succ_self n) hstart) fun j b hj => hstep j b (by omega)

/-! ### Loops over lists -/

/-- The last element of the list that is none of those before it. -/
def LastNew (xs : List α) (x : α) : Prop :=
  ∃ pre post, xs = pre ++ x :: post ∧ x ∉ pre ∧ ∀ y ∈ post, y ∈ pre ++ [x]

section LastNew

variable {xs ys : List α} {x y : α}

lemma LastNew.mem (h : LastNew xs x) : x ∈ xs := by
  obtain ⟨pre, post, rfl, -, -⟩ := h
  exact List.mem_append_right pre List.mem_cons_self

/-- Elements that were met before make no difference. -/
lemma LastNew.append_old (h : LastNew xs x) (hys : ∀ y ∈ ys, y ∈ xs) : LastNew (xs ++ ys) x := by
  obtain ⟨pre, post, rfl, hnew, hold⟩ := h
  refine ⟨pre, post ++ ys, by simp, hnew, fun y hy => ?_⟩
  rcases List.mem_append.mp hy with hy | hy
  · exact hold y hy
  · rcases List.mem_append.mp (hys y hy) with hy | hy
    · exact List.mem_append_left [x] hy
    · rcases List.mem_cons.mp hy with rfl | hy
      · exact List.mem_append_right pre (List.mem_singleton_self y)
      · exact hold y hy

/-- A new element of the second list, with no other new one after it. -/
lemma LastNew.append_new {pre post : List α} (hnew : x ∉ xs ++ pre)
    (hold : ∀ y ∈ post, y ∈ xs ++ pre ++ [x]) : LastNew (xs ++ (pre ++ x :: post)) x :=
  ⟨xs ++ pre, post, by simp, hnew, hold⟩

lemma LastNew.unique (h : LastNew xs x) (h' : LastNew xs y) : x = y := by
  -- the one that comes first of two would be met again after the other
  have hfirst : ∀ {u v : α} {pre post pre' post' : List α}, v ∉ pre' →
      (∀ z ∈ post, z ∈ pre ++ [u]) → ∀ mid, pre' = pre ++ mid → u :: post = mid ++ v :: post' →
      u = v := by
    intro u v pre post pre' post' hv hpost mid hpre heq
    cases mid with
    | nil => exact (List.cons.inj heq).1
    | cons w mid =>
        obtain ⟨rfl, rfl⟩ := List.cons.inj heq
        have hmem : v ∈ pre ++ [u] := hpost v (by simp)
        refine absurd ?_ hv
        rw [hpre]
        simpa using (List.mem_append.mp hmem).imp_right fun h => .inl (List.mem_singleton.mp h)
  obtain ⟨pre, post, rfl, hnew, hold⟩ := h
  obtain ⟨pre', post', heq, hnew', hold'⟩ := h'
  rcases List.append_eq_append_iff.mp heq with ⟨mid, hpre, hpost⟩ | ⟨mid, hpre, hpost⟩
  · exact hfirst hnew' hold mid hpre hpost
  · exact (hfirst hnew hold' mid hpre hpost).symm

end LastNew

/-- A loop over a list, a round of which may fail. -/
lemma foldlM_inv {β : Type*} {f : β → α → Option β} {I : β → Prop} {l : List α} {b b' : β}
    (hstart : I b) (hstep : ∀ a ∈ l, ∀ b b', f b a = some b' → I b → I b')
    (h : l.foldlM f b = some b') : I b' := by
  induction l generalizing b with
  | nil => exact Option.some.inj h ▸ hstart
  | cons a l ih =>
      rw [List.foldlM_cons, Option.bind_eq_bind, Option.bind_eq_some_iff] at h
      obtain ⟨mid, ha, hl⟩ := h
      exact ih (hstep a List.mem_cons_self b mid ha hstart)
        (fun x hx => hstep x (List.mem_cons_of_mem a hx)) hl

/-- In a loop that has not failed, no round has. -/
lemma exists_round {β : Type*} {f : β → α → Option β} {l : List α} {b b' : β} {a : α}
    (ha : a ∈ l) (h : l.foldlM f b = some b') : ∃ c c', f c a = some c' := by
  induction l generalizing b with
  | nil => exact absurd ha List.not_mem_nil
  | cons x l ih =>
      rw [List.foldlM_cons, Option.bind_eq_bind, Option.bind_eq_some_iff] at h
      obtain ⟨mid, hx, hl⟩ := h
      rcases List.mem_cons.mp ha with rfl | ha
      · exact ⟨b, mid, hx⟩
      · exact ih ha hl

end ForLoop

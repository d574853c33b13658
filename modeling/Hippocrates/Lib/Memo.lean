import Mathlib.Tactic
import Hippocrates.Lib.HashTable

/-!
Programs that keep the results of a function in a table, and the programs that compute them anew.

* `Computes`: from every state of the invariant the program ends as the computation without a state
  does, with its result or not at all, in a state of the invariant. The rules follow the way a
  program is put together.
* `memo`: one call of the function through the table. `Consistent`: the table has results of the
  function, and keys of a given set.

`computes_memo`: a call through the table is a call, if keys that pass the test of the table have
one result. The test need not be an equivalence.
-/

namespace Memo

variable {σ α β : Type}

/-- The program `x` ends as `y` does, from every state of the invariant. -/
def Computes (I : σ → Prop) (x : StateT σ Option α) (y : Option α) : Prop :=
  ∀ s, I s → (x s).map Prod.fst = y ∧ ∀ r, x s = some r → I r.2

section Rules

variable {I : σ → Prop} {x : StateT σ Option α} {y : Option α} {s : σ}

lemma Computes.congr {z : Option α} (h : Computes I x y) (hyz : y = z) : Computes I x z := hyz ▸ h

lemma computes_pure (a : α) : Computes I (pure a) (some a) := by
  intro s hs
  refine ⟨rfl, fun r hr => ?_⟩
  obtain rfl := Option.some.inj hr
  exact hs

lemma computes_failure : Computes I (failure : StateT σ Option α) none :=
  fun _ _ => ⟨rfl, fun r hr => by cases hr⟩

/-- A step that does not look at the state. -/
lemma computes_lift (y : Option α) : Computes I (StateT.lift y) y := by
  intro s hs
  cases y with
  | none => exact ⟨rfl, fun r hr => by cases hr⟩
  | some a =>
      refine ⟨rfl, fun r hr => ?_⟩
      obtain rfl := Option.some.inj hr
      exact hs

/-- One program after the other. -/
lemma Computes.bind {f : α → StateT σ Option β} {g : α → Option β} (h : Computes I x y)
    (hf : ∀ a, y = some a → Computes I (f a) (g a)) : Computes I (x >>= f) (y.bind g) := by
  intro s hs
  obtain ⟨hy, hkeep⟩ := h s hs
  have hrun : (x >>= f) s = (x s).bind fun r => f r.1 r.2 := rfl
  rw [hrun]
  cases hx : x s with
  | none =>
      rw [hx] at hy
      rw [← hy]
      exact ⟨rfl, fun r hr => by cases hr⟩
  | some r =>
      rw [hx] at hy
      rw [← hy]
      exact hf r.1 hy.symm r.2 (hkeep r hx)

lemma Computes.map (h : Computes I x y) (f : α → β) : Computes I (f <$> x) (y.map f) := by
  rw [Option.map_eq_bind]
  exact h.bind fun a _ => computes_pure (f a)

/-- A loop over a list, with an invariant of its own. -/
lemma Computes.foldlM {f : β → α → StateT σ Option β} {g : β → α → Option β} {J : β → Prop}
    {l : List α} {b : β} (hstart : J b) (hstep : ∀ a ∈ l, ∀ b, J b →
      Computes I (f b a) (g b a) ∧ ∀ b', g b a = some b' → J b') :
    Computes I (l.foldlM f b) (l.foldlM g b) := by
  induction l generalizing b with
  | nil => exact computes_pure b
  | cons a l ih =>
      obtain ⟨hfirst, hnext⟩ := hstep a List.mem_cons_self b hstart
      rw [List.foldlM_cons, List.foldlM_cons]
      exact hfirst.bind fun b' hb' => ih (hnext b' hb') fun c hc =>
        hstep c (List.mem_cons_of_mem a hc)

/-- The result of the whole program. -/
lemma Computes.run (h : Computes I x y) (hs : I s) : (x s).map Prod.fst = y := (h s hs).1

end Rules

/-! ### The table -/

section Table

variable {K V : Type} {same : K → K → Bool} {arb : HashTable K V → HashTable K V}
  {f : K → Option V} {S : Set K}

/-- The result for the key is looked up, or computed; it is stored either way. -/
def memo (same : K → K → Bool) (arb : HashTable K V → HashTable K V) (f : K → Option V) (k : K) :
    StateT (HashTable K V) Option V := fun t =>
  ((HashTable.find same t k).or (f k)).map fun v => (v, HashTable.upsert same arb t k fun _ => v)

/-- The entries are results of the function, for keys in `S`. -/
def Consistent (f : K → Option V) (S : Set K) (t : HashTable K V) : Prop :=
  ∀ e ∈ t, e.1 ∈ S ∧ f e.1 = some e.2

lemma Consistent.nil : Consistent f S ([] : HashTable K V) := fun _ he => absurd he List.not_mem_nil

/-- An entry that is found is the result, if the function respects the test. -/
lemma Consistent.or_eq {t : HashTable K V} (h : Consistent f S t)
    (hsame : ∀ a ∈ S, ∀ b ∈ S, same a b = true → f a = f b) {k : K} (hk : k ∈ S) :
    (HashTable.find same t k).or (f k) = f k := by
  cases hfind : HashTable.find same t k with
  | none => rfl
  | some v =>
      obtain ⟨e, he, rfl⟩ := Option.map_eq_some_iff.mp hfind
      obtain ⟨heS, hfe⟩ := h e (List.mem_of_find?_eq_some he)
      have hke : same k e.1 = true := by simpa using List.find?_some he
      rw [hsame k hk e.1 heS hke, hfe]
      rfl

lemma Consistent.update {t : HashTable K V} (h : Consistent f S t)
    (hsame : ∀ a ∈ S, ∀ b ∈ S, same a b = true → f a = f b) {k : K} (hk : k ∈ S) {v : V}
    (hv : f k = some v) : Consistent f S (HashTable.update same k (fun _ => v) t) := by
  induction t with
  | nil => exact h
  | cons e t ih =>
      obtain ⟨he, ht⟩ := List.forall_mem_cons.mp h
      rw [HashTable.update]
      split_ifs with hke
      · refine List.forall_mem_cons.mpr ⟨⟨he.1, ?_⟩, ht⟩
        rw [← hsame k hk e.1 he.1 hke, hv]
      · exact List.forall_mem_cons.mpr ⟨he, ih ht⟩

/-- **A call through the table** is a call of the function. -/
theorem computes_memo (harb : ∀ t, (arb t).Perm t)
    (hsame : ∀ a ∈ S, ∀ b ∈ S, same a b = true → f a = f b) {k : K} (hk : k ∈ S) :
    Computes (Consistent f S) (memo same arb f k) (f k) := by
  intro t ht
  rw [memo, ht.or_eq hsame hk]
  refine ⟨?_, fun r hr => ?_⟩
  · cases f k <;> rfl
  · obtain ⟨v, hv, rfl⟩ := Option.map_eq_some_iff.mp hr
    dsimp only
    rw [HashTable.upsert]
    split_ifs
    · exact ht.update hsame hk hv
    · intro e he
      rcases List.mem_cons.mp ((harb _).mem_iff.mp he) with rfl | he
      · exact ⟨hk, hv⟩
      · exact ht e he

end Table

end Memo

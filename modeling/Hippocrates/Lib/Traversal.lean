import Mathlib.Tactic

/-!
Breadth-first traversals with a queue, and with a list of what has been traversed.

* `run`: the traversal, with a state. `visited` is the list of the visits, in order.
* `run_eq_foldl`: the loop ends, on a finite type, and what it computes is a fold over the visits.
* `mem_visited_iff`: what is reached is visited. `nodup_visited`: nothing is visited twice.
-/

namespace Traversal

variable {α σ : Type*} [DecidableEq α]

/-- The rounds of a traversal, with a bound for their number. A round takes the first element of the
queue. If it has not been traversed, it is visited, and the elements after it are added. -/
def loop (visit : σ → α → σ) (next : α → List α) : ℕ → List α → List α → σ → Option σ
  | _, [], _, s => some s
  | 0, _ :: _, _, _ => none
  | n + 1, a :: frontier, traversed, s =>
    if a ∈ traversed then loop visit next n frontier traversed s
    else loop visit next n (frontier ++ next a) (a :: traversed) (visit s a)

/-- The number of rounds is no more than that of the elements that are ever in the queue. -/
def bound (next : α → List α) (nodes frontier traversed : List α) : ℕ :=
  frontier.length + ((nodes.filter (· ∉ traversed)).map fun a => (next a).length).sum

/-- The traversal, for the elements `nodes`. -/
def run (visit : σ → α → σ) (next : α → List α) (nodes frontier traversed : List α) (s : σ) :
    Option σ :=
  loop visit next (bound next nodes frontier traversed) frontier traversed s

/-- The visits of the rounds, in order. -/
def visits (next : α → List α) : ℕ → List α → List α → Option (List α)
  | _, [], _ => some []
  | 0, _ :: _, _ => none
  | n + 1, a :: frontier, traversed =>
    if a ∈ traversed then visits next n frontier traversed
    else (visits next n (frontier ++ next a) (a :: traversed)).map (a :: ·)

/-- The elements that are visited, in order. -/
def visited (next : α → List α) (nodes frontier traversed : List α) : List α :=
  (visits next (bound next nodes frontier traversed) frontier traversed).getD []

/-- What is reached from the queue, without what has been traversed. -/
inductive Reached (next : α → List α) (frontier traversed : List α) : α → Prop
  | frontier {a : α} (h : a ∈ frontier) (ht : a ∉ traversed) : Reached next frontier traversed a
  | next {a b : α} (h : Reached next frontier traversed a) (hb : b ∈ next a) (ht : b ∉ traversed) :
      Reached next frontier traversed b

variable {visit : σ → α → σ} {next : α → List α} {nodes frontier traversed : List α} {n : ℕ} {s : σ}
  {a b : α}

/-! ### The loop ends -/

/-- A visit takes the elements after it out of the sum. -/
lemma sum_filter_cons (next : α → List α) (ha : a ∈ nodes) (ht : a ∉ traversed) :
    ((nodes.filter (· ∉ a :: traversed)).map fun a => (next a).length).sum + (next a).length ≤
      ((nodes.filter (· ∉ traversed)).map fun a => (next a).length).sum := by
  obtain ⟨l₁, l₂, rfl⟩ := List.append_of_mem ha
  have hle : ∀ l : List α, ((l.filter (· ∉ a :: traversed)).map fun a => (next a).length).sum ≤
      ((l.filter (· ∉ traversed)).map fun a => (next a).length).sum := by
    intro l
    refine List.Sublist.sum_le_sum ((List.monotone_filter_right l fun b hb => ?_).map _) (by simp)
    simp only [List.mem_cons, not_or, decide_eq_true_eq] at hb ⊢
    exact hb.2
  have h₁ := hle l₁
  have h₂ := hle l₂
  simp only [List.filter_append, List.map_append, List.sum_append, List.filter_cons, List.mem_cons,
    true_or, not_true, decide_false, ht, not_false_iff, decide_true, if_true, List.map_cons,
    List.sum_cons] at h₁ h₂ ⊢
  simp only [Bool.false_eq_true, if_false]
  omega

/-- The rounds end, on a finite type. -/
lemma visits_isSome (hnodes : ∀ a, a ∈ nodes) (hn : bound next nodes frontier traversed ≤ n) :
    (visits next n frontier traversed).isSome := by
  induction n generalizing frontier traversed with
  | zero =>
      cases frontier with
      | nil => rfl
      | cons a frontier => simp [bound] at hn
  | succ n ih =>
      cases frontier with
      | nil => rfl
      | cons a frontier =>
          rw [visits]
          split
          · refine ih ?_
            simp only [bound, List.length_cons] at hn ⊢
            omega
          · rename_i ha
            have hsum := sum_filter_cons next (hnodes a) ha
            rw [Option.isSome_map]
            refine ih ?_
            simp only [bound, List.length_cons, List.length_append] at hn ⊢
            omega

/-- The state is a fold over the visits. -/
lemma loop_eq_foldl : loop visit next n frontier traversed s =
    (visits next n frontier traversed).map fun l => l.foldl visit s := by
  induction n generalizing frontier traversed s with
  | zero => cases frontier <;> rfl
  | succ n ih =>
      cases frontier with
      | nil => rfl
      | cons a frontier =>
          rw [loop, visits]
          split
          · exact ih
          · rw [ih, Option.map_map]
            rfl

lemma visits_eq_visited (hnodes : ∀ a, a ∈ nodes) :
    visits next (bound next nodes frontier traversed) frontier traversed =
      some (visited next nodes frontier traversed) := by
  have hsome := visits_isSome hnodes (le_refl (bound next nodes frontier traversed))
  obtain ⟨l, hl⟩ := Option.isSome_iff_exists.mp hsome
  rw [visited, hl, Option.getD_some]

/-- The traversal ends, with a fold over the elements that are visited. -/
lemma run_eq_foldl (hnodes : ∀ a, a ∈ nodes) : run visit next nodes frontier traversed s =
    some ((visited next nodes frontier traversed).foldl visit s) := by
  rw [run, loop_eq_foldl, visits_eq_visited hnodes, Option.map_some]

/-! ### What is visited -/

omit [DecidableEq α] in
lemma not_reached_nil : ¬ Reached next [] traversed b := by
  intro h
  induction h with
  | frontier h ht => cases h
  | next h hb ht ih => exact ih

omit [DecidableEq α] in
lemma reached_cons_of_mem (ha : a ∈ traversed) :
    Reached next (a :: frontier) traversed b ↔ Reached next frontier traversed b := by
  constructor
  · intro h
    induction h with
    | frontier h ht =>
        rcases List.mem_cons.mp h with rfl | h
        · exact absurd ha ht
        · exact .frontier h ht
    | next h hb ht ih => exact .next ih hb ht
  · intro h
    induction h with
    | frontier h ht => exact .frontier (List.mem_cons_of_mem a h) ht
    | next h hb ht ih => exact .next ih hb ht

lemma reached_cons_of_not_mem (ha : a ∉ traversed) : Reached next (a :: frontier) traversed b ↔
    b = a ∨ Reached next (frontier ++ next a) (a :: traversed) b := by
  constructor
  · intro h
    induction h with
    | @frontier b h ht =>
        by_cases hab : b = a
        · exact .inl hab
        · have hmem : b ∈ frontier := (List.mem_cons.mp h).resolve_left hab
          exact .inr (.frontier (List.mem_append_left _ hmem) (by simp [hab, ht]))
    | @next c b h hb ht ih =>
        by_cases hab : b = a
        · exact .inl hab
        · refine .inr ?_
          rcases ih with rfl | ih
          · exact .frontier (List.mem_append_right _ hb) (by simp [hab, ht])
          · exact .next ih hb (by simp [hab, ht])
  · rintro (rfl | h)
    · exact .frontier List.mem_cons_self ha
    · induction h with
      | frontier h ht =>
          have ht' := fun hmem => ht (List.mem_cons_of_mem a hmem)
          rcases List.mem_append.mp h with h | h
          · exact .frontier (List.mem_cons_of_mem a h) ht'
          · exact .next (.frontier List.mem_cons_self ha) h ht'
      | next h hb ht ih => exact .next ih hb fun hmem => ht (List.mem_cons_of_mem a hmem)

lemma mem_visits_iff {l : List α} (h : visits next n frontier traversed = some l) :
    b ∈ l ↔ Reached next frontier traversed b := by
  induction n generalizing frontier traversed l with
  | zero =>
      cases frontier with
      | nil =>
          obtain rfl := Option.some.inj h
          simp [not_reached_nil]
      | cons a frontier => cases h
  | succ n ih =>
      cases frontier with
      | nil =>
          obtain rfl := Option.some.inj h
          simp [not_reached_nil]
      | cons a frontier =>
          rw [visits] at h
          split at h
          · rename_i ha
            rw [reached_cons_of_mem ha]
            exact ih h
          · rename_i ha
            obtain ⟨l, hl, rfl⟩ := Option.map_eq_some_iff.mp h
            rw [reached_cons_of_not_mem ha, List.mem_cons, ih hl]

/-- What is reached is visited. -/
lemma mem_visited_iff (hnodes : ∀ a, a ∈ nodes) :
    b ∈ visited next nodes frontier traversed ↔ Reached next frontier traversed b :=
  mem_visits_iff (visits_eq_visited hnodes)

omit [DecidableEq α] in
/-- What has been traversed is not reached. -/
lemma Reached.not_mem (h : Reached next frontier traversed b) : b ∉ traversed := by
  cases h with
  | frontier h ht => exact ht
  | next h hb ht => exact ht

lemma nodup_visits {l : List α} (h : visits next n frontier traversed = some l) : l.Nodup := by
  induction n generalizing frontier traversed l with
  | zero =>
      cases frontier with
      | nil =>
          obtain rfl := Option.some.inj h
          exact List.nodup_nil
      | cons a frontier => cases h
  | succ n ih =>
      cases frontier with
      | nil =>
          obtain rfl := Option.some.inj h
          exact List.nodup_nil
      | cons a frontier =>
          rw [visits] at h
          split at h
          · exact ih h
          · obtain ⟨l, hl, rfl⟩ := Option.map_eq_some_iff.mp h
            refine List.nodup_cons.mpr ⟨fun ha => ?_, ih hl⟩
            exact ((mem_visits_iff hl).mp ha).not_mem List.mem_cons_self

/-- Nothing is visited twice. -/
lemma nodup_visited (hnodes : ∀ a, a ∈ nodes) : (visited next nodes frontier traversed).Nodup :=
  nodup_visits (visits_eq_visited hnodes)

end Traversal

import Mathlib.Tactic

/-!
A tree of half-open intervals with data, as the set of its intervals: what an interval tree
answers, apart from how it finds it. A set is a list without repetitions.

* `add`: an interval has to be nonempty (`none` otherwise), and one that is present already is
  not added again.
* `overlap`, `removeOverlap`: the intervals that overlap `[b, e)`, and the tree without them.
-/

/-- An interval `[first, last)` with its data. -/
structure TreeInterval (δ : Type*) where
  first : ℕ
  last : ℕ
  data : δ
deriving DecidableEq

/-- The intervals of a tree. -/
abbrev IntervalTree (δ : Type*) := List (TreeInterval δ)

namespace IntervalTree

variable {δ : Type*}

/-- The interval overlaps `[b, e)`. -/
def Overlaps (i : TreeInterval δ) (b e : ℕ) : Prop := b < e ∧ i.first < e ∧ b < i.last

instance (i : TreeInterval δ) (b e : ℕ) : Decidable (Overlaps i b e) :=
  inferInstanceAs (Decidable (_ ∧ _))

/-- The intervals that overlap `[b, e)`. -/
def overlap (t : IntervalTree δ) (b e : ℕ) : IntervalTree δ :=
  t.filter fun i => decide (Overlaps i b e)

/-- The tree without the intervals that overlap `[b, e)`. -/
def removeOverlap (t : IntervalTree δ) (b e : ℕ) : IntervalTree δ :=
  t.filter fun i => !decide (Overlaps i b e)

lemma overlap_append_removeOverlap (t : IntervalTree δ) (b e : ℕ) :
    (overlap t b e ++ removeOverlap t b e).Perm t := List.filter_append_perm _ t

lemma overlap_ne_nil_iff {t : IntervalTree δ} {b e : ℕ} :
    overlap t b e ≠ [] ↔ ∃ i ∈ t, Overlaps i b e := by
  rw [overlap, Ne, List.filter_eq_nil_iff]
  simp

variable [DecidableEq δ]

/-- Adding an interval. -/
def add (t : IntervalTree δ) (b e : ℕ) (d : δ) : Option (IntervalTree δ) :=
  if e ≤ b then none
  else if ⟨b, e, d⟩ ∈ t then some t
  else some (⟨b, e, d⟩ :: t)

lemma exists_add {t : IntervalTree δ} {b e : ℕ} (d : δ) (h : b < e) :
    ∃ t', add t b e d = some t' ∧ ∀ i, i ∈ t' ↔ i = ⟨b, e, d⟩ ∨ i ∈ t := by
  rw [add, if_neg (by omega)]
  split_ifs with hmem
  · refine ⟨t, rfl, fun i => ⟨.inr, ?_⟩⟩
    rintro (rfl | hi)
    · exact hmem
    · exact hi
  · exact ⟨_, rfl, fun i => List.mem_cons⟩

/-- An interval with new data is added. -/
lemma add_of_new {t : IntervalTree δ} {b e : ℕ} {d : δ} (h : b < e)
    (hd : ∀ i ∈ t, i.data ≠ d) : add t b e d = some (⟨b, e, d⟩ :: t) := by
  rw [add, if_neg (by omega), if_neg]
  exact fun hmem => hd _ hmem rfl

end IntervalTree

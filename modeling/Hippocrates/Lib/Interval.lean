import Mathlib.Data.Set.Finite.Lattice
import Mathlib.Logic.Relation
import Mathlib.Order.Interval.Set.LinearOrder
import Mathlib.Tactic

/-!
Merging half-open intervals of a linear order.

An interval is the pair of its endpoints. Two intervals touch (`Touch`) if they overlap or
are adjacent, and then their hull has no gap (`mem_hull`). A merge (`Merged`) of a family
keeps one accumulated interval, the union of a part of the family, and the rest of the family
apart; it is `Saturated` when nothing of the rest touches the accumulated interval.

`Merged.subset_of_cover`: once a merge is saturated, an interval that meets the accumulated
one and is covered by the family lies inside the accumulated one. So a saturated merge
decides coverage by a comparison of endpoints (`Merged.cover_iff`).

`Merged.mem_iff_linked`: the accumulated interval of a saturated merge is the union of one
connected component of the family, for the relation of touching (`Linked`).
-/

namespace Interval

variable {α : Type*} [LinearOrder α]

/-- The points of the interval. -/
def pts (a : α × α) : Set α := Set.Ico a.1 a.2

/-- The intervals overlap or are adjacent. -/
def Touch (a b : α × α) : Prop := a.1 ≤ b.2 ∧ b.1 ≤ a.2

/-- The least interval containing both. -/
def hull (a b : α × α) : α × α := (min a.1 b.1, max a.2 b.2)

/-- Two intervals that touch leave no gap in their hull. -/
lemma mem_hull {a b : α × α} (h : Touch a b) {x : α} :
    x ∈ pts (hull a b) ↔ x ∈ pts a ∨ x ∈ pts b := by
  have hu : Set.Ico a.1 a.2 ∪ Set.Ico b.1 b.2 = Set.Ico (min a.1 b.1) (max a.2 b.2) :=
    Set.Ico_union_Ico' h.2 h.1
  rw [pts, pts, pts, hull, ← hu]
  exact Iff.rfl

/-- Nothing of `rest` touches `acc`. -/
def Saturated (acc : α × α) (rest : List (α × α)) : Prop := ∀ b ∈ rest, ¬ Touch acc b

/-- `acc` is the union of a nonempty part of the family `seen`, `rest` the other part. -/
def Merged (seen : List (α × α)) (acc : α × α) (rest : List (α × α)) : Prop :=
  ∃ added, seen.Perm (added ++ rest) ∧ added ≠ [] ∧ ∀ x, x ∈ pts acc ↔ ∃ a ∈ added, x ∈ pts a

namespace Merged

variable {seen rest : List (α × α)} {acc : α × α}

/-- The merge of a single interval. -/
lemma single (a : α × α) : Merged [a] a [] :=
  ⟨[a], List.Perm.refl _, by simp, fun x => by simp⟩

/-- An interval set aside. -/
lemma aside (h : Merged seen acc rest) (b : α × α) : Merged (b :: seen) acc (rest ++ [b]) := by
  obtain ⟨added, hperm, hne, hmem⟩ := h
  refine ⟨added, ?_, hne, hmem⟩
  rw [← List.append_assoc]
  exact (hperm.cons b).trans (List.perm_append_singleton b _).symm

/-- An interval of the rest that touches the accumulated one is absorbed. -/
lemma absorb (h : Merged seen acc rest) {b : α × α} {rest' : List (α × α)}
    (hrest : rest.Perm (b :: rest')) (ht : Touch acc b) : Merged seen (hull acc b) rest' := by
  obtain ⟨added, hperm, hne, hmem⟩ := h
  refine ⟨b :: added, ?_, by simp, fun x => ?_⟩
  · exact (hperm.trans (hrest.append_left added)).trans List.perm_middle
  · rw [mem_hull ht, hmem]
    simp [or_comm]

/-- A new interval that touches the accumulated one is absorbed at once. -/
lemma absorb_new (h : Merged seen acc rest) {b : α × α} (ht : Touch acc b) :
    Merged (b :: seen) (hull acc b) rest :=
  (h.aside b).absorb (List.perm_append_singleton b rest) ht

/-- The points of the accumulated interval come from the family. -/
lemma exists_of_mem (h : Merged seen acc rest) {x : α} (hx : x ∈ pts acc) :
    ∃ a ∈ seen, x ∈ pts a := by
  obtain ⟨added, hperm, -, hmem⟩ := h
  obtain ⟨a, ha, hxa⟩ := (hmem x).mp hx
  exact ⟨a, hperm.mem_iff.mpr (List.mem_append_left rest ha), hxa⟩

/-- A point of the family outside the accumulated interval lies in the rest. -/
lemma exists_rest_of_notMem (h : Merged seen acc rest) {x : α} (hx : x ∉ pts acc)
    (hs : ∃ a ∈ seen, x ∈ pts a) : ∃ b ∈ rest, x ∈ pts b := by
  obtain ⟨added, hperm, -, hmem⟩ := h
  obtain ⟨a, ha, hxa⟩ := hs
  rcases List.mem_append.mp (hperm.mem_iff.mp ha) with ha | ha
  · exact absurd ((hmem x).mpr ⟨a, ha, hxa⟩) hx
  · exact ⟨a, ha, hxa⟩

/-- If every interval of the family meets `t`, so does the accumulated one. -/
lemma exists_meet (h : Merged seen acc rest) {t : α × α}
    (hmeet : ∀ a ∈ seen, ∃ x ∈ pts t, x ∈ pts a) : ∃ x ∈ pts t, x ∈ pts acc := by
  obtain ⟨added, hperm, hne, hmem⟩ := h
  obtain ⟨a, ha⟩ := List.exists_mem_of_ne_nil added hne
  obtain ⟨x, hxt, hxa⟩ := hmeet a (hperm.mem_iff.mpr (List.mem_append_left rest ha))
  exact ⟨x, hxt, (hmem x).mpr ⟨a, ha, hxa⟩⟩

end Merged

/-- Above `s`, the intervals of a finite list that end below `t` all end by some `g < t`. -/
lemma exists_last_end (rest : List (α × α)) {s t : α} (hs : s < t) :
    ∃ g, s ≤ g ∧ g < t ∧ ∀ b ∈ rest, b.2 < t → b.2 ≤ g := by
  induction rest with
  | nil => exact ⟨s, le_rfl, hs, by simp⟩
  | cons b rest ih =>
      obtain ⟨g, hsg, hg, hrest⟩ := ih
      rcases lt_or_ge b.2 t with hlt | hge
      · refine ⟨max g b.2, hsg.trans (le_max_left _ _), max_lt hg hlt, ?_⟩
        intro c hc hct
        rcases List.mem_cons.mp hc with rfl | hc
        · exact le_max_right _ _
        · exact (hrest c hc hct).trans (le_max_left _ _)
      · refine ⟨g, hsg, hg, ?_⟩
        intro c hc hct
        rcases List.mem_cons.mp hc with rfl | hc
        · exact absurd hct (not_lt.mpr hge)
        · exact hrest c hc hct

/-- **Coverage by a saturated merge**: an interval that meets the accumulated one and is
covered by the family lies inside the accumulated one. -/
theorem Merged.subset_of_cover {seen rest : List (α × α)} {acc t : α × α}
    (h : Merged seen acc rest) (hsat : Saturated acc rest)
    (hmeet : ∃ x ∈ pts t, x ∈ pts acc) (hcov : ∀ x ∈ pts t, ∃ a ∈ seen, x ∈ pts a) :
    acc.1 ≤ t.1 ∧ t.2 ≤ acc.2 := by
  obtain ⟨y, hyt, hya⟩ := hmeet
  have hacc : acc.1 < acc.2 := hya.1.trans_lt hya.2
  constructor
  · by_contra hlt
    rw [not_le] at hlt
    -- a point of `t` just below `acc`, past the end of everything that ends below `acc`
    obtain ⟨g, htg, hg, hends⟩ := exists_last_end rest hlt
    have hgt : g ∈ pts t := ⟨htg, (hg.trans_le hya.1).trans hyt.2⟩
    obtain ⟨b, hb, hgb⟩ := h.exists_rest_of_notMem (fun hx => absurd hx.1 (not_le.mpr hg))
      (hcov g hgt)
    refine hsat b hb ⟨?_, (hgb.1.trans_lt (hg.trans hacc)).le⟩
    by_contra hend
    rw [not_le] at hend
    exact absurd hgb.2 (not_lt.mpr (hends b hb hend))
  · by_contra hlt
    rw [not_le] at hlt
    have hgt : acc.2 ∈ pts t := ⟨(hyt.1.trans_lt hya.2).le, hlt⟩
    obtain ⟨b, hb, hgb⟩ := h.exists_rest_of_notMem (fun hx => absurd hx.2 (lt_irrefl _))
      (hcov acc.2 hgt)
    exact hsat b hb ⟨(hacc.trans hgb.2).le, hgb.1⟩

/-- A saturated merge of intervals that all meet `t` contains `t` exactly when the family
covers `t`. -/
theorem Merged.cover_iff {seen rest : List (α × α)} {acc t : α × α}
    (h : Merged seen acc rest) (hsat : Saturated acc rest)
    (hmeet : ∀ a ∈ seen, ∃ x ∈ pts t, x ∈ pts a) :
    (acc.1 ≤ t.1 ∧ t.2 ≤ acc.2) ↔ ∀ x ∈ pts t, ∃ a ∈ seen, x ∈ pts a := by
  constructor
  · intro hin x hx
    exact h.exists_of_mem ⟨hin.1.trans hx.1, hx.2.trans_le hin.2⟩
  · exact h.subset_of_cover hsat (h.exists_meet hmeet)

/-! ### Connected components -/

/-- The intervals are connected by intervals of the family that touch one after the other. -/
def Linked (seen : List (α × α)) : α × α → α × α → Prop :=
  Relation.ReflTransGen fun a b => a ∈ seen ∧ b ∈ seen ∧ Touch a b

lemma Touch.symm {a b : α × α} (h : Touch a b) : Touch b a := And.symm h

lemma Linked.symm {seen : List (α × α)} {a b : α × α} (h : Linked seen a b) : Linked seen b a := by
  induction h with
  | refl => exact Relation.ReflTransGen.refl
  | tail _ hbc ih => exact ih.head ⟨hbc.2.1, hbc.1, hbc.2.2.symm⟩

lemma Linked.mono {seen seen' : List (α × α)} (hsub : ∀ c ∈ seen, c ∈ seen') {a b : α × α}
    (h : Linked seen a b) : Linked seen' a b := by
  induction h with
  | refl => exact Relation.ReflTransGen.refl
  | tail _ hbc ih => exact ih.tail ⟨hsub _ hbc.1, hsub _ hbc.2.1, hbc.2.2⟩

/-- Two members of a family whose union is an interval are connected. -/
lemma linked_of_union {added : List (α × α)} {acc a b : α × α} (hne : ∀ c ∈ added, c.1 < c.2)
    (hmem : ∀ x, x ∈ pts acc ↔ ∃ c ∈ added, x ∈ pts c) (ha : a ∈ added) (hb : b ∈ added) :
    Linked added a b := by
  wlog hab : a.1 ≤ b.1 generalizing a b
  · exact (this hb ha (le_of_not_ge hab)).symm
  -- of the members connected with `a` that start before `b`, the one that ends last
  let S : Set (α × α) := {c | c ∈ added ∧ Linked added a c ∧ c.1 ≤ b.1}
  have hfin : S.Finite := (List.finite_toSet added).subset fun c hc => hc.1
  obtain ⟨g, ⟨hg, hag, hgb⟩, hmax⟩ :=
    Set.exists_max_image S Prod.snd hfin ⟨a, ha, Relation.ReflTransGen.refl, hab⟩
  have hglt := hne g hg
  by_cases hreach : b.1 ≤ g.2
  · exact hag.tail ⟨hg, hb, hgb.trans (hne b hb).le, hreach⟩
  · -- the end of `g` lies in the union, in a member that would end later
    rw [not_le] at hreach
    have hgacc : g.1 ∈ pts acc := (hmem g.1).mpr ⟨g, hg, le_rfl, hglt⟩
    have hbacc : b.1 ∈ pts acc := (hmem b.1).mpr ⟨b, hb, le_rfl, hne b hb⟩
    obtain ⟨d, hd, hd1, hd2⟩ :=
      (hmem g.2).mp ⟨hgacc.1.trans hglt.le, hreach.trans hbacc.2⟩
    have had : Linked added a d := hag.tail ⟨hg, hd, (hglt.trans hd2).le, hd1⟩
    exact absurd hd2 (not_lt.mpr (hmax d ⟨hd, had, hd1.trans hreach.le⟩))

/-- A nonempty interval inside another has its endpoints. -/
lemma endpoints_of_subset {a acc : α × α} (hne : a.1 < a.2) (hsub : ∀ x ∈ pts a, x ∈ pts acc) :
    acc.1 ≤ a.1 ∧ a.2 ≤ acc.2 := by
  have ha1 := hsub a.1 ⟨le_rfl, hne⟩
  refine ⟨ha1.1, by_contra fun hlt => ?_⟩
  rw [not_le] at hlt
  exact absurd (hsub acc.2 ⟨ha1.2.le, hlt⟩).2 (lt_irrefl _)

/-- **A saturated merge is a connected component**: its accumulated interval is the union of the
intervals connected with any of the family that it contains. -/
theorem Merged.mem_iff_linked {seen rest : List (α × α)} {acc first : α × α}
    (h : Merged seen acc rest) (hsat : Saturated acc rest) (hne : ∀ c ∈ seen, c.1 < c.2)
    (hfirst : first ∈ seen) (hin : first.1 ∈ pts acc) {x : α} :
    x ∈ pts acc ↔ ∃ a ∈ seen, Linked seen first a ∧ x ∈ pts a := by
  obtain ⟨added, hperm, -, hmem⟩ := h
  have hseen : ∀ c ∈ added, c ∈ seen := fun c hc =>
    hperm.mem_iff.mpr (List.mem_append_left rest hc)
  have hadded : ∀ c ∈ seen, Touch acc c → c ∈ added := fun c hc ht =>
    (List.mem_append.mp (hperm.mem_iff.mp hc)).resolve_right fun hr => hsat c hr ht
  have hfirst' : first ∈ added :=
    hadded first hfirst ⟨hin.1.trans (hne first hfirst).le, hin.2.le⟩
  constructor
  · intro hx
    obtain ⟨a, ha, hxa⟩ := (hmem x).mp hx
    have hlink := linked_of_union (fun c hc => hne c (hseen c hc)) hmem hfirst' ha
    exact ⟨a, hseen a ha, hlink.mono hseen, hxa⟩
  · rintro ⟨a, -, hlink, hxa⟩
    -- what is linked with the first has been added, as nothing that was left touches the sum
    have ha : a ∈ added := by
      clear hxa
      induction hlink with
      | refl => exact hfirst'
      | @tail b c _ hbc ih =>
          obtain ⟨hb, hc, ht⟩ := hbc
          obtain ⟨h1, h2⟩ := endpoints_of_subset (hne b hb) fun y hy => (hmem y).mpr ⟨b, ih, hy⟩
          exact hadded c hc ⟨h1.trans ht.1, ht.2.trans h2⟩
    exact (hmem x).mpr ⟨a, ha, hxa⟩

end Interval

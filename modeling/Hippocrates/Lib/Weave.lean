import Mathlib.Data.List.Flatten
import Mathlib.Tactic

/-!
Lists into which new elements are woven.

`Weave R N l l'`: the list `l'` consists of the elements of `l` in their order, each changed as
the relation `R` allows, and of new elements that satisfy `N`.

* `Weave.refl`, `Weave.trans`: weaving is a preorder if `R` is one.
* `Weave.append`, `Weave.flatMap`: one list after another, and an element replaced by a successor
  and new elements after it.
* `Weave.of_sublist`: a list of new elements has its sublists woven into it.
* `Weave.split`: what stands before and after an element.
* `Weave.takeWhile`: if new elements satisfy a test, and `R` does not change those
  that do, the initial run of those that satisfy it only grows.
-/

/-- A list with new elements woven into it. -/
inductive Weave {α : Type*} (R : α → α → Prop) (N : α → Prop) : List α → List α → Prop
  | nil : Weave R N [] []
  | keep {a a' : α} {l l' : List α} (h : R a a') (hl : Weave R N l l') :
      Weave R N (a :: l) (a' :: l')
  | new {a' : α} {l l' : List α} (h : N a') (hl : Weave R N l l') : Weave R N l (a' :: l')

namespace Weave

variable {α : Type*} {R : α → α → Prop} {N : α → Prop} {l l' l'' : List α}

lemma refl (h : ∀ a ∈ l, R a a) : Weave R N l l := by
  induction l with
  | nil => exact .nil
  | cons a l ih =>
      rw [List.forall_mem_cons] at h
      exact .keep h.1 (ih h.2)

/-- Two weavings one after the other. -/
lemma trans (hR : ∀ a b c, R a b → R b c → R a c) (hN : ∀ a b, N a → R a b → N b)
    (h : Weave R N l l') (h' : Weave R N l' l'') : Weave R N l l'' := by
  induction h' generalizing l with
  | nil => exact h
  | new hnew _ ih => exact .new hnew (ih h)
  | keep hbc _ ih =>
      cases h with
      | keep hab hl => exact .keep (hR _ _ _ hab hbc) (ih hl)
      | new hnew hl => exact .new (hN _ _ hnew hbc) (ih hl)

lemma of_new {new : List α} (hnew : ∀ a ∈ new, N a) (h : Weave R N l l') :
    Weave R N l (new ++ l') := by
  induction new with
  | nil => exact h
  | cons a new ih =>
      rw [List.forall_mem_cons] at hnew
      exact .new hnew.1 (ih hnew.2)

lemma append {p p' : List α} (hp : Weave R N p p') (h : Weave R N l l') :
    Weave R N (p ++ l) (p' ++ l') := by
  induction hp with
  | nil => exact h
  | keep hR _ ih => exact .keep hR ih
  | new hN _ ih => exact .new hN ih

lemma of_sublist (hR : ∀ a ∈ l, R a a) (hN : ∀ a ∈ l', N a) (h : l.Sublist l') :
    Weave R N l l' := by
  induction h with
  | slnil => exact .nil
  | cons a _ ih =>
      rw [List.forall_mem_cons] at hN
      exact .new hN.1 (ih hR hN.2)
  | cons_cons a _ ih =>
      rw [List.forall_mem_cons] at hR hN
      exact .keep hR.1 (ih hR.2 hN.2)

/-- Every element is replaced by one that `R` allows, with new ones after it. -/
lemma flatMap {F : α → List α} (h : ∀ a ∈ l, ∃ a' new, F a = a' :: new ∧ R a a' ∧ ∀ b ∈ new, N b) :
    Weave R N l (l.flatMap F) := by
  induction l with
  | nil => exact .nil
  | cons a l ih =>
      rw [List.forall_mem_cons] at h
      obtain ⟨a', new, hF, ha, hnew⟩ := h.1
      rw [List.flatMap_cons, hF, List.cons_append]
      exact .keep ha (.of_new hnew (ih h.2))

/-- An element, and what stands before and after it. -/
lemma split {a : α} {p q : List α} (h : Weave R N (p ++ a :: q) l') :
    ∃ p' a' q', l' = p' ++ a' :: q' ∧ R a a' ∧ Weave R N p p' ∧ Weave R N q q' := by
  generalize hl : p ++ a :: q = l at h
  induction h generalizing p with
  | nil => exact absurd hl (by simp)
  | @new b l l' hb _ ih =>
      obtain ⟨p', a', q', rfl, ha, hp, hq⟩ := ih hl
      exact ⟨b :: p', a', q', rfl, ha, .new hb hp, hq⟩
  | @keep c c' l l' hc hrest ih =>
      cases p with
      | nil =>
          obtain ⟨rfl, rfl⟩ := List.cons.inj hl
          exact ⟨[], c', l', rfl, hc, .nil, hrest⟩
      | cons d p =>
          obtain ⟨rfl, htail⟩ := List.cons.inj hl
          obtain ⟨p', a', q', rfl, ha, hp, hq⟩ := ih htail
          exact ⟨c' :: p', a', q', rfl, ha, .keep hc hp, hq⟩

section Test

variable {p : α → Bool} (hnew : ∀ a, N a → p a = true)
  (hkeep : ∀ a a', R a a' → p a = true → a' = a)
include hnew hkeep

/-- The initial run of elements that satisfy the test grows. -/
lemma takeWhile (h : Weave R N l l') : (l.takeWhile p).Sublist (l'.takeWhile p) := by
  induction h with
  | nil => exact .slnil
  | new ha _ ih =>
      rw [List.takeWhile_cons, if_pos (hnew _ ha)]
      exact ih.cons _
  | @keep a a' _ _ ha _ ih =>
      by_cases hp : p a = true
      · obtain rfl := hkeep a a' ha hp
        rw [List.takeWhile_cons, List.takeWhile_cons, if_pos hp, if_pos hp]
        exact ih.cons_cons _
      · rw [List.takeWhile_cons, if_neg hp]
        exact List.nil_sublist _

end Test

end Weave

import Mathlib.Tactic
import Hippocrates.Report.Optimize

/-!
What the fourth pass of `BugReport._optimize` keeps.

* `DropsFences`: a trace without some of its fences.
* `KeepsSeparations`: moreover, events that a fence separates are still separated by one, and no
  others. The events are stores and flushes, and assertions after them.
* `prevAfter`: the variable `prev_te` of the loop. From a store or a flush on it is no fence until
  the first fence after it, so this fence is kept; the assertions in between do not count.

`removeFences_keepsSeparations`: the pass drops fences only, and keeps all separations.
-/

namespace Hippocrates

open TraceEvent.EventType TraceEvent

namespace BugReport

/-- The second trace is the first without some of its fences. -/
inductive DropsFences : List TraceEvent → List TraceEvent → Prop
  | nil : DropsFences [] []
  | keep {t t' : List TraceEvent} (te : TraceEvent) (h : DropsFences t t') :
      DropsFences (te :: t) (te :: t')
  | drop {t t' : List TraceEvent} {te : TraceEvent} (hf : te.type = FENCE) (h : DropsFences t t') :
      DropsFences (te :: t) t'

/-- There is a fence in the trace. -/
def HasFence (t : List TraceEvent) : Prop := ∃ f ∈ t, f.type = FENCE

/-- A store or a flush. -/
def IsAccess (te : TraceEvent) : Prop := te.type = STORE ∨ te.type = FLUSH

/-- Fences are dropped, and between an access and a later access or assertion there is a fence if
and only if there was one. -/
structure KeepsSeparations (t t' : List TraceEvent) : Prop where
  drops : DropsFences t t'
  separated : ∀ p a mid b q, t = p ++ a :: (mid ++ b :: q) → IsAccess a →
    IsAccess b ∨ isBug b = true → ∃ p' mid' q', t' = p' ++ a :: (mid' ++ b :: q') ∧
      DropsFences p p' ∧ DropsFences mid mid' ∧ DropsFences q q' ∧ (HasFence mid' ↔ HasFence mid)

/-- `prev_te`, after the events. -/
def prevAfter (bugs : List TraceEvent) : Option TraceEvent → List TraceEvent → Option TraceEvent
  | prev_te, [] => prev_te
  | prev_te, te :: rest =>
    if te ∈ bugs then prevAfter bugs prev_te rest
    else if te.type = FENCE ∧ prev_te.map TraceEvent.type = some FENCE then
      prevAfter bugs prev_te rest
    else prevAfter bugs (some te) rest

section Pass

variable {bugs p q t : List TraceEvent} {prev : Option TraceEvent} {te : TraceEvent}

lemma removeFences_append : removeFences bugs prev (p ++ q) =
    removeFences bugs prev p ++ removeFences bugs (prevAfter bugs prev p) q := by
  induction p generalizing prev with
  | nil => rfl
  | cons te p ih =>
      rw [List.cons_append, removeFences, removeFences, prevAfter]
      split_ifs
      · rw [ih, List.cons_append]
      · exact ih
      · rw [ih, List.cons_append]

lemma removeFences_drops (bugs : List TraceEvent) (prev : Option TraceEvent)
    (t : List TraceEvent) : DropsFences t (removeFences bugs prev t) := by
  induction t generalizing prev with
  | nil => exact .nil
  | cons te t ih =>
      rw [removeFences]
      split_ifs with hbug hfence
      · exact .keep te (ih prev)
      · exact .drop hfence.1 (ih prev)
      · exact .keep te (ih (some te))

lemma IsAccess.type_ne (h : IsAccess te) : te.type ≠ FENCE := by
  rcases h with h | h <;> rw [h] <;> decide

lemma IsAccess.isBug_eq (h : IsAccess te) : isBug te = false := by
  rcases h with h | h <;> rw [isBug, h] <;> rfl

lemma type_ne_of_isBug (h : isBug te = true) : te.type ≠ FENCE := by
  intro hf
  rw [isBug, hf] at h
  exact absurd h (by decide)

/-- An event that is no fence is kept; an assertion leaves `prev_te` as it is. -/
lemma removeFences_cons (bugs : List TraceEvent) (prev : Option TraceEvent) (t : List TraceEvent)
    (hte : te.type ≠ FENCE) :
    ∃ prev', removeFences bugs prev (te :: t) = te :: removeFences bugs prev' t ∧
      (prev' = some te ∨ te ∈ bugs ∧ prev' = prev) := by
  rw [removeFences]
  split_ifs with hbug hfence
  · exact ⟨prev, rfl, .inr ⟨hbug, rfl⟩⟩
  · exact absurd hfence.1 hte
  · exact ⟨some te, rfl, .inl rfl⟩

lemma DropsFences.hasFence {t' : List TraceEvent} (h : DropsFences t t') (hf : HasFence t') :
    HasFence t := by
  induction h with
  | nil => exact hf
  | keep te _ ih =>
      obtain ⟨f, hmem, hfence⟩ := hf
      rcases List.mem_cons.mp hmem with rfl | hmem
      · exact ⟨f, List.mem_cons_self, hfence⟩
      · obtain ⟨g, hg, hfence'⟩ := ih ⟨f, hmem, hfence⟩
        exact ⟨g, List.mem_cons_of_mem te hg, hfence'⟩
  | drop hfence _ _ => exact ⟨_, List.mem_cons_self, hfence⟩

/-- While `prev_te` is no fence, the next fence is kept. -/
lemma hasFence_removeFences (hbugs : ∀ b ∈ bugs, b.type ≠ FENCE)
    (hprev : prev.map TraceEvent.type ≠ some FENCE) (hf : HasFence t) :
    HasFence (removeFences bugs prev t) := by
  induction t generalizing prev with
  | nil => exact hf
  | cons te t ih =>
      obtain ⟨f, hmem, hfence⟩ := hf
      by_cases hte : te.type = FENCE
      · have hbug : te ∉ bugs := fun h => hbugs te h hte
        rw [removeFences, if_neg hbug, if_neg fun h => hprev h.2]
        exact ⟨te, List.mem_cons_self, hte⟩
      · have hrest : HasFence t := by
          rcases List.mem_cons.mp hmem with rfl | hmem
          · exact absurd hfence hte
          · exact ⟨f, hmem, hfence⟩
        obtain ⟨prev', heq, hcases⟩ := removeFences_cons bugs prev t hte
        -- neither an assertion nor another event makes `prev_te` a fence
        have hprev' : prev'.map TraceEvent.type ≠ some FENCE := by
          rcases hcases with rfl | ⟨-, rfl⟩
          · exact fun h => hte (Option.some.inj h)
          · exact hprev
        obtain ⟨g, hg, hfence'⟩ := ih hprev' hrest
        rw [heq]
        exact ⟨g, List.mem_cons_of_mem te hg, hfence'⟩

end Pass

/-- **Fence removal keeps every separation**, whatever events the assertions have been taken
from. -/
theorem removeFences_keepsSeparations (trace t : List TraceEvent) :
    KeepsSeparations t (removeFences (getBugs trace) none t) where
  drops := removeFences_drops _ _ _
  separated := by
    rintro p a mid b q rfl ha hb
    have hbugs : ∀ e ∈ getBugs trace, isBug e = true := fun e he => (List.mem_filter.mp he).2
    have hb' : b.type ≠ FENCE := hb.elim IsAccess.type_ne type_ne_of_isBug
    obtain ⟨prev₁, heq₁, hprev₁⟩ := removeFences_cons (getBugs trace)
      (prevAfter (getBugs trace) none p) (mid ++ b :: q) ha.type_ne
    obtain ⟨prev₂, heq₂, -⟩ := removeFences_cons (getBugs trace)
      (prevAfter (getBugs trace) prev₁ mid) q hb'
    -- the access is no assertion, so it is `prev_te` after it
    have hprev : prev₁.map TraceEvent.type ≠ some FENCE := by
      rcases hprev₁ with rfl | ⟨hmem, -⟩
      · exact fun h => ha.type_ne (Option.some.inj h)
      · exact absurd (hbugs a hmem) (by simp [ha.isBug_eq])
    have hdrops := removeFences_drops (getBugs trace) prev₁ mid
    refine ⟨removeFences (getBugs trace) none p, removeFences (getBugs trace) prev₁ mid,
      removeFences (getBugs trace) prev₂ q, ?_, removeFences_drops _ _ _, hdrops,
      removeFences_drops _ _ _, hdrops.hasFence, hasFence_removeFences
        (fun e he => type_ne_of_isBug (hbugs e he)) hprev⟩
    rw [removeFences_append, heq₁, removeFences_append, heq₂]

end BugReport

end Hippocrates

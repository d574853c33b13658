import Mathlib.Order.Basic
import Mathlib.Tactic

/-!
Flags that tell whether something has changed.

A run that collects the flags of its steps tells the truth about the whole if no step can undo what
another has done. This is so when every part that a step changes gets a greater weight.

* `Tells`: from one state to the next the parts stay as they are or get heavier, and the flag says
  whether a part did.
* `Tells.trans`: steps one after the other, with the disjunction of their flags.
-/

namespace ChangeFlag

variable {σ κ β γ : Type*} [Preorder γ]

/-- The parts `part s k`, for `k` in `K`, stay or get heavier, and `changed` says whether one
did. -/
structure Tells (part : σ → κ → β) (weight : β → γ) (K : Set κ) (s s' : σ) (changed : Bool) :
    Prop where
  grows : ∀ k ∈ K, part s' k = part s k ∨ weight (part s k) < weight (part s' k)
  flag : changed = true ↔ ∃ k ∈ K, part s' k ≠ part s k

section

variable {part : σ → κ → β} {weight : β → γ} {K : Set κ} {s s' s'' : σ} {changed changed' : Bool}

/-- Nothing in `K` has changed. -/
lemma Tells.of_eq (h : ∀ k ∈ K, part s' k = part s k) : Tells part weight K s s' false := by
  refine ⟨fun k hk => .inl (h k hk), iff_of_false Bool.false_ne_true ?_⟩
  rintro ⟨k, hk, hne⟩
  exact hne (h k hk)

lemma Tells.refl (s : σ) : Tells part weight K s s false := .of_eq fun _ _ => rfl

/-- A part in `K` has become heavier. -/
lemma Tells.of_lt (h : ∀ k ∈ K, part s' k = part s k ∨ weight (part s k) < weight (part s' k))
    {k : κ} (hk : k ∈ K) (hlt : weight (part s k) < weight (part s' k)) :
    Tells part weight K s s' true := by
  refine ⟨h, iff_of_true rfl ⟨k, hk, fun heq => ?_⟩⟩
  rw [heq] at hlt
  exact lt_irrefl _ hlt

/-- **Two steps**: nothing that one of them has done is undone by the other. -/
theorem Tells.trans (h : Tells part weight K s s' changed)
    (h' : Tells part weight K s' s'' changed') :
    Tells part weight K s s'' (changed || changed') := by
  -- the weight of a part that changes grows, so a second step does not bring it back
  have hgrows : ∀ k ∈ K, (part s' k = part s k ∧ part s'' k = part s' k) ∨
      weight (part s k) < weight (part s'' k) := by
    intro k hk
    rcases h.grows k hk with heq | hlt
    · rcases h'.grows k hk with heq' | hlt'
      · exact .inl ⟨heq, heq'⟩
      · exact .inr (heq ▸ hlt')
    · rcases h'.grows k hk with heq' | hlt'
      · rw [heq']
        exact .inr hlt
      · exact .inr (hlt.trans hlt')
  refine ⟨fun k hk => (hgrows k hk).imp_left fun heq => heq.2.trans heq.1, ?_⟩
  rw [Bool.or_eq_true, h.flag, h'.flag]
  constructor
  · intro hchanged
    rcases hchanged with ⟨k, hk, hne⟩ | ⟨k, hk, hne⟩
    · refine ⟨k, hk, fun heq => ?_⟩
      rcases hgrows k hk with hsame | hlt
      · exact hne hsame.1
      · exact absurd hlt (by rw [heq]; exact lt_irrefl _)
    · refine ⟨k, hk, fun heq => ?_⟩
      rcases hgrows k hk with hsame | hlt
      · exact hne hsame.2
      · exact absurd hlt (by rw [heq]; exact lt_irrefl _)
  · rintro ⟨k, hk, hne⟩
    -- what is different at the end was changed by one of the steps
    by_cases hfirst : part s' k = part s k
    · exact .inr ⟨k, hk, fun heq => hne (heq.trans hfirst)⟩
    · exact .inl ⟨k, hk, hfirst⟩

end

end ChangeFlag

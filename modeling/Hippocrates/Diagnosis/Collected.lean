import Mathlib.Tactic
import Hippocrates.Diagnosis.Scan

/-!
What the diagnosis of an assertion collects, in terms of the events that its scan reads back.

* `Completed`, `Window.flags`: what a window misses is told by its fences, and by whether its stores
  complete the range. `Window.unique`: one past has one window.
* `Meets`, `exists_collected_iff`: an assertion meets the operations its diagnosis collects.
* `ReadsBack`, `meets_iff`: the same without the flags of the diagnosis.
-/

namespace Hippocrates

open TraceEvent.EventType

/-- An assertion of persistency that failed. -/
def Failing (te : TraceEvent) : Prop := te.type = ASSERT_PERSISTED ∧ te.isBug = true

instance (te : TraceEvent) : Decidable (Failing te) := inferInstanceAs (Decidable (_ ∧ _))

/-! ### Windows -/

/-- The stores of `win` that overlap the range add up to one that contains it. -/
def Completed (R : AddressInfo) (win : List TraceEvent) : Prop :=
  ∃ acc, storeRanges R win ≠ [] ∧ sums R win = some acc ∧ acc.1.contains R = true

lemma OpenWindow.not_completed {R : AddressInfo} {win p : List TraceEvent} (h : OpenWindow R win)
    (hp : p <+: win) : ¬ Completed R p := by
  rintro ⟨acc, hne, hacc, hcov⟩
  obtain ⟨acc', hacc', hopen⟩ := h.unfinished p hp
  rw [hacc] at hacc'
  obtain rfl := Option.some.inj hacc'
  rw [hopen hne] at hcov
  cases hcov

/-- The flags of a window: a flush is missing behind a fence, or when the range is completed. -/
lemma Window.flags {clSz : ℕ} {R : AddressInfo} {older win : List TraceEvent} {mf mfe : Bool}
    (h : Window clSz R older win mf mfe) :
    mfe = !win.any isFence ∧ (mf = true ↔ win.any isFence = true ∨ Completed R win) := by
  cases h with
  | @store older win e a acc hwin h1 he hacc hcov =>
      have hfence : (win ++ [e]).any isFence = win.any isFence := by
        simp [isFence_of_storeRange he]
      have hne : storeRanges R (win ++ [e]) ≠ [] := by simp [storeRanges_snoc, he]
      exact ⟨by rw [hfence], by simp only [true_iff]; exact .inr ⟨acc, hne, hacc, hcov⟩⟩
  | @flush older win e a hwin h1 he hline hfence =>
      have hs : storeRange R e = none := by
        cases hs : storeRange R e with
        | none => rfl
        | some b => cases (flushRange_of_storeRange hs).symm.trans he
      -- a flush changes neither the sums nor the fences
      have hcompleted : Completed R (win ++ [e]) ↔ Completed R win := by
        have hsums : sums R (win ++ [e]) = sums R win := by
          rw [sums_snoc, hs]
          cases sums R win <;> rfl
        simp [Completed, hsums, storeRanges_snoc, hs]
      have hfence' : (win ++ [e]).any isFence = false := by
        have ht : e.addresses.isEmpty = false := by
          cases haddr : e.addresses with
          | nil => simp [flushRange, haddr] at he
          | cons b rest => rfl
        simp [hfence, isFence, ht]
      rw [hfence', hcompleted]
      simp [hwin.not_completed List.prefix_rfl]
  | start hwin => simp [hwin.not_completed List.prefix_rfl]

/-- A window does not go on in a longer one. -/
lemma Window.not_open {clSz : ℕ} {R : AddressInfo} {older win win' : List TraceEvent}
    {mf mfe : Bool} (h : Window clSz R older win mf mfe) (holder : older ≠ [])
    (hopen : OpenWindow R win') : ¬ win <+: win' := by
  intro hp
  cases h with
  | @store older win e a acc hwin h1 he hacc hcov =>
      have hne : storeRanges R (win ++ [e]) ≠ [] := by simp [storeRanges_snoc, he]
      exact hopen.not_completed hp ⟨acc, hne, hacc, hcov⟩
  | flush hwin h1 he hline hfence =>
      cases (hopen.noFlush _ (hp.subset (by simp))).symm.trans he
  | start hwin => exact holder rfl

/-- What a window reads but its last event is open. -/
lemma Window.open_of_concat {clSz : ℕ} {R : AddressInfo} {older win p : List TraceEvent}
    {e : TraceEvent} {mf mfe : Bool} (h : Window clSz R older win mf mfe) (heq : win = p ++ [e]) :
    OpenWindow R p := by
  cases h with
  | store hwin => exact (List.append_inj' heq rfl).1 ▸ hwin
  | flush hwin => exact (List.append_inj' heq rfl).1 ▸ hwin
  | start hwin => exact (heq ▸ hwin).of_append

/-- **One past has one window.** -/
lemma Window.unique {clSz : ℕ} {R : AddressInfo} {older win older' win' : List TraceEvent}
    {mf mfe mf' mfe' : Bool} (h : Window clSz R older win mf mfe)
    (h' : Window clSz R older' win' mf' mfe') (heq : win ++ older = win' ++ older') :
    win = win' := by
  -- the shorter of two would end within the longer, which is open there
  have hshort : ∀ {older win older' win' : List TraceEvent} {mf mfe mf' mfe' : Bool},
      Window clSz R older win mf mfe → Window clSz R older' win' mf' mfe' →
      win ++ older = win' ++ older' → win <+: win' → win = win' := by
    intro older win older' win' mf mfe mf' mfe' h h' heq hp
    by_contra hne
    obtain ⟨rest, rfl⟩ := hp
    have hrest : rest ≠ [] := by
      rintro rfl
      exact hne (List.append_nil win).symm
    obtain ⟨p, e, rfl⟩ := (List.eq_nil_or_concat rest).resolve_left hrest
    have holder : older ≠ [] := by
      rintro rfl
      simp at heq
    have hcat : win ++ p.concat e = win ++ p ++ [e] := by simp
    exact h.not_open holder (h'.open_of_concat hcat) (List.prefix_append win p)
  rcases List.prefix_or_prefix_of_prefix (List.prefix_append win older)
    (heq ▸ List.prefix_append win' older') with hp | hp
  · exact hshort h h' heq hp
  · exact (hshort h' h heq.symm hp).symm

/-! ### The operations that are collected -/

/-- In the window of the assertion `te` at `b`, which misses what the flags say, there is the
operation `op` on its range. -/
def Meets (clSz : ℕ) (t : List TraceEvent) (b : ℕ) (te : TraceEvent) (mf mfe : Bool)
    (op : TraceEvent) : Prop :=
  ∃ R win older, te.addresses.head? = some R ∧ past t b = win ++ older ∧
    Window clSz R older win mf mfe ∧ op ∈ win ∧ isRelevant R op = true

/-- From the assertion `te` at `b`, which is about the range `R`, the scan reads back `win`. -/
def ReadsBack (clSz : ℕ) (t : List TraceEvent) (b : ℕ) (te : TraceEvent) (R : AddressInfo)
    (win : List TraceEvent) : Prop :=
  te.addresses.head? = some R ∧
    ∃ older mf mfe, past t b = win ++ older ∧ Window clSz R older win mf mfe

/-- The event at the place of an element of the past. -/
lemma getElem?_of_past {t p q : List TraceEvent} {e : TraceEvent} {b : ℕ}
    (h : past t b = p ++ e :: q) : t[q.length]? = some e := by
  have htake : t.take b = q.reverse ++ e :: p.reverse := by
    rw [past, List.reverse_eq_iff] at h
    simpa using h
  have htrace : t = q.reverse ++ e :: (p.reverse ++ t.drop b) := calc
    t = t.take b ++ t.drop b := (List.take_append_drop b t).symm
    _ = q.reverse ++ e :: (p.reverse ++ t.drop b) := by simp [htake]
  rw [htrace, List.getElem?_append_right (by simp)]
  simp

/-- **What the diagnosis collects** is what the assertion meets in its window. -/
lemma exists_collected_iff {clSz : ℕ} {t : List TraceEvent} {te op : TraceEvent} {b : ℕ}
    {mf mfe : Bool} :
    (∃ d k, diagnose clSz t te b = some d ∧ k ∈ d.opIndices ∧ t[k]? = some op ∧
      d.missingFlush = mf ∧ d.missingFence = mfe) ↔ Meets clSz t b te mf mfe op := by
  constructor
  · rintro ⟨d, k, hd, hk, hop, rfl, rfl⟩
    obtain ⟨R, win, older, hR, hpast, hwin, hidx, -⟩ := diagnose_eq_some_iff.mp hd
    rw [hidx, mem_collected_iff] at hk
    obtain ⟨p, e, q, rfl, he, rfl⟩ := hk
    have hat := getElem?_of_past (p := p) (e := e) (q := q ++ older) (by simpa using hpast)
    rw [List.length_append, hop] at hat
    obtain rfl := Option.some.inj hat
    exact ⟨R, _, older, hR, hpast, hwin, by simp, he⟩
  · rintro ⟨R, win, older, hR, hpast, hwin, hmem, hrel⟩
    obtain ⟨p, q, rfl⟩ := List.append_of_mem hmem
    have hk : q.length + older.length ∈ collected R older.length (p ++ op :: q) :=
      mem_collected_iff.mpr ⟨p, op, q, rfl, hrel, rfl⟩
    have hat := getElem?_of_past (p := p) (e := op) (q := q ++ older) (by simpa using hpast)
    rw [List.length_append] at hat
    exact ⟨⟨mf, mfe, collected R older.length (p ++ op :: q)⟩, _,
      diagnose_eq_some_iff.mpr ⟨R, _, older, hR, hpast, hwin, rfl, List.ne_nil_of_mem hk⟩,
      hk, hat, rfl, rfl⟩

/-- What an assertion meets, and misses, in terms of what is read back from it. -/
lemma meets_iff {clSz : ℕ} {t : List TraceEvent} {te op : TraceEvent} {b : ℕ} {mf mfe : Bool} :
    Meets clSz t b te mf mfe op ↔ ∃ R win, ReadsBack clSz t b te R win ∧ op ∈ win ∧
      isRelevant R op = true ∧ mfe = !win.any isFence ∧
        (mf = true ↔ win.any isFence = true ∨ Completed R win) := by
  constructor
  · rintro ⟨R, win, older, hR, hpast, hwin, hop, hrel⟩
    exact ⟨R, win, ⟨hR, older, mf, mfe, hpast, hwin⟩, hop, hrel, hwin.flags⟩
  · rintro ⟨R, win, ⟨hR, older, mf', mfe', hpast, hwin⟩, hop, hrel, rfl, hmf⟩
    obtain ⟨rfl, hmf'⟩ := hwin.flags
    obtain rfl : mf' = mf := by rw [Bool.eq_iff_iff, hmf', hmf]
    exact ⟨R, win, older, hR, hpast, hwin, hop, hrel⟩

lemma ReadsBack.unique {clSz : ℕ} {t : List TraceEvent} {b : ℕ} {te : TraceEvent}
    {R R' : AddressInfo} {win win' : List TraceEvent} (h : ReadsBack clSz t b te R win)
    (h' : ReadsBack clSz t b te R' win') : R = R' ∧ win = win' := by
  obtain ⟨hR, older, mf, mfe, hpast, hwin⟩ := h
  obtain ⟨hR', older', mf', mfe', hpast', hwin'⟩ := h'
  obtain rfl := Option.some.inj (hR.symm.trans hR')
  exact ⟨rfl, hwin.unique hwin' (hpast.symm.trans hpast')⟩

end Hippocrates

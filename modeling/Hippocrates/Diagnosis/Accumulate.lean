import Mathlib.Tactic
import Hippocrates.Trace.AddressInfo

/-!
The accumulation of store ranges in `BugFixer::handleAssertPersisted`: `addrInfo`, the sum of
the ranges added so far, and `unadded`, the ranges that could not be added without a gap.

* `absorbFirst`: the inner `for` loop, one pass over `unadded`.
* `absorbAll`: the `while` loop around it.
* `accumulate`: the handling of one store range.

`accumulate_spec`, `accumulate_foldlM`: on well-formed ranges no assertion fails, and the pair is a
saturated merge (`Hippocrates.Lib.Interval`) of the ranges accumulated.
-/

namespace Hippocrates

open Interval

/-- The inner `for` loop: absorb the first range of `unadded` that can be added. The result
is `some none` if there is none, and `none` if an assertion fails. -/
def absorbFirst (addrInfo : AddressInfo) :
    List AddressInfo → Option (Option (AddressInfo × List AddressInfo))
  | [] => some none
  | u :: unadded =>
    match addrInfo.canAdd u with
    | none => none
    | some true => (addrInfo.addAssign u).map fun sum => some (sum, unadded)
    | some false =>
      (absorbFirst addrInfo unadded).map fun res =>
        res.map fun (sum, unadded') => (sum, u :: unadded')

/-- The `while` loop: absorb until nothing can be added. Every pass removes one range
(`assert(unadded.size() < sz)`), so as many passes as there are ranges are enough. -/
def absorbAll : ℕ → AddressInfo → List AddressInfo → Option (AddressInfo × List AddressInfo)
  | 0, addrInfo, unadded => some (addrInfo, unadded)
  | n + 1, addrInfo, unadded =>
    match absorbFirst addrInfo unadded with
    | none => none
    | some none => some (addrInfo, unadded)
    | some (some (sum, unadded')) => absorbAll n sum unadded'

/-- The handling of the range of one store. -/
def accumulate (addr : AddressInfo) (acc : AddressInfo × List AddressInfo) :
    Option (AddressInfo × List AddressInfo) :=
  match acc.1.canAdd addr with
  | none => none
  | some true =>
    (acc.1.addAssign addr).bind fun sum => absorbAll acc.2.length sum acc.2
  | some false => absorbAll (acc.2.length + 1) acc.1 (acc.2 ++ [addr])

/-- Nothing accumulated yet. -/
def noRange : AddressInfo × List AddressInfo := (AddressInfo.empty, [])

/-- `acc` accumulates the ranges `seen`, with no assertion pending: before the first range it
is `noRange`, afterwards a saturated merge of well-formed ranges. -/
def Accumulated (seen : List AddressInfo) (acc : AddressInfo × List AddressInfo) : Prop :=
  (seen = [] ∧ acc = noRange) ∨
    (acc.1.WellFormed ∧ (∀ u ∈ acc.2, u.WellFormed) ∧
      Merged (seen.map AddressInfo.ival) acc.1.ival (acc.2.map AddressInfo.ival) ∧
      Saturated acc.1.ival (acc.2.map AddressInfo.ival))

/-- A pass over well-formed ranges finds a range that touches the sum, or there is none. -/
lemma absorbFirst_spec {addrInfo : AddressInfo} {unadded : List AddressInfo}
    (hw : addrInfo.WellFormed) (hu : ∀ u ∈ unadded, u.WellFormed) :
    (absorbFirst addrInfo unadded = some none ∧
        Saturated addrInfo.ival (unadded.map AddressInfo.ival)) ∨
      ∃ u sum unadded', absorbFirst addrInfo unadded = some (some (sum, unadded')) ∧
        unadded.Perm (u :: unadded') ∧ Touch addrInfo.ival u.ival ∧ sum.WellFormed ∧
        sum.ival = hull addrInfo.ival u.ival := by
  induction unadded with
  | nil => exact .inl ⟨rfl, by simp [Saturated]⟩
  | cons u unadded ih =>
      have hwu := hu u List.mem_cons_self
      by_cases ht : Touch addrInfo.ival u.ival
      · obtain ⟨sum, hsum, hsumw, hsumi⟩ := AddressInfo.addAssign_eq hw hwu ht
        refine .inr ⟨u, sum, unadded, ?_, List.Perm.refl _, ht, hsumw, hsumi⟩
        simp [absorbFirst, AddressInfo.canAdd_eq hw hwu, ht, hsum]
      · rcases ih fun v hv => hu v (List.mem_cons_of_mem u hv) with
          ⟨hnone, hsat⟩ | ⟨v, sum, unadded', hsome, hperm, htv, hsumw, hsumi⟩
        · refine .inl ⟨by simp [absorbFirst, AddressInfo.canAdd_eq hw hwu, ht, hnone], ?_⟩
          simpa [Saturated, ht] using hsat
        · refine .inr ⟨v, sum, u :: unadded', ?_, ?_, htv, hsumw, hsumi⟩
          · simp [absorbFirst, AddressInfo.canAdd_eq hw hwu, ht, hsome]
          · exact (hperm.cons u).trans (List.Perm.swap v u unadded')

/-- With fuel for every range the `while` loop ends in a saturated merge. -/
lemma absorbAll_spec {seen : List (ℕ × ℕ)} {n : ℕ} {addrInfo : AddressInfo}
    {unadded : List AddressInfo} (hlen : unadded.length ≤ n) (hw : addrInfo.WellFormed)
    (hu : ∀ u ∈ unadded, u.WellFormed)
    (hm : Merged seen addrInfo.ival (unadded.map AddressInfo.ival)) :
    ∃ acc, absorbAll n addrInfo unadded = some acc ∧ acc.1.WellFormed ∧
      (∀ u ∈ acc.2, u.WellFormed) ∧ Merged seen acc.1.ival (acc.2.map AddressInfo.ival) ∧
      Saturated acc.1.ival (acc.2.map AddressInfo.ival) := by
  induction n generalizing addrInfo unadded with
  | zero =>
      obtain rfl : unadded = [] := List.length_eq_zero_iff.mp (Nat.le_zero.mp hlen)
      exact ⟨(addrInfo, []), rfl, hw, hu, hm, by simp [Saturated]⟩
  | succ n ih =>
      rcases absorbFirst_spec hw hu with
        ⟨hnone, hsat⟩ | ⟨u, sum, unadded', hsome, hperm, ht, hsumw, hsumi⟩
      · exact ⟨(addrInfo, unadded), by simp [absorbAll, hnone], hw, hu, hm, hsat⟩
      · have hlen' : unadded'.length ≤ n := by
          have := hperm.length_eq
          simp only [List.length_cons] at this
          omega
        have hu' : ∀ v ∈ unadded', v.WellFormed := fun v hv =>
          hu v (hperm.mem_iff.mpr (List.mem_cons_of_mem u hv))
        have hm' : Merged seen sum.ival (unadded'.map AddressInfo.ival) :=
          hsumi ▸ hm.absorb (hperm.map AddressInfo.ival) ht
        -- one range fewer is left, so the fuel is enough for the rest
        obtain ⟨acc, hacc, h⟩ := ih hlen' hsumw hu' hm'
        exact ⟨acc, by simp [absorbAll, hsome, hacc], h⟩

/-- **One store range is accumulated**, and no assertion fails. -/
theorem accumulate_spec {seen : List AddressInfo} {addr : AddressInfo}
    {acc : AddressInfo × List AddressInfo} (h : Accumulated seen acc) (haddr : addr.WellFormed) :
    ∃ acc', accumulate addr acc = some acc' ∧ acc'.1.WellFormed ∧
      Accumulated (addr :: seen) acc' := by
  rcases h with ⟨rfl, rfl⟩ | ⟨hw, hu, hm, hsat⟩
  · refine ⟨(addr, []), rfl, haddr, .inr ⟨haddr, by simp, ?_, by simp [Saturated]⟩⟩
    exact Merged.single addr.ival
  · by_cases ht : Touch acc.1.ival addr.ival
    · obtain ⟨sum, hsum, hsumw, hsumi⟩ := AddressInfo.addAssign_eq hw haddr ht
      -- the sum may touch ranges that were set aside before, so they are gone through again
      have hm' : Merged ((addr :: seen).map AddressInfo.ival) sum.ival
          (acc.2.map AddressInfo.ival) := hsumi ▸ hm.absorb_new ht
      obtain ⟨acc', hacc', hw', h'⟩ := absorbAll_spec le_rfl hsumw hu hm'
      refine ⟨acc', ?_, hw', .inr ⟨hw', h'⟩⟩
      simp [accumulate, AddressInfo.canAdd_eq hw haddr, ht, hsum, hacc']
    · have hu' : ∀ u ∈ acc.2 ++ [addr], u.WellFormed := by
        simp only [List.mem_append, List.mem_singleton]
        rintro u (hmem | rfl)
        · exact hu u hmem
        · exact haddr
      -- the range does not touch the sum, so it is set aside
      have hm' : Merged ((addr :: seen).map AddressInfo.ival) acc.1.ival
          ((acc.2 ++ [addr]).map AddressInfo.ival) := by
        rw [List.map_append]
        exact hm.aside addr.ival
      obtain ⟨acc', hacc', hw', h'⟩ := absorbAll_spec (n := acc.2.length + 1) (by simp) hw hu' hm'
      refine ⟨acc', ?_, hw', .inr ⟨hw', h'⟩⟩
      simp [accumulate, AddressInfo.canAdd_eq hw haddr, ht, hacc']

/-- The sum only grows. -/
lemma absorbAll_subset {n : ℕ} {addrInfo : AddressInfo} {unadded : List AddressInfo}
    {acc : AddressInfo × List AddressInfo} (hw : addrInfo.WellFormed)
    (hu : ∀ u ∈ unadded, u.WellFormed) (h : absorbAll n addrInfo unadded = some acc) {x : ℕ}
    (hx : x ∈ addrInfo) : x ∈ acc.1 := by
  induction n generalizing addrInfo unadded with
  | zero =>
      obtain rfl := Option.some.inj h
      exact hx
  | succ n ih =>
      rcases absorbFirst_spec hw hu with
        ⟨hnone, -⟩ | ⟨u, sum, unadded', hsome, hperm, ht, hsumw, hsumi⟩
      · rw [absorbAll, hnone] at h
        obtain rfl := Option.some.inj h
        exact hx
      · rw [absorbAll, hsome] at h
        have hu' : ∀ v ∈ unadded', v.WellFormed := fun v hv =>
          hu v (hperm.mem_iff.mpr (List.mem_cons_of_mem u hv))
        have hxsum : x ∈ sum := by
          rw [← AddressInfo.mem_pts_ival, hsumi, mem_hull ht]
          exact .inl hx
        exact ih hsumw hu' h hxsum

lemma accumulate_subset {seen : List AddressInfo} {addr : AddressInfo}
    {acc acc' : AddressInfo × List AddressInfo} (h : Accumulated seen acc)
    (haddr : addr.WellFormed) (hacc : accumulate addr acc = some acc') {x : ℕ}
    (hx : x ∈ acc.1) : x ∈ acc'.1 := by
  rcases h with ⟨-, rfl⟩ | ⟨hw, hu, -, -⟩
  · simp [AddressInfo.mem_iff, noRange, AddressInfo.empty] at hx
  · rw [accumulate, AddressInfo.canAdd_eq hw haddr] at hacc
    by_cases ht : Touch acc.1.ival addr.ival
    · obtain ⟨sum, hsum, hsumw, hsumi⟩ := AddressInfo.addAssign_eq hw haddr ht
      simp only [ht, decide_true, hsum, Option.bind_some] at hacc
      refine absorbAll_subset hsumw hu hacc ?_
      rw [← AddressInfo.mem_pts_ival, hsumi, mem_hull ht]
      exact .inl hx
    · simp only [ht, decide_false] at hacc
      refine absorbAll_subset hw (fun u hmem => ?_) hacc hx
      rcases List.mem_append.mp hmem with hmem | hmem
      · exact hu u hmem
      · exact List.mem_singleton.mp hmem ▸ haddr

/-- **A list of ranges is accumulated**; the sum keeps the start of the first. -/
theorem accumulate_foldlM {ranges : List AddressInfo} (hw : ∀ a ∈ ranges, a.WellFormed) :
    ∃ acc, ranges.foldlM (fun acc a => accumulate a acc) noRange = some acc ∧
      Accumulated ranges.reverse acc ∧ ∀ first ∈ ranges.head?, first.address ∈ acc.1 := by
  induction ranges using List.reverseRecOn with
  | nil => exact ⟨noRange, rfl, .inl ⟨rfl, rfl⟩, by simp⟩
  | append_singleton ranges a ih =>
      obtain ⟨acc, hacc, hspec, hfirst⟩ := ih fun b hb => hw b (List.mem_append_left _ hb)
      have hwa := hw a (by simp)
      obtain ⟨acc', hacc', -, hspec'⟩ := accumulate_spec hspec hwa
      refine ⟨acc', ?_, by simpa using hspec', ?_⟩
      · rw [List.foldlM_append, hacc]
        simpa using hacc'
      · cases ranges with
        | nil =>
            -- the first range is the sum
            rintro first ⟨⟩
            obtain rfl := Option.some.inj hacc
            obtain rfl := Option.some.inj hacc'
            exact hwa.start_mem
        | cons b ranges =>
            exact fun first hmem => accumulate_subset hspec hwa hacc' (hfirst first hmem)

/-- After the first range, the sum contains a range that all those accumulated meet exactly
when they cover it. -/
lemma Accumulated.contains_iff {seen : List AddressInfo} {acc : AddressInfo × List AddressInfo}
    {bug : AddressInfo} (h : Accumulated seen acc) (hne : seen ≠ []) (hbug : bug.WellFormed)
    (hmeet : ∀ a ∈ seen, ∃ x, x ∈ bug ∧ x ∈ a) :
    acc.1.contains bug = true ↔ ∀ x ∈ bug, ∃ a ∈ seen, x ∈ a := by
  obtain ⟨hw, -, hm, hsat⟩ := h.resolve_left fun h => hne h.1
  rw [AddressInfo.contains_iff hw hbug, hm.cover_iff (t := bug.ival) hsat ?_]
  · simp only [AddressInfo.mem_pts_ival, List.mem_map, exists_exists_and_eq_and]
  · simp only [List.forall_mem_map, AddressInfo.mem_pts_ival]
    exact hmeet

end Hippocrates

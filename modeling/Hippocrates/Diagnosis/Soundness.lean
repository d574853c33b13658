import Mathlib.Tactic
import Hippocrates.Diagnosis.Scan

/-!
What the repair of a missing persist achieves. The repair inserts, immediately after each
operation of the diagnosis, a flush of the operation's own range if a flush is missing and
then a fence if a fence is missing (`repairedOps`). It is sound for a byte of the bug's range
if it makes the byte durable at the bug.

One pair of flags serves all collected operations, and this is sound in three situations:

* `AllFlushed`: every byte of the range is flushed after its last store;
* `CoveredAfresh`: the stores after the last fence and the last overlapping flush cover the
  range;
* `FencedOff`: a fence follows every store and every flush that overlaps the range.

`repairDurable_iff`: in these and in no others.
-/

namespace Hippocrates

open TraceEvent.EventType TraceEvent Persistency

/-- The operations inserted after an operation of the diagnosis. -/
def repairAfter (missingFlush missingFence : Bool) (e : TraceEvent) : List (Op AddressInfo) :=
  (if missingFlush then e.addresses.map Op.flush else []) ++
    (if missingFence then [Op.fence] else [])

/-- The operations of the repaired trace. -/
def repairedOps (d : Diagnosis) (trace : List TraceEvent) : List (Op AddressInfo) :=
  trace.zipIdx.flatMap fun (e, i) =>
    e.ops ++ if i ∈ d.opIndices then repairAfter d.missingFlush d.missingFence e else []

/-- The repair makes every byte of the range that is stored to durable. -/
def RepairDurable (d : Diagnosis) (R : AddressInfo) (trace : List TraceEvent) : Prop :=
  ∀ x ∈ R, Written x (opsOf trace) → Durable x (repairedOps d trace)

/-- Every byte of the range that is stored to is flushed after its last store. -/
def AllFlushed (R : AddressInfo) (trace : List TraceEvent) : Prop :=
  ∀ x ∈ R, ∀ q, SinceStore x (opsOf trace) q → Flushed x q

/-- The stores of a final part of the trace without fences and overlapping flushes cover the
range. -/
def CoveredAfresh (R : AddressInfo) (trace : List TraceEvent) : Prop :=
  ∃ p q, trace = p ++ q ∧ (∀ e ∈ q, e.type ≠ FENCE ∧ flushRange R e = none) ∧
    ∀ x ∈ R, ∃ e ∈ q, e.StoresTo x

/-- A fence comes after all stores and flushes that overlap the range. -/
def FencedOff (R : AddressInfo) (trace : List TraceEvent) : Prop :=
  ∃ p f q, trace = p ++ f :: q ∧ f.type = FENCE ∧ ∀ e ∈ q, isRelevant R e = false

/-! ### Well-formed events -/

section Events

variable {R : AddressInfo} {e : TraceEvent} {x : ℕ}

lemma addresses_of_store (hw : e.WellFormed) (h : e.type = STORE) : ∃ a, e.addresses = [a] :=
  List.length_eq_one_iff.mp (by rw [hw.arity, h]; rfl)

lemma isFence_eq (hw : e.WellFormed) : isFence e = decide (e.type = FENCE) := by
  by_cases h : e.type = FENCE
  · have hnil : e.addresses = [] := List.length_eq_zero_iff.mp (by rw [hw.arity, h]; rfl)
    simp [isFence, h, hnil]
  · simp [isFence, h, beq_eq_false_iff_ne.mpr h]

lemma any_isFence_eq_false {l : List TraceEvent} (hw : ∀ e ∈ l, e.WellFormed) :
    l.any isFence = false ↔ ∀ e ∈ l, e.type ≠ FENCE := by
  rw [List.any_eq_false]
  refine forall₂_congr fun e he => ?_
  rw [isFence_eq (hw e he), decide_eq_true_eq]

/-- A store to a byte of the range overlaps it. -/
lemma storeRange_of_storesTo (hw : e.WellFormed) (hR : R.WellFormed) (hx : x ∈ R)
    (h : e.StoresTo x) : ∃ a, storeRange R e = some a ∧ x ∈ a ∧ e.addresses = [a] := by
  obtain ⟨ht, a, ha, hxa⟩ := h
  obtain ⟨b, hb⟩ := addresses_of_store hw ht
  obtain rfl : a = b := by simpa [hb] using ha
  have hov : a.overlaps R = true :=
    (AddressInfo.overlaps_iff (hw.addresses a ha) hR).mpr ⟨x, hxa, hx⟩
  exact ⟨a, by simp [storeRange, ht, hb, hov], hxa, hb⟩

/-- An overlapping store stores to a byte of the range. -/
lemma storesTo_of_storeRange {a : AddressInfo} (hw : e.WellFormed) (hR : R.WellFormed)
    (h : storeRange R e = some a) :
    a.WellFormed ∧ (∃ x ∈ R, x ∈ a) ∧ ∀ x ∈ a, e.StoresTo x := by
  by_cases ht : e.type = STORE
  · obtain ⟨b, hb⟩ := addresses_of_store hw ht
    simp only [storeRange, ht, hb, if_true, List.head?_cons, Option.filter_eq_some_iff,
      Option.some.injEq] at h
    obtain ⟨rfl, hov⟩ := h
    have hmem : b ∈ e.addresses := by simp [hb]
    have hwb := hw.addresses b hmem
    obtain ⟨x, hxb, hxR⟩ := (AddressInfo.overlaps_iff hwb hR).mp hov
    exact ⟨hwb, ⟨x, hxR, hxb⟩, fun y hy => ⟨ht, b, hmem, hy⟩⟩
  · simp [storeRange, ht] at h

/-- A flush of a byte of the range overlaps it. -/
lemma flushRange_of_flushesAt (hw : e.WellFormed) (hR : R.WellFormed) (hx : x ∈ R)
    (h : e.FlushesAt x) : flushRange R e ≠ none := by
  obtain ⟨ht, a, ha, hxa⟩ := h
  obtain ⟨b, hb⟩ : ∃ b, e.addresses = [b] :=
    List.length_eq_one_iff.mp (by rw [hw.arity, ht]; rfl)
  obtain rfl : a = b := by simpa [hb] using ha
  have hov : a.overlaps R = true :=
    (AddressInfo.overlaps_iff (hw.addresses a ha) hR).mpr ⟨x, hxa, hx⟩
  simp [flushRange, ht, hb, hov]

lemma isRelevant_of_storesTo (hw : e.WellFormed) (hR : R.WellFormed) (hx : x ∈ R)
    (h : e.StoresTo x) : isRelevant R e = true := by
  obtain ⟨a, ha, -⟩ := storeRange_of_storesTo hw hR hx h
  simp [isRelevant, ha]

/-- Without overlapping flushes the relevant events are stores. -/
lemma exists_storesTo_of_isRelevant (hw : e.WellFormed) (hR : R.WellFormed)
    (hf : flushRange R e = none) (h : isRelevant R e = true) : ∃ x ∈ R, e.StoresTo x := by
  simp only [isRelevant, hf, Option.isSome_none, Bool.or_false, Option.isSome_iff_exists] at h
  obtain ⟨a, ha⟩ := h
  obtain ⟨-, ⟨x, hxR, hxa⟩, hst⟩ := storesTo_of_storeRange hw hR ha
  exact ⟨x, hxR, hst x hxa⟩

lemma not_isRelevant_of_fence (h : e.type = FENCE) : isRelevant R e = false := by
  simp [isRelevant, storeRange, flushRange, h]

end Events

/-! ### The operations of the repaired window -/

/-- The operations of a part of the trace, all its relevant events repaired. -/
def fixedOps (R : AddressInfo) (mf mfe : Bool) (l : List TraceEvent) : List (Op AddressInfo) :=
  l.flatMap fun e => e.ops ++ if isRelevant R e then repairAfter mf mfe e else []

section Fixed

variable {R : AddressInfo} {mf mfe : Bool} {x : ℕ} {e : TraceEvent} {l p q : List TraceEvent}

@[simp] lemma fixedOps_nil : fixedOps R mf mfe [] = [] := rfl

@[simp] lemma fixedOps_cons : fixedOps R mf mfe (e :: l) =
    e.ops ++ (if isRelevant R e then repairAfter mf mfe e else []) ++ fixedOps R mf mfe l := by
  rw [fixedOps, List.flatMap_cons, fixedOps]

@[simp] lemma fixedOps_append :
    fixedOps R mf mfe (p ++ q) = fixedOps R mf mfe p ++ fixedOps R mf mfe q :=
  List.flatMap_append

lemma mem_collected {n i : ℕ} {win : List TraceEvent} (h : i ∈ collected R n win) :
    i < win.length + n := by
  obtain ⟨p, e, q, rfl, -, rfl⟩ := mem_collected_iff.mp h
  rw [List.length_append, List.length_cons]
  omega

/-- The head of the window is collected if it is relevant. -/
lemma length_mem_collected_cons {n : ℕ} {win : List TraceEvent} :
    win.length + n ∈ collected R n (e :: win) ↔ isRelevant R e = true := by
  rw [collected]
  split
  · simp [*]
  · rename_i h
    exact iff_of_false (fun hmem => absurd (mem_collected hmem) (lt_irrefl _)) h

/-- Outside the window nothing is repaired. -/
lemma repairedOps_eq {d : Diagnosis} {older win : List TraceEvent}
    (h : d.opIndices = collected R older.length win) :
    repairedOps d (older.reverse ++ win.reverse) =
      opsOf older.reverse ++ fixedOps R d.missingFlush d.missingFence win.reverse := by
  -- over the window, any list that agrees with `collected` on the indices so far
  suffices hgen : ∀ I : List ℕ, (∀ i, i < win.length + older.length →
      (i ∈ I ↔ i ∈ collected R older.length win)) →
      repairedOps { d with opIndices := I } (older.reverse ++ win.reverse) =
        opsOf older.reverse ++ fixedOps R d.missingFlush d.missingFence win.reverse from
    hgen d.opIndices fun i _ => by rw [h]
  clear h
  induction win with
  | nil =>
      intro I hI
      rw [repairedOps, List.reverse_nil, List.append_nil, fixedOps_nil, List.append_nil, opsOf,
        ← List.zipIdx_map_fst 0 older.reverse, List.flatMap_map, List.zipIdx_map_fst]
      refine List.flatMap_congr fun ⟨e, i⟩ hmem => ?_
      have hi : i < older.length := by
        have := List.snd_lt_of_mem_zipIdx hmem
        simpa using this
      have hnot : i ∉ I := by
        rw [hI i (by simpa using hi)]
        simp [collected]
      simp [hnot]
  | cons e win ih =>
      intro I hI
      have hlen : (older.reverse ++ win.reverse).length = win.length + older.length := by
        simp [Nat.add_comm]
      have hhead := hI (win.length + older.length) (by simp only [List.length_cons]; omega)
      rw [length_mem_collected_cons] at hhead
      have hrest : ∀ i, i < win.length + older.length →
          (i ∈ I ↔ i ∈ collected R older.length win) := by
        intro i hi
        rw [hI i (by simp only [List.length_cons]; omega), collected]
        split
        · rw [List.mem_cons]
          exact or_iff_right (by omega)
        · rfl
      have hih := ih I hrest
      rw [repairedOps] at hih ⊢
      rw [List.reverse_cons, ← List.append_assoc, List.zipIdx_append, List.flatMap_append, hih,
        hlen, fixedOps_append]
      simp [hhead]

lemma quiet_opsOf (h : ∀ d ∈ q, ¬ d.StoresTo x) : Quiet x (opsOf q) := by
  intro o ho hs
  obtain ⟨d, hd, hod⟩ := List.mem_flatMap.mp ho
  exact h d hd (exists_stores_iff.mp ⟨o, hod, hs⟩)

lemma quiet_repairAfter : Quiet x (repairAfter mf mfe e) := by
  rw [repairAfter, quiet_append]
  constructor
  · cases mf <;> simp [Quiet]
  · cases mfe <;> simp [Quiet]

lemma quiet_fixedOps (h : ∀ d ∈ q, ¬ d.StoresTo x) : Quiet x (fixedOps R mf mfe q) := by
  intro o ho hs
  obtain ⟨d, hd, hod⟩ := List.mem_flatMap.mp ho
  rcases List.mem_append.mp hod with hod | hod
  · exact h d hd (exists_stores_iff.mp ⟨o, hod, hs⟩)
  · split at hod
    · exact quiet_repairAfter o hod hs
    · simp at hod

lemma flushed_opsOf : Flushed x (opsOf q) ↔ ∃ e ∈ q, e.FlushesAt x := by
  simp only [Flushed, opsOf, List.mem_flatMap, ← exists_flushes_iff]
  tauto

lemma fence_mem_opsOf : Op.fence ∈ opsOf q ↔ ∃ e ∈ q, e.type = FENCE := by
  simp only [opsOf, List.mem_flatMap, fence_mem_ops_iff]

/-- With flushes only, the fences are those of the trace. -/
lemma fence_mem_fixedOps_flush :
    Op.fence ∈ fixedOps R true false q ↔ ∃ e ∈ q, e.type = FENCE := by
  rw [← fence_mem_opsOf]
  induction q with
  | nil => rfl
  | cons e q ih =>
      have hrep : Op.fence ∉ (if isRelevant R e then repairAfter true false e else []) := by
        split <;> simp [repairAfter]
      simp only [fixedOps_cons, opsOf_cons, List.mem_append, hrep, or_false, ih]

/-- With fences only, the flushes are those of the trace. -/
lemma flushed_fixedOps_fence :
    Flushed x (fixedOps R false true q) ↔ ∃ e ∈ q, e.FlushesAt x := by
  rw [← flushed_opsOf]
  induction q with
  | nil => rfl
  | cons e q ih =>
      have hrep : ¬ Flushed x (if isRelevant R e then repairAfter false true e else []) := by
        split <;> simp [repairAfter, Flushed]
      rw [fixedOps_cons, opsOf_cons, flushed_append, flushed_append, flushed_append, ih]
      simp [hrep]

/-- The last store of `x` in the trace. -/
lemma sinceStore_opsOf (he : e.StoresTo x) (hw : e.WellFormed)
    (hq : ∀ d ∈ q, ¬ d.StoresTo x) : SinceStore x (opsOf (p ++ e :: q)) (opsOf q) := by
  obtain ⟨a, ha⟩ := addresses_of_store hw he.1
  refine ⟨opsOf p, Op.store a, ?_, ?_, quiet_opsOf hq⟩
  · simp [ops, he.1, ha]
  · obtain ⟨b, hb, hxb⟩ := he.2
    rw [ha, List.mem_singleton] at hb
    exact hb ▸ hxb

/-- The last store of `x` in the repaired window. -/
lemma sinceStore_fixedOps {old : List (Op AddressInfo)} (he : e.StoresTo x) (hw : e.WellFormed)
    (hrel : isRelevant R e = true) (hq : ∀ d ∈ q, ¬ d.StoresTo x) :
    SinceStore x (old ++ fixedOps R mf mfe (p ++ e :: q))
      (repairAfter mf mfe e ++ fixedOps R mf mfe q) := by
  obtain ⟨a, ha⟩ := addresses_of_store hw he.1
  refine ⟨old ++ fixedOps R mf mfe p, Op.store a, ?_, ?_, ?_⟩
  · simp [ops, he.1, ha, hrel]
  · obtain ⟨b, hb, hxb⟩ := he.2
    rw [ha, List.mem_singleton] at hb
    exact hb ▸ hxb
  · exact quiet_append.mpr ⟨quiet_repairAfter, quiet_fixedOps hq⟩

end Fixed

/-! ### What the windows cover -/

section Cover

variable {R : AddressInfo} {win : List TraceEvent} {acc : AddressInfo × List AddressInfo}

lemma sums_accumulated (hw : ∀ e ∈ win, e.WellFormed) (hR : R.WellFormed)
    (h : sums R win = some acc) : Accumulated (storeRanges R win).reverse acc := by
  induction win using List.reverseRecOn generalizing acc with
  | nil => exact .inl ⟨rfl, (Option.some.inj h).symm⟩
  | append_singleton win e ih =>
      rw [sums_snoc, Option.bind_eq_some_iff] at h
      obtain ⟨acc₀, h₀, h⟩ := h
      have hacc₀ := ih (fun d hd => hw d (List.mem_append_left _ hd)) h₀
      rw [storeRanges_snoc]
      cases hs : storeRange R e with
      | none =>
          rw [hs] at h
          obtain rfl := Option.some.inj h
          simpa using hacc₀
      | some a =>
          rw [hs] at h
          obtain ⟨hwa, -, -⟩ := storesTo_of_storeRange (hw e (by simp)) hR hs
          obtain ⟨acc', hacc', -, hspec⟩ := accumulate_spec hacc₀ hwa
          obtain rfl : acc' = acc := Option.some.inj (hacc'.symm.trans h)
          simpa using hspec

lemma mem_storeRanges {a : AddressInfo} :
    a ∈ storeRanges R win ↔ ∃ e ∈ win, storeRange R e = some a :=
  List.mem_filterMap

/-- The sum contains the bug's range exactly when the stores of the window cover it. -/
lemma contains_sums_iff (hw : ∀ e ∈ win, e.WellFormed) (hR : R.WellFormed)
    (h : sums R win = some acc) (hne : storeRanges R win ≠ []) :
    acc.1.contains R = true ↔ ∀ x ∈ R, ∃ e ∈ win, e.StoresTo x := by
  rw [(sums_accumulated hw hR h).contains_iff (by simpa using hne) hR]
  · refine forall₂_congr fun x hx => ⟨?_, ?_⟩
    · rintro ⟨a, ha, hxa⟩
      obtain ⟨e, he, hea⟩ := mem_storeRanges.mp (List.mem_reverse.mp ha)
      exact ⟨e, he, (storesTo_of_storeRange (hw e he) hR hea).2.2 x hxa⟩
    · rintro ⟨e, he, hst⟩
      obtain ⟨a, ha, hxa, -⟩ := storeRange_of_storesTo (hw e he) hR hx hst
      exact ⟨a, List.mem_reverse.mpr (mem_storeRanges.mpr ⟨e, he, ha⟩), hxa⟩
  · intro a ha
    obtain ⟨e, he, hea⟩ := mem_storeRanges.mp (List.mem_reverse.mp ha)
    obtain ⟨-, ⟨x, hxR, hxa⟩, -⟩ := storesTo_of_storeRange (hw e he) hR hea
    exact ⟨x, hxR, hxa⟩

/-- The stores of an open window do not cover the bug's range. -/
lemma OpenWindow.not_cover (h : OpenWindow R win) (hw : ∀ e ∈ win, e.WellFormed)
    (hR : R.WellFormed) : ¬ ∀ x ∈ R, ∃ e ∈ win, e.StoresTo x := by
  intro hcov
  obtain ⟨acc, hacc, hopen⟩ := h.unfinished win List.prefix_rfl
  obtain ⟨e, he, hst⟩ := hcov R.address hR.start_mem
  obtain ⟨a, ha, -⟩ := storeRange_of_storesTo (hw e he) hR hR.start_mem hst
  have hne : storeRanges R win ≠ [] := List.ne_nil_of_mem (mem_storeRanges.mpr ⟨e, he, ha⟩)
  have hcon := (contains_sums_iff hw hR hacc hne).mpr hcov
  rw [hopen hne] at hcon
  cases hcon

end Cover

/-! ### The three kinds of repair

`old` is the part of the trace before the window, `new` the window, in the order of time. -/

section Repair

variable {R : AddressInfo} {old new : List TraceEvent}

/-- A flush and a fence at every store of a covered range persist it. -/
lemma durable_of_flush_and_fence (hw : ∀ e ∈ new, e.WellFormed) (hR : R.WellFormed)
    (hcov : ∀ x ∈ R, ∃ e ∈ new, e.StoresTo x) :
    ∀ x ∈ R, Durable x (opsOf old ++ fixedOps R true true new) := by
  intro x hx
  obtain ⟨p, e, q, rfl, he, hq⟩ := exists_last (hcov x hx)
  have hwe := hw e (by simp)
  obtain ⟨a, -, hxa, ha⟩ := storeRange_of_storesTo hwe hR hx he
  rw [(sinceStore_fixedOps he hwe (isRelevant_of_storesTo hwe hR hx he) hq).durable_iff]
  simp [repairAfter, ha, flushFenced_cons, hxa]

/-- With flushes only, a byte stored to in the window is durable if a fence follows its last
store. -/
lemma durable_flush_only_iff {x : ℕ} {p q : List TraceEvent} {e : TraceEvent}
    (hwe : e.WellFormed) (hR : R.WellFormed) (hx : x ∈ R) (he : e.StoresTo x)
    (hq : ∀ d ∈ q, ¬ d.StoresTo x) :
    Durable x (opsOf old ++ fixedOps R true false (p ++ e :: q)) ↔
      ∃ f ∈ q, f.type = FENCE := by
  obtain ⟨a, -, hxa, ha⟩ := storeRange_of_storesTo hwe hR hx he
  rw [(sinceStore_fixedOps he hwe (isRelevant_of_storesTo hwe hR hx he) hq).durable_iff]
  simp only [repairAfter, ha, if_true, List.map_cons, List.map_nil, List.append_nil,
    List.cons_append, List.nil_append, flushFenced_cons, flushes_flush, hxa, true_and,
    fence_mem_fixedOps_flush, Bool.false_eq_true, if_false]
  exact or_iff_left_of_imp fun hff => fence_mem_fixedOps_flush.mp hff.fence_mem

/-- **Flushes only**: the repair is sound exactly when a fence follows the stores. -/
lemma flush_only_iff (hw : ∀ e ∈ old ++ new, e.WellFormed) (hR : R.WellFormed)
    (hnoflush : ∀ e ∈ new, flushRange R e = none)
    (hnew : ∀ x ∈ R, Written x (opsOf (old ++ new)) → ∃ e ∈ new, e.StoresTo x)
    (hrel : ∃ e ∈ new, isRelevant R e = true) :
    (∀ x ∈ R, Written x (opsOf (old ++ new)) →
      Durable x (opsOf old ++ fixedOps R true false new)) ↔ FencedOff R (old ++ new) := by
  constructor
  · intro hdur
    obtain ⟨p, e, q, rfl, he, hq⟩ := exists_last hrel
    have hwe := hw e (by simp)
    obtain ⟨x, hx, hst⟩ := exists_storesTo_of_isRelevant hwe hR (hnoflush e (by simp)) he
    have hqx : ∀ d ∈ q, ¬ d.StoresTo x := fun d hd hdx =>
      hq d hd (isRelevant_of_storesTo (hw d (by simp [hd])) hR hx hdx)
    have hwr : Written x (opsOf (old ++ (p ++ e :: q))) := by
      rw [← List.append_assoc]
      exact (sinceStore_opsOf hst hwe hqx).written
    obtain ⟨f, hf, hfe⟩ := (durable_flush_only_iff hwe hR hx hst hqx).mp (hdur x hx hwr)
    obtain ⟨q₁, q₂, rfl⟩ := List.append_of_mem hf
    refine ⟨old ++ p ++ e :: q₁, f, q₂, by simp, hfe, fun d hd => ?_⟩
    exact Bool.eq_false_iff.mpr (hq d (by simp [hd]))
  · rintro ⟨p, f, q, heq, hf, hq⟩ x hx hwr
    obtain ⟨p', e, q', rfl, he, hq'⟩ := exists_last (hnew x hx hwr)
    have hwe := hw e (by simp)
    rw [durable_flush_only_iff hwe hR hx he hq']
    have hrele := isRelevant_of_storesTo hwe hR hx he
    -- the store is not after the fence, so the fence is after the store
    have hsuf : f :: q <:+ q' := by
      refine suffix_of_notMem ((List.append_assoc old p' _).trans heq) fun hmem => ?_
      rcases List.mem_cons.mp hmem with rfl | hmem
      · rw [not_isRelevant_of_fence hf] at hrele
        cases hrele
      · rw [hq e hmem] at hrele
        cases hrele
    exact ⟨f, hsuf.subset List.mem_cons_self, hf⟩

/-- The fences put after relevant events come after every flush. -/
lemma flushFenced_fixedOps_fence_iff {x : ℕ} {ops : List (Op AddressInfo)}
    (hw : ∀ e ∈ new, e.WellFormed) (hR : R.WellFormed)
    (hrel : ∃ e ∈ new, isRelevant R e = true) (hx : x ∈ R) :
    FlushFenced x (ops ++ fixedOps R false true new) ↔ Flushed x (ops ++ opsOf new) := by
  rw [flushed_append]
  constructor
  · intro hff
    have hfl := hff.flushed
    rwa [flushed_append, flushed_fixedOps_fence, ← flushed_opsOf] at hfl
  · rintro (hfl | hfl)
    · obtain ⟨r, hr, hrel⟩ := hrel
      refine flushFenced_append hfl ?_
      obtain ⟨n₁, n₂, rfl⟩ := List.append_of_mem hr
      simp [hrel, repairAfter]
    · rw [flushed_opsOf] at hfl
      obtain ⟨d, hd, hdx⟩ := hfl
      -- the flush is relevant, so that a fence is put after it
      have hreld : isRelevant R d = true := by
        have hne := flushRange_of_flushesAt (hw d hd) hR hx hdx
        simp [isRelevant, Option.isSome_iff_ne_none.mpr hne]
      obtain ⟨n₁, n₂, rfl⟩ := List.append_of_mem hd
      have hsplit : ops ++ fixedOps R false true (n₁ ++ d :: n₂) =
          (ops ++ fixedOps R false true n₁ ++ d.ops) ++
            (Op.fence :: fixedOps R false true n₂) := by
        simp [hreld, repairAfter]
      rw [hsplit]
      refine flushFenced_append ?_ List.mem_cons_self
      rw [flushed_append]
      exact .inr (exists_flushes_iff.mpr hdx)

/-- With fences only, a byte is durable if it is flushed after its last store. -/
lemma durable_fence_only_iff {x : ℕ} (hw : ∀ e ∈ old ++ new, e.WellFormed) (hR : R.WellFormed)
    (hnoflush : ∀ p e q, new = p ++ e :: q → storeRange R e ≠ none →
      ∀ d ∈ q, flushRange R d = none)
    (hold : old = [] ∨ ∃ e ∈ new, isRelevant R e = true) (hx : x ∈ R)
    (hwr : Written x (opsOf (old ++ new))) :
    ∃ q, SinceStore x (opsOf (old ++ new)) q ∧
      (Durable x (opsOf old ++ fixedOps R false true new) ↔ Flushed x q) := by
  by_cases hnew : ∃ e ∈ new, e.StoresTo x
  · obtain ⟨p, e, q, rfl, he, hq⟩ := exists_last hnew
    have hwe := hw e (by simp)
    obtain ⟨a, ha, -⟩ := storeRange_of_storesTo hwe hR hx he
    -- no flush of the byte follows its last store
    have hnone : ¬ ∃ d ∈ q, d.FlushesAt x := by
      rintro ⟨d, hd, hdx⟩
      exact flushRange_of_flushesAt (hw d (by simp [hd])) hR hx hdx
        (hnoflush p e q rfl (by simp [ha]) d hd)
    refine ⟨opsOf q, ?_, ?_⟩
    · rw [← List.append_assoc]
      exact sinceStore_opsOf he hwe hq
    · rw [(sinceStore_fixedOps he hwe (isRelevant_of_storesTo hwe hR hx he) hq).durable_iff,
        flushed_opsOf]
      refine iff_of_false (fun hff => ?_) hnone
      have hfl := hff.flushed
      rw [flushed_append, flushed_fixedOps_fence] at hfl
      exact hfl.elim (by simp [repairAfter, Flushed]) hnone
  · have hex : ∃ e ∈ old, e.StoresTo x := by
      obtain ⟨o, ho, hox⟩ := hwr
      obtain ⟨e, he, hoe⟩ := List.mem_flatMap.mp ho
      have hst := exists_stores_iff.mp ⟨o, hoe, hox⟩
      exact (List.mem_append.mp he).elim (fun h => ⟨e, h, hst⟩) fun h => absurd ⟨e, h, hst⟩ hnew
    -- the last store comes before the window, and what follows it is quiet
    obtain ⟨p, e, q, rfl, he, hq⟩ := exists_last hex
    have hwe := hw e (by simp)
    have hquiet : ∀ d ∈ q ++ new, ¬ d.StoresTo x := by
      intro d hd hdx
      exact (List.mem_append.mp hd).elim (fun h => hq d h hdx) fun h => hnew ⟨d, h, hdx⟩
    have hsince : SinceStore x (opsOf (p ++ e :: q) ++ fixedOps R false true new)
        (opsOf q ++ fixedOps R false true new) := by
      obtain ⟨p₀, o, heq, ho, hqo⟩ := sinceStore_opsOf (p := p) he hwe hq
      refine ⟨p₀, o, by rw [heq]; simp, ho, quiet_append.mpr ⟨hqo, quiet_fixedOps ?_⟩⟩
      exact fun d hd => hquiet d (List.mem_append_right q hd)
    refine ⟨opsOf (q ++ new), ?_, ?_⟩
    · rw [List.append_assoc, List.cons_append]
      exact sinceStore_opsOf he hwe hquiet
    · rw [hsince.durable_iff, opsOf_append]
      exact flushFenced_fixedOps_fence_iff (fun d hd => hw d (by simp [hd])) hR
        (hold.resolve_left (by simp)) hx

/-- **Fences only**: the repair is sound exactly when all bytes are flushed already. -/
lemma fence_only_iff (hw : ∀ e ∈ old ++ new, e.WellFormed) (hR : R.WellFormed)
    (hnoflush : ∀ p e q, new = p ++ e :: q → storeRange R e ≠ none →
      ∀ d ∈ q, flushRange R d = none)
    (hold : old = [] ∨ ∃ e ∈ new, isRelevant R e = true) :
    (∀ x ∈ R, Written x (opsOf (old ++ new)) →
      Durable x (opsOf old ++ fixedOps R false true new)) ↔ AllFlushed R (old ++ new) := by
  constructor
  · intro hdur x hx q hq
    obtain ⟨q', hq', hiff⟩ := durable_fence_only_iff hw hR hnoflush hold hx hq.written
    rw [hq.unique hq']
    exact hiff.mp (hdur x hx hq.written)
  · intro hfl x hx hwr
    obtain ⟨q, hq, hiff⟩ := durable_fence_only_iff hw hR hnoflush hold hx hwr
    exact hiff.mpr (hfl x hx q hq)

/-! ### When the repair is sound -/

/-- A store in a window without overlapping flushes leaves a byte dirty. -/
lemma not_allFlushed (hw : ∀ e ∈ old ++ new, e.WellFormed) (hR : R.WellFormed)
    (hnoflush : ∀ e ∈ new, flushRange R e = none) (hrel : ∃ e ∈ new, isRelevant R e = true) :
    ¬ AllFlushed R (old ++ new) := by
  intro hall
  obtain ⟨p, e, q, rfl, he, hq⟩ := exists_last hrel
  have hwe := hw e (by simp)
  obtain ⟨x, hx, hst⟩ := exists_storesTo_of_isRelevant hwe hR (hnoflush e (by simp)) he
  have hqx : ∀ d ∈ q, ¬ d.StoresTo x := fun d hd hdx =>
    hq d hd (isRelevant_of_storesTo (hw d (by simp [hd])) hR hx hdx)
  have hfl : Flushed x (opsOf q) := by
    refine hall x hx _ ?_
    rw [← List.append_assoc]
    exact sinceStore_opsOf hst hwe hqx
  obtain ⟨d, hd, hdx⟩ := flushed_opsOf.mp hfl
  exact flushRange_of_flushesAt (hw d (by simp [hd])) hR hx hdx (hnoflush d (by simp [hd]))

/-- A trace that ends in an open window, after nothing or after a fence or an overlapping
flush, is not covered afresh. -/
lemma not_coveredAfresh {win l m : List TraceEvent} {d : TraceEvent} (hwin : OpenWindow R win)
    (hw : ∀ e ∈ win, e.WellFormed) (hR : R.WellFormed) (hm : m <:+ win.reverse)
    (hd : d.type = FENCE ∨ flushRange R d ≠ none) : ¬ CoveredAfresh R (l ++ d :: m) := by
  rintro ⟨p, q, heq, hq, hcov⟩
  have hsuf : q <:+ m := by
    refine suffix_of_notMem heq fun hmem => ?_
    exact hd.elim (hq d hmem).1 fun h => h (hq d hmem).2
  refine hwin.not_cover hw hR fun x hx => ?_
  obtain ⟨e, he, hst⟩ := hcov x hx
  exact ⟨e, List.mem_reverse.mp (hm.subset (hsuf.subset he)), hst⟩

end Repair

lemma exists_isRelevant_of_collected {R : AddressInfo} {n : ℕ} {win : List TraceEvent}
    (h : collected R n win ≠ []) : ∃ e ∈ win, isRelevant R e = true := by
  induction win with
  | nil => simp [collected] at h
  | cons e win ih =>
      rw [collected] at h
      split at h
      · exact ⟨e, List.mem_cons_self, by assumption⟩
      · obtain ⟨d, hd, hrel⟩ := ih h
        exact ⟨d, List.mem_cons_of_mem e hd, hrel⟩

/-! ### The three windows -/

section Windows

variable {clSz : ℕ} {R a : AddressInfo} {older win : List TraceEvent} {e : TraceEvent}

/-- The window ends at a store that completes the bug's range. -/
lemma repair_iff_of_store {acc : AddressInfo × List AddressInfo} (hopen : OpenWindow R win)
    (he : storeRange R e = some a) (hacc : sums R (win ++ [e]) = some acc)
    (hcov : acc.1.contains R = true) (hR : R.WellFormed)
    (hw : ∀ d ∈ older.reverse ++ (win ++ [e]).reverse, d.WellFormed) :
    (∀ x ∈ R, Written x (opsOf (older.reverse ++ (win ++ [e]).reverse)) →
      Durable x (opsOf older.reverse ++
        fixedOps R true (!win.any isFence) (win ++ [e]).reverse)) ↔
      AllFlushed R (older.reverse ++ (win ++ [e]).reverse) ∨
        CoveredAfresh R (older.reverse ++ (win ++ [e]).reverse) ∨
        FencedOff R (older.reverse ++ (win ++ [e]).reverse) := by
  have hww : ∀ d ∈ win ++ [e], d.WellFormed := fun d hd =>
    hw d (List.mem_append_right _ (List.mem_reverse.mpr hd))
  have hwo : ∀ d ∈ win, d.WellFormed := fun d hd => hww d (List.mem_append_left _ hd)
  have hrev : ∀ d, d ∈ (win ++ [e]).reverse ↔ d ∈ win ∨ d = e := by simp [or_comm]
  have hnoflush : ∀ d ∈ (win ++ [e]).reverse, flushRange R d = none := by
    intro d hd
    rcases (hrev d).mp hd with hd | rfl
    · exact hopen.noFlush d hd
    · exact flushRange_of_storeRange he
  have hrel : ∃ d ∈ (win ++ [e]).reverse, isRelevant R d = true :=
    ⟨e, (hrev e).mpr (.inr rfl), by simp [isRelevant, he]⟩
  have hcover : ∀ x ∈ R, ∃ d ∈ (win ++ [e]).reverse, d.StoresTo x := by
    have hne : storeRanges R (win ++ [e]) ≠ [] := by simp [storeRanges_snoc, he]
    simpa only [List.mem_reverse] using (contains_sums_iff hww hR hacc hne).mp hcov
  cases hfence : win.any isFence with
  | false =>
      -- without a fence in the window both flushes and a fence are added
      have hfe := (any_isFence_eq_false hwo).mp hfence
      refine iff_of_true (fun x hx _ => ?_) (.inr (.inl ⟨_, _, rfl, ?_, hcover⟩))
      · exact durable_of_flush_and_fence (fun d hd => hww d (List.mem_reverse.mp hd)) hR
          hcover x hx
      · intro d hd
        refine ⟨?_, hnoflush d hd⟩
        rcases (hrev d).mp hd with hd | rfl
        · exact hfe d hd
        · intro ht
          simp [storeRange, ht] at he
  | true =>
      obtain ⟨f, hf, hff⟩ := List.any_eq_true.mp hfence
      rw [isFence_eq (hwo f hf), decide_eq_true_eq] at hff
      obtain ⟨m₁, m₂, hm⟩ := List.append_of_mem (List.mem_reverse.mpr hf)
      have hsplit : older.reverse ++ (win ++ [e]).reverse
          = older.reverse ++ e :: m₁ ++ f :: m₂ := by
        simp [hm]
      -- with a fence only flushes are added, and the stores after it do not cover the range
      have hnc : ¬ CoveredAfresh R (older.reverse ++ (win ++ [e]).reverse) := by
        rw [hsplit]
        exact not_coveredAfresh hopen hwo hR ⟨m₁ ++ [f], by simp [hm]⟩ (.inl hff)
      rw [Bool.not_true, flush_only_iff hw hR hnoflush (fun x hx _ => hcover x hx) hrel,
        or_iff_right (not_allFlushed hw hR hnoflush hrel), or_iff_right hnc]

/-- The window ends at an overlapping flush. -/
lemma repair_iff_of_flush {f : TraceEvent} (hopen : OpenWindow R win)
    (hf : flushRange R f = some a) (hfence : win.any isFence = false) (hR : R.WellFormed)
    (hw : ∀ d ∈ older.reverse ++ f :: win.reverse, d.WellFormed) :
    (∀ x ∈ R, Written x (opsOf (older.reverse ++ f :: win.reverse)) →
      Durable x (opsOf older.reverse ++ fixedOps R false true (f :: win.reverse))) ↔
      AllFlushed R (older.reverse ++ f :: win.reverse) ∨
        CoveredAfresh R (older.reverse ++ f :: win.reverse) ∨
        FencedOff R (older.reverse ++ f :: win.reverse) := by
  have hwo : ∀ d ∈ win, d.WellFormed := fun d hd => hw d (by simp [hd])
  have hfe := (any_isFence_eq_false hwo).mp hfence
  have hrelf : isRelevant R f = true := by simp [isRelevant, hf]
  have hff : f.type ≠ FENCE := by
    intro ht
    simp [flushRange, ht] at hf
  have hnoflush : ∀ p e q, f :: win.reverse = p ++ e :: q → storeRange R e ≠ none →
      ∀ d ∈ q, flushRange R d = none := by
    intro p e q heq hst d hd
    have hmem : d ∈ win.reverse := by
      cases p with
      | nil =>
          simp only [List.nil_append, List.cons.injEq] at heq
          exact heq.2 ▸ hd
      | cons c p =>
          simp only [List.cons_append, List.cons.injEq] at heq
          simp [heq.2, hd]
    exact hopen.noFlush d (List.mem_reverse.mp hmem)
  -- the window is open up to the flush, so the stores in it do not cover the range
  have hnc : ¬ CoveredAfresh R (older.reverse ++ f :: win.reverse) :=
    not_coveredAfresh hopen hwo hR List.suffix_rfl (.inr (by simp [hf]))
  have hnf : ¬ FencedOff R (older.reverse ++ f :: win.reverse) := by
    rintro ⟨p, e, q, heq, hfence', hq⟩
    have hsuf : e :: q <:+ win.reverse := by
      refine suffix_of_notMem heq fun hmem => ?_
      rcases List.mem_cons.mp hmem with rfl | hmem
      · exact hff hfence'
      · rw [hq f hmem] at hrelf
        cases hrelf
    exact hfe e (List.mem_reverse.mp (hsuf.subset List.mem_cons_self)) hfence'
  rw [fence_only_iff hw hR hnoflush (.inr ⟨f, List.mem_cons_self, hrelf⟩),
    or_iff_left (not_or.mpr ⟨hnc, hnf⟩)]

/-- The window is the whole trace. -/
lemma repair_iff_of_start (hopen : OpenWindow R win) (hR : R.WellFormed)
    (hw : ∀ d ∈ win.reverse, d.WellFormed)
    (hrel : ∃ d ∈ win.reverse, isRelevant R d = true) :
    (∀ x ∈ R, Written x (opsOf win.reverse) →
      Durable x (fixedOps R (win.any isFence) (!win.any isFence) win.reverse)) ↔
      AllFlushed R win.reverse ∨ CoveredAfresh R win.reverse ∨ FencedOff R win.reverse := by
  have hww : ∀ d ∈ win, d.WellFormed := fun d hd => hw d (List.mem_reverse.mpr hd)
  have hnoflush : ∀ d ∈ win.reverse, flushRange R d = none := fun d hd =>
    hopen.noFlush d (List.mem_reverse.mp hd)
  -- an open window does not cover the range, and there is nothing before it
  have hnc : ¬ CoveredAfresh R win.reverse := by
    rintro ⟨p, q, heq, -, hcov⟩
    refine hopen.not_cover hww hR fun x hx => ?_
    obtain ⟨d, hd, hst⟩ := hcov x hx
    have hmem : d ∈ win.reverse := heq ▸ List.mem_append_right p hd
    exact ⟨d, List.mem_reverse.mp hmem, hst⟩
  have hnew : ∀ x ∈ R, Written x (opsOf win.reverse) → ∃ d ∈ win.reverse, d.StoresTo x := by
    rintro x - ⟨o, ho, hox⟩
    obtain ⟨d, hd, hod⟩ := List.mem_flatMap.mp ho
    exact ⟨d, hd, exists_stores_iff.mp ⟨o, hod, hox⟩⟩
  have hna : ¬ AllFlushed R win.reverse := @not_allFlushed R [] win.reverse hw hR hnoflush hrel
  cases hfence : win.any isFence with
  | true =>
      rw [or_iff_right hna, or_iff_right hnc]
      exact @flush_only_iff R [] win.reverse hw hR hnoflush hnew hrel
  | false =>
      have hfe := (any_isFence_eq_false hww).mp hfence
      have hnf : ¬ FencedOff R win.reverse := by
        rintro ⟨p, e, q, heq, hfence', -⟩
        have hmem : e ∈ win.reverse := heq ▸ by simp
        exact hfe e (List.mem_reverse.mp hmem) hfence'
      rw [or_iff_left (not_or.mpr ⟨hnc, hnf⟩)]
      exact @fence_only_iff R [] win.reverse hw hR
        (fun p e q heq _ d hd => hnoflush d (heq ▸ by simp [hd])) (.inl rfl)

/-- The window ends in one of these ways. -/
lemma repair_iff_of_window {d : Diagnosis}
    (hwin : Window clSz R older win d.missingFlush d.missingFence)
    (hidx : d.opIndices = collected R older.length win) (hne : d.opIndices ≠ [])
    (hR : R.WellFormed) (hw : ∀ e ∈ older.reverse ++ win.reverse, e.WellFormed) :
    RepairDurable d R (older.reverse ++ win.reverse) ↔
      AllFlushed R (older.reverse ++ win.reverse) ∨
        CoveredAfresh R (older.reverse ++ win.reverse) ∨
        FencedOff R (older.reverse ++ win.reverse) := by
  have hrel : ∃ e ∈ win.reverse, isRelevant R e = true := by
    simpa using exists_isRelevant_of_collected (hidx ▸ hne)
  rw [RepairDurable, repairedOps_eq hidx]
  generalize d.missingFlush = mf, d.missingFence = mfe at hwin
  cases hwin with
  | store hopen _ he hacc hcov => exact repair_iff_of_store hopen he hacc hcov hR hw
  | flush hopen _ he _ hfence =>
      rw [List.reverse_append, List.reverse_singleton, List.singleton_append] at hw ⊢
      exact repair_iff_of_flush hopen he hfence hR hw
  | start hopen => exact repair_iff_of_start hopen hR (by simpa using hw) hrel

end Windows

/-- What the scan has read is the end of the trace before the bug. -/
lemma exists_window_of_diagnose {clSz b : ℕ} {t : List TraceEvent} {te : TraceEvent}
    {d : Diagnosis} {R : AddressInfo} (hR : te.addresses = [R])
    (hd : diagnose clSz t te b = some d) :
    ∃ older win, t.take b = older.reverse ++ win.reverse ∧
      Window clSz R older win d.missingFlush d.missingFence ∧
      d.opIndices = collected R older.length win ∧ d.opIndices ≠ [] := by
  obtain ⟨R', win, older, hR', hpast, hwin, hidx, hne⟩ := diagnose_eq_some_iff.mp hd
  obtain rfl : R = R' := by simpa [hR] using hR'
  refine ⟨older, win, ?_, hwin, hidx, hne⟩
  rw [← List.reverse_append, ← hpast, past, List.reverse_reverse]

/-- **When the repair of a missing persist is sound**: the operations of the diagnosis,
repaired, make every byte of the bug's range durable exactly when all of them are flushed
already, or the stores after the last fence and overlapping flush cover the range, or a fence
follows all operations on the range. -/
theorem repairDurable_iff {clSz b : ℕ} {t : List TraceEvent} {te : TraceEvent}
    {d : Diagnosis} {R : AddressInfo} (hw : ∀ e ∈ t, e.WellFormed)
    (hte : t[b]? = some te) (hR : te.addresses = [R])
    (hd : diagnose clSz t te b = some d) :
    RepairDurable d R (t.take b) ↔
      AllFlushed R (t.take b) ∨ CoveredAfresh R (t.take b) ∨ FencedOff R (t.take b) := by
  have hwR : R.WellFormed := (hw te (List.mem_of_getElem? hte)).addresses R (by simp [hR])
  obtain ⟨older, win, htake, hwin, hidx, hne⟩ := exists_window_of_diagnose hR hd
  have hwt : ∀ e ∈ older.reverse ++ win.reverse, e.WellFormed := fun e he =>
    hw e (List.mem_of_mem_take (htake ▸ he))
  rw [htake]
  exact repair_iff_of_window hwin hidx hne hwR hwt

/-- The repair of an assertion is sound where the trace before it is as in one of the three
situations. -/
lemma repairDurable_of_take {clSz b : ℕ} {t : List TraceEvent} {te : TraceEvent} {d : Diagnosis}
    {R : AddressInfo} (hw : ∀ e ∈ t, e.WellFormed) (hte : t[b]? = some te)
    (htype : te.type = ASSERT_PERSISTED) (hR : R ∈ te.addresses)
    (hd : diagnose clSz t te b = some d)
    (hsound : AllFlushed R (t.take b) ∨ CoveredAfresh R (t.take b) ∨ FencedOff R (t.take b)) :
    RepairDurable d R (t.take b) := by
  have hwte := hw te (List.mem_of_getElem? hte)
  have hone : te.addresses = [R] := by
    obtain ⟨a, ha⟩ := List.length_eq_one_iff.mp (hwte.arity.trans (by rw [htype]; rfl))
    obtain rfl := List.mem_singleton.mp (ha ▸ hR)
    exact ha
  obtain ⟨older, win, htake, hwin, hidx, hne⟩ := exists_window_of_diagnose hone hd
  rw [htake] at hsound ⊢
  refine (repair_iff_of_window hwin hidx hne (hwte.addresses R hR) fun e he => ?_).mpr hsound
  exact hw e (List.mem_of_mem_take (htake ▸ he))

/-- Two stores with a fence between them, and a check of both. -/
def splitStores : List TraceEvent :=
  [⟨STORE, 1, [⟨4096, 8⟩], ⟨"main", "split.c", 10⟩, false, [], none⟩,
    ⟨FENCE, 2, [], ⟨"main", "split.c", 11⟩, false, [], none⟩,
    ⟨STORE, 3, [⟨4104, 8⟩], ⟨"main", "split.c", 12⟩, false, [], none⟩,
    ⟨ASSERT_PERSISTED, 4, [⟨4096, 16⟩], ⟨"main", "split.c", 13⟩, true, [], none⟩]

lemma splitStores_wellFormed : ∀ e ∈ splitStores, e.WellFormed := by
  simp only [splitStores, List.forall_mem_cons, List.not_mem_nil, false_imp_iff,
    implies_true, and_true]
  refine ⟨⟨rfl, ?_⟩, ⟨rfl, ?_⟩, ⟨rfl, ?_⟩, ⟨rfl, ?_⟩⟩ <;> simp
  · exact ⟨by decide, by decide⟩
  · exact ⟨by decide, by decide⟩
  · exact ⟨by decide, by decide⟩

/-- The fence between the stores hides that the second one misses a fence: its bytes are
flushed but never fenced. -/
theorem splitStores_not_repaired :
    (∀ e ∈ splitStores, e.WellFormed) ∧
    (∀ e ∈ splitStores, e.type = STORE → ∀ a ∈ e.addresses, a.isSingleCacheLine 64 = true) ∧
    ∃ te R d, splitStores[3]? = some te ∧ te.type = ASSERT_PERSISTED ∧ te.isBug = true ∧
      te.addresses = [R] ∧ diagnose 64 splitStores te 3 = some d ∧
      ¬ RepairDurable d R (splitStores.take 3) := by
  refine ⟨splitStores_wellFormed, by decide, _, ⟨4096, 16⟩, ⟨true, false, [2, 0]⟩, rfl, rfl, rfl,
    rfl, by decide, fun hdur => ?_⟩
  have hdurable := hdur 4104 (by decide) (by simp [Written, splitStores, ops, AddressInfo.mem_iff])
  rw [durable_iff_replay] at hdurable
  revert hdurable
  decide

theorem repairDurable_iff_splitStores :
    RepairDurable ⟨true, false, [2, 0]⟩ ⟨4096, 16⟩ (splitStores.take 3) ↔
      AllFlushed ⟨4096, 16⟩ (splitStores.take 3) ∨ CoveredAfresh ⟨4096, 16⟩ (splitStores.take 3) ∨
        FencedOff ⟨4096, 16⟩ (splitStores.take 3) := by
  have hd : diagnose 64 splitStores
      ⟨ASSERT_PERSISTED, 4, [⟨4096, 16⟩], ⟨"main", "split.c", 13⟩, true, [], none⟩ 3 =
        some ⟨true, false, [2, 0]⟩ := by decide
  exact repairDurable_iff splitStores_wellFormed rfl rfl hd

end Hippocrates

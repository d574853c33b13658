import Mathlib.Tactic
import Hippocrates.Trace.TraceEvent
import Hippocrates.Diagnosis.Accumulate

/-!
The diagnosis of `BugFixer::handleAssertPersisted`: the backward scan over the trace that
determines which operations to repair and whether they miss a flush, a fence, or both.

The events before the bug are listed latest first, in the order of the visits; the index of
an event is then the number of events listed after it. `clSz` is the size of a cache line,
`none` a failed assertion.

* `scanEvent`, `scan`, `diagnose`: the loop body, the loop, and the whole of the diagnosis.
* `OpenWindow`, `Window`: the part of the trace the scan visits, read off the trace itself.
* `diagnose_eq_some_iff`: the diagnosis is that of the window.
-/

namespace Hippocrates

open TraceEvent.EventType

/-- The local variables of the scan. -/
structure ScanState where
  missingFlush : Bool
  missingFence : Bool
  opIndices : List ℕ
  addrInfo : AddressInfo × List AddressInfo

/-- The variables before the first visit. -/
def ScanState.init : ScanState := ⟨false, true, [], noRange⟩

/-- The body of the loop, for the event of index `i`; the flag says whether the loop is left. -/
def scanEvent (clSz : ℕ) (bugAddr : AddressInfo) (i : ℕ) (event : TraceEvent) (s : ScanState) :
    Option (ScanState × Bool) :=
  if !event.isOperation then some (s, false)
  else if 1 < event.addresses.length then none
  else
    match event.addresses with
    | addr :: _ =>
      if event.type = STORE ∧ addr.overlaps bugAddr then
        (accumulate addr s.addrInfo).map fun addrInfo =>
          let s' := { s with addrInfo := addrInfo, opIndices := s.opIndices ++ [i] }
          if addrInfo.1.contains bugAddr then ({ s' with missingFlush := true }, true)
          else (s', false)
      else if event.type = FLUSH ∧ addr.overlaps bugAddr then
        if addr.isSingleCacheLine clSz && s.missingFence then
          some ({ s with opIndices := s.opIndices ++ [i] }, true)
        else none
      else some (s, false)
    | [] =>
      if event.type = FENCE then
        some ({ s with missingFence := false, missingFlush := true }, false)
      else some (s, false)

/-- The loop, over the events still to be visited. -/
def scan (clSz : ℕ) (bugAddr : AddressInfo) : List TraceEvent → ScanState → Option ScanState
  | [], s => some s
  | event :: older, s =>
    match scanEvent clSz bugAddr older.length event s with
    | none => none
    | some (s', true) => some s'
    | some (s', false) => scan clSz bugAddr older s'

/-- The events before `bug_index`, latest first. -/
def past (trace : List TraceEvent) (bug_index : ℕ) : List TraceEvent :=
  (trace.take bug_index).reverse

/-- What the scan found. -/
structure Diagnosis where
  missingFlush : Bool
  missingFence : Bool
  opIndices : List ℕ
deriving DecidableEq

/-- The diagnosis of the bug `te` at `bug_index`. -/
def diagnose (clSz : ℕ) (trace : List TraceEvent) (te : TraceEvent) (bug_index : ℕ) :
    Option Diagnosis :=
  match te.addresses with
  | [] => none
  | bugAddr :: _ =>
    match scan clSz bugAddr (past trace bug_index) ScanState.init with
    | none => none
    | some s =>
      if s.opIndices = [] then none
      else some ⟨s.missingFlush, s.missingFence, s.opIndices⟩

/-! ### What an event is to the scan -/

/-- The range of a store that overlaps the bug's. -/
def storeRange (bugAddr : AddressInfo) (e : TraceEvent) : Option AddressInfo :=
  if e.type = STORE then e.addresses.head?.filter fun a => a.overlaps bugAddr else none

/-- The range of a flush that overlaps the bug's. -/
def flushRange (bugAddr : AddressInfo) (e : TraceEvent) : Option AddressInfo :=
  if e.type = FLUSH then e.addresses.head?.filter fun a => a.overlaps bugAddr else none

/-- A fence, as the scan recognizes it. -/
def isFence (e : TraceEvent) : Bool := e.addresses.isEmpty && e.type == FENCE

/-- The operations the scan collects when it visits them. -/
def isRelevant (bugAddr : AddressInfo) (e : TraceEvent) : Bool :=
  (storeRange bugAddr e).isSome || (flushRange bugAddr e).isSome

/-- The assertion on the number of ranges of an operation. -/
def HasOneRange (e : TraceEvent) : Prop := e.isOperation = true → e.addresses.length ≤ 1

/-- The ranges of the overlapping stores. -/
def storeRanges (bugAddr : AddressInfo) (win : List TraceEvent) : List AddressInfo :=
  win.filterMap (storeRange bugAddr)

/-- The accumulated ranges of the overlapping stores. -/
def sums (bugAddr : AddressInfo) (win : List TraceEvent) :
    Option (AddressInfo × List AddressInfo) :=
  (storeRanges bugAddr win).foldlM (fun acc a => accumulate a acc) noRange

/-- The indices of the relevant events of `win`, when `n` events are listed after it. -/
def collected (bugAddr : AddressInfo) (n : ℕ) : List TraceEvent → List ℕ
  | [] => []
  | e :: win =>
    if isRelevant bugAddr e then (win.length + n) :: collected bugAddr n win
    else collected bugAddr n win

lemma storeRanges_snoc (R : AddressInfo) (win : List TraceEvent) (e : TraceEvent) :
    storeRanges R (win ++ [e]) = storeRanges R win ++ (storeRange R e).toList := by
  rw [storeRanges, List.filterMap_append]
  cases h : storeRange R e <;> simp [storeRanges, h]

lemma sums_snoc (R : AddressInfo) (win : List TraceEvent) (e : TraceEvent) :
    sums R (win ++ [e]) = (sums R win).bind fun acc =>
      match storeRange R e with
      | none => some acc
      | some a => accumulate a acc := by
  rw [sums, storeRanges_snoc, List.foldlM_append]
  cases h : storeRange R e <;> cases hs : sums R win <;> rw [sums] at hs <;> simp [hs]

/-- The collected indices are the places of the relevant events. -/
lemma mem_collected_iff {R : AddressInfo} {n k : ℕ} {win : List TraceEvent} :
    k ∈ collected R n win ↔
      ∃ p e q, win = p ++ e :: q ∧ isRelevant R e = true ∧ k = q.length + n := by
  induction win with
  | nil => simp [collected]
  | cons e win ih =>
      have hsplit : (∃ p d q, e :: win = p ++ d :: q ∧ isRelevant R d = true ∧ k = q.length + n) ↔
          (isRelevant R e = true ∧ k = win.length + n) ∨ k ∈ collected R n win := by
        rw [ih]
        constructor
        · rintro ⟨p, d, q, heq, hd, hk⟩
          cases p with
          | nil =>
              obtain ⟨rfl, rfl⟩ := List.cons.inj heq
              exact .inl ⟨hd, hk⟩
          | cons c p => exact .inr ⟨p, d, q, (List.cons.inj heq).2, hd, hk⟩
        · rintro (⟨he, hk⟩ | ⟨p, d, q, rfl, hd, hk⟩)
          · exact ⟨[], e, win, rfl, he, hk⟩
          · exact ⟨e :: p, d, q, rfl, hd, hk⟩
      rw [hsplit, collected]
      split_ifs with he <;> simp [he]

lemma collected_snoc (R : AddressInfo) (n : ℕ) (win : List TraceEvent) (e : TraceEvent) :
    collected R n (win ++ [e])
      = collected R (n + 1) win ++ (if isRelevant R e then [n] else []) := by
  induction win with
  | nil => simp [collected]
  | cons d win ih =>
      have hn : win.length + 1 + n = win.length + (n + 1) := by omega
      simp only [List.cons_append, collected, ih, List.length_append, List.length_singleton, hn]
      split <;> rfl

/-- A store has no flush range. -/
lemma flushRange_of_storeRange {R a : AddressInfo} {e : TraceEvent}
    (h : storeRange R e = some a) : flushRange R e = none := by
  have ht : e.type = STORE := by
    by_contra hne
    simp [storeRange, hne] at h
  simp [flushRange, ht]

lemma isFence_of_storeRange {R a : AddressInfo} {e : TraceEvent}
    (h : storeRange R e = some a) : isFence e = false := by
  have ht : e.type = STORE := by
    by_contra hne
    simp [storeRange, hne] at h
  simp [isFence, ht]

/-! ### The body of the loop, by the kind of the event -/

section Visit

variable {clSz : ℕ} {R a : AddressInfo} {i : ℕ} {e : TraceEvent} {s : ScanState}

lemma scanEvent_of_not_hasOneRange (h : ¬ HasOneRange e) : scanEvent clSz R i e s = none := by
  rw [HasOneRange, Classical.not_imp, not_le] at h
  rw [scanEvent, if_neg (by simp [h.1]), if_pos h.2]

/-- An overlapping store is collected and its range accumulated; the loop is left when the
sum contains the bug's range. -/
lemma scanEvent_of_store (h1 : HasOneRange e) (h : storeRange R e = some a) :
    scanEvent clSz R i e s = (accumulate a s.addrInfo).map fun acc =>
      (⟨acc.1.contains R || s.missingFlush, s.missingFence, s.opIndices ++ [i], acc⟩,
        acc.1.contains R) := by
  by_cases ht : e.type = STORE
  · simp only [storeRange, ht, if_true, Option.filter_eq_some_iff] at h
    obtain ⟨hhead, hov⟩ := h
    obtain ⟨rest, hrest⟩ := List.head?_eq_some_iff.mp hhead
    have hop : e.isOperation = true := by simp [TraceEvent.isOperation, ht]
    have hlen := h1 hop
    rw [scanEvent, if_neg (by simp [hop]), if_neg (by omega), hrest]
    simp only [ht, true_and, hov, if_true]
    congr 1
    funext acc
    cases acc.1.contains R <;> simp
  · simp [storeRange, ht] at h

/-- An overlapping flush is collected and the loop left, if no fence was visited. -/
lemma scanEvent_of_flush (h1 : HasOneRange e) (h : flushRange R e = some a) :
    scanEvent clSz R i e s =
      if a.isSingleCacheLine clSz && s.missingFence then
        some ({ s with opIndices := s.opIndices ++ [i] }, true)
      else none := by
  by_cases ht : e.type = FLUSH
  · simp only [flushRange, ht, if_true, Option.filter_eq_some_iff] at h
    obtain ⟨hhead, hov⟩ := h
    obtain ⟨rest, hrest⟩ := List.head?_eq_some_iff.mp hhead
    have hop : e.isOperation = true := by simp [TraceEvent.isOperation, ht]
    have hlen := h1 hop
    rw [scanEvent, if_neg (by simp [hop]), if_neg (by omega), hrest]
    simp [ht, hov]
  · simp [flushRange, ht] at h

/-- Any other event is passed; a fence sets the flags. -/
lemma scanEvent_of_other (h1 : HasOneRange e) (h : isRelevant R e = false) :
    scanEvent clSz R i e s =
      some ({ s with
        missingFence := !isFence e && s.missingFence
        missingFlush := isFence e || s.missingFlush }, false) := by
  rw [isRelevant, Bool.or_eq_false_iff, Option.isSome_eq_false_iff, Option.isSome_eq_false_iff,
    Option.isNone_iff_eq_none, Option.isNone_iff_eq_none] at h
  obtain ⟨hs, hf⟩ := h
  by_cases hop : e.isOperation = true
  · have hlen := h1 hop
    rw [scanEvent, if_neg (by simp [hop]), if_neg (by omega)]
    rcases haddr : e.addresses with _ | ⟨b, rest⟩
    · by_cases ht : e.type = FENCE
      · simp [isFence, haddr, ht]
      · have hb : (e.type == FENCE) = false := beq_eq_false_iff_ne.mpr ht
        simp [isFence, haddr, ht, hb]
    -- the first range is neither stored nor flushed within the bug's
    · have hns : ¬ (e.type = STORE ∧ b.overlaps R) := by
        rintro ⟨ht, hov⟩
        simp [storeRange, haddr, ht, hov] at hs
      have hnf : ¬ (e.type = FLUSH ∧ b.overlaps R) := by
        rintro ⟨ht, hov⟩
        simp [flushRange, haddr, ht, hov] at hf
      simp [isFence, haddr, hns, hnf]
  · have hb : (e.type == FENCE) = false := by
      refine beq_eq_false_iff_ne.mpr fun ht => hop ?_
      simp [TraceEvent.isOperation, ht]
    rw [scanEvent, if_pos (by simp [hop])]
    simp [isFence, hb]

end Visit

/-! ### The window of the scan -/

/-- The scan passes `win` without being left. -/
structure OpenWindow (R : AddressInfo) (win : List TraceEvent) : Prop where
  oneRange : ∀ e ∈ win, HasOneRange e
  noFlush : ∀ e ∈ win, flushRange R e = none
  unfinished : ∀ p, p <+: win →
    ∃ acc, sums R p = some acc ∧ (storeRanges R p ≠ [] → acc.1.contains R = false)

/-- The scan visits `win`, leaves `older` unvisited and ends with the flags `missingFlush`
and `missingFence`: it is left at a store that completes the bug's range, at an overlapping
flush with no fence visited before, or at the start of the trace. -/
inductive Window (clSz : ℕ) (R : AddressInfo) :
    List TraceEvent → List TraceEvent → Bool → Bool → Prop
  | store {older win : List TraceEvent} {e : TraceEvent} {a : AddressInfo}
      {acc : AddressInfo × List AddressInfo} (hwin : OpenWindow R win) (h1 : HasOneRange e)
      (he : storeRange R e = some a) (hacc : sums R (win ++ [e]) = some acc)
      (hcov : acc.1.contains R = true) :
      Window clSz R older (win ++ [e]) true (!win.any isFence)
  | flush {older win : List TraceEvent} {e : TraceEvent} {a : AddressInfo}
      (hwin : OpenWindow R win) (h1 : HasOneRange e) (he : flushRange R e = some a)
      (hline : a.isSingleCacheLine clSz = true) (hfence : win.any isFence = false) :
      Window clSz R older (win ++ [e]) false true
  | start {win : List TraceEvent} (hwin : OpenWindow R win) :
      Window clSz R [] win (win.any isFence) (!win.any isFence)

/-- The variables after `win`, when `n` events remain. -/
def stateAfter (R : AddressInfo) (n : ℕ) (win : List TraceEvent) : ScanState :=
  ⟨win.any isFence, !win.any isFence, collected R n win, (sums R win).getD noRange⟩

/-- The variables that are used after the loop. -/
def ScanState.toDiagnosis (s : ScanState) : Diagnosis :=
  ⟨s.missingFlush, s.missingFence, s.opIndices⟩

lemma openWindow_nil (R : AddressInfo) : OpenWindow R [] := by
  refine ⟨by simp, by simp, fun p hp => ⟨noRange, ?_, ?_⟩⟩
  · rw [List.prefix_nil.mp hp]
    rfl
  · intro hne
    exact absurd (by rw [List.prefix_nil.mp hp]; rfl) hne

lemma OpenWindow.sums_eq {R : AddressInfo} {win : List TraceEvent} (h : OpenWindow R win) :
    sums R win = some ((sums R win).getD noRange) := by
  obtain ⟨acc, hacc, -⟩ := h.unfinished win List.prefix_rfl
  rw [hacc]
  rfl

lemma OpenWindow.snoc {R : AddressInfo} {win : List TraceEvent} {e : TraceEvent}
    {acc : AddressInfo × List AddressInfo} (h : OpenWindow R win) (h1 : HasOneRange e)
    (hf : flushRange R e = none) (hacc : sums R (win ++ [e]) = some acc)
    (hcov : storeRanges R (win ++ [e]) ≠ [] → acc.1.contains R = false) :
    OpenWindow R (win ++ [e]) := by
  refine ⟨?_, ?_, fun p hp => ?_⟩
  · simp only [List.mem_append, List.mem_singleton]
    rintro d (hd | rfl)
    · exact h.oneRange d hd
    · exact h1
  · simp only [List.mem_append, List.mem_singleton]
    rintro d (hd | rfl)
    · exact h.noFlush d hd
    · exact hf
  · rcases List.prefix_concat_iff.mp hp with rfl | hp
    · exact ⟨acc, hacc, hcov⟩
    · exact h.unfinished p hp

lemma OpenWindow.of_append {R : AddressInfo} {win rest : List TraceEvent}
    (h : OpenWindow R (win ++ rest)) : OpenWindow R win :=
  ⟨fun e he => h.oneRange e (List.mem_append_left rest he),
    fun e he => h.noFlush e (List.mem_append_left rest he),
    fun p hp => h.unfinished p (hp.trans (List.prefix_append win rest))⟩

section Visit

variable {clSz n : ℕ} {R a : AddressInfo} {win : List TraceEvent} {e : TraceEvent}
  {acc : AddressInfo × List AddressInfo}

/-- A store is visited. -/
lemma OpenWindow.visit_store (h : OpenWindow R win) (h1 : HasOneRange e)
    (he : storeRange R e = some a) (hacc : sums R (win ++ [e]) = some acc) :
    scanEvent clSz R n e (stateAfter R (n + 1) win) =
      some (⟨acc.1.contains R || win.any isFence, !win.any isFence,
        collected R n (win ++ [e]), acc⟩, acc.1.contains R) := by
  have hadd : accumulate a (stateAfter R (n + 1) win).addrInfo = some acc := by
    rw [sums_snoc, h.sums_eq, he] at hacc
    exact hacc
  rw [scanEvent_of_store h1 he, hadd, collected_snoc]
  simp [stateAfter, isRelevant, he]

/-- A flush is visited. -/
lemma OpenWindow.visit_flush (h1 : HasOneRange e) (he : flushRange R e = some a) :
    scanEvent clSz R n e (stateAfter R (n + 1) win) =
      if a.isSingleCacheLine clSz && !win.any isFence then
        some ({ stateAfter R (n + 1) win with opIndices := collected R n (win ++ [e]) }, true)
      else none := by
  rw [scanEvent_of_flush h1 he, collected_snoc]
  simp [stateAfter, isRelevant, he]

/-- Any other event is visited. -/
lemma OpenWindow.visit_other (h1 : HasOneRange e) (hs : storeRange R e = none)
    (hf : flushRange R e = none) :
    scanEvent clSz R n e (stateAfter R (n + 1) win) =
      some (stateAfter R n (win ++ [e]), false) := by
  have hrel : isRelevant R e = false := by simp [isRelevant, hs, hf]
  have hsums : sums R (win ++ [e]) = sums R win := by
    rw [sums_snoc, hs]
    cases sums R win <;> rfl
  rw [scanEvent_of_other h1 hrel]
  simp [stateAfter, collected_snoc, hrel, hsums, Bool.or_comm]

/-- The visit of an event after which the window is still open. -/
lemma OpenWindow.visit_open (h : OpenWindow R (win ++ [e])) :
    scanEvent clSz R n e (stateAfter R (n + 1) win) =
      some (stateAfter R n (win ++ [e]), false) := by
  have h1 := h.oneRange e (by simp)
  have hf := h.noFlush e (by simp)
  cases hs : storeRange R e with
  | none => exact visit_other h1 hs hf
  | some a =>
      obtain ⟨acc, hacc, hcov⟩ := h.unfinished _ List.prefix_rfl
      have hne : storeRanges R (win ++ [e]) ≠ [] := by simp [storeRanges_snoc, hs]
      rw [h.of_append.visit_store h1 hs hacc, hcov hne]
      simp [stateAfter, isFence_of_storeRange hs, hacc]

/-- The visit of an event either fails, or leaves the window open, or ends the scan. -/
lemma OpenWindow.visit_cases (h : OpenWindow R win) :
    scanEvent clSz R n e (stateAfter R (n + 1) win) = none ∨ OpenWindow R (win ++ [e]) ∨
      ∃ s, scanEvent clSz R n e (stateAfter R (n + 1) win) = some (s, true) ∧
        s.opIndices = collected R n (win ++ [e]) ∧
        ∀ older, Window clSz R older (win ++ [e]) s.missingFlush s.missingFence := by
  by_cases h1 : HasOneRange e
  · cases hs : storeRange R e with
    | some a =>
        -- a store ends the scan if the sum has come to contain the range
        cases hacc : sums R (win ++ [e]) with
        | none =>
            refine .inl ?_
            rw [sums_snoc, h.sums_eq, hs] at hacc
            rw [scanEvent_of_store h1 hs]
            exact Option.map_eq_none_iff.mpr hacc
        | some acc =>
            cases hcov : acc.1.contains R with
            | true =>
                have hvisit := @visit_store clSz n R a win e acc h h1 hs hacc
                rw [hcov, Bool.true_or] at hvisit
                exact .inr (.inr ⟨_, hvisit, rfl, fun older => .store h h1 hs hacc hcov⟩)
            | false =>
                exact .inr (.inl (h.snoc h1 (flushRange_of_storeRange hs) hacc fun _ => hcov))
    | none =>
        cases hf : flushRange R e with
        | some a =>
            -- a flush ends it if it covers the line and no fence has been seen
            rw [visit_flush h1 hf]
            split
            · rename_i hcond
              rw [Bool.and_eq_true, Bool.not_eq_true'] at hcond
              refine .inr (.inr ⟨_, rfl, rfl, fun older => ?_⟩)
              simp only [stateAfter, hcond.2, Bool.not_false]
              exact .flush h h1 hf hcond.1 hcond.2
            · exact .inl rfl
        | none =>
            obtain ⟨acc, hacc, hcov⟩ := h.unfinished win List.prefix_rfl
            refine .inr (.inl (h.snoc h1 hf (?_ : _ = some acc) ?_))
            · rw [sums_snoc, hacc, hs]
              rfl
            · rw [storeRanges_snoc, hs]
              simpa using hcov
  · exact .inl (scanEvent_of_not_hasOneRange h1)

end Visit

/-- The scan passes an open window. -/
lemma scan_append {clSz : ℕ} {R : AddressInfo} {win v older : List TraceEvent}
    (h : OpenWindow R (win ++ v)) :
    scan clSz R (v ++ older) (stateAfter R (v.length + older.length) win)
      = scan clSz R older (stateAfter R older.length (win ++ v)) := by
  induction v generalizing win with
  | nil => simp
  | cons e v ih =>
      have hassoc : win ++ e :: v = win ++ [e] ++ v := by simp
      have hlen : (e :: v).length + older.length = (v ++ older).length + 1 := by
        simp only [List.length_cons, List.length_append]
        omega
      rw [hassoc] at h ⊢
      rw [List.cons_append, scan, hlen, h.of_append.visit_open, List.length_append]
      exact ih h

/-- From an open window on, the scan completes only in a window. -/
lemma exists_window_of_scan {clSz : ℕ} {R : AddressInfo} {win rest : List TraceEvent}
    {s : ScanState} (h : OpenWindow R win)
    (hs : scan clSz R rest (stateAfter R rest.length win) = some s) :
    ∃ v older, rest = v ++ older ∧
      Window clSz R older (win ++ v) s.missingFlush s.missingFence ∧
      s.opIndices = collected R older.length (win ++ v) := by
  induction rest generalizing win with
  | nil =>
      obtain rfl := Option.some.inj hs
      exact ⟨[], [], rfl, by simpa [stateAfter] using .start h, by simp [stateAfter]⟩
  | cons e rest ih =>
      rw [scan, List.length_cons] at hs
      rcases @OpenWindow.visit_cases clSz rest.length R win e h with
        hnone | hopen | ⟨s', hstop, hidx, hwin⟩
      · rw [hnone] at hs
        cases hs
      · rw [hopen.visit_open] at hs
        obtain ⟨v, older, rfl, hw, hi⟩ := ih hopen hs
        exact ⟨e :: v, older, rfl, by simpa using hw, by simpa using hi⟩
      · rw [hstop] at hs
        obtain rfl := Option.some.inj hs
        exact ⟨[e], rest, rfl, hwin rest, hidx⟩

/-- The scan of a window completes with its flags and its relevant events. -/
lemma scan_of_window {clSz : ℕ} {R : AddressInfo} {older win : List TraceEvent} {mf mfe : Bool}
    (h : Window clSz R older win mf mfe) :
    (scan clSz R (win ++ older) ScanState.init).map ScanState.toDiagnosis
      = some ⟨mf, mfe, collected R older.length win⟩ := by
  have hinit : ∀ n, stateAfter R n [] = ScanState.init := fun n => rfl
  cases h with
  | @store older win e a acc hwin h1 he hacc hcov =>
      have hrun := @scan_append clSz R [] win (e :: older) hwin
      rw [hinit, List.nil_append] at hrun
      rw [List.append_assoc, List.singleton_append, hrun, List.length_cons, scan,
        hwin.visit_store h1 he hacc, hcov]
      rfl
  | @flush older win e a hwin h1 he hline hfence =>
      have hrun := @scan_append clSz R [] win (e :: older) hwin
      rw [hinit, List.nil_append] at hrun
      rw [List.append_assoc, List.singleton_append, hrun, List.length_cons, scan,
        OpenWindow.visit_flush h1 he, hline, hfence]
      simp [ScanState.toDiagnosis, stateAfter, hfence]
  | start hwin =>
      have hrun := @scan_append clSz R [] win [] hwin
      rw [hinit, List.nil_append] at hrun
      rw [hrun]
      rfl

/-- **The diagnosis is that of the window**: it completes exactly when the past of the bug
has a window that collects an operation, with the flags and the operations of the window. -/
theorem diagnose_eq_some_iff {clSz : ℕ} {trace : List TraceEvent} {te : TraceEvent} {b : ℕ}
    {d : Diagnosis} :
    diagnose clSz trace te b = some d ↔
      ∃ R win older, te.addresses.head? = some R ∧ past trace b = win ++ older ∧
        Window clSz R older win d.missingFlush d.missingFence ∧
        d.opIndices = collected R older.length win ∧ d.opIndices ≠ [] := by
  rw [diagnose]
  cases te.addresses with
  | nil => simp
  | cons R rest =>
      constructor
      · intro h
        dsimp only at h
        cases hs : scan clSz R (past trace b) ScanState.init with
        | none => simp [hs] at h
        | some s =>
            simp only [hs, Option.ite_none_left_eq_some, Option.some.injEq] at h
            obtain ⟨hne, rfl⟩ := h
            obtain ⟨win, older, hpast, hwin, hidx⟩ :=
              exists_window_of_scan (openWindow_nil R) hs
            exact ⟨R, win, older, rfl, hpast, hwin, hidx, hne⟩
      · rintro ⟨R', win, older, hR, hpast, hwin, hidx, hne⟩
        obtain rfl := Option.some.inj hR
        obtain ⟨s, hs, hd⟩ := Option.map_eq_some_iff.mp (scan_of_window hwin)
        rw [← hpast] at hs
        have hds : s.toDiagnosis = d := by
          rw [hd, ← hidx]
        subst hds
        have hne' : s.opIndices ≠ [] := hne
        simp [hs, hne', ScanState.toDiagnosis]

end Hippocrates

import Mathlib.Order.WithBot
import Mathlib.Tactic
import Hippocrates.Fix.Optimization

/-!
The fix map is ordered by the addresses of the instructions (`FixLoc::Compare`), which differ
from one run of the tool to the next, and `BugFixer::runFixMapOptimization` raises the fixes
in that order. Here its result is compared between orders.

* `FixEntries`, `finalMap`: a fix map apart from any order, and what the raising leaves of it
  in one order.
* `Raisable`: no raise fails on the map as it is.
* `Displaces`: the raise changes the map if it comes first. `Apart`: such raises neither share
  a target nor land on each other.

`sameMap_iff`: the orders agree exactly when a raise fails in each of them (`FailsAt`), or the
map is raisable and apart.
-/

namespace Hippocrates

open FixType

/-- The entries of a fix map, in no particular order. -/
structure FixEntries where
  entries : List (FixLoc × FixDesc)
  nodup : (entries.map Prod.fst).Nodup

/-- The fix map of the entries. -/
def FixEntries.toMap [LinearOrder FixLoc] (l : FixEntries) : FixMap := OrderedMap.ofList l.entries

lemma FixEntries.find_toMap [LinearOrder FixLoc] {l : FixEntries} {fl : FixLoc} {desc : FixDesc} :
    l.toMap.find fl = some desc ↔ (fl, desc) ∈ l.entries := OrderedMap.find_ofList_iff l.nodup

/-- The map that `runFixMapOptimization` leaves, if it completes. -/
def finalMap [LinearOrder FixLoc] (E : RaiseEnv) (l : FixEntries) :
    Option (FixLoc → Option FixDesc) :=
  (runFixMapOptimization E l.toMap).map fun r => r.1.find

/-- The map left does not depend on the order of the locations. -/
def SameMap (E : RaiseEnv) (l : FixEntries) : Prop :=
  ∀ o o' : LinearOrder FixLoc, @finalMap o E l = @finalMap o' E l

/-- An entry that takes or swallows the raised fix `d` without a failed assertion. -/
def Accepts (old d : FixDesc) : Prop :=
  old.type = ADD_PERSIST_CALLSTACK_OPT ∨
    (d.type = ADD_PERSIST_CALLSTACK_OPT ∧
      (old.type.isPrimative = true ∨ old.type = ADD_PERSIST_CALLSTACK_OPT_NOFENCE)) ∨
    (old.type = ADD_PERSIST_CALLSTACK_OPT_NOFENCE ∧ old.originals = [] ∧ old.points = [])

/-- The fix at `fl` is there when the loop comes to it, and its raise fails: it has no target, or
its target is no location of the module or holds a fix that does not accept it. -/
structure FailsAt [LinearOrder FixLoc] (E : RaiseEnv) (M : FixMap) (fl : FixLoc)
    (desc : FixDesc) : Prop where
  find : M.find fl = some desc
  primative : desc.type.isPrimative = true
  intact : Intact E M fl
  refused : ∀ t, raiseTarget E true desc = some t → ∃ curr d, t = some (curr, d) ∧
    (curr.isValid E.module = true → ∃ old, M.find curr = some old ∧ ¬ Accepts old d ∧
      ∀ z < fl, RaisesFence E M z curr → ¬ Intact E M z)

/-- Each raise succeeds on the map as it is. -/
def Raisable (E : RaiseEnv) (l : FixEntries) : Prop :=
  ∀ fl desc, (fl, desc) ∈ l.entries → desc.type.isPrimative = true →
    ∃ t, raiseTarget E true desc = some t ∧ ∀ curr d, t = some (curr, d) →
      curr.isValid E.module = true ∧ ∀ old, (curr, old) ∈ l.entries → Accepts old d

/-- The raise of the fix at `fl` changes the map if it comes first. -/
structure Displaces (E : RaiseEnv) (l : FixEntries) (fl : FixLoc) (desc : FixDesc)
    (curr : FixLoc) (d : FixDesc) : Prop where
  mem : (fl, desc) ∈ l.entries
  primative : desc.type.isPrimative = true
  target : raiseTarget E true desc = some (some (curr, d))
  takes : ∀ old, (curr, old) ∈ l.entries →
    d.type = ADD_PERSIST_CALLSTACK_OPT ∧ old.type ≠ ADD_PERSIST_CALLSTACK_OPT

/-- The raises that change the map have targets of their own, and none lands on another's fix. -/
structure Apart (E : RaiseEnv) (l : FixEntries) : Prop where
  targets : ∀ fl desc fl' desc' curr d d', Displaces E l fl desc curr d →
    Displaces E l fl' desc' curr d' → fl = fl'
  sources : ∀ fl desc curr d desc' curr' d', Displaces E l fl desc curr d →
    Displaces E l curr desc' curr' d' → fl = curr

/-! ### When a raise succeeds -/

/-- `coalesce` handles a raised fix exactly at the entries that accept it. -/
lemma coalesce_isSome_iff [LinearOrder FixLoc] {old d : FixDesc} (hd : d.type.isPST = true)
    (horig : d.originals = []) (hpoints : d.points = []) :
    (coalesce old d).isSome = true ↔ Accepts old d := by
  have heq : old.eq d = true ↔ old.type = d.type ∧ old.originals = [] ∧ old.points = [] := by
    simp [FixDesc.eq, horig, hpoints, and_assoc]
  rw [coalesce, Accepts]
  rcases isPST_iff.mp hd with ht | ht
  · cases hold : old.type <;> simp [heq, ht, hold, isPrimative, isPST]
  · cases hold : old.type <;> simp [heq, ht, hold, isPrimative, isPST, addsFence]

section Order

variable [LinearOrder FixLoc] {E : RaiseEnv} {l : FixEntries}

lemma addFixToMapping_isSome_iff {m : Module} {fixMap : FixMap} {curr : FixLoc} {d : FixDesc}
    (hd : d.type.isPST = true) (horig : d.originals = []) (hpoints : d.points = []) :
    (addFixToMapping m fixMap curr d).isSome = true ↔
      curr.isValid m = true ∧ ∀ old, fixMap.find curr = some old → Accepts old d := by
  have hno : d.type ≠ NO_FIX := by
    rcases isPST_iff.mp hd with ht | ht <;> rw [ht] <;> decide
  rw [addFixToMapping, if_neg hno]
  by_cases hvalid : curr.isValid m = true
  · rw [if_neg (by simp [hvalid])]
    cases hfind : fixMap.find curr with
    | none => simp [hvalid]
    | some old =>
        have hco : (coalesce old d).isSome = true ↔ Accepts old d :=
          coalesce_isSome_iff hd horig hpoints
        simp only [hvalid, true_and, Option.some.injEq, forall_eq', ← hco]
        cases coalesce old d with
        | none => simp
        | some r => cases r <;> simp
  · rw [if_pos (by simpa using hvalid)]
    simp [hvalid]

/-- A raise succeeds when its target is valid and accepts it. -/
lemma raiseFixLocation_isSome_iff {fixMap : FixMap} {fl : FixLoc} {desc : FixDesc} :
    (raiseFixLocation E fixMap (some fl) desc).isSome = true ↔
      ∃ t, raiseTarget E true desc = some t ∧ ∀ curr d, t = some (curr, d) →
        curr.isValid E.module = true ∧ ∀ old, fixMap.find curr = some old → Accepts old d := by
  rw [raiseFixLocation, Option.isSome_some]
  cases htarget : raiseTarget E true desc with
  | none => simp
  | some t =>
      cases t with
      | none => simp
      | some t =>
          obtain ⟨curr, d⟩ := t
          obtain ⟨-, horig, hpoints, -⟩ := raiseTarget_desc htarget
          dsimp only
          rw [addFixToMapping_isSome_iff (raiseTarget_isPST htarget) horig hpoints]
          simp

/-! ### When the raising completes -/

section Loop

variable {M : FixMap} {cursor : Option FixLoc} {s : OptState} {fl : FixLoc} {desc : FixDesc}

/-- A subprogram raised before accepts any other. -/
lemma Raises.accepts {z curr : FixLoc} {dz e : FixDesc} (h : Raises E M z dz curr e)
    (d : FixDesc) : Accepts e d := by
  obtain ⟨-, horig, hpoints, -⟩ := raiseTarget_desc h.target
  rcases isPST_iff.mp (raiseTarget_isPST h.target) with hopt | hno
  · exact .inl hopt
  · exact .inr (.inr ⟨hno, horig, hpoints⟩)

/-- What the target holds and does not accept has been there from the start. -/
lemma LoopInv.refuses_iff (h : LoopInv E M cursor s)
    (ha : s.fixMap.after cursor = some (fl, desc)) {curr : FixLoc} {d : FixDesc} :
    (∃ old, s.fixMap.find curr = some old ∧ ¬ Accepts old d) ↔
      ∃ old, M.find curr = some old ∧ ¬ Accepts old d ∧
        ∀ z < fl, RaisesFence E M z curr → ¬ Intact E M z := by
  constructor
  · rintro ⟨old, hold, hno⟩
    cases (h.find curr old).mp hold with
    | moved hm => exact absurd (hm.raises.accepts d) hno
    | kept he hfree =>
        refine ⟨old, he, hno, fun z hlt hraise hz => ?_⟩
        obtain ⟨y, hle, dy, d', hy, -⟩ := exists_moves_fence (fun e he' => by
          obtain rfl := Option.some.inj (he.symm.trans he')
          exact fun hopt => hno (.inl hopt)) hraise hz
        have hyfl := hle.trans_lt hlt
        exact hfree y dy d' hy ((h.past_or_eq ha hy.raises.find hy.intact hyfl.le).resolve_right
          hyfl.ne)
  · rintro ⟨old, he, hno, hfirst⟩
    refine ⟨old, (h.find curr old).mpr (.kept he fun z dz d' hz hp => ?_), hno⟩
    exact hfirst z (lt_of_past ha hp) ⟨dz, d', hz.raises, hz.fence he⟩ hz.intact

/-- A raise of the loop fails as the map before says. -/
lemma LoopInv.raise_eq_none_iff (h : LoopInv E M cursor s)
    (ha : s.fixMap.after cursor = some (fl, desc)) (hprim : desc.type.isPrimative = true) :
    Hippocrates.raiseFixLocation E s.fixMap (some fl) desc = none ↔ FailsAt E M fl desc := by
  obtain ⟨hfind, hintact⟩ := h.intact ha hprim
  have hnone : Hippocrates.raiseFixLocation E s.fixMap (some fl) desc = none ↔
      ∀ t, raiseTarget E true desc = some t → ∃ curr d, t = some (curr, d) ∧
        (curr.isValid E.module = true →
          ∃ old, s.fixMap.find curr = some old ∧ ¬ Accepts old d) := by
    rw [← Option.not_isSome_iff_eq_none, raiseFixLocation_isSome_iff]
    push Not
    rfl
  rw [hnone]
  constructor
  · intro hrefused
    refine ⟨hfind, hprim, hintact, fun t ht => ?_⟩
    obtain ⟨curr, d, rfl, hold⟩ := hrefused t ht
    exact ⟨curr, d, rfl, fun hvalid => (h.refuses_iff ha).mp (hold hvalid)⟩
  · intro hfails t ht
    obtain ⟨curr, d, rfl, hold⟩ := hfails.refused t ht
    exact ⟨curr, d, rfl, fun hvalid => (h.refuses_iff ha).mpr (hold hvalid)⟩

/-- Of the raises that fail only that of the next entry is no longer to come. -/
lemma LoopInv.fails_ahead_iff (h : LoopInv E M cursor s)
    (ha : s.fixMap.after cursor = some (fl, desc)) (hno : ¬ FailsAt E M fl desc) :
    (∃ fl' desc', FailsAt E M fl' desc' ∧ ¬ Past (some fl) fl') ↔
      ∃ fl' desc', FailsAt E M fl' desc' ∧ ¬ Past cursor fl' := by
  refine exists_congr fun fl' => exists_congr fun desc' => and_congr_right fun hfails => ?_
  rw [h.past_some_iff ha hfails.find hfails.intact, not_or, and_iff_left_iff_imp]
  rintro - rfl
  obtain ⟨hfind, hc⟩ := OrderedMap.find_of_after ha
  have hown := h.find_of_intact hfails.find hfails.intact hc
  obtain rfl := Option.some.inj (hfind.symm.trans hown)
  exact hno hfails

/-- The loop fails if a raise that is still to come fails. -/
lemma optimizeLoop_eq_none_iff {n : ℕ} (h : LoopInv E M cursor s)
    (hn : remaining cursor s.fixMap < n) :
    optimizeLoop E n cursor s = none ↔ ∃ fl desc, FailsAt E M fl desc ∧ ¬ Past cursor fl := by
  induction n generalizing cursor s with
  | zero => omega
  | succ n ih =>
      rw [optimizeLoop]
      cases ha : s.fixMap.after cursor with
      | none =>
          refine iff_of_false (by simp) ?_
          rintro ⟨fl, desc, hfails, hpast⟩
          exact hpast (h.past_of_end ha hfails.find hfails.intact)
      | some e =>
          obtain ⟨fl, desc⟩ := e
          have hadv := remaining_advance ha
          dsimp only
          split_ifs with hprim
          · rw [Bool.not_eq_true'] at hprim
            have hmoves : ∀ dz curr d, ¬ Moves E M fl dz curr d := fun dz curr d hm =>
              h.not_moves_of_not_isPrimative ha hprim hm
            -- the cursor passes the fix, which neither moves nor fails
            rw [ih (h.advance ha hmoves) (by omega)]
            refine h.fails_ahead_iff ha fun hfails => ?_
            rw [hfails.primative] at hprim
            cases hprim
          · rw [Bool.not_eq_true', Bool.not_eq_false] at hprim
            rw [if_pos hprim] at hadv
            have hfailsAt := h.raise_eq_none_iff ha hprim
            cases hr : Hippocrates.raiseFixLocation E s.fixMap (some fl) desc with
            | none =>
                exact iff_of_true rfl
                  ⟨fl, desc, hfailsAt.mp hr, fun hp => lt_irrefl fl (lt_of_past ha hp)⟩
            | some r =>
                obtain ⟨fixMap, success⟩ := r
                have hle := @remaining_raise _ E (some fl) _ _ _ _ _ hr
                dsimp only
                -- the raise succeeds, so the one that fails, if any, is still ahead
                rw [ih (h.raiseFixLocation ha hprim hr) (by dsimp only; omega)]
                refine h.fails_ahead_iff ha (hfailsAt.not.mp ?_)
                rw [hr]
                exact Option.some_ne_none _

/-- No fix moves twice. -/
lemma optimizeLoop_nodup {n : ℕ} {s' : OptState} (h : LoopInv E M cursor s)
    (hnodup : s.moved.Nodup) (hrun : optimizeLoop E n cursor s = some s') : s'.moved.Nodup := by
  induction n generalizing cursor s with
  | zero => cases hrun
  | succ n ih =>
      rw [optimizeLoop] at hrun
      cases ha : s.fixMap.after cursor with
      | none =>
          simp only [ha, Option.some.injEq] at hrun
          exact hrun ▸ hnodup
      | some e =>
          obtain ⟨fl, desc⟩ := e
          simp only [ha] at hrun
          split_ifs at hrun with hprim
          · exact ih (h.advance ha fun dz curr d hm =>
              h.not_moves_of_not_isPrimative ha (by simpa using hprim) hm) hnodup hrun
          · rw [Bool.not_eq_true', Bool.not_eq_false] at hprim
            cases hr : Hippocrates.raiseFixLocation E s.fixMap (some fl) desc with
            | none => simp [hr] at hrun
            | some r =>
                obtain ⟨fixMap, success⟩ := r
                simp only [hr] at hrun
                refine ih (h.raiseFixLocation ha hprim hr) ?_ hrun
                dsimp only
                split_ifs
                -- what has moved before lies behind the cursor
                · have hfl : fl ∉ s.moved := fun hmem =>
                    lt_irrefl fl (lt_of_past ha ((h.moved fl).mp hmem).1)
                  rw [List.nodup_append]
                  refine ⟨hnodup, List.nodup_singleton fl, fun a ha' b hb hab => hfl ?_⟩
                  rw [← List.mem_singleton.mp hb, ← hab]
                  exact ha'
                · exact hnodup

/-- Fixes that are there and differ can be erased. -/
lemma exists_eraseMoved {fixMap : FixMap} {moved : List FixLoc} (hnodup : moved.Nodup)
    (hfind : ∀ fl ∈ moved, fixMap.find fl ≠ none) : ∃ fm, eraseMoved fixMap moved = some fm := by
  induction moved generalizing fixMap with
  | nil => exact ⟨fixMap, rfl⟩
  | cons fl moved ih =>
      rw [List.nodup_cons] at hnodup
      rw [eraseMoved, if_neg (hfind fl List.mem_cons_self)]
      refine ih hnodup.2 fun fl' hmem => ?_
      have hne : fl' ≠ fl := fun heq => hnodup.1 (heq ▸ hmem)
      rw [OrderedMap.find_erase, if_neg hne]
      exact hfind fl' (List.mem_cons_of_mem fl hmem)

/-- **The raising completes** unless a raise fails: the erasure finds what moved. -/
theorem runFixMapOptimization_eq_none_iff :
    runFixMapOptimization E M = none ↔ ∃ fl desc, FailsAt E M fl desc := by
  have hloop := optimizeLoop_eq_none_iff (E := E) (M := M) loopInv_start
    (Nat.lt_succ_of_le (remaining_none_le M))
  have hstart : (∃ fl desc, FailsAt E M fl desc) ↔
      ∃ fl desc, FailsAt E M fl desc ∧ ¬ Past none fl := by simp [Past]
  rw [hstart, ← hloop, runFixMapOptimization]
  cases hrun : optimizeLoop E (2 * M.entries.length + 1) none ⟨M, [], false⟩ with
  | none => simp
  | some s =>
      refine iff_of_false (fun hnone => ?_) (Option.some_ne_none s)
      obtain ⟨cursor, hinv, -⟩ := optimizeLoop_inv loopInv_start hrun
      obtain ⟨fm, herase⟩ := exists_eraseMoved
        (optimizeLoop_nodup loopInv_start List.nodup_nil hrun) fun fl hmem hfind => by
          obtain ⟨-, desc, curr, d, hm⟩ := (hinv.moved fl).mp hmem
          have hfind' := (hinv.find_eq_none_iff.mp hfind).1
          rw [hm.raises.find] at hfind'
          cases hfind'
      simp [herase] at hnone

end Loop

lemma finalMap_eq_none_iff : finalMap E l = none ↔ ∃ fl desc, FailsAt E l.toMap fl desc := by
  rw [finalMap, Option.map_eq_none_iff, runFixMapOptimization_eq_none_iff]

/-- In a raisable map no raise fails. -/
lemma Raisable.not_failsAt (hraise : Raisable E l) {fl : FixLoc} {desc : FixDesc} :
    ¬ FailsAt E l.toMap fl desc := by
  intro h
  obtain ⟨t, ht, haccept⟩ := hraise fl desc (FixEntries.find_toMap.mp h.find) h.primative
  obtain ⟨curr, d, rfl, hold⟩ := h.refused t ht
  obtain ⟨hvalid, hall⟩ := haccept curr d rfl
  obtain ⟨old, hfind, hno, -⟩ := hold hvalid
  exact hno (hall old (FixEntries.find_toMap.mp hfind))

/-! ### What remains, apart from the order -/

lemma raises_toMap_iff {fl curr : FixLoc} {desc d : FixDesc} :
    Raises E l.toMap fl desc curr d ↔ (fl, desc) ∈ l.entries ∧ desc.type.isPrimative = true ∧
      raiseTarget E true desc = some (some (curr, d)) :=
  ⟨fun h => ⟨FixEntries.find_toMap.mp h.find, h.primative, h.target⟩,
    fun h => ⟨FixEntries.find_toMap.mpr h.1, h.2.1, h.2.2⟩⟩

lemma Displaces.raises {fl curr : FixLoc} {desc d : FixDesc} (h : Displaces E l fl desc curr d) :
    Raises E l.toMap fl desc curr d := raises_toMap_iff.mpr ⟨h.mem, h.primative, h.target⟩

/-- What moves in some order moves if it comes first. -/
lemma Moves.displaces {fl curr : FixLoc} {desc d : FixDesc}
    (h : Moves E l.toMap fl desc curr d) : Displaces E l fl desc curr d := by
  obtain ⟨hmem, hprim, htarget⟩ := raises_toMap_iff.mp h.raises
  refine ⟨hmem, hprim, htarget, fun old hold => ?_⟩
  have hfind := FixEntries.find_toMap.mpr hold
  exact ⟨h.fence hfind, h.ne_opt hfind⟩

/-- A raise with a fence changes the map unless there is one with a fence. -/
lemma RaisesFence.displaces {z curr : FixLoc} (h : RaisesFence E l.toMap z curr)
    (hne : ∀ old, (curr, old) ∈ l.entries → old.type ≠ ADD_PERSIST_CALLSTACK_OPT) :
    ∃ dz d, Displaces E l z dz curr d := by
  obtain ⟨dz, d, hr, hd⟩ := h
  obtain ⟨hmem, hprim, htarget⟩ := raises_toMap_iff.mp hr
  exact ⟨dz, d, hmem, hprim, htarget, fun old hold => ⟨hd, hne old hold⟩⟩

/-- In a map that is apart the order does not matter for what moves. -/
lemma Apart.moves_iff (hapart : Apart E l) {fl curr : FixLoc} {desc d : FixDesc} :
    Moves E l.toMap fl desc curr d ↔ Displaces E l fl desc curr d := by
  refine ⟨Moves.displaces, fun h => ⟨h.raises, intact_iff.mpr fun z hlt hz _ => ?_, ?_⟩⟩
  · obtain ⟨dz, d', hz⟩ := hz.displaces fun old hold => by
      have hold' := FixEntries.find_toMap.mpr hold
      obtain rfl := Option.some.inj (h.raises.find.symm.trans hold')
      exact ne_opt_of_isPrimative h.primative
    exact hlt.ne (hapart.sources z dz fl d' desc curr d hz h)
  · rw [Takes]
    split_ifs with hd
    · have hne : ∀ old, (curr, old) ∈ l.entries → old.type ≠ ADD_PERSIST_CALLSTACK_OPT :=
        fun old hold => (h.takes old hold).2
      refine ⟨fun e he => hne e (FixEntries.find_toMap.mp he), fun z hlt hz _ => ?_⟩
      obtain ⟨dz, d', hz⟩ := hz.displaces hne
      exact hlt.ne (hapart.targets z dz fl desc curr d' d hz h)
    · have hfree : ∀ old, (curr, old) ∉ l.entries := fun old hold => hd (h.takes old hold).1
      refine ⟨Option.eq_none_iff_forall_ne_some.mpr fun old hold =>
        hfree old (FixEntries.find_toMap.mp hold), fun z hlt dz d' hz _ => ?_⟩
      obtain ⟨hmem, hprim, htarget⟩ := raises_toMap_iff.mp hz
      exact hlt.ne (hapart.targets z dz fl desc curr d' d
        ⟨hmem, hprim, htarget, fun old hold => absurd hold (hfree old)⟩ h)

/-- The entry of `curr` when all raises that change the map have been made. -/
def Settled (E : RaiseEnv) (l : FixEntries) (curr : FixLoc) (e : FixDesc) : Prop :=
  ((∃ fl desc, Displaces E l fl desc curr e) ∨
    ((curr, e) ∈ l.entries ∧ ∀ fl desc d, ¬ Displaces E l fl desc curr d)) ∧
    ∀ desc c d, ¬ Displaces E l curr desc c d

lemma Apart.remains_iff (hapart : Apart E l) {curr : FixLoc} {e : FixDesc} :
    Remains E l.toMap curr e ↔ Settled E l curr e := by
  rw [Remains, Settled]
  refine and_congr ⟨fun h => ?_, ?_⟩
    (forall_congr' fun desc => forall_congr' fun c => forall_congr' fun d =>
      not_congr hapart.moves_iff)
  · cases h with
    | moved hm => exact .inl ⟨_, _, hm.displaces⟩
    | kept he hfree =>
        exact .inr ⟨FixEntries.find_toMap.mp he, fun fl desc d h =>
          hfree fl desc d (hapart.moves_iff.mpr h) trivial⟩
  · rintro (⟨fl, desc, h⟩ | ⟨hmem, hfree⟩)
    · exact .moved (hapart.moves_iff.mpr h) trivial fun z dz d' hz _ _ =>
        hapart.targets z dz fl desc curr d' e hz.displaces h
    · exact .kept (FixEntries.find_toMap.mpr hmem) fun z dz d' hz _ => hfree z dz d' hz.displaces

/-- The map left by a raisable map that is apart. -/
lemma Raisable.finalMap (hraise : Raisable E l) (hapart : Apart E l) :
    ∃ f, finalMap E l = some f ∧ ∀ curr e, f curr = some e ↔ Settled E l curr e := by
  obtain ⟨f, hf⟩ := Option.ne_none_iff_exists'.mp fun hnone => by
    obtain ⟨fl, desc, hfails⟩ := (finalMap_eq_none_iff (E := E) (l := l)).mp hnone
    exact hraise.not_failsAt hfails
  obtain ⟨⟨fm, res⟩, hrun, rfl⟩ := Option.map_eq_some_iff.mp hf
  refine ⟨fm.find, hf, fun curr e => ?_⟩
  rw [runFixMapOptimization_spec hrun, hapart.remains_iff]

/-! ### The order in which one raise comes first -/

section First

variable {p : FixLoc} (hleast : ∀ fl, p ≤ fl)
include hleast

lemma intact_of_first : Intact E l.toMap p :=
  intact_iff.mpr fun z hlt => absurd (hleast z) (not_le.mpr hlt)

/-- A raise that comes first moves. -/
lemma Displaces.moves_of_first {curr : FixLoc} {desc d : FixDesc}
    (h : Displaces E l p desc curr d) : Moves E l.toMap p desc curr d := by
  have hnone : ∀ z, ¬ z < p := fun z hlt => absurd (hleast z) (not_le.mpr hlt)
  refine ⟨h.raises, intact_of_first hleast, ?_⟩
  rw [Takes]
  split_ifs with hd
  · exact ⟨fun e he => (h.takes e (FixEntries.find_toMap.mp he)).2,
      fun z hlt => absurd hlt (hnone z)⟩
  · exact ⟨Option.eq_none_iff_forall_ne_some.mpr fun e he =>
      hd (h.takes e (FixEntries.find_toMap.mp he)).1, fun z hlt => absurd hlt (hnone z)⟩

end First

/-- What moves leaves its location. -/
lemma final_eq_none {f : FixLoc → Option FixDesc} (hrun : finalMap E l = some f)
    {fl curr : FixLoc} {desc d : FixDesc} (h : Moves E l.toMap fl desc curr d) : f fl = none := by
  obtain ⟨⟨fm, res⟩, hcomplete, rfl⟩ := Option.map_eq_some_iff.mp hrun
  refine Option.eq_none_iff_forall_ne_some.mpr fun e he => ?_
  exact ((runFixMapOptimization_spec hcomplete fl e).mp he).2 desc curr d h

/-- What does not move leaves an entry at its location. -/
lemma final_ne_none {f : FixLoc → Option FixDesc} (hrun : finalMap E l = some f)
    {fl : FixLoc} {desc : FixDesc} (hmem : (fl, desc) ∈ l.entries)
    (h : ∀ dz curr d, ¬ Moves E l.toMap fl dz curr d) : f fl ≠ none := by
  obtain ⟨⟨fm, res⟩, hcomplete, rfl⟩ := Option.map_eq_some_iff.mp hrun
  intro hnone
  have hempty : ∀ e, ¬ Holds E l.toMap (fun _ => True) fl e := fun e he => by
    have hfind := (runFixMapOptimization_spec hcomplete fl e).mpr ⟨he, h⟩
    rw [hnone] at hfind
    cases hfind
  have hfind := (holds_none_iff.mp hempty).1
  rw [FixEntries.find_toMap.mpr hmem] at hfind
  cases hfind

end Order

/-- The order of the locations with `p` put first. -/
abbrev firstOrder (p : FixLoc) (o : LinearOrder FixLoc) : LinearOrder FixLoc :=
  LinearOrder.lift' (fun fl => if fl = p then (⊥ : WithBot FixLoc) else fl) fun a b h => by
    dsimp only at h
    split_ifs at h with ha hb hb
    · rw [ha, hb]
    · cases h
    · cases h
    · exact WithBot.coe_injective h

lemma firstOrder_le (p : FixLoc) (o : LinearOrder FixLoc) (fl : FixLoc) :
    (firstOrder p o).le p fl := by
  show (if p = p then (⊥ : WithBot FixLoc) else p) ≤ if fl = p then (⊥ : WithBot FixLoc) else fl
  rw [if_pos rfl]
  exact bot_le

section Main

variable {E : RaiseEnv} {l : FixEntries}

/-- If all orders complete, each raise succeeds on the map as it is: it comes first in one. -/
lemma raisable_of_final (hrun : ∀ o, ∃ f, @finalMap o E l = some f) : Raisable E l := by
  intro fl desc hmem hprim
  let o := firstOrder fl (FixLoc.compare InstId.address InstId.address_injective)
  have hleast : ∀ fl', fl ≤ fl' := firstOrder_le fl _
  obtain ⟨f, hf⟩ := hrun o
  by_contra hno
  push Not at hno
  have hfails : FailsAt E l.toMap fl desc := by
    refine ⟨FixEntries.find_toMap.mpr hmem, hprim, intact_of_first hleast, fun t ht => ?_⟩
    obtain ⟨curr, d, rfl, hold⟩ := hno t ht
    refine ⟨curr, d, rfl, fun hvalid => ?_⟩
    obtain ⟨old, hmem', hrefuse⟩ := hold hvalid
    exact ⟨old, FixEntries.find_toMap.mpr hmem', hrefuse, fun z hlt =>
      absurd (hleast z) (not_le.mpr hlt)⟩
  rw [finalMap_eq_none_iff.mpr ⟨fl, desc, hfails⟩] at hf
  cases hf

/-- **One of two raises comes first**: if the first moves and then keeps the second from moving,
the orders that put one or the other first differ. -/
lemma differ_of_blocked {f : FixLoc → Option FixDesc} (hf : ∀ o, @finalMap o E l = some f)
    {p q curr : FixLoc} {desc d : FixDesc} (hp : Displaces E l p desc curr d)
    (hblocked : ∀ o : LinearOrder FixLoc, (∀ fl, o.le q fl) →
      ∀ dz c d', ¬ @Moves o E (@FixEntries.toMap o l) p dz c d') : False := by
  let base := FixLoc.compare InstId.address InstId.address_injective
  have hnone : f p = none :=
    @final_eq_none (firstOrder p base) _ _ _ (hf _) _ _ _ _
      (@Displaces.moves_of_first (firstOrder p base) _ _ _ (firstOrder_le p base) _ _ _ hp)
  exact @final_ne_none (firstOrder q base) _ _ _ (hf _) _ _ hp.mem
    (hblocked _ (firstOrder_le q base)) hnone

/-- A raise with a fence that comes first blocks the raises to its target, and one without a
fence those without a fence. -/
lemma not_moves_of_target {p q curr : FixLoc} {desc d desc' d' : FixDesc}
    (hp : Displaces E l p desc curr d) (hq : Displaces E l q desc' curr d') (hne : p ≠ q)
    (hkind : d.type = ADD_PERSIST_CALLSTACK_OPT → d'.type = ADD_PERSIST_CALLSTACK_OPT)
    (o : LinearOrder FixLoc) (hleast : ∀ fl, q ≤ fl) (dz : FixDesc) (c : FixLoc) (e : FixDesc) :
    ¬ Moves E l.toMap p dz c e := by
  intro hm
  obtain ⟨rfl, rfl, rfl⟩ := hm.raises.unique hp.raises
  have hlt : q < p := lt_of_le_of_ne (hleast p) hne.symm
  have hq' := hq.moves_of_first hleast
  have hbefore := hm.not_before hq' hlt
  exact hbefore.2 (hkind hbefore.1)

/-- A raise that comes first keeps the fix of its target from moving. -/
lemma not_moves_of_source {p q curr : FixLoc} {desc d desc' d' : FixDesc}
    (hq : Displaces E l q desc' p d') (hp : Displaces E l p desc curr d) (hne : q ≠ p)
    (o : LinearOrder FixLoc) (hleast : ∀ fl, q ≤ fl) (dz : FixDesc) (c : FixLoc) (e : FixDesc) :
    ¬ Moves E l.toMap p dz c e := by
  intro hm
  have hlt : q < p := lt_of_le_of_ne (hleast p) hne
  exact intact_iff.mp hm.intact q hlt ⟨desc', d', hq.raises, (hq.takes desc hp.mem).1⟩
    (intact_of_first hleast)

/-- If the orders agree and complete, the map is apart. -/
lemma apart_of_final {f : FixLoc → Option FixDesc} (hf : ∀ o, @finalMap o E l = some f) :
    Apart E l := by
  constructor
  · intro fl desc fl' desc' curr d d' h h'
    by_contra hne
    by_cases hkind : d.type = ADD_PERSIST_CALLSTACK_OPT → d'.type = ADD_PERSIST_CALLSTACK_OPT
    · exact differ_of_blocked hf h (not_moves_of_target h h' hne hkind)
    · rw [Classical.not_imp] at hkind
      exact differ_of_blocked hf h'
        (not_moves_of_target h' h (Ne.symm hne) fun _ => hkind.1)
  · intro fl desc curr d desc' curr' d' h h'
    by_contra hne
    exact differ_of_blocked hf h' (not_moves_of_source h h' hne)

/-- **When the map left does not depend on the addresses**: when a raise fails whatever the
order, or no raise fails on the map as it is and the raises that change it are apart. -/
theorem sameMap_iff (E : RaiseEnv) (l : FixEntries) :
    SameMap E l ↔ (∀ _ : LinearOrder FixLoc, ∃ fl desc, FailsAt E l.toMap fl desc) ∨
      (Raisable E l ∧ Apart E l) := by
  have hfails : ∀ o : LinearOrder FixLoc,
      finalMap E l = none ↔ ∃ fl desc, FailsAt E l.toMap fl desc := fun o => finalMap_eq_none_iff
  simp only [← hfails]
  constructor
  · intro hsame
    by_cases hnone : ∀ o, @finalMap o E l = none
    · exact .inl hnone
    · obtain ⟨o, ho⟩ := not_forall.mp hnone
      obtain ⟨f, hf⟩ := Option.ne_none_iff_exists'.mp ho
      have hall : ∀ o', @finalMap o' E l = some f := fun o' => (hsame o' o).trans hf
      exact .inr ⟨raisable_of_final fun o' => ⟨f, hall o'⟩, apart_of_final hall⟩
  · rintro (hnone | ⟨hraise, hapart⟩) o o'
    · rw [hnone o, hnone o']
    · obtain ⟨f, hf, hsettled⟩ := @Raisable.finalMap o E l hraise hapart
      obtain ⟨f', hf', hsettled'⟩ := @Raisable.finalMap o' E l hraise hapart
      rw [hf, hf', Option.some.injEq]
      funext curr
      exact Option.ext fun e => (hsettled curr e).trans (hsettled' curr e).symm

end Main

/-! ### Two raises to one line

The fixes of `bothFixes`: if that of `put` is raised first both move to the line, if that of
`del` is raised first that of `put` stays. -/

def twoFixes : FixEntries :=
  ⟨[(FixLoc.single (InstId.orig 0), putFlush), (FixLoc.single (InstId.orig 1), delFlushAndFence)],
    by simp [FixLoc.single, InstId.orig]⟩

theorem twoFixes_not_sameMap : ¬ SameMap twoCallsEnv twoFixes := by
  intro hsame
  let base := FixLoc.compare InstId.address InstId.address_injective
  have hrun : (finalMap twoCallsEnv twoFixes).isSome = true := rfl
  obtain ⟨f, hf⟩ := Option.isSome_iff_exists.mp hrun
  have hall : ∀ o, @finalMap o twoCallsEnv twoFixes = some f := fun o => (hsame o base).trans hf
  -- both raises land on the call site, which has no entry
  have hfree : ∀ old, ((⟨InstId.orig 2, InstId.orig 3⟩ : FixLoc), old) ∉ twoFixes.entries := by
    simp [twoFixes, FixLoc.single, InstId.orig]
  have hput : Displaces twoCallsEnv twoFixes (FixLoc.single (InstId.orig 0)) putFlush _ _ :=
    ⟨List.mem_cons_self, rfl, rfl, fun old hold => absurd hold (hfree old)⟩
  have hdel : Displaces twoCallsEnv twoFixes (FixLoc.single (InstId.orig 1)) delFlushAndFence _ _ :=
    ⟨List.mem_cons_of_mem _ List.mem_cons_self, rfl, rfl, fun old hold => absurd hold (hfree old)⟩
  have heq := (apart_of_final hall).targets _ _ _ _ _ _ _ hput hdel
  exact absurd (congrArg FixLoc.last heq) (by decide)

end Hippocrates

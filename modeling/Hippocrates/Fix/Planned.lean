import Mathlib.Tactic
import Hippocrates.Fix.Repair
import Hippocrates.Lib.ForLoop

/-!
What the fix map of a run holds when its fixes are applied.

* `Planned`: a fix as it can be in the map. A primitive fix is at a store or a compare-exchange of
  the location of an operation, a subprogram comes from a raise of the fix of one (`FromRaise`), and
  the call stack of either is that of the operation.
* `FilledTo`: one map comes from another by calls of `addFixToMapping` with such fixes. Each bug is
  a sequence of such calls (`computeAndAddFix_filled`); they leave only such fixes
  (`FilledTo.planned`) and never take away what a fix adds (`FilledTo.adds`).
* `findFixes_planned`: so is every fix of the map, also after the optimization.
-/

namespace Hippocrates

open FixType

/-! ### The fix map -/

/-- A fix of the operation may be raised: its location is not mapped, or, with raising enabled, has
a store or a compare-exchange. -/
def MayRaise (E : RaiseEnv) (raising : Bool) (te : TraceEvent) : Prop :=
  E.mapper te.location = none ∨ raising = true ∧
    ∃ fixLocs i, E.mapper te.location = some fixLocs ∧ InstOf E.module fixLocs i ∧
      i.pointerOperand.isSome = true

/-- The raise of a fix of an operation has given the subprogram its call stack and its frame. -/
def FromRaise (E : RaiseEnv) (t : List TraceEvent) (raising : Bool) (desc : FixDesc) : Prop :=
  ∃ te ∈ t, te.callstack = desc.dynStack ∧ MayRaise E raising te ∧
    ∃ desc₀ curr d, raiseTarget E (E.mapper te.location).isSome desc₀ = some (some (curr, d)) ∧
      d.dynStack = desc.dynStack ∧ d.stackIdx = desc.stackIdx

/-- The instruction is at the location of an operation with the call stack. -/
def LocatedAt (E : RaiseEnv) (t : List TraceEvent) (dynStack : List LocationInfo) (i : Instr) :
    Prop :=
  ∃ te ∈ t, te.callstack = dynStack ∧
    ∃ fixLocs, E.mapper te.location = some fixLocs ∧ InstOf E.module fixLocs i

/-- A fix of the map for operations of `t`: where it is, and where its call stack is from. -/
structure Planned (E : RaiseEnv) (t : List TraceEvent) (raising : Bool) (fl : FixLoc)
    (desc : FixDesc) : Prop where
  valid : fl.isValid E.module = true
  kind : desc.type.isPST = true ∧ FromRaise E t raising desc ∨ desc.type.isPrimative = true ∧
    ∃ i ∈ E.module.insts, i.pointerOperand.isSome = true ∧ fl = FixLoc.single i.id ∧
      LocatedAt E t desc.dynStack i

section Planned

variable [LinearOrder FixLoc] {E : RaiseEnv} {t : List TraceEvent} {raising : Bool} {fl : FixLoc}
  {desc : FixDesc}

/-- Every fix of the map. -/
def AllPlanned (E : RaiseEnv) (t : List TraceEvent) (raising : Bool) (fixMap : FixMap) : Prop :=
  ∀ fl desc, fixMap.find fl = some desc → Planned E t raising fl desc

/-- The second map comes from the first by calls of `addFixToMapping`. -/
def FilledTo (E : RaiseEnv) (t : List TraceEvent) (raising : Bool) : FixMap → FixMap → Prop :=
  Relation.ReflTransGen fun fixMap fixMap' => ∃ fl desc res, Planned E t raising fl desc ∧
    addFixToMapping E.module fixMap fl desc = some (fixMap', res)

omit [LinearOrder FixLoc] in
/-- Its call stack is that of an operation. -/
lemma Planned.stack (h : Planned E t raising fl desc) : ∃ te ∈ t, te.callstack = desc.dynStack := by
  rcases h.kind with ⟨-, te, hte, hstack, -⟩ | ⟨-, i, -, -, -, te, hte, hstack, -⟩
  all_goals exact ⟨te, hte, hstack⟩

/-- A merge of two fixes is one. -/
lemma Planned.coalesce {old new : FixDesc} (hold : Planned E t raising fl old)
    (h : Planned E t raising fl desc) (hco : coalesce old desc = some (some new)) :
    Planned E t raising fl new := by
  cases coalesce_cases hco with
  | both hprim _ =>
      refine ⟨hold.valid, .inr ⟨rfl, ?_⟩⟩
      rcases hold.kind with ⟨hpst, -⟩ | ⟨-, hat⟩
      · exact absurd hpst (not_isPST_of_isPrimative hprim)
      · exact hat
  | removal hremove _ =>
      rcases hold.kind with ⟨hpst, -⟩ | ⟨hprim, -⟩
      · rw [hremove] at hpst
        cases hpst
      · rw [hremove] at hprim
        cases hprim
  | replaced => exact h
  | fenced hnofence =>
      refine ⟨hold.valid, .inl ⟨rfl, ?_⟩⟩
      rcases hold.kind with ⟨-, hraised⟩ | ⟨hprim, -⟩
      · exact hraised
      · rw [hnofence] at hprim
        cases hprim

/-- What one call does to the map. -/
lemma addFixToMapping_cases {m : Module} {fixMap fixMap' : FixMap} {res : Bool}
    (h : addFixToMapping m fixMap fl desc = some (fixMap', res)) :
    fl.isValid m = true ∧ (fixMap' = fixMap ∨ ∃ new, fixMap' = fixMap.insert fl new ∧
      (new = desc ∧ fixMap.find fl = none ∨
        ∃ old, fixMap.find fl = some old ∧ coalesce old desc = some (some new))) := by
  rw [addFixToMapping] at h
  split at h
  · cases h
  · rename_i hvalid
    refine ⟨by simpa using hvalid, ?_⟩
    split at h
    · cases h
    · split at h
      · rename_i hfind
        simp only [Option.some.injEq, Prod.mk.injEq] at h
        exact .inr ⟨desc, h.1.symm, .inl ⟨rfl, hfind⟩⟩
      · rename_i old hfind
        split at h
        · cases h
        · simp only [Option.some.injEq, Prod.mk.injEq] at h
          exact .inl h.1.symm
        · rename_i new hco
          simp only [Option.some.injEq, Prod.mk.injEq] at h
          exact .inr ⟨new, h.1.symm, .inr ⟨old, hfind, hco⟩⟩

/-- Calls with planned fixes leave planned fixes. -/
lemma FilledTo.planned {fixMap fixMap' : FixMap} (h : FilledTo E t raising fixMap fixMap')
    (hmap : AllPlanned E t raising fixMap) : AllPlanned E t raising fixMap' := by
  induction h with
  | refl => exact hmap
  | tail _ hcall ih =>
      obtain ⟨fl, desc, res, hdesc, hadd⟩ := hcall
      rcases (addFixToMapping_cases hadd).2 with rfl | ⟨new, rfl, hnew⟩
      · exact ih
      · have hplanned : Planned E t raising fl new := by
          rcases hnew with ⟨rfl, -⟩ | ⟨old, hfind, hco⟩
          · exact hdesc
          · exact (ih fl old hfind).coalesce hdesc hco
        intro l d hfind
        rw [OrderedMap.find_insert] at hfind
        split_ifs at hfind with hl
        · obtain rfl := Option.some.inj hfind
          exact hl ▸ hplanned
        · exact ih l d hfind

/-- A merge keeps what the old fix adds. -/
lemma old_adds_le {old desc new : FixDesc} (h : coalesce old desc = some (some new)) :
    old.type.adds ≤ new.type.adds := by
  have htop : ∀ a : Bool × Bool, a ≤ (true, true) := fun a => le_top
  cases coalesce_cases h with
  | both => exact htop _
  | removal => exact le_rfl
  | replaced _ hdesc =>
      rw [hdesc]
      exact htop _
  | fenced => exact htop _

/-- No call takes away what the map adds. -/
lemma FilledTo.adds {fixMap fixMap' : FixMap} {need : Bool × Bool} {l : FixLoc}
    (h : FilledTo E t raising fixMap fixMap') (hadds : Adds fixMap need l) :
    Adds fixMap' need l := by
  induction h with
  | refl => exact hadds
  | tail _ hcall ih =>
      obtain ⟨fl, desc, res, -, hadd⟩ := hcall
      rcases (addFixToMapping_cases hadd).2 with rfl | ⟨new, rfl, hnew⟩
      · exact ih
      · obtain ⟨d, hd, hneed⟩ := ih
        rw [Adds, OrderedMap.find_insert]
        split_ifs with hl
        · subst hl
          rcases hnew with ⟨-, hfind⟩ | ⟨old, hfind, hco⟩
          · rw [hfind] at hd
            cases hd
          · obtain rfl := Option.some.inj (hfind.symm.trans hd)
            exact ⟨new, rfl, hneed.trans (old_adds_le hco)⟩
        · exact ⟨d, hd, hneed⟩

lemma foldlM_filled {σ α : Type*} {p : σ → FixMap} {step : σ → α → Option σ} {xs : List α}
    {s s' : σ} (hstep : ∀ x ∈ xs, ∀ s s', step s x = some s' → FilledTo E t raising (p s) (p s'))
    (h : xs.foldlM step s = some s') : FilledTo E t raising (p s) (p s') :=
  ForLoop.foldlM_inv (b := s) (I := fun b => FilledTo E t raising (p s) (p b))
    Relation.ReflTransGen.refl
    (fun x hx _ _ hrun hb => hb.trans (hstep x hx _ _ hrun)) h

/-- A raise of a fix of an operation adds a subprogram over its call stack. -/
lemma raiseFixLocation_filled {E : RaiseEnv} {fixMap fixMap' : FixMap} {start : Option FixLoc}
    {res : Bool} {te : TraceEvent} (hte : te ∈ t) (hstack : te.callstack = desc.dynStack)
    (hmay : MayRaise E raising te) (hstart : (E.mapper te.location).isSome = start.isSome)
    (h : raiseFixLocation E fixMap start desc = some (fixMap', res)) :
    FilledTo E t raising fixMap fixMap' := by
  rw [raiseFixLocation] at h
  split at h
  · cases h
  · simp only [Option.some.injEq, Prod.mk.injEq] at h
    exact h.1 ▸ .refl
  · rename_i curr desc' htarget
    have hsame : te.callstack = desc'.dynStack := by rw [hstack, (raiseTarget_desc htarget).1]
    refine .single ⟨_, _, res, ⟨(addFixToMapping_cases h).1, .inl ⟨raiseTarget_isPST htarget, ?_⟩⟩,
      h⟩
    exact ⟨te, hte, hsame, hmay, desc, curr, desc', hstart ▸ htarget, rfl, rfl⟩

omit [LinearOrder FixLoc] in
lemma Diagnosis.fixType_isPrimative {d : Diagnosis} (h : d.fixType ≠ NO_FIX) :
    d.fixType.isPrimative = true := by
  rw [Diagnosis.fixType] at h ⊢
  split_ifs at h ⊢ <;> first | rfl | exact absurd rfl h

omit [LinearOrder FixLoc] in
/-- The fix of a diagnosis adds just what is missing. -/
lemma Diagnosis.fixType_adds (d : Diagnosis) : d.fixType.adds = d.missing := by
  obtain ⟨mf, mfe, ops⟩ := d
  cases mf <;> cases mfe <;> rfl

section Bug

variable {clSz : ℕ} {E : RaiseEnv} {d : Diagnosis} {last : TraceEvent}
  {acc acc' : FixMap × Bool}

lemma addAtInst_filled (hlast : last ∈ t) {fixLocs : List FixLoc}
    (hmap : E.mapper last.location = some fixLocs) {i : Instr} (hi : InstOf E.module fixLocs i)
    (h : addAtInst clSz E d last acc i = some acc') : FilledTo E t raising acc.1 acc'.1 := by
  rw [addAtInst] at h
  split at h
  · exact Option.some.inj h ▸ .refl
  · rename_i hptr
    split at h
    · cases h
    · split at h
      · cases h
      · split at h
        · cases h
        · split at h
          · exact Option.some.inj h ▸ .refl
          · rename_i hfix
            obtain ⟨⟨fixMap', res⟩, hadd, rfl⟩ := Option.map_eq_some_iff.mp h
            refine .single ⟨_, _, res, ⟨(addFixToMapping_cases hadd).1, ?_⟩, hadd⟩
            obtain ⟨fLoc, -, insts, hinsts, hmem⟩ := id hi
            refine .inr ⟨Diagnosis.fixType_isPrimative hfix, i, FixLoc.mem_insts hinsts hmem, ?_,
              rfl, last, hlast, rfl, fixLocs, hmap, hi⟩
            simpa [Option.isNone_iff_eq_none, Option.isSome_iff_ne_none] using hptr

/-- One operation of a bug. -/
lemma fixOp_filled {tr : List TraceEvent} {k : ℕ} (hd : d.fixType ≠ NO_FIX)
    (hops : ∀ last, tr[k]? = some last → last ∈ t)
    (h : fixOp clSz E d tr acc k = some acc') : FilledTo E t raising acc.1 acc'.1 := by
  rw [fixOp] at h
  split at h
  · cases h
  · rename_i last hlast
    have hmem : last ∈ t := hops last hlast
    split at h
    · rename_i fixLocs hmap
      split at h
      · cases h
      · refine foldlM_filled (p := Prod.fst) (fun fLoc hfLoc b b' hloc => ?_) h
        rw [addAtLoc] at hloc
        split at hloc
        · cases hloc
        · rename_i insts hinsts
          exact foldlM_filled (p := Prod.fst) (fun i hi c c' hat =>
            addAtInst_filled hmem hmap ⟨fLoc, hfLoc, insts, hinsts, hi⟩ hat) hloc
    · rename_i hmap
      obtain ⟨⟨fixMap', res⟩, hraise, rfl⟩ := Option.map_eq_some_iff.mp h
      refine raiseFixLocation_filled hmem ?_ (.inl hmap) (by rw [hmap]; rfl) hraise
      rw [indirectDesc, if_neg hd]
      rfl

/-- The diagnosis of the bug collects operations of `t` only. -/
def CollectsFrom (clSz : ℕ) (tr : List TraceEvent) (t : List TraceEvent) (bug_index : ℕ) :
    Prop :=
  ∀ te d k last, tr[bug_index]? = some te → te.type = .ASSERT_PERSISTED → te.isBug = true →
    diagnose clSz tr te bug_index = some d → k ∈ d.opIndices → tr[k]? = some last → last ∈ t

omit [LinearOrder FixLoc] in
lemma collectsFrom_self (clSz : ℕ) (tr : List TraceEvent) (bug_index : ℕ) :
    CollectsFrom clSz tr tr bug_index :=
  fun _ _ _ _ _ _ _ _ _ hlast => List.mem_of_getElem? hlast

/-- **One bug** is a sequence of calls. -/
lemma computeAndAddFix_filled {tr : List TraceEvent} {fixMap : FixMap} {bug_index : ℕ}
    {r : FixMap × Bool} (hops : CollectsFrom clSz tr t bug_index)
    (h : computeAndAddFix clSz E tr fixMap bug_index = some r) :
    FilledTo E t raising fixMap r.1 := by
  rw [computeAndAddFix] at h
  split at h
  · cases h
  · rename_i te hte
    split at h
    · cases h
    · rename_i hbug
      split at h
      · rename_i htype
        split at h
        · cases h
        · rw [handleAssertPersisted] at h
          split at h
          · cases h
          · rename_i d hd
            exact foldlM_filled (p := Prod.fst) (fun k hk b b' hop =>
              fixOp_filled (diagnose_fixType_ne hd)
                (fun last hlast => hops te d k last hte htype (by simpa using hbug) hd hk hlast)
                hop) h
      · exact Option.some.inj h ▸ .refl

end Bug

/-- A primitive fix of the map is raised as one of its operation. -/
lemma Planned.raiseFixLocation_filled {E : RaiseEnv} {fixMap fixMap' : FixMap} {res : Bool}
    (h : Planned E t true fl desc) (hprim : desc.type.isPrimative = true)
    (hraise : raiseFixLocation E fixMap (some fl) desc = some (fixMap', res)) :
    FilledTo E t true fixMap fixMap' := by
  rcases h.kind with ⟨hpst, -⟩ | ⟨-, i, -, hptr, -, te, hte, hstack, fixLocs, hmap, hi⟩
  · exact absurd hpst (not_isPST_of_isPrimative hprim)
  · exact Hippocrates.raiseFixLocation_filled hte hstack (.inr ⟨rfl, fixLocs, i, hmap, hi, hptr⟩)
      (by rw [hmap]; rfl) hraise

/-- The loop over the map raises fixes of the map. -/
lemma optimizeLoop_planned {E : RaiseEnv} {n : ℕ} {cursor : Option FixLoc} {s s' : OptState}
    (hmap : AllPlanned E t true s.fixMap) (h : optimizeLoop E n cursor s = some s') :
    AllPlanned E t true s'.fixMap := by
  induction n generalizing cursor s with
  | zero => cases h
  | succ n ih =>
      rw [optimizeLoop] at h
      split at h
      · exact Option.some.inj h ▸ hmap
      · rename_i fl desc hafter
        have hplanned := hmap fl desc (OrderedMap.find_of_after hafter).1
        split at h
        · exact ih hmap h
        · rename_i happlies
          split at h
          · cases h
          · rename_i hraise
            exact ih ((hplanned.raiseFixLocation_filled (by simpa using happlies) hraise).planned
              hmap) h

/-- The optimization of the map. -/
lemma runFixMapOptimization_planned {E : RaiseEnv} {fixMap : FixMap} {r : FixMap × Bool}
    (hmap : AllPlanned E t true fixMap) (h : runFixMapOptimization E fixMap = some r) :
    AllPlanned E t true r.1 := by
  rw [runFixMapOptimization] at h
  split at h
  · cases h
  · rename_i s hloop
    obtain ⟨fm, herase, rfl⟩ := Option.map_eq_some_iff.mp h
    intro fl desc hfind
    rw [find_of_eraseMoved herase] at hfind
    split_ifs at hfind
    exact optimizeLoop_planned hmap hloop fl desc hfind

/-- The fix map that the bugs fill, before the optimization. -/
def RepairEnv.bugFixes (R : RepairEnv) (F : Flags) (A : AliasInfo) : Option FixMap :=
  R.bugs.foldlM (fun fixMap bug =>
    (computeAndAddFix R.clSz (R.raiseEnv F A) R.trace fixMap bug).map Prod.fst) OrderedMap.empty

section Run

variable {R : RepairEnv} {F : Flags} {A : AliasInfo} {fixMap : FixMap} {ops : List TraceEvent}

lemma bugFixes_filled (hops : ∀ bug ∈ R.bugs, CollectsFrom R.clSz R.trace ops bug)
    (h : R.bugFixes F A = some fixMap) :
    FilledTo (R.raiseEnv F A) ops raising OrderedMap.empty fixMap := by
  refine foldlM_filled (p := id) (fun bug hbug fm fm' hrun => ?_) h
  obtain ⟨r, hr, rfl⟩ := Option.map_eq_some_iff.mp hrun
  exact computeAndAddFix_filled (hops bug hbug) hr

lemma bugFixes_planned (hops : ∀ bug ∈ R.bugs, CollectsFrom R.clSz R.trace ops bug)
    (h : R.bugFixes F A = some fixMap) : AllPlanned (R.raiseEnv F A) ops raising fixMap :=
  (bugFixes_filled hops h).planned fun _ _ hfind => by cases hfind

/-- **The fix map of a run**: the bugs fill it, and the optimization moves some of its fixes. -/
lemma findFixes_cases (h : R.findFixes F A = some fixMap) :
    ∃ filled, R.bugFixes F A = some filled ∧ (F.disableRaising = true → fixMap = filled) ∧
      (F.disableRaising = false →
        ∃ res, runFixMapOptimization (R.raiseEnv F A) filled = some (fixMap, res)) := by
  rw [RepairEnv.findFixes] at h
  split at h
  · cases h
  · rename_i filled hbugs
    refine ⟨filled, hbugs, fun hoff => ?_, fun hon => ?_⟩
    · rw [if_pos hoff] at h
      exact (Option.some.inj h).symm
    · rw [if_neg (by simp [hon])] at h
      obtain ⟨⟨fm, res⟩, hr, rfl⟩ := Option.map_eq_some_iff.mp h
      exact ⟨res, hr⟩

/-- Every fix of the map is planned. -/
lemma findFixes_planned_of (hops : ∀ bug ∈ R.bugs, CollectsFrom R.clSz R.trace ops bug)
    (h : R.findFixes F A = some fixMap) :
    AllPlanned (R.raiseEnv F A) ops (!F.disableRaising) fixMap := by
  obtain ⟨filled, hbugs, hoff, hon⟩ := findFixes_cases h
  cases hF : F.disableRaising with
  | true => exact hoff hF ▸ bugFixes_planned hops hbugs
  | false =>
      obtain ⟨res, hopt⟩ := hon hF
      exact runFixMapOptimization_planned (E := R.raiseEnv F A) (bugFixes_planned hops hbugs) hopt

lemma findFixes_planned (h : R.findFixes F A = some fixMap) :
    AllPlanned (R.raiseEnv F A) R.trace (!F.disableRaising) fixMap :=
  findFixes_planned_of (fun bug _ => collectsFrom_self R.clSz R.trace bug) h

end Run

end Planned

end Hippocrates

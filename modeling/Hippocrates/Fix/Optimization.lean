import Mathlib.Tactic
import Hippocrates.Fix.Raise

/-!
`BugFixer::runFixMapOptimization`: every primitive fix of the fix map is raised while the map
is being iterated, and the fixes that moved are erased afterwards.

* `optimizeLoop`: the loop. The iterator is a cursor into the map, and the raises may insert
  entries ahead of it; `optimizeLoop_stable` says that fuel for twice the entries is enough.
* `Served`: what becomes of a primitive fix when none is lost. It is kept at its location, or
  a persistent subprogram over the same frames stands for it.
* `Moves`: the raises that succeed, read off the map before and the order of the locations;
  `runFixMapOptimization_spec` says with them what each location holds in the end (`Remains`).
* `Lost`: the fixes that another raise or an erasure removes from their location.

`runFixMapOptimization_served_iff`: all fixes are served exactly when each lost fix has, all the
same, a subprogram that stands for it.
-/

namespace Hippocrates

open FixType

section Optimization

variable [LinearOrder FixLoc]

/-- The variables of the loop. -/
structure OptState where
  fixMap : FixMap
  moved : List FixLoc
  res : Bool

/-- The loop, from the cursor on. -/
def optimizeLoop (E : RaiseEnv) : ℕ → Option FixLoc → OptState → Option OptState
  | 0, _, _ => none
  | n + 1, cursor, s =>
    match s.fixMap.after cursor with
    | none => some s
    | some (fl, desc) =>
      if !desc.type.isPrimative then optimizeLoop E n (some fl) s
      else
        match raiseFixLocation E s.fixMap (some fl) desc with
        | none => none
        | some (fixMap, success) =>
          optimizeLoop E n (some fl)
            ⟨fixMap, if success then s.moved ++ [fl] else s.moved, s.res || success⟩

/-- The erasure of the fixes that moved; each has to be there. -/
def eraseMoved : FixMap → List FixLoc → Option FixMap
  | fixMap, [] => some fixMap
  | fixMap, fl :: moved =>
    if fixMap.find fl = none then none else eraseMoved (fixMap.erase fl) moved

/-- `runFixMapOptimization`. -/
def runFixMapOptimization (E : RaiseEnv) (fixMap : FixMap) : Option (FixMap × Bool) :=
  match optimizeLoop E (2 * fixMap.entries.length + 1) none ⟨fixMap, [], false⟩ with
  | none => none
  | some s => (eraseMoved s.fixMap s.moved).map fun fm => (fm, s.res)

/-! ### What becomes of a fix -/

/-- The fix flushes at its own location. -/
def FixType.flushesHere (t : FixType) : Bool := t == ADD_FLUSH_ONLY || t == ADD_FLUSH_AND_FENCE

/-- The entry does at its location what the fix asks for. -/
def Does (e desc : FixDesc) : Prop :=
  (desc.type.flushesHere = true → e.type.flushesHere = true) ∧
    (desc.type.addsFence = true → e.type.addsFence = true)

/-- The functions of the first frames of a call stack. -/
def frameFns (stack : List LocationInfo) (n : ℕ) : List String :=
  (stack.take n).map LocationInfo.function

/-- The entry is a persistent subprogram over the frames of the fix, with a fence if the fix
asks for one. -/
def StandsFor (e desc : FixDesc) : Prop :=
  e.type.isPST = true ∧ frameFns e.dynStack e.stackIdx = frameFns desc.dynStack e.stackIdx ∧
    (desc.type.addsFence = true → e.type.addsFence = true)

/-- The fix of `fl` is not lost: it is kept there, or raised. -/
def Served (fixMap : FixMap) (fl : FixLoc) (desc : FixDesc) : Prop :=
  (∃ e, fixMap.find fl = some e ∧ Does e desc) ∨
    ∃ fl' e, fixMap.find fl' = some e ∧ StandsFor e desc

/-- The map has a primitive fix at `fl` whose raise adds `desc'` at `curr`. -/
structure Raises (E : RaiseEnv) (fixMap : FixMap) (fl : FixLoc) (desc : FixDesc)
    (curr : FixLoc) (desc' : FixDesc) : Prop where
  find : fixMap.find fl = some desc
  primative : desc.type.isPrimative = true
  target : raiseTarget E true desc = some (some (curr, desc'))

/-- The raise of the fix at `fl` adds a subprogram with a fence at `curr`. -/
def RaisesFence (E : RaiseEnv) (fixMap : FixMap) (fl curr : FixLoc) : Prop :=
  ∃ desc d, Raises E fixMap fl desc curr d ∧ d.type = ADD_PERSIST_CALLSTACK_OPT

/-- The fix at `fl` is still there when the loop comes to it: the earlier fixes whose raise would
put a subprogram in its place have been replaced themselves. -/
def Intact (E : RaiseEnv) (fixMap : FixMap) (fl : FixLoc) : Prop :=
  ∀ z, z < fl → RaisesFence E fixMap z fl → ¬ Intact E fixMap z
termination_by fixMap.rank fl
decreasing_by
  rename_i hlt hraise
  obtain ⟨_, _, hr, -⟩ := hraise
  exact OrderedMap.rank_lt_rank (by simp [hr.find]) hlt

/-- The location `curr` takes the subprogram raised from `fl`: the first with a fence, unless it
holds one with a fence before, and the first without a fence if it is free before. -/
def Takes (E : RaiseEnv) (fixMap : FixMap) (fl curr : FixLoc) (d : FixDesc) : Prop :=
  if d.type = ADD_PERSIST_CALLSTACK_OPT then
    (∀ e, fixMap.find curr = some e → e.type ≠ ADD_PERSIST_CALLSTACK_OPT) ∧
      ∀ z < fl, RaisesFence E fixMap z curr → ¬ Intact E fixMap z
  else
    fixMap.find curr = none ∧
      ∀ z < fl, ∀ dz d', Raises E fixMap z dz curr d' → ¬ Intact E fixMap z

/-- The fix at `fl` moves to `curr`, where `d` is stored for it. -/
structure Moves (E : RaiseEnv) (fixMap : FixMap) (fl : FixLoc) (desc : FixDesc)
    (curr : FixLoc) (d : FixDesc) : Prop where
  raises : Raises E fixMap fl desc curr d
  intact : Intact E fixMap fl
  takes : Takes E fixMap fl curr d

/-- The fix of `fl` is lost. -/
inductive Lost (E : RaiseEnv) (fixMap : FixMap) (fl : FixLoc) (desc : FixDesc) : Prop
  /-- A flush that does not move itself is replaced by a subprogram raised to its location. -/
  | overwritten {z : FixLoc} (find : fixMap.find fl = some desc)
      (flushes : desc.type.flushesHere = true) (raises : RaisesFence E fixMap z fl)
      (intact : Intact E fixMap z) (stays : ∀ curr d, ¬ Moves E fixMap fl desc curr d)
  /-- The fix moves to a location whose own fix moves, and is erased with it. -/
  | erased {curr curr' : FixLoc} {d desc' d' : FixDesc} (moves : Moves E fixMap fl desc curr d)
      (moves' : Moves E fixMap curr desc' curr' d')
  /-- A flush moves, and its subprogram is replaced by one with a fence over other functions. -/
  | replaced {curr fl' : FixLoc} {d desc' d' : FixDesc} (moves : Moves E fixMap fl desc curr d)
      (flush : desc.type = ADD_FLUSH_ONLY) (moves' : Moves E fixMap fl' desc' curr d')
      (fence : d'.type = ADD_PERSIST_CALLSTACK_OPT)
      (frames : frameFns d'.dynStack d'.stackIdx ≠ frameFns desc.dynStack d'.stackIdx)

/-- The entry of `curr` once the fixes of the locations in `past` have moved. -/
inductive Holds (E : RaiseEnv) (fixMap : FixMap) (past : FixLoc → Prop) (curr : FixLoc) :
    FixDesc → Prop
  /-- A subprogram that moved there, with a fence if one with a fence did. -/
  | moved {fl : FixLoc} {desc d : FixDesc} (moves : Moves E fixMap fl desc curr d)
      (done : past fl)
      (last : ∀ z dz d', Moves E fixMap z dz curr d' → past z →
        d'.type = ADD_PERSIST_CALLSTACK_OPT → z = fl) : Holds E fixMap past curr d
  /-- The entry from before. -/
  | kept {e : FixDesc} (find : fixMap.find curr = some e)
      (free : ∀ z dz d', Moves E fixMap z dz curr d' → ¬ past z) : Holds E fixMap past curr e

/-- The map holds `e` at `curr` in the end: all raises are done, and `curr` is not erased. -/
def Remains (E : RaiseEnv) (fixMap : FixMap) (curr : FixLoc) (e : FixDesc) : Prop :=
  Holds E fixMap (fun _ => True) curr e ∧ ∀ desc c d, ¬ Moves E fixMap curr desc c d

/-! ### The moves -/

section Moves

variable {E : RaiseEnv} {M : FixMap}

lemma Raises.unique {fl curr curr' : FixLoc} {desc desc' d d' : FixDesc}
    (h : Raises E M fl desc curr d) (h' : Raises E M fl desc' curr' d') :
    desc = desc' ∧ curr = curr' ∧ d = d' := by
  obtain rfl : desc = desc' := Option.some.inj (h.find.symm.trans h'.find)
  have ht := h.target.symm.trans h'.target
  simp only [Option.some.injEq, Prod.mk.injEq] at ht
  exact ⟨rfl, ht⟩

/-- A raise does what its fix asks for. -/
lemma Raises.standsFor {fl curr : FixLoc} {desc d : FixDesc} (h : Raises E M fl desc curr d) :
    StandsFor d desc := by
  obtain ⟨hstack, -, -, htype⟩ := raiseTarget_desc h.target
  refine ⟨raiseTarget_isPST h.target, by rw [hstack], fun hfence => ?_⟩
  have hne : desc.type ≠ ADD_FLUSH_ONLY := fun hflush => by simp [hflush, addsFence] at hfence
  rw [htype, if_neg hne]
  rfl

/-- The raise of a fix with a fence has a fence, and no other. -/
lemma Raises.type_eq_iff {fl curr : FixLoc} {desc d : FixDesc} (h : Raises E M fl desc curr d) :
    d.type = ADD_PERSIST_CALLSTACK_OPT ↔ desc.type ≠ ADD_FLUSH_ONLY := by
  obtain ⟨-, -, -, htype⟩ := raiseTarget_desc h.target
  rw [htype]
  split_ifs with hflush
  · exact iff_of_false (by decide) (not_not.mpr hflush)
  · exact iff_of_true rfl hflush

omit [LinearOrder FixLoc] in
/-- A primitive fix is no subprogram. -/
lemma ne_opt_of_isPrimative {desc : FixDesc} (h : desc.type.isPrimative = true) :
    desc.type ≠ ADD_PERSIST_CALLSTACK_OPT := fun heq => by
  rw [heq] at h
  cases h

lemma intact_iff {fl : FixLoc} :
    Intact E M fl ↔ ∀ z < fl, RaisesFence E M z fl → ¬ Intact E M z := by
  rw [Intact]

/-- What lands on an entry has a fence. -/
lemma Moves.fence {fl curr : FixLoc} {desc d e : FixDesc} (h : Moves E M fl desc curr d)
    (he : M.find curr = some e) : d.type = ADD_PERSIST_CALLSTACK_OPT := by
  by_contra hne
  have htakes := h.takes
  rw [Takes, if_neg hne, he] at htakes
  cases htakes.1

/-- Nothing lands on a subprogram with a fence. -/
lemma Moves.ne_opt {fl curr : FixLoc} {desc d e : FixDesc} (h : Moves E M fl desc curr d)
    (he : M.find curr = some e) : e.type ≠ ADD_PERSIST_CALLSTACK_OPT := by
  have htakes := h.takes
  rw [Takes, if_pos (h.fence he)] at htakes
  exact htakes.1 e he

/-- Nothing moves to a location before a subprogram with a fence but flushes, and before one
without a fence nothing at all. -/
lemma Moves.not_before {fl z curr : FixLoc} {desc d dz dz' : FixDesc}
    (h : Moves E M fl desc curr d) (hz : Moves E M z dz curr dz') (hlt : z < fl) :
    d.type = ADD_PERSIST_CALLSTACK_OPT ∧ dz'.type ≠ ADD_PERSIST_CALLSTACK_OPT := by
  have htakes := h.takes
  rw [Takes] at htakes
  split_ifs at htakes with hd
  · exact ⟨hd, fun hz' => htakes.2 z hlt ⟨dz, dz', hz.raises, hz'⟩ hz.intact⟩
  · exact absurd hz.intact (htakes.2 z hlt dz dz' hz.raises)

/-- Two subprograms with a fence do not move to one location. -/
lemma Moves.unique_fence {fl z curr : FixLoc} {desc d dz dz' : FixDesc}
    (h : Moves E M fl desc curr d) (hd : d.type = ADD_PERSIST_CALLSTACK_OPT)
    (hz : Moves E M z dz curr dz') (hz' : dz'.type = ADD_PERSIST_CALLSTACK_OPT) : z = fl := by
  rcases lt_trichotomy z fl with hlt | heq | hlt
  · exact absurd hz' (h.not_before hz hlt).2
  · exact heq
  · exact absurd hd (hz.not_before h hlt).2

/-- Where a raise with a fence lands, one with a fence moves. -/
lemma exists_moves_fence {z curr : FixLoc}
    (hne : ∀ e, M.find curr = some e → e.type ≠ ADD_PERSIST_CALLSTACK_OPT)
    (hraise : RaisesFence E M z curr) (hz : Intact E M z) :
    ∃ fl ≤ z, ∃ desc d, Moves E M fl desc curr d ∧ d.type = ADD_PERSIST_CALLSTACK_OPT := by
  have hfind : M.find z ≠ none := by
    obtain ⟨_, _, hr, -⟩ := hraise
    simp [hr.find]
  obtain ⟨fl, hle, ⟨⟨desc, d, hr, hd⟩, hfl⟩, hfirst⟩ := OrderedMap.exists_first
    (p := fun fl => RaisesFence E M fl curr ∧ Intact E M fl) hfind ⟨hraise, hz⟩
  refine ⟨fl, hle, desc, d, ⟨hr, hfl, ?_⟩, hd⟩
  rw [Takes, if_pos hd]
  refine ⟨hne, fun y hy hyr hyi => hfirst y hy ?_ ⟨hyr, hyi⟩⟩
  obtain ⟨_, _, hyr, -⟩ := hyr
  simp [hyr.find]

/-- Where a raise lands on a free location, one moves. -/
lemma exists_moves {z curr : FixLoc} {dz d' : FixDesc} (hfree : M.find curr = none)
    (hraise : Raises E M z dz curr d') (hz : Intact E M z) :
    ∃ fl ≤ z, ∃ desc d, Moves E M fl desc curr d := by
  have hfind : M.find z ≠ none := by simp [hraise.find]
  obtain ⟨fl, hle, ⟨⟨desc, d, hr⟩, hfl⟩, hfirst⟩ := OrderedMap.exists_first
    (p := fun fl => (∃ desc d, Raises E M fl desc curr d) ∧ Intact E M fl) hfind
    ⟨⟨dz, d', hraise⟩, hz⟩
  have hbefore : ∀ y < fl, ∀ dy d', Raises E M y dy curr d' → ¬ Intact E M y :=
    fun y hy dy d' hyr hyi => hfirst y hy (by simp [hyr.find]) ⟨⟨dy, d', hyr⟩, hyi⟩
  refine ⟨fl, hle, desc, d, hr, hfl, ?_⟩
  rw [Takes]
  split_ifs
  · exact ⟨by simp [hfree], fun y hy ⟨dy, d', hyr, _⟩ => hbefore y hy dy d' hyr⟩
  · exact ⟨hfree, hbefore⟩

/-! ### What a location holds -/

variable {past past' : FixLoc → Prop} {curr : FixLoc} {e : FixDesc}

lemma Holds.congr (hpast : ∀ z dz d, Moves E M z dz curr d → (past z ↔ past' z)) :
    Holds E M past curr e ↔ Holds E M past' curr e := by
  constructor
  · intro h
    cases h with
    | moved hm hp hlast =>
        exact .moved hm ((hpast _ _ _ hm).mp hp) fun z dz d' hz hpz =>
          hlast z dz d' hz ((hpast z dz d' hz).mpr hpz)
    | kept he hfree =>
        exact .kept he fun z dz d' hz hpz => hfree z dz d' hz ((hpast z dz d' hz).mpr hpz)
  · intro h
    cases h with
    | moved hm hp hlast =>
        exact .moved hm ((hpast _ _ _ hm).mpr hp) fun z dz d' hz hpz =>
          hlast z dz d' hz ((hpast z dz d' hz).mp hpz)
    | kept he hfree =>
        exact .kept he fun z dz d' hz hpz => hfree z dz d' hz ((hpast z dz d' hz).mp hpz)

/-- Where a subprogram moved, the location holds one. -/
lemma exists_holds_of_moves {fl : FixLoc} {desc d : FixDesc} (hm : Moves E M fl desc curr d)
    (hp : past fl) : ∃ e, Holds E M past curr e := by
  by_cases hfence : ∃ z dz d', Moves E M z dz curr d' ∧ past z ∧
      d'.type = ADD_PERSIST_CALLSTACK_OPT
  · obtain ⟨z, dz, d', hz, hpz, hd'⟩ := hfence
    exact ⟨d', .moved hz hpz fun y dy dy' hy _ hdy => hz.unique_fence hd' hy hdy⟩
  · exact ⟨d, .moved hm hp fun z dz d' hz hpz hd' =>
      absurd ⟨z, dz, d', hz, hpz, hd'⟩ hfence⟩

/-- A location without an entry had none, and nothing has moved there. -/
lemma holds_none_iff : (∀ e, ¬ Holds E M past curr e) ↔
    M.find curr = none ∧ ∀ fl desc d, Moves E M fl desc curr d → ¬ past fl := by
  constructor
  · intro hnone
    have hfree : ∀ fl desc d, Moves E M fl desc curr d → ¬ past fl := fun fl desc d hm hp => by
      obtain ⟨e, he⟩ := exists_holds_of_moves hm hp
      exact hnone e he
    exact ⟨Option.eq_none_iff_forall_ne_some.mpr fun e he => hnone e (.kept he hfree), hfree⟩
  · rintro ⟨hfind, hfree⟩ e he
    cases he with
    | moved hm hp => exact hfree _ _ _ hm hp
    | kept he => simp [hfind] at he

/-- A primitive fix in the map is one from before, and nothing has moved there. -/
lemma Holds.of_isPrimative (h : Holds E M past curr e) (hprim : e.type.isPrimative = true) :
    M.find curr = some e ∧ ∀ fl desc d, Moves E M fl desc curr d → ¬ past fl := by
  cases h with
  | moved hm =>
      rcases isPST_iff.mp (raiseTarget_isPST hm.raises.target) with ht | ht <;>
        simp [ht, isPrimative] at hprim
  | kept he hfree => exact ⟨he, hfree⟩

end Moves

/-! ### The loop -/

section Loop

variable {E : RaiseEnv} {M : FixMap}

/-- The locations up to the cursor. -/
def Past (cursor : Option FixLoc) (fl : FixLoc) : Prop := ∃ c ∈ cursor, fl ≤ c

/-- What holds in the loop over the map `M`, once the locations up to the cursor are done. -/
structure LoopInv (E : RaiseEnv) (M : FixMap) (cursor : Option FixLoc) (s : OptState) : Prop where
  find : ∀ curr e, s.fixMap.find curr = some e ↔ Holds E M (Past cursor) curr e
  moved : ∀ fl, fl ∈ s.moved ↔ Past cursor fl ∧ ∃ desc curr d, Moves E M fl desc curr d

lemma loopInv_start : LoopInv E M none ⟨M, [], false⟩ := by
  refine ⟨fun curr e => ⟨fun he => .kept he (by simp [Past]), fun he => ?_⟩, by simp [Past]⟩
  cases he with
  | moved _ hp => simp [Past] at hp
  | kept he => exact he

/-- Where the map takes the subprogram `d`: at a free location, or in the place of a fix without
a fence if `d` has one. -/
def Storable (fixMap : FixMap) (curr : FixLoc) (d : FixDesc) : Prop :=
  fixMap.find curr = none ∨ ∃ old, fixMap.find curr = some old ∧
    d.type = ADD_PERSIST_CALLSTACK_OPT ∧ old.type ≠ ADD_PERSIST_CALLSTACK_OPT

section Step

variable {cursor : Option FixLoc} {s : OptState}

lemma LoopInv.find_eq_none_iff (h : LoopInv E M cursor s) {curr : FixLoc} :
    s.fixMap.find curr = none ↔
      M.find curr = none ∧ ∀ fl desc d, Moves E M fl desc curr d → ¬ Past cursor fl := by
  rw [Option.eq_none_iff_forall_ne_some, ← holds_none_iff]
  exact forall_congr' fun e => not_congr (h.find curr e)

/-- A fix that is intact is in the map until the loop comes to it. -/
lemma LoopInv.find_of_intact (h : LoopInv E M cursor s) {z : FixLoc} {dz : FixDesc}
    (hfind : M.find z = some dz) (hz : Intact E M z) (hc : ∀ c ∈ cursor, c < z) :
    s.fixMap.find z = some dz := by
  refine (h.find z dz).mpr (.kept hfind ?_)
  rintro y dy d' hy ⟨c, hcc, hle⟩
  exact intact_iff.mp hz y (hle.trans_lt (hc c hcc)) ⟨dy, d', hy.raises, hy.fence hfind⟩ hy.intact

/-- When the loop has ended, all raises are done. -/
lemma LoopInv.past_of_end (h : LoopInv E M cursor s) (ha : s.fixMap.after cursor = none)
    {z : FixLoc} {dz : FixDesc} (hfind : M.find z = some dz) (hz : Intact E M z) :
    Past cursor z := by
  by_contra hpast
  have hlt : ∀ c ∈ cursor, c < z := fun c hc => not_le.mp fun hle => hpast ⟨c, hc, hle⟩
  exact OrderedMap.find_ne_some_of_after ha hlt (h.find_of_intact hfind hz hlt)

variable {fl : FixLoc} {desc : FixDesc} (h : LoopInv E M cursor s)
  (ha : s.fixMap.after cursor = some (fl, desc))
include h ha

/-- The raises up to the next entry are those up to the cursor and that of the entry. -/
lemma LoopInv.past_or_eq {z : FixLoc} {dz : FixDesc} (hfind : M.find z = some dz)
    (hz : Intact E M z) (hle : z ≤ fl) : Past cursor z ∨ z = fl := by
  by_cases hpast : Past cursor z
  · exact .inl hpast
  · have hlt : ∀ c ∈ cursor, c < z := fun c hc => not_le.mp fun hle => hpast ⟨c, hc, hle⟩
    exact .inr (le_antisymm hle (OrderedMap.le_of_after ha (h.find_of_intact hfind hz hlt) hlt))

omit h in
lemma lt_of_past {z : FixLoc} (hz : Past cursor z) : z < fl := by
  obtain ⟨c, hc, hle⟩ := hz
  exact hle.trans_lt ((OrderedMap.find_of_after ha).2 c hc)

/-- With the next entry, the locations past the cursor are those before and the entry. -/
lemma LoopInv.past_some_iff {z : FixLoc} {dz : FixDesc} (hfind : M.find z = some dz)
    (hz : Intact E M z) : Past (some fl) z ↔ Past cursor z ∨ z = fl := by
  constructor
  · rintro ⟨_, ⟨⟩, hle⟩
    exact h.past_or_eq ha hfind hz hle
  · rintro (hz | rfl)
    · exact ⟨fl, rfl, (lt_of_past ha hz).le⟩
    · exact ⟨z, rfl, le_rfl⟩

/-- The next entry, if it is primitive, is an intact fix of `M`. -/
lemma LoopInv.intact (hprim : desc.type.isPrimative = true) :
    M.find fl = some desc ∧ Intact E M fl := by
  obtain ⟨hM, hfree⟩ :=
    ((h.find fl desc).mp (OrderedMap.find_of_after ha).1).of_isPrimative hprim
  refine ⟨hM, intact_iff.mpr fun z hlt hraise hz => ?_⟩
  obtain ⟨y, hle, dy, d, hy, -⟩ := exists_moves_fence (fun e he => by
    obtain rfl := Option.some.inj (hM.symm.trans he)
    exact ne_opt_of_isPrimative hprim) hraise hz
  have hyfl := hle.trans_lt hlt
  rcases h.past_or_eq ha hy.raises.find hy.intact hyfl.le with hpast | rfl
  · exact hfree y dy d hy hpast
  · exact lt_irrefl _ hyfl

/-- The next entry moves only if it is primitive. -/
lemma LoopInv.not_moves_of_not_isPrimative (hprim : desc.type.isPrimative = false)
    {dz d : FixDesc} {curr : FixLoc} : ¬ Moves E M fl dz curr d := by
  intro hm
  -- a fix that moves is intact, so the entry would be its own
  obtain ⟨hfind, hc⟩ := OrderedMap.find_of_after ha
  have hown := h.find_of_intact hm.raises.find hm.intact hc
  obtain rfl := Option.some.inj (hfind.symm.trans hown)
  rw [hm.raises.primative] at hprim
  cases hprim

/-- **What the map takes**: its test decides whether the fix moves. -/
lemma LoopInv.takes_iff {curr : FixLoc} {d : FixDesc} :
    Takes E M fl curr d ↔ Storable s.fixMap curr d := by
  -- the raises to `curr` before this one are past
  have hearlier : ∀ z < fl, ∀ y ≤ z, ∀ dy d', Moves E M y dy curr d' → Past cursor y :=
    fun z hlt y hle dy d' hy =>
      (h.past_or_eq ha hy.raises.find hy.intact (hle.trans_lt hlt).le).resolve_right
        (hle.trans_lt hlt).ne
  rw [Takes]
  split_ifs with hd
  · constructor
    · rintro ⟨hne, hfirst⟩
      refine or_iff_not_imp_left.mpr fun hfind => ?_
      obtain ⟨old, hold⟩ := Option.ne_none_iff_exists'.mp hfind
      refine ⟨old, hold, hd, fun hopt => ?_⟩
      cases (h.find curr old).mp hold with
      | moved hm hp =>
          exact hfirst _ (lt_of_past ha hp) ⟨_, _, hm.raises, hopt⟩ hm.intact
      | kept he => exact hne old he hopt
    · intro hstore
      have hnot : ∀ e, s.fixMap.find curr = some e → e.type ≠ ADD_PERSIST_CALLSTACK_OPT := by
        intro e he
        rcases hstore with hnone | ⟨old, hold, -, hne⟩
        · simp [hnone] at he
        · exact Option.some.inj (hold.symm.trans he) ▸ hne
      have hne : ∀ e, M.find curr = some e → e.type ≠ ADD_PERSIST_CALLSTACK_OPT :=
        fun e he hopt => hnot e ((h.find curr e).mpr
          (.kept he fun z dz d' hz _ => hz.ne_opt he hopt)) hopt
      refine ⟨hne, fun z hlt hraise hz => ?_⟩
      obtain ⟨y, hle, dy, d', hy, hd'⟩ := exists_moves_fence hne hraise hz
      exact hnot d' ((h.find curr d').mpr (.moved hy (hearlier z hlt y hle dy d' hy)
        fun x dx dx' hx _ hdx => hy.unique_fence hd' hx hdx)) hd'
  · have hiff : Storable s.fixMap curr d ↔ s.fixMap.find curr = none := by
      simp [Storable, hd]
    rw [hiff, h.find_eq_none_iff]
    refine and_congr_right fun hM =>
      ⟨fun hfirst z dz d' hz hp => ?_, fun hfree z hlt dz d' hz hzi => ?_⟩
    · exact hfirst z (lt_of_past ha hp) dz d' hz.raises hz.intact
    · obtain ⟨y, hle, dy, d'', hy⟩ := exists_moves hM hz hzi
      exact hfree y dy d'' hy (hearlier z hlt y hle dy d'' hy)

/-- The cursor moves past an entry that does not move. -/
lemma LoopInv.advance (hfl : ∀ dz curr d, ¬ Moves E M fl dz curr d) :
    LoopInv E M (some fl) s := by
  have hpast : ∀ z dz curr d, Moves E M z dz curr d → (Past (some fl) z ↔ Past cursor z) := by
    intro z dz curr d hz
    rw [h.past_some_iff ha hz.raises.find hz.intact, or_iff_left]
    rintro rfl
    exact hfl dz curr d hz
  refine ⟨fun curr e => ?_, fun z => ?_⟩
  · rw [h.find, Holds.congr fun z dz d hz => (hpast z dz curr d hz).symm]
  · rw [h.moved]
    exact and_congr_left fun ⟨dz, curr, d, hz⟩ => (hpast z dz curr d hz).symm

/-- The cursor moves past an entry that moves. -/
lemma LoopInv.store {curr : FixLoc} {d : FixDesc} (hm : Moves E M fl desc curr d) (res : Bool) :
    LoopInv E M (some fl) ⟨s.fixMap.insert curr d, s.moved ++ [fl], res⟩ := by
  have hdone : Past (some fl) fl := ⟨fl, rfl, le_rfl⟩
  refine ⟨fun c e => ?_, fun z => ?_⟩
  · dsimp only
    rw [OrderedMap.find_insert]
    split_ifs with hc
    · subst hc
      rw [Option.some.injEq]
      constructor
      · rintro rfl
        -- of the fixes that move to the place, the one before the cursor was the last
        refine .moved hm hdone fun z dz d' hz hp hd' => ?_
        rcases (h.past_some_iff ha hz.raises.find hz.intact).mp hp with hp | heq
        · exact absurd hd' (hm.not_before hz (lt_of_past ha hp)).2
        · exact heq
      · intro he
        cases he with
        | @moved z _ _ hz hp hlast =>
            have hfl : z = fl := by
              rcases (h.past_some_iff ha hz.raises.find hz.intact).mp hp with hp | heq
              · exact (hlast fl desc d hm hdone
                  (hm.not_before hz (lt_of_past ha hp)).1).symm
              · exact heq
            subst hfl
            exact (hm.raises.unique hz.raises).2.2
        | kept _ hfree => exact absurd hdone (hfree fl desc d hm)
    -- another place is touched by no raise of this fix
    · rw [h.find, Holds.congr]
      intro z dz d' hz
      rw [h.past_some_iff ha hz.raises.find hz.intact, or_iff_left]
      rintro rfl
      exact hc (hz.raises.unique hm.raises).2.1
  · rw [List.mem_append, List.mem_singleton, h.moved]
    constructor
    · rintro (⟨hp, dz, c, d', hz⟩ | rfl)
      · exact ⟨(h.past_some_iff ha hz.raises.find hz.intact).mpr (.inl hp), dz, c, d', hz⟩
      · exact ⟨hdone, desc, curr, d, hm⟩
    · rintro ⟨hp, dz, c, d', hz⟩
      exact ((h.past_some_iff ha hz.raises.find hz.intact).mp hp).imp_left fun hp =>
        ⟨hp, dz, c, d', hz⟩

end Step

/-- **One pass of the loop** keeps the invariant. -/
lemma LoopInv.raiseFixLocation {cursor : Option FixLoc} {s : OptState} {fl : FixLoc}
    {desc : FixDesc} {fixMap : FixMap} {success : Bool}
    (h : LoopInv E M cursor s) (ha : s.fixMap.after cursor = some (fl, desc))
    (hprim : desc.type.isPrimative = true)
    (hraise : raiseFixLocation E s.fixMap (some fl) desc = some (fixMap, success)) :
    LoopInv E M (some fl)
      ⟨fixMap, if success then s.moved ++ [fl] else s.moved, s.res || success⟩ := by
  obtain ⟨hM, hintact⟩ := h.intact ha hprim
  rw [Hippocrates.raiseFixLocation, Option.isSome_some] at hraise
  cases htarget : raiseTarget E true desc with
  | none => simp [htarget] at hraise
  | some target =>
      rw [htarget] at hraise
      cases target with
      | none =>
          -- not raised: the entry stays
          simp only [Option.some.injEq, Prod.mk.injEq] at hraise
          obtain ⟨rfl, rfl⟩ := hraise
          have hstay := h.advance ha fun dz curr d hm => by
            obtain rfl := Option.some.inj (hM.symm.trans hm.raises.find)
            rw [hm.raises.target] at htarget
            cases htarget
          exact { hstay with }
      | some t =>
          obtain ⟨curr, d⟩ := t
          have hr : Raises E M fl desc curr d := ⟨hM, hprim, htarget⟩
          rcases addFixToMapping_isPST (raiseTarget_isPST htarget) hraise with
            ⟨rfl, rfl, old, hold, hfence⟩ | ⟨rfl, rfl, hstore⟩
          · have hstay := h.advance ha fun dz curr' d' hm => by
              obtain ⟨rfl, rfl, rfl⟩ := hr.unique hm.raises
              rcases (h.takes_iff ha).mp hm.takes with hnone | ⟨old', hold', hd, hne⟩
              · simp [hnone] at hold
              · obtain rfl := Option.some.inj (hold.symm.trans hold')
                exact hne (hfence hd)
            exact { hstay with }
          · exact h.store ha ⟨hr, hintact, (h.takes_iff ha).mpr hstore⟩ _

/-- **The loop** ends with all raises done. -/
lemma optimizeLoop_inv {n : ℕ} {cursor : Option FixLoc} {s s' : OptState}
    (h : LoopInv E M cursor s) (hrun : optimizeLoop E n cursor s = some s') :
    ∃ cursor', LoopInv E M cursor' s' ∧ s'.fixMap.after cursor' = none := by
  induction n generalizing cursor s with
  | zero => cases hrun
  | succ n ih =>
      rw [optimizeLoop] at hrun
      cases ha : s.fixMap.after cursor with
      | none =>
          simp only [ha, Option.some.injEq] at hrun
          subst hrun
          exact ⟨cursor, h, ha⟩
      | some e =>
          obtain ⟨fl, desc⟩ := e
          simp only [ha] at hrun
          split_ifs at hrun with hprim
          -- a subprogram is not raised, the cursor only moves past it
          · exact ih (h.advance ha fun dz curr d hm =>
              h.not_moves_of_not_isPrimative ha (by simpa using hprim) hm) hrun
          · rw [Bool.not_eq_true', Bool.not_eq_false] at hprim
            cases hraise : raiseFixLocation E s.fixMap (some fl) desc with
            | none => simp [hraise] at hrun
            | some r =>
                obtain ⟨fixMap, success⟩ := r
                simp only [hraise] at hrun
                -- one raise does what the invariant says, and the cursor moves past the fix
                exact ih (h.raiseFixLocation ha hprim hraise) hrun

end Loop

/-! ### The fuel of the loop -/

section Fuel

variable {E : RaiseEnv}

/-- The entries past the cursor, the primitive ones counted twice. -/
def remaining (cursor : Option FixLoc) (fixMap : FixMap) : ℕ :=
  (fixMap.entries.countP fun e => (cursor.all fun c => decide (c < e.1)) && true) +
    fixMap.entries.countP fun e => (cursor.all fun c => decide (c < e.1)) && e.2.type.isPrimative

lemma remaining_none_le (fixMap : FixMap) : remaining none fixMap ≤ 2 * fixMap.entries.length := by
  have h1 := fixMap.entries.countP_le_length (p := fun _ => true)
  have h2 := fixMap.entries.countP_le_length (p := fun e => e.2.type.isPrimative)
  simp only [remaining, Option.all_none, Bool.true_and]
  omega

/-- Passing an entry leaves less to do. -/
lemma remaining_advance {cursor : Option FixLoc} {fixMap : FixMap} {fl : FixLoc} {desc : FixDesc}
    (h : fixMap.after cursor = some (fl, desc)) :
    remaining (some fl) fixMap + 1 + (if desc.type.isPrimative then 1 else 0) ≤
      remaining cursor fixMap := by
  have h1 := OrderedMap.countP_after_succ_le h fun _ => true
  have h2 := OrderedMap.countP_after_succ_le h fun d => d.type.isPrimative
  simp only [if_true] at h1
  simp only [remaining, Option.all_some]
  omega

/-- A persistent subprogram adds one entry at most. -/
lemma remaining_insert {cursor : Option FixLoc} {fixMap : FixMap} {fl : FixLoc} {desc : FixDesc}
    (h : desc.type.isPST = true) :
    remaining cursor (fixMap.insert fl desc) ≤ remaining cursor fixMap + 1 := by
  have hprim : desc.type.isPrimative = false := by
    rcases isPST_iff.mp h with ht | ht <;> simp [ht, isPrimative]
  have h1 := OrderedMap.countP_insertEntry_le
    (fun e : FixLoc × FixDesc => (cursor.all fun c => decide (c < e.1)) && true) fl desc
    fixMap.entries
  have h2 := OrderedMap.countP_insertEntry_le
    (fun e : FixLoc × FixDesc => (cursor.all fun c => decide (c < e.1)) && e.2.type.isPrimative)
    fl desc fixMap.entries
  simp only [hprim, Bool.and_false, Bool.false_eq_true, if_false] at h2
  have h3 : (if ((cursor.all fun c => decide (c < fl)) && true) = true then 1 else 0) ≤ 1 := by
    split <;> omega
  simp only [remaining, OrderedMap.insert]
  exact (Nat.add_le_add (h1.trans (Nat.add_le_add_left h3 _)) h2).trans (by omega)

/-- A raise leaves at most one entry more to do. -/
lemma remaining_raise {cursor fl : Option FixLoc} {fixMap fixMap' : FixMap} {desc : FixDesc}
    {success : Bool} (h : raiseFixLocation E fixMap fl desc = some (fixMap', success)) :
    remaining cursor fixMap' ≤ remaining cursor fixMap + 1 := by
  rw [raiseFixLocation] at h
  cases htarget : raiseTarget E fl.isSome desc with
  | none => simp [htarget] at h
  | some target =>
      cases target with
      | none =>
          simp only [htarget, Option.some.injEq, Prod.mk.injEq] at h
          rw [h.1]
          omega
      | some t =>
          simp only [htarget] at h
          have hpst := raiseTarget_isPST htarget
          rcases addFixToMapping_isPST hpst h with ⟨-, rfl, -⟩ | ⟨-, rfl, -⟩
          · omega
          · exact remaining_insert hpst

/-- **Fuel for the entries and the primitive entries is enough**: more of it changes
nothing. -/
theorem optimizeLoop_stable {n : ℕ} {cursor : Option FixLoc} {s : OptState}
    (h : remaining cursor s.fixMap < n) :
    optimizeLoop E n cursor s = optimizeLoop E (n + 1) cursor s := by
  induction n generalizing cursor s with
  | zero => omega
  | succ n ih =>
      rw [optimizeLoop, optimizeLoop]
      cases ha : s.fixMap.after cursor with
      | none => rfl
      | some e =>
          obtain ⟨fl, desc⟩ := e
          have hadv := remaining_advance ha
          dsimp only
          split_ifs with hprim
          · exact ih (by omega)
          · rw [Bool.not_eq_true', Bool.not_eq_false] at hprim
            rw [if_pos hprim] at hadv
            cases hraise : raiseFixLocation E s.fixMap (some fl) desc with
            | none => simp
            | some r =>
                obtain ⟨fixMap, success⟩ := r
                have hle := @remaining_raise _ E (some fl) _ _ _ _ _ hraise
                exact ih (by dsimp only; omega)

/-- The loop of `runFixMapOptimization` never runs out of fuel. -/
lemma optimizeLoop_fuel (fixMap : FixMap) (k : ℕ) :
    optimizeLoop E (2 * fixMap.entries.length + 1) none ⟨fixMap, [], false⟩ =
      optimizeLoop E (2 * fixMap.entries.length + 1 + k) none ⟨fixMap, [], false⟩ := by
  have hle := remaining_none_le fixMap
  induction k with
  | zero => rfl
  | succ k ih => exact ih.trans (optimizeLoop_stable (by dsimp only; omega))

end Fuel

/-- What is erased is gone, the rest stays. -/
lemma find_of_eraseMoved {fixMap fixMap' : FixMap} {moved : List FixLoc}
    (h : eraseMoved fixMap moved = some fixMap') (fl : FixLoc) :
    fixMap'.find fl = if fl ∈ moved then none else fixMap.find fl := by
  induction moved generalizing fixMap with
  | nil =>
      obtain rfl := Option.some.inj h
      rfl
  | cons a moved ih =>
      rw [eraseMoved] at h
      split_ifs at h
      rw [ih h, OrderedMap.find_erase]
      by_cases hfl : fl = a <;> simp [hfl]

/-- **The fix map in the end**: each location holds what remains there. -/
theorem runFixMapOptimization_spec {E : RaiseEnv} {fixMap fixMap' : FixMap} {res : Bool}
    (hrun : runFixMapOptimization E fixMap = some (fixMap', res)) (curr : FixLoc) (e : FixDesc) :
    fixMap'.find curr = some e ↔ Remains E fixMap curr e := by
  rw [runFixMapOptimization] at hrun
  cases hloop : optimizeLoop E (2 * fixMap.entries.length + 1) none ⟨fixMap, [], false⟩ with
  | none => simp [hloop] at hrun
  | some s =>
      simp only [hloop, Option.map_eq_some_iff, Prod.mk.injEq] at hrun
      obtain ⟨_, herase, rfl, -⟩ := hrun
      obtain ⟨cursor, hinv, hend⟩ := optimizeLoop_inv loopInv_start hloop
      have hpast : ∀ z dz c d, Moves E fixMap z dz c d → Past cursor z := fun z dz c d hz =>
        hinv.past_of_end hend hz.raises.find hz.intact
      have hmoved : curr ∈ s.moved ↔ ∃ desc c d, Moves E fixMap curr desc c d := by
        rw [hinv.moved]
        exact and_iff_right_of_imp fun ⟨dz, c, d, hz⟩ => hpast curr dz c d hz
      have hholds : s.fixMap.find curr = some e ↔ Holds E fixMap (fun _ => True) curr e := by
        rw [hinv.find, Holds.congr]
        exact fun z dz d hz => iff_true_intro (hpast z dz curr d hz)
      rw [find_of_eraseMoved herase, Remains, ← hholds]
      split_ifs with hmem
      · obtain ⟨desc, c, d, hm⟩ := hmoved.mp hmem
        exact iff_of_false (by simp) fun h => h.2 desc c d hm
      · exact (and_iff_left fun desc c d hm => hmem (hmoved.mpr ⟨desc, c, d, hm⟩)).symm

section Served

variable {E : RaiseEnv} {M M' : FixMap} {res : Bool} {fl : FixLoc} {desc : FixDesc}

omit [LinearOrder FixLoc] in
lemma isPrimative_of_flushesHere (h : desc.type.flushesHere = true) :
    desc.type.isPrimative = true := by
  simp only [FixType.flushesHere, Bool.or_eq_true, beq_iff_eq] at h
  rcases h with h | h <;> simp [h, isPrimative]

/-- A lost fix is a primitive fix of the map. -/
lemma Lost.find_isPrimative (h : Lost E M fl desc) :
    M.find fl = some desc ∧ desc.type.isPrimative = true := by
  cases h with
  | overwritten hfind hflush => exact ⟨hfind, isPrimative_of_flushesHere hflush⟩
  | erased hm => exact ⟨hm.raises.find, hm.raises.primative⟩
  | replaced hm => exact ⟨hm.raises.find, hm.raises.primative⟩

/-- A fix that is not lost is kept, or a subprogram that remains stands for it. -/
lemma served_of_not_lost (hfind : M.find fl = some desc) (hprim : desc.type.isPrimative = true)
    (hlost : ¬ Lost E M fl desc) :
    (∃ e, Remains E M fl e ∧ Does e desc) ∨ ∃ curr e, Remains E M curr e ∧ StandsFor e desc := by
  by_cases hmoves : ∃ curr d, Moves E M fl desc curr d
  · obtain ⟨curr, d, hm⟩ := hmoves
    -- if its subprogram moved on as well, the fix would be erased
    have hstays : ∀ dz c d', ¬ Moves E M curr dz c d' := fun dz c d' hm' =>
      hlost (.erased hm hm')
    by_cases hfence : ∃ z dz d', Moves E M z dz curr d' ∧ d'.type = ADD_PERSIST_CALLSTACK_OPT
    · obtain ⟨z, dz, d', hz, hd'⟩ := hfence
      refine .inr ⟨curr, d', ⟨.moved hz trivial fun y dy dy' hy _ hdy =>
        hz.unique_fence hd' hy hdy, hstays⟩, ?_⟩
      by_cases hflush : desc.type = ADD_FLUSH_ONLY
      · refine ⟨raiseTarget_isPST hz.raises.target, by_contra fun hframes => ?_, fun hadds => ?_⟩
        · exact hlost (.replaced hm hflush hz hd' hframes)
        · simp [hflush, addsFence] at hadds
      · obtain rfl := hm.unique_fence (hm.raises.type_eq_iff.mpr hflush) hz hd'
        obtain ⟨-, -, rfl⟩ := hm.raises.unique hz.raises
        exact hm.raises.standsFor
    · exact .inr ⟨curr, d, ⟨.moved hm trivial fun z dz d' hz _ hd' =>
        absurd ⟨z, dz, d', hz, hd'⟩ hfence, hstays⟩, hm.raises.standsFor⟩
  · have hstays : ∀ dz c d, ¬ Moves E M fl dz c d := fun dz c d hm => by
      obtain rfl := Option.some.inj (hm.raises.find.symm.trans hfind)
      exact hmoves ⟨c, d, hm⟩
    by_cases hover : ∃ z dz d, Moves E M z dz fl d
    · -- the fix of `fl` is replaced, so it is a fence
      obtain ⟨z, dz, d, hz⟩ := hover
      have hd := hz.fence hfind
      refine .inl ⟨d, ⟨.moved hz trivial fun y dy dy' hy _ hdy =>
        hz.unique_fence hd hy hdy, hstays⟩, fun hflush => ?_, fun _ => by rw [hd]; rfl⟩
      exact absurd (.overwritten hfind hflush ⟨dz, d, hz.raises, hd⟩ hz.intact
        fun c d' => hstays desc c d') hlost
    · exact .inl ⟨desc, ⟨.kept hfind fun z dz d hz _ => hover ⟨z, dz, d, hz⟩, hstays⟩, id, id⟩

/-- A lost fix is not kept. -/
lemma not_does_of_lost (hlost : Lost E M fl desc) {e : FixDesc} (he : Remains E M fl e) :
    ¬ Does e desc := by
  obtain ⟨hholds, hstays⟩ := he
  cases hlost with
  | erased hm => exact absurd hm (hstays _ _ _)
  | replaced hm => exact absurd hm (hstays _ _ _)
  | overwritten hfind hflush hraise hz =>
      obtain ⟨y, -, dy, d, hy, hd⟩ := exists_moves_fence (fun e he => by
        obtain rfl := Option.some.inj (hfind.symm.trans he)
        exact ne_opt_of_isPrimative (isPrimative_of_flushesHere hflush)) hraise hz
      cases hholds with
      | kept _ hfree => exact absurd trivial (hfree y dy d hy)
      | moved hm =>
          rintro ⟨hdoes, -⟩
          have := hdoes hflush
          rw [hm.fence hfind] at this
          cases this

/-- **When raising loses no fix**, in any order of the locations: exactly if each fix that is
lost at its location has a subprogram that stands for it all the same. -/
theorem runFixMapOptimization_served_iff (hrun : runFixMapOptimization E M = some (M', res)) :
    (∀ fl desc, M.find fl = some desc → desc.type.isPrimative = true → Served M' fl desc) ↔
      ∀ fl desc, Lost E M fl desc → ∃ curr e, Remains E M curr e ∧ StandsFor e desc := by
  have hspec := runFixMapOptimization_spec hrun
  constructor
  · intro hserved fl desc hlost
    obtain ⟨hfind, hprim⟩ := hlost.find_isPrimative
    rcases hserved fl desc hfind hprim with ⟨e, he, hdoes⟩ | ⟨curr, e, he, hst⟩
    · exact absurd hdoes (not_does_of_lost hlost ((hspec fl e).mp he))
    · exact ⟨curr, e, (hspec curr e).mp he, hst⟩
  · intro hcond fl desc hfind hprim
    by_cases hlost : Lost E M fl desc
    · obtain ⟨curr, e, he, hst⟩ := hcond fl desc hlost
      exact .inr ⟨curr, e, (hspec curr e).mpr he, hst⟩
    · rcases served_of_not_lost hfind hprim hlost with ⟨e, he, hdoes⟩ | ⟨curr, e, he, hst⟩
      · exact .inl ⟨e, (hspec fl e).mpr he, hdoes⟩
      · exact .inr ⟨curr, e, (hspec curr e).mpr he, hst⟩

end Served

end Optimization

/-! ### Two raises to one line

`main` calls two library functions on one line; the store of the first misses a flush, that
of the second a flush and a fence. -/

/-- The store of an argument. -/
def argStore (n : ℕ) (f : String) : Instr :=
  ⟨InstId.orig n, .store (.constant "v" (.other "i64")) (.arg (FnId.named f) 0 .i8Ptr)⟩

/-- A call without arguments. -/
def plainCall (n : ℕ) (f : String) : Instr :=
  ⟨InstId.orig n, .call (.function (FnId.named f)) []⟩

def twoCalls : Module :=
  ⟨[(FnId.named "put", ⟨[[argStore 0 "put"]]⟩), (FnId.named "del", ⟨[[argStore 1 "del"]]⟩),
    (FnId.named "main", ⟨[[plainCall 2 "put", plainCall 3 "del"]]⟩)], 0⟩

/-- The lines of the three functions; the library functions are immutable. -/
def twoCallsEnv : RaiseEnv where
  module := twoCalls
  mapper li :=
    if li = ⟨"put", "lib.c", 5⟩ then some [FixLoc.single (InstId.orig 0)]
    else if li = ⟨"del", "lib.c", 9⟩ then some [FixLoc.single (InstId.orig 1)]
    else if li = ⟨"main", "main.c", 20⟩ then some [⟨InstId.orig 2, InstId.orig 3⟩]
    else none
  immutableFns f := f == FnId.named "put" || f == FnId.named "del"
  heuristicIdx _ := some 0

def putFlush : FixDesc :=
  FixDesc.mk' ADD_FLUSH_ONLY [⟨"put", "lib.c", 5⟩, ⟨"main", "main.c", 20⟩] 0

def delFlushAndFence : FixDesc :=
  FixDesc.mk' ADD_FLUSH_AND_FENCE [⟨"del", "lib.c", 9⟩, ⟨"main", "main.c", 20⟩] 0

/-- The fix map of the flush alone. -/
def flushFix [LinearOrder FixLoc] : FixMap :=
  OrderedMap.empty.insert (FixLoc.single (InstId.orig 0)) putFlush

/-- The fix map of both. -/
def bothFixes [LinearOrder FixLoc] : FixMap :=
  flushFix.insert (FixLoc.single (InstId.orig 1)) delFlushAndFence

/-- The second raise replaces the first at the call site, and the flush is lost. -/
theorem bothFixes_lost :
    letI := FixLoc.compare InstId.address InstId.address_injective
    bothFixes.find (FixLoc.single (InstId.orig 0)) = some putFlush ∧
      putFlush.type.isPrimative = true ∧
      ∃ fixMap res, runFixMapOptimization twoCallsEnv bothFixes = some (fixMap, res) ∧
        ¬ Served fixMap (FixLoc.single (InstId.orig 0)) putFlush := by
  let := FixLoc.compare InstId.address InstId.address_injective
  have hrun : (runFixMapOptimization twoCallsEnv bothFixes).map (fun r => r.1.entries) =
      some [(⟨InstId.orig 2, InstId.orig 3⟩,
        FixDesc.mk' ADD_PERSIST_CALLSTACK_OPT delFlushAndFence.dynStack 1)] := rfl
  obtain ⟨⟨fixMap, res⟩, hrun, hentries⟩ := Option.map_eq_some_iff.mp hrun
  have hfind : ∀ fl e, fixMap.find fl = some e → fl = ⟨InstId.orig 2, InstId.orig 3⟩ ∧
      e = FixDesc.mk' ADD_PERSIST_CALLSTACK_OPT delFlushAndFence.dynStack 1 := by
    intro fl e h
    rw [OrderedMap.find_eq_some_iff, hentries, List.mem_singleton] at h
    exact ⟨congrArg Prod.fst h, congrArg Prod.snd h⟩
  refine ⟨rfl, rfl, fixMap, res, hrun, ?_⟩
  rintro (⟨e, he, -⟩ | ⟨fl, e, he, -, hframes, -⟩)
  · exact absurd (congrArg FixLoc.last (hfind _ e he).1) (by decide)
  · obtain ⟨-, rfl⟩ := hfind fl e he
    revert hframes
    decide

/-- The only raise of the flush alone is to the call site. -/
lemma flushFix_raises [LinearOrder FixLoc] {fl curr : FixLoc} {desc d : FixDesc}
    (h : Raises twoCallsEnv flushFix fl desc curr d) :
    desc = putFlush ∧ curr = ⟨InstId.orig 2, InstId.orig 3⟩ := by
  have hfind := h.find
  rw [flushFix, OrderedMap.find_insert] at hfind
  split_ifs at hfind with hfl
  · obtain rfl := Option.some.inj hfind
    have htarget := h.target
    have hcomputed : raiseTarget twoCallsEnv true putFlush = some (some
        (⟨InstId.orig 2, InstId.orig 3⟩,
          FixDesc.mk' ADD_PERSIST_CALLSTACK_OPT_NOFENCE putFlush.dynStack 1)) := rfl
    rw [hcomputed] at htarget
    simp only [Option.some.injEq, Prod.mk.injEq] at htarget
    exact ⟨rfl, htarget.1.symm⟩
  · cases hfind

lemma flushFix_not_lost [LinearOrder FixLoc] {fl : FixLoc} {desc : FixDesc} :
    ¬ Lost twoCallsEnv flushFix fl desc := by
  have hflush : ∀ {fl curr : FixLoc} {desc d : FixDesc},
      Raises twoCallsEnv flushFix fl desc curr d → d.type ≠ ADD_PERSIST_CALLSTACK_OPT :=
    fun hr => mt hr.type_eq_iff.mp (by rw [(flushFix_raises hr).1]; decide)
  intro hlost
  cases hlost with
  | overwritten _ _ hraise =>
      obtain ⟨_, _, hr, hfence⟩ := hraise
      exact hflush hr hfence
  | erased hm hm' =>
      -- the call site has no fix of its own
      obtain ⟨-, rfl⟩ := flushFix_raises hm.raises
      have hfind := hm'.raises.find
      rw [flushFix, OrderedMap.find_insert] at hfind
      split_ifs at hfind with hc
      · exact absurd (congrArg FixLoc.last hc) (by decide)
      · cases hfind
  | replaced _ _ hm' hfence => exact hflush hm'.raises hfence

theorem runFixMapOptimization_served_iff_flushFix :
    letI := FixLoc.compare InstId.address InstId.address_injective
    ∃ fixMap res, runFixMapOptimization twoCallsEnv flushFix = some (fixMap, res) ∧
      ∀ fl desc, flushFix.find fl = some desc → desc.type.isPrimative = true →
        Served fixMap fl desc := by
  let := FixLoc.compare InstId.address InstId.address_injective
  have hrun : (runFixMapOptimization twoCallsEnv flushFix).isSome = true := rfl
  obtain ⟨⟨fixMap, res⟩, hrun⟩ := Option.isSome_iff_exists.mp hrun
  exact ⟨fixMap, res, hrun, (runFixMapOptimization_served_iff hrun).mpr fun fl desc hlost =>
    absurd hlost flushFix_not_lost⟩

end Hippocrates

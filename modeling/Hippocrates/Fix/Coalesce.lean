import Mathlib.Order.Bounds.Basic
import Mathlib.Tactic
import Hippocrates.Fix.FixDesc

/-!
Fix coalescing: `BugFixer::addFixToMapping`.

* `coalesce`: the chain of type tests for a location that holds a fix already.
* `addFixToMapping`, `addFixes`: one call and a sequence of calls; `none` is a failed
  assertion.

Coalescing is meant to be a join: the type stored at a location is the least upper bound of
the types added there (`CoalescesToJoin`, for every order of the calls).
`coalescesToJoin_iff`: it is one exactly for the sequences in which no location receives both
`ADD_PERSIST_CALLSTACK_OPT_NOFENCE` and a primitive fix.
-/

namespace Hippocrates

open FixType

/-- The tests of `addFixToMapping` for the fix `old` of the location: the new fix of the
location, if it changes (the result `true`). -/
def coalesce [LinearOrder FixLoc] (old desc : FixDesc) : Option (Option FixDesc) :=
  if old.eq desc then some none
  else if old.type = ADD_FLUSH_ONLY ∧
      (desc.type = ADD_FENCE_ONLY ∨ desc.type = ADD_FLUSH_AND_FENCE) then
    some (some { old with type := ADD_FLUSH_AND_FENCE })
  else if old.type = ADD_FENCE_ONLY ∧ desc.type = ADD_FLUSH_ONLY then
    some (some { old with type := ADD_FLUSH_AND_FENCE })
  else if old.type = ADD_FLUSH_AND_FENCE ∧
      (desc.type = ADD_FLUSH_ONLY ∨ desc.type = ADD_FENCE_ONLY) then
    some none
  else if desc.type = ADD_FLUSH_AND_FENCE ∧
      (old.type = ADD_FLUSH_ONLY ∨ old.type = ADD_FENCE_ONLY) then
    some (some { old with type := ADD_FLUSH_AND_FENCE })
  else if (old.type = ADD_FLUSH_ONLY ∨ old.type = ADD_FLUSH_AND_FENCE) ∧
      desc.type = REMOVE_FLUSH_ONLY then
    none -- "conflicting solutions!"
  else if old.type = REMOVE_FLUSH_CONDITIONAL ∧ desc.type = REMOVE_FLUSH_CONDITIONAL then
    some (some { old with
      originals := old.originals ++ desc.originals
      points := old.points ++ desc.points })
  else if old.type = ADD_PERSIST_CALLSTACK_OPT ∧ (desc.type.isPST ∨ desc.type.isPrimative) then
    some none
  else if desc.type = ADD_PERSIST_CALLSTACK_OPT ∧ (old.type.isPST ∨ old.type.isPrimative) then
    some (some desc)
  else if old.type = ADD_PERSIST_CALLSTACK_OPT_NOFENCE ∧ desc.type.addsFence then
    some (some { old with type := ADD_PERSIST_CALLSTACK_OPT })
  else none -- "what"

section FixMap

variable [LinearOrder FixLoc]

/-- `addFixToMapping`. -/
def addFixToMapping (m : Module) (fixMap : FixMap) (fl : FixLoc) (desc : FixDesc) :
    Option (FixMap × Bool) :=
  if !fl.isValid m then none -- "bad range!!"
  else if desc.type = NO_FIX then none
  else
    match fixMap.find fl with
    | none => some (fixMap.insert fl desc, true)
    | some old =>
      match coalesce old desc with
      | none => none
      | some none => some (fixMap, false)
      | some (some new) => some (fixMap.insert fl new, true)

/-- A sequence of calls of `addFixToMapping`. -/
def addFixes (m : Module) : FixMap → List (FixLoc × FixDesc) → Option FixMap
  | fixMap, [] => some fixMap
  | fixMap, (fl, desc) :: calls =>
    match addFixToMapping m fixMap fl desc with
    | none => none
    | some (fixMap', _) => addFixes m fixMap' calls

lemma addFixes_append {m : Module} {fixMap : FixMap} {p q : List (FixLoc × FixDesc)} :
    addFixes m fixMap (p ++ q) = (addFixes m fixMap p).bind fun fm => addFixes m fm q := by
  induction p generalizing fixMap with
  | nil => rfl
  | cons c p ih =>
      rw [List.cons_append, addFixes, addFixes]
      cases addFixToMapping m fixMap c.1 c.2 with
      | none => rfl
      | some r => exact ih

end FixMap

/-! ### The meaning of the sequence -/

/-- A fix as the correctness handlers build it, at a location in the module. -/
structure ValidCall (m : Module) (c : FixLoc × FixDesc) : Prop where
  location : c.1.isValid m = true
  type : c.2.type.isCorrectness = true
  originals : c.2.originals = []
  points : c.2.points = []

/-- The types added at the location. -/
def typesAt (fl : FixLoc) (calls : List (FixLoc × FixDesc)) : Set FixType :=
  {t | ∃ desc, (fl, desc) ∈ calls ∧ desc.type = t}

/-- No location receives both a subprogram without a fence and a primitive fix. -/
def Compatible (calls : List (FixLoc × FixDesc)) : Prop :=
  ∀ fl, ADD_PERSIST_CALLSTACK_OPT_NOFENCE ∈ typesAt fl calls →
    ∀ t ∈ typesAt fl calls, t.isPrimative = false

/-- The map holds at each location the least upper bound of the types added there. -/
def HoldsJoins [LinearOrder FixLoc] (fixMap : FixMap) (calls : List (FixLoc × FixDesc)) : Prop :=
  ∀ fl, (∀ d, fixMap.find fl = some d → IsLUB (typesAt fl calls) d.type) ∧
    (fixMap.find fl = none ↔ typesAt fl calls = ∅)

/-- Whatever the order of the calls, none fails, each returns whether it changed the map, and
the joins of the types result. -/
def CoalescesToJoin [LinearOrder FixLoc] (m : Module) (calls : List (FixLoc × FixDesc)) : Prop :=
  ∀ calls', calls'.Perm calls →
    (∀ p c q, calls' = p ++ c :: q → ∃ fixMap fixMap' res,
      addFixes m OrderedMap.empty p = some fixMap ∧
      addFixToMapping m fixMap c.1 c.2 = some (fixMap', res) ∧
      (res = true ↔ fixMap' ≠ fixMap)) ∧
    ∃ fixMap, addFixes m OrderedMap.empty calls' = some fixMap ∧ HoldsJoins fixMap calls

/-! ### One merge -/

/-- The ways in which `coalesce` completes. -/
inductive Coalesces [LinearOrder FixLoc] (old desc : FixDesc) : Option FixDesc → Prop
  | equal (h : old.eq desc = true) : Coalesces old desc none
  | both (hold : old.type.isPrimative = true) (hdesc : desc.type.isPrimative = true) :
      Coalesces old desc (some { old with type := ADD_FLUSH_AND_FENCE })
  | stays (hold : old.type = ADD_FLUSH_AND_FENCE) (hdesc : desc.type.isPrimative = true) :
      Coalesces old desc none
  | removal (hold : old.type = REMOVE_FLUSH_CONDITIONAL)
      (hdesc : desc.type = REMOVE_FLUSH_CONDITIONAL) :
      Coalesces old desc (some { old with
        originals := old.originals ++ desc.originals
        points := old.points ++ desc.points })
  | subprogram (hold : old.type = ADD_PERSIST_CALLSTACK_OPT) : Coalesces old desc none
  | replaced (hold : old.type ≠ ADD_PERSIST_CALLSTACK_OPT)
      (hdesc : desc.type = ADD_PERSIST_CALLSTACK_OPT) : Coalesces old desc (some desc)
  | fenced (hold : old.type = ADD_PERSIST_CALLSTACK_OPT_NOFENCE)
      (hdesc : desc.type.addsFence = true) (hne : desc.type ≠ ADD_PERSIST_CALLSTACK_OPT) :
      Coalesces old desc (some { old with type := ADD_PERSIST_CALLSTACK_OPT })

lemma coalesce_cases [LinearOrder FixLoc] {old desc : FixDesc} {r : Option FixDesc}
    (h : coalesce old desc = some r) : Coalesces old desc r := by
  have hprim : ∀ d : FixDesc, d.type = ADD_FLUSH_ONLY ∨ d.type = ADD_FENCE_ONLY ∨
      d.type = ADD_FLUSH_AND_FENCE → d.type.isPrimative = true := by
    rintro d (hd | hd | hd) <;> rw [hd] <;> rfl
  rw [coalesce] at h
  -- the branches of the source in their order
  rcases ite_eq_iff.mp h with ⟨heq, h⟩ | ⟨-, h⟩
  · exact Option.some.inj h ▸ .equal heq
  rcases ite_eq_iff.mp h with ⟨hflush, h⟩ | ⟨-, h⟩
  · exact Option.some.inj h ▸ .both (hprim old (.inl hflush.1)) (hprim desc (.inr hflush.2))
  rcases ite_eq_iff.mp h with ⟨hfence, h⟩ | ⟨-, h⟩
  · exact Option.some.inj h ▸ .both (hprim old (.inr (.inl hfence.1))) (hprim desc (.inl hfence.2))
  rcases ite_eq_iff.mp h with ⟨hboth, h⟩ | ⟨-, h⟩
  · exact Option.some.inj h ▸ .stays hboth.1 (hprim desc (hboth.2.imp_right .inl))
  rcases ite_eq_iff.mp h with ⟨hnew, h⟩ | ⟨-, h⟩
  · exact Option.some.inj h ▸
      .both (hprim old (hnew.2.imp_right .inl)) (hprim desc (.inr (.inr hnew.1)))
  rcases ite_eq_iff.mp h with ⟨-, h⟩ | ⟨-, h⟩
  · cases h
  rcases ite_eq_iff.mp h with ⟨hcond, h⟩ | ⟨-, h⟩
  · exact Option.some.inj h ▸ .removal hcond.1 hcond.2
  rcases ite_eq_iff.mp h with ⟨hopt, h⟩ | ⟨hopt, h⟩
  · exact Option.some.inj h ▸ .subprogram hopt.1
  rcases ite_eq_iff.mp h with ⟨hraise, h⟩ | ⟨hraise, h⟩
  · refine Option.some.inj h ▸ .replaced (fun hold => hopt ⟨hold, .inl ?_⟩) hraise.1
    rw [hraise.1]
    rfl
  rcases ite_eq_iff.mp h with ⟨hnf, h⟩ | ⟨-, h⟩
  · refine Option.some.inj h ▸ .fenced hnf.1 hnf.2 fun hdesc => hraise ⟨hdesc, .inl ?_⟩
    rw [hnf.1]
    rfl
  · cases h

/-- The pairs the chain of tests leaves out. -/
def Unhandled (old new : FixType) : Prop :=
  (old.isPrimative ∧ new = ADD_PERSIST_CALLSTACK_OPT_NOFENCE) ∨
    (old = ADD_PERSIST_CALLSTACK_OPT_NOFENCE ∧ new = ADD_FLUSH_ONLY)

instance (old new : FixType) : Decidable (Unhandled old new) :=
  inferInstanceAs (Decidable (_ ∨ _))

/-- **One merge** of correctness fixes fails on the pairs left out, and otherwise yields the
join of the types; the fix changes exactly when its type does. -/
lemma coalesce_spec [LinearOrder FixLoc] {old desc : FixDesc} (hold : old.type.isCorrectness = true)
    (hdesc : desc.type.isCorrectness = true) (ho : old.originals = []) (hp : old.points = [])
    (ho' : desc.originals = []) (hp' : desc.points = []) :
    (Unhandled old.type desc.type ∧ coalesce old desc = none) ∨
      (¬ Unhandled old.type desc.type ∧ join old.type desc.type = old.type ∧
        coalesce old desc = some none) ∨
      (¬ Unhandled old.type desc.type ∧ join old.type desc.type ≠ old.type ∧
        ∃ new, coalesce old desc = some (some new) ∧ new.type = join old.type desc.type ∧
          new.originals = [] ∧ new.points = []) := by
  obtain ⟨t, stack, idx, o, p⟩ := old
  obtain ⟨t', stack', idx', o', p'⟩ := desc
  obtain rfl : o = [] := ho
  obtain rfl : p = [] := hp
  obtain rfl : o' = [] := ho'
  obtain rfl : p' = [] := hp'
  dsimp only at hold hdesc ⊢
  cases t <;> cases t' <;>
    first
    | exact absurd hold (by decide)
    | exact absurd hdesc (by decide)
    | exact .inl ⟨by decide, rfl⟩
    | exact .inr (.inl ⟨by decide, rfl, rfl⟩)
    | exact .inr (.inr ⟨by decide, by decide, _, rfl, rfl, rfl, rfl⟩)

/-! ### Sequences of calls -/

lemma typesAt_append {fl : FixLoc} {p q : List (FixLoc × FixDesc)} :
    typesAt fl (p ++ q) = typesAt fl p ∪ typesAt fl q := by
  ext t
  simp only [typesAt, List.mem_append, Set.mem_ofPred_eq, Set.mem_union, or_and_right, exists_or]

lemma typesAt_singleton {fl fl' : FixLoc} {desc : FixDesc} :
    typesAt fl [(fl', desc)] = {t | fl = fl' ∧ desc.type = t} := by
  ext t
  simp only [typesAt, List.mem_singleton, Prod.mk.injEq, Set.mem_ofPred_eq]
  constructor
  · rintro ⟨d, ⟨rfl, rfl⟩, rfl⟩
    exact ⟨rfl, rfl⟩
  · rintro ⟨rfl, rfl⟩
    exact ⟨desc, ⟨rfl, rfl⟩, rfl⟩

lemma typesAt_perm {fl : FixLoc} {p q : List (FixLoc × FixDesc)} (h : p.Perm q) :
    typesAt fl p = typesAt fl q := by
  ext t
  simp only [typesAt, Set.mem_ofPred_eq, h.mem_iff]

lemma Compatible.sublist {p q : List (FixLoc × FixDesc)} (h : Compatible (p ++ q)) :
    Compatible p := by
  intro fl hfl t ht
  exact h fl (typesAt_append ▸ .inl hfl) t (typesAt_append ▸ .inl ht)

lemma typesAt_snoc [LinearOrder FixLoc] {fl l : FixLoc} {desc : FixDesc}
    {calls : List (FixLoc × FixDesc)} :
    typesAt l (calls ++ [(fl, desc)]) =
      if l = fl then typesAt l calls ∪ {desc.type} else typesAt l calls := by
  rw [typesAt_append, typesAt_singleton]
  ext t
  split_ifs with h <;> simp [h, eq_comm]

lemma Compatible.perm {p q : List (FixLoc × FixDesc)} (h : Compatible q) (hp : p.Perm q) :
    Compatible p := by
  intro fl
  rw [typesAt_perm hp]
  exact h fl

/-- Two calls with different types can be made first, in either order. -/
lemma exists_perm_cons_cons {calls : List (FixLoc × FixDesc)} {c d : FixLoc × FixDesc}
    (hc : c ∈ calls) (hd : d ∈ calls) (hne : c ≠ d) :
    ∃ rest, (c :: d :: rest).Perm calls := by
  obtain ⟨p, q, rfl⟩ := List.append_of_mem hc
  have hd' : d ∈ p ++ q := by
    rcases List.mem_append.mp hd with h | h
    · exact List.mem_append_left q h
    · exact List.mem_append_right p ((List.mem_cons.mp h).resolve_left hne.symm)
  obtain ⟨r, s, hrs⟩ := List.append_of_mem hd'
  refine ⟨r ++ s, ?_⟩
  have h1 : (d :: (r ++ s)).Perm (p ++ q) := by
    rw [hrs]
    exact List.perm_middle.symm
  exact (h1.cons c).trans List.perm_middle.symm

/-- Adding an element to a set moves its least upper bound to the join. -/
lemma isLUB_union_singleton {S : Set FixType} {t u : FixType} (ht : t.isCorrectness)
    (hu : u.isCorrectness) (h : IsLUB S t) : IsLUB (S ∪ {u}) (join t u) := by
  have hj := isLUB_join ht hu
  refine ⟨?_, fun c hc => ?_⟩
  · rintro c (hc | rfl)
    · exact (h.1 hc).trans (hj.1 (by simp))
    · exact hj.1 (by simp)
  · refine hj.2 ?_
    rintro d (rfl | rfl)
    · exact h.2 fun e he => hc (.inl he)
    · exact hc (.inr rfl)

/-- Below a primitive fix there are only primitive fixes. -/
lemma isPrimative_of_le {a b : FixType} (ha : a.isCorrectness) (hb : b.isPrimative)
    (h : a ≤ b) : a.isPrimative := by
  cases a <;> cases b <;> first | rfl | (revert ha hb h; decide)

/-- What `ADD_PERSIST_CALLSTACK_OPT_NOFENCE` bounds is itself or a flush. -/
lemma eq_of_le_noFence {a : FixType} (ha : a.isCorrectness)
    (h : a ≤ ADD_PERSIST_CALLSTACK_OPT_NOFENCE) :
    a = ADD_PERSIST_CALLSTACK_OPT_NOFENCE ∨ a = ADD_FLUSH_ONLY := by
  cases a <;> first | exact .inl rfl | exact .inr rfl | (revert ha h; decide)

/-- A type left out by the chain comes with a conflicting type of the location. -/
lemma not_unhandled {S : Set FixType} {t u : FixType} (hS : ∀ s ∈ S, s.isCorrectness = true)
    (hne : S ≠ ∅) (h : IsLUB S t)
    (hcompat : ADD_PERSIST_CALLSTACK_OPT_NOFENCE ∈ S ∪ {u} →
      ∀ s ∈ S ∪ {u}, s.isPrimative = false) : ¬ Unhandled t u := by
  rintro (⟨ht, rfl⟩ | ⟨rfl, rfl⟩)
  · obtain ⟨s, hs⟩ := Set.nonempty_iff_ne_empty.mpr hne
    have hprim := isPrimative_of_le (hS s hs) ht (h.1 hs)
    rw [hcompat (.inr rfl) s (.inl hs)] at hprim
    cases hprim
  · have hmem : ADD_PERSIST_CALLSTACK_OPT_NOFENCE ∈ S := by
      by_contra hn
      have hflush : ADD_PERSIST_CALLSTACK_OPT_NOFENCE ≤ ADD_FLUSH_ONLY := by
        refine h.2 fun s hs => ?_
        rcases eq_of_le_noFence (hS s hs) (h.1 hs) with rfl | rfl
        · exact absurd hs hn
        · exact le_rfl
      revert hflush
      decide
    have := hcompat (.inl hmem) ADD_FLUSH_ONLY (.inr rfl)
    cases this

section FixMap

variable [LinearOrder FixLoc] {m : Module}

/-- The state after the calls `calls`: the joins, and fixes as the handlers build them. -/
structure Coalesced (fixMap : FixMap) (calls : List (FixLoc × FixDesc)) : Prop where
  joins : HoldsJoins fixMap calls
  type : ∀ fl d, fixMap.find fl = some d → d.type.isCorrectness = true
  originals : ∀ fl d, fixMap.find fl = some d → d.originals = []
  points : ∀ fl d, fixMap.find fl = some d → d.points = []

lemma coalesced_empty : Coalesced (OrderedMap.empty : FixMap) [] := by
  refine ⟨fun fl => ⟨by simp, ?_⟩, by simp, by simp, by simp⟩
  simp [typesAt]

/-- A new fix with the join of its location's types is stored. -/
lemma Coalesced.insert {fixMap : FixMap} {calls : List (FixLoc × FixDesc)} {fl : FixLoc}
    {desc new : FixDesc} (h : Coalesced fixMap calls)
    (hlub : IsLUB (typesAt fl calls ∪ {desc.type}) new.type)
    (htype : new.type.isCorrectness = true) (ho : new.originals = []) (hp : new.points = []) :
    Coalesced (fixMap.insert fl new) (calls ++ [(fl, desc)]) := by
  refine ⟨fun l => ?_, fun l d hd => ?_, fun l d hd => ?_, fun l d hd => ?_⟩
  · rw [OrderedMap.find_insert, typesAt_snoc]
    split_ifs with hl
    · subst hl
      refine ⟨?_, iff_of_false (by simp) ?_⟩
      · rintro d ⟨⟩
        exact hlub
      · exact Set.nonempty_iff_ne_empty.mp ⟨desc.type, .inr rfl⟩
    · exact h.joins l
  all_goals
    rw [OrderedMap.find_insert] at hd
    split_ifs at hd
    · obtain rfl := Option.some.inj hd
      assumption
  · exact h.type l d hd
  · exact h.originals l d hd
  · exact h.points l d hd

/-- **One call** on a compatible location: it succeeds, it returns whether it changed the
map, and the joins are kept. -/
lemma Coalesced.addFixToMapping {fixMap : FixMap} {calls : List (FixLoc × FixDesc)}
    {c : FixLoc × FixDesc} (h : Coalesced fixMap calls) (hvalid : ∀ c ∈ calls, ValidCall m c)
    (hc : ValidCall m c) (hcompat : Compatible (calls ++ [c])) :
    ∃ fixMap' res, addFixToMapping m fixMap c.1 c.2 = some (fixMap', res) ∧
      (res = true ↔ fixMap' ≠ fixMap) ∧ Coalesced fixMap' (calls ++ [c]) := by
  obtain ⟨fl, desc⟩ := c
  have hcorr : ∀ t ∈ typesAt fl calls, t.isCorrectness = true := by
    rintro _ ⟨d, hd, rfl⟩
    exact (hvalid _ hd).type
  have hnofix : desc.type ≠ NO_FIX := fun ht => by
    have := hc.type
    rw [ht] at this
    cases this
  have hhere : typesAt fl (calls ++ [(fl, desc)]) = typesAt fl calls ∪ {desc.type} := by
    rw [typesAt_snoc, if_pos rfl]
  rw [Hippocrates.addFixToMapping, if_neg (by simp [hc.location]), if_neg hnofix]
  cases hfind : fixMap.find fl with
  | none =>
      refine ⟨_, _, rfl, iff_of_true rfl fun heq => ?_,
        h.insert ?_ hc.type hc.originals hc.points⟩
      · have := congrArg (fun fm => OrderedMap.find fm fl) heq
        simp [OrderedMap.find_insert, hfind] at this
      · rw [((h.joins fl).2).mp hfind]
        simp
  | some old =>
      have hold := (h.joins fl).1 old hfind
      have hne : typesAt fl calls ≠ ∅ := fun he => by
        rw [((h.joins fl).2).mpr he] at hfind
        cases hfind
      -- the types at the location are compatible, so no assertion fails
      have hhandled : ¬ Unhandled old.type desc.type :=
        not_unhandled hcorr hne hold (hhere ▸ hcompat fl)
      have hjoin := isLUB_union_singleton (h.type fl old hfind) hc.type hold
      rcases coalesce_spec (h.type fl old hfind) hc.type (h.originals fl old hfind)
        (h.points fl old hfind) hc.originals hc.points with
        ⟨hun, -⟩ | ⟨-, hsame, hco⟩ | ⟨-, hdiff, new, hco, htype, ho, hp⟩
      · exact absurd hun hhandled
      · refine ⟨fixMap, false, by simp [hco], by simp, ?_⟩
        rw [← OrderedMap.insert_eq_self hfind]
        exact h.insert (hsame ▸ hjoin) (h.type fl old hfind) (h.originals fl old hfind)
          (h.points fl old hfind)
      · refine ⟨fixMap.insert fl new, true, by simp [hco], iff_of_true rfl fun heq => ?_,
          h.insert (htype ▸ hjoin) (htype ▸ join_isCorrectness _ _) ho hp⟩
        have := congrArg (fun fm => OrderedMap.find fm fl) heq
        simp only [OrderedMap.find_insert, if_true, hfind, Option.some.injEq] at this
        exact hdiff (by rw [← htype, this])

/-- **A compatible sequence** completes and holds the joins. -/
lemma coalesced_addFixes {calls : List (FixLoc × FixDesc)} (hvalid : ∀ c ∈ calls, ValidCall m c)
    (hcompat : Compatible calls) :
    ∃ fixMap, addFixes m OrderedMap.empty calls = some fixMap ∧ Coalesced fixMap calls := by
  induction calls using List.reverseRecOn with
  | nil => exact ⟨OrderedMap.empty, rfl, coalesced_empty⟩
  | append_singleton calls c ih =>
      have hv : ∀ d ∈ calls, ValidCall m d := fun d hd => hvalid d (List.mem_append_left _ hd)
      obtain ⟨fixMap, hrun, hco⟩ := ih hv hcompat.sublist
      obtain ⟨fixMap', res, hcall, -, hco'⟩ :=
        hco.addFixToMapping hv (hvalid c (by simp)) hcompat
      refine ⟨fixMap', ?_, hco'⟩
      rw [addFixes_append, hrun]
      simp [addFixes, hcall]

/-- A subprogram without a fence, added where only a primitive fix was, fails. -/
lemma addFixes_primative_noFence {fl : FixLoc} {d d' : FixDesc} {calls : List (FixLoc × FixDesc)}
    (hv : ValidCall m (fl, d)) (hv' : ValidCall m (fl, d')) (hd : d.type.isPrimative = true)
    (hd' : d'.type = ADD_PERSIST_CALLSTACK_OPT_NOFENCE) :
    addFixes m (OrderedMap.empty : FixMap) ((fl, d) :: (fl, d') :: calls) = none := by
  have hnofix : d.type ≠ NO_FIX := fun ht => by simp [ht, isPrimative] at hd
  have hfail : coalesce d d' = none := by
    have hun : Unhandled d.type d'.type := .inl ⟨hd, hd'⟩
    rcases coalesce_spec hv.type hv'.type hv.originals hv.points hv'.originals hv'.points with
      ⟨-, h⟩ | ⟨h, -⟩ | ⟨h, -⟩
    · exact h
    · exact absurd hun h
    · exact absurd hun h
  have hloc := hv.location
  simp only at hloc
  simp [addFixes, addFixToMapping, hloc, hnofix, OrderedMap.find_insert, hfail]

/-- **When coalescing is a join**: for the correctness fixes, at locations of the module, every
order of the calls succeeds and yields the least upper bounds exactly when no location
receives both a subprogram without a fence and a primitive fix. -/
theorem coalescesToJoin_iff {calls : List (FixLoc × FixDesc)}
    (hvalid : ∀ c ∈ calls, ValidCall m c) :
    CoalescesToJoin m calls ↔ Compatible calls := by
  constructor
  -- in the order with the primitive fix first, the subprogram without a fence would fail
  · rintro hjoin fl ⟨d, hd, hdt⟩ t ⟨d', hd', rfl⟩
    by_contra hprim
    rw [Bool.not_eq_false] at hprim
    have hne : (fl, d') ≠ (fl, d) := by
      rintro ⟨⟩
      rw [hdt] at hprim
      cases hprim
    obtain ⟨rest, hperm⟩ := exists_perm_cons_cons hd' hd hne
    obtain ⟨-, fixMap, hrun, -⟩ := hjoin _ hperm
    rw [addFixes_primative_noFence (hvalid _ hd') (hvalid _ hd) hprim hdt] at hrun
    cases hrun
  · intro hcompat calls' hperm
    have hvalid' : ∀ c ∈ calls', ValidCall m c := fun c hc => hvalid c (hperm.mem_iff.mp hc)
    have hcompat' := hcompat.perm hperm
    constructor
    -- each call comes after compatible ones, in any order
    · rintro p c q rfl
      have hvp : ∀ d ∈ p, ValidCall m d := fun d hd => hvalid' d (by simp [hd])
      have hpc : Compatible (p ++ [c]) := by
        refine Compatible.sublist (q := q) ?_
        simpa using hcompat'
      obtain ⟨fixMap, hrun, hco⟩ := coalesced_addFixes hvp hpc.sublist
      obtain ⟨fixMap', res, hcall, hres, -⟩ :=
        hco.addFixToMapping hvp (hvalid' c (by simp)) hpc
      exact ⟨fixMap, fixMap', res, hrun, hcall, hres⟩
    · obtain ⟨fixMap, hrun, hco⟩ := coalesced_addFixes hvalid' hcompat'
      refine ⟨fixMap, hrun, fun fl => ?_⟩
      rw [← typesAt_perm hperm]
      exact hco.joins fl

end FixMap

/-! ### Two bugs at one location -/

/-- A function with one store. -/
def oneStore : Module :=
  ⟨[(FnId.named "update", ⟨[[⟨InstId.orig 0, .store (.constant "v" (.other "i64"))
      (.arg (FnId.named "update") 0 .i8Ptr)⟩]]⟩)], 0⟩

/-- Some address for every instruction. -/
def InstId.address (i : InstId) : ℕ := Encodable.encode (i.num, i.inserted, i.copies)

lemma InstId.address_injective : Function.Injective InstId.address := by
  rintro ⟨a, b, c⟩ ⟨a', b', c'⟩ h
  simpa [InstId.address] using h

/-- The fixes of two bugs at the store: a raised flush, and a flush. -/
def raisedAndFlush : List (FixLoc × FixDesc) :=
  [(FixLoc.single (InstId.orig 0), FixDesc.mk' ADD_PERSIST_CALLSTACK_OPT_NOFENCE [] 1),
    (FixLoc.single (InstId.orig 0), FixDesc.mk' ADD_FLUSH_ONLY [] 0)]

lemma raisedAndFlush_valid : ∀ c ∈ raisedAndFlush, ValidCall oneStore c := by
  simp only [raisedAndFlush, List.forall_mem_cons, List.not_mem_nil, false_imp_iff,
    implies_true, and_true]
  exact ⟨⟨by decide, rfl, rfl, rfl⟩, ⟨by decide, rfl, rfl, rfl⟩⟩

/-- The second call reaches the assertion, in either order. -/
theorem raisedAndFlush_fails :
    letI := FixLoc.compare InstId.address InstId.address_injective
    (∀ c ∈ raisedAndFlush, ValidCall oneStore c) ∧
      addFixes oneStore OrderedMap.empty raisedAndFlush = none ∧
      addFixes oneStore OrderedMap.empty raisedAndFlush.reverse = none ∧
      ¬ CoalescesToJoin oneStore raisedAndFlush := by
  let := FixLoc.compare InstId.address InstId.address_injective
  have hfail : addFixes oneStore OrderedMap.empty raisedAndFlush = none := by
    have hloc : FixLoc.isValid oneStore (FixLoc.single (InstId.orig 0)) = true := by decide
    simp [raisedAndFlush, addFixes, addFixToMapping, hloc, OrderedMap.find_insert, FixDesc.mk',
      coalesce, FixDesc.eq, isPST, isPrimative, addsFence]
  refine ⟨raisedAndFlush_valid, hfail, ?_, fun hjoin => ?_⟩
  · exact addFixes_primative_noFence (raisedAndFlush_valid _ (by simp [raisedAndFlush]))
      (raisedAndFlush_valid _ (by simp [raisedAndFlush])) rfl rfl
  · obtain ⟨-, fixMap, hrun, -⟩ := hjoin _ (List.Perm.refl _)
    rw [hfail] at hrun
    cases hrun

theorem coalescesToJoin_iff_raisedAndFlush :
    letI := FixLoc.compare InstId.address InstId.address_injective
    CoalescesToJoin oneStore raisedAndFlush ↔ Compatible raisedAndFlush :=
  let := FixLoc.compare InstId.address InstId.address_injective
  coalescesToJoin_iff raisedAndFlush_valid

end Hippocrates

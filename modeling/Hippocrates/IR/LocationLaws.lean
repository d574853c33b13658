import Mathlib.Tactic
import Hippocrates.IR.LocationMapper

/-!
What the mapper from source locations holds, and when it does not depend on the order in which it
is filled.

* `createMappings_spec`: when no file name is part of another at the same line, a location has one
  range for each block with an instruction there, from the first such instruction to the last, and
  `FixLoc::insts` lists them.
* `hashLaws_iff`: `operator==` and the hash are fit for a hash table, and lookups do not depend on
  the order of the insertions, exactly when the file names fit (`FilesFit`).
-/

namespace Hippocrates

/-! ### The walk over a range -/

section Walk

variable {m : Module} {f : FnId} {b : Block} {P : Instr → Bool}

lemma dropWhile_ne_id {pre post : List Instr} {i : Instr}
    (hb : ((pre ++ i :: post).map Instr.id).Nodup) :
    (pre ++ i :: post).dropWhile (fun j => decide (j.id ≠ i.id)) = i :: post := by
  rw [List.map_append, List.map_cons, List.nodup_append] at hb
  have hpre : ∀ j ∈ pre, j.id ≠ i.id := fun j hj =>
    hb.2.2 j.id (List.mem_map_of_mem hj) i.id List.mem_cons_self
  rw [List.dropWhile_append_of_pos (by simpa using hpre)]
  simp

/-- The walk from `first` to `last` lists the first instruction and the others that are no debug
instructions. -/
lemma walk_eq {pre mid post : List Instr} {first : Instr}
    (hb : ((pre ++ (first :: mid ++ post)).map Instr.id).Nodup) :
    walk (pre ++ (first :: mid ++ post)) ⟨first.id, (mid.getLastD first).id⟩ =
      some (first :: mid.filter fun j => !j.isDebug) := by
  have hlast : ∃ init, first :: mid = init ++ [mid.getLastD first] := by
    refine ⟨(first :: mid).dropLast, ?_⟩
    rw [← List.getLast_eq_getLastD, List.dropLast_append_getLast]
    exact List.cons_ne_nil _ _
  obtain ⟨init, hinit⟩ := hlast
  have hnext : nextNonDebug (pre ++ (first :: mid ++ post)) (mid.getLastD first).id =
      (post.filter fun j => !j.isDebug).head? := by
    have hsplit : pre ++ (first :: mid ++ post) =
        (pre ++ init) ++ mid.getLastD first :: post := by
      rw [hinit]
      simp
    -- the walk stops at the first instruction after the last that is no debug instruction
    rw [hsplit] at hb
    rw [nextNonDebug, afterInst, hsplit, dropWhile_ne_id hb, List.tail_cons, List.head?_filter]
  have hdrop := @dropWhile_ne_id pre (mid ++ post) first (by simpa using hb)
  rw [walk, hnext]
  dsimp only
  rw [List.cons_append, hdrop]
  dsimp only
  rw [List.filter_append]
  cases hpost : post.filter fun j => !j.isDebug with
  | nil =>
      rw [List.append_nil]
      rfl
  | cons stop rest =>
      rw [List.head?_cons]
      dsimp only
      have hstop : stop ∈ post := by
        have hmem : stop ∈ post.filter fun j => !j.isDebug := hpost ▸ List.mem_cons_self
        exact (List.mem_filter.mp hmem).1
      have hne : ∀ j ∈ first :: mid.filter (fun j => !j.isDebug), j.id ≠ stop.id := by
        intro j hj
        have hmid : j ∈ first :: mid := (List.filter_sublist.cons_cons first).subset hj
        rw [List.map_append, List.map_append, List.nodup_append, List.nodup_append] at hb
        exact hb.2.1.2.2 j.id (List.mem_map_of_mem hmid) stop.id (List.mem_map_of_mem hstop)
      rw [if_pos (by simp), ← List.cons_append, List.takeWhile_append_of_pos (by simpa using hne)]
      simp

/-- A list splits after its last element with a property. -/
lemma exists_split_last (P : Instr → Bool) (first : Instr) (l : List Instr) :
    ∃ mid post, l = mid ++ post ∧ mid.getLastD first = (l.filter P).getLastD first ∧
      ∀ j ∈ post, P j = false := by
  induction l using List.reverseRecOn with
  | nil => exact ⟨[], [], rfl, rfl, by simp⟩
  | append_singleton l j ih =>
      cases hj : P j with
      | true =>
          refine ⟨l ++ [j], [], by simp, ?_, by simp⟩
          rw [List.filter_append, List.filter_singleton, hj, List.getLastD_concat]
          exact List.getLastD_concat.symm
      | false =>
          obtain ⟨mid, post, rfl, hlast, hpost⟩ := ih
          have hfilter : (mid ++ post ++ [j]).filter P = (mid ++ post).filter P := by simp [hj]
          refine ⟨mid, post ++ [j], by simp, by rw [hlast, hfilter], ?_⟩
          simpa [or_imp, forall_and, hj] using hpost

/-- A range splits its block. -/
lemma rangeIn_split {fl : FixLoc} (h : rangeIn P b = some fl) :
    ∃ pre first mid post, b = pre ++ (first :: mid ++ post) ∧
      fl = ⟨first.id, (mid.getLastD first).id⟩ ∧ (∀ j ∈ pre, P j = false) ∧
      ∀ j ∈ post, P j = false := by
  rw [rangeIn] at h
  cases hf : b.filter P with
  | nil => simp [hf] at h
  | cons first is =>
      rw [hf] at h
      obtain rfl := Option.some.inj h
      obtain ⟨pre, rest, rfl, hpre, -, rfl⟩ := List.filter_eq_cons_iff.mp hf
      obtain ⟨mid, post, rfl, hlast, hpost⟩ := exists_split_last P first rest
      exact ⟨pre, first, mid, post, by simp, by rw [hlast],
        fun j hj => Bool.eq_false_iff.mpr (hpre j hj), hpost⟩

/-- The range goes from the first to the last of the instructions. -/
lemma ends_of_rangeIn {fl : FixLoc} (h : rangeIn P b = some fl) :
    ((b.filter P).head?).map Instr.id = some fl.first ∧
      ((b.filter P).getLast?).map Instr.id = some fl.last := by
  rw [rangeIn] at h
  cases hf : b.filter P with
  | nil => simp [hf] at h
  | cons i is =>
      rw [hf] at h
      obtain rfl := Option.some.inj h
      refine ⟨rfl, ?_⟩
      rw [List.getLast?_cons, List.getLastD_eq_getLast?]
      rfl

end Walk

/-! ### Completeness -/

namespace LocationInfo

lemma eqv_iff {a b : LocationInfo} : a.eqv b = true ↔ a.function = b.function ∧ a.line = b.line ∧
    (a.file.toList <:+: b.file.toList ∨ b.file.toList <:+: a.file.toList) := by
  rw [eqv]
  by_cases hf : a.function = b.function
  · by_cases hl : a.line = b.line
    · rw [if_neg (not_not.mpr hf), if_neg (not_not.mpr hl)]
      simp only [hf, hl, true_and]
      split_ifs with hlen
      · rw [decide_eq_true_iff, iff_self_or]
        intro hba
        have hle := hba.length_le
        rw [String.length_toList, String.length_toList] at hle
        omega
      · rw [decide_eq_true_iff, or_comm, iff_self_or]
        intro hab
        have hle := hab.length_le
        rw [String.length_toList, String.length_toList] at hle
        have heq := hab.eq_of_length (by rw [String.length_toList, String.length_toList]; omega)
        exact heq ▸ List.infix_rfl
    · simp [hf, hl]
  · simp [hf]

end LocationInfo

section Complete

variable {H : StdHash} {B : Buckets} {D : DebugModule}

/-- At one line of a function no file name is part of another. -/
def FilesApart (D : DebugModule) : Prop :=
  ∀ i ∈ D.module.insts, ∀ j ∈ D.module.insts, ∀ a b, D.locationOf i = some a →
    D.locationOf j = some b → a.function = b.function → a.line = b.line →
      a.file.toList <:+: b.file.toList → a.file = b.file

/-- The locations of the instructions. -/
def DebugModule.locations (D : DebugModule) : Set LocationInfo :=
  {li | ∃ i ∈ D.module.insts, D.locationOf i = some li}

/-- The instruction, no `llvm.dbg.declare`, is at the location. -/
def DebugModule.isAt (D : DebugModule) (l : LocationInfo) (i : Instr) : Bool :=
  D.locationOf i == some l && !i.isDbgDeclare

lemma FilesApart.same_iff (h : FilesApart D) {a b : LocationInfo} (ha : a ∈ D.locations)
    (hb : b ∈ D.locations) : LocationInfo.same H a b = true ↔ a = b := by
  obtain ⟨i, hi, hia⟩ := ha
  obtain ⟨j, hj, hjb⟩ := hb
  rw [LocationInfo.same, Bool.and_eq_true, LocationInfo.eqv_iff]
  constructor
  · rintro ⟨-, hf, hl, hfile | hfile⟩
    · have heq := h i hi j hj a b hia hjb hf hl hfile
      cases a
      cases b
      simp_all
    · have heq := h j hj i hi b a hjb hia hf.symm hl.symm hfile
      cases a
      cases b
      simp_all
  · rintro rfl
    exact ⟨beq_self_eq_true _, rfl, rfl, .inl List.infix_rfl⟩

lemma FilesApart.lawful (h : FilesApart D) (hwf : D.module.WF) : Lawful H D D.locations where
  wf := hwf
  equiv := by
    refine ⟨fun a ha => (h.same_iff ha ha).mpr rfl, fun a ha b hb hab => ?_,
      fun a ha b hb c hc hab hbc => ?_⟩
    · exact (h.same_iff hb ha).mpr ((h.same_iff ha hb).mp hab).symm
    · exact (h.same_iff ha hc).mpr (((h.same_iff ha hb).mp hab).trans ((h.same_iff hb hc).mp hbc))
  mem i hi li hli := ⟨i, hi, hli⟩

/-- The range of a location in a block: from the first to the last instruction there; its walk
stays between them, and lists all that are no debug instructions. -/
structure RangeAt (D : DebugModule) (l : LocationInfo) (q : FnId × Block) (fl : FixLoc) :
    Prop where
  valid : fl.isValid D.module = true
  parent_first : D.module.parent fl.first = some q
  parent_last : D.module.parent fl.last = some q
  first : ((q.2.filter (D.isAt l)).head?).map Instr.id = some fl.first
  last : ((q.2.filter (D.isAt l)).getLast?).map Instr.id = some fl.last
  insts : ∃ pre mid post insts, q.2 = pre ++ mid ++ post ∧
    mid.head?.map Instr.id = some fl.first ∧ mid.getLast?.map Instr.id = some fl.last ∧
    fl.insts D.module = some insts ∧ insts.Sublist mid ∧ insts.Nodup ∧
    ∀ i ∈ q.2, D.locationOf i = some l → i.isDebug = false → i ∈ insts

lemma Instr.isDbgDeclare_eq_false {i : Instr} (h : i.isDebug = false) :
    i.isDbgDeclare = false := by
  rw [isDebug] at h
  rw [isDbgDeclare]
  cases hf : i.getCalledFunction with
  | none => rfl
  | some f =>
      rw [hf] at h
      simp only [Bool.or_eq_false_iff] at h
      exact h.1.1

/-- A range in a block starts with an instruction of the block. -/
lemma insts_of_rangeIn (hwf : D.module.WF) {P : Instr → Bool} {q : FnId × Block} {fl : FixLoc}
    (hq : q ∈ D.module.blockList) (h : rangeIn P q.2 = some fl) :
    fl.isValid D.module = true ∧ D.module.parent fl.first = some q ∧
      D.module.parent fl.last = some q ∧
      ∃ pre first mid post, q.2 = pre ++ (first :: mid ++ post) ∧
        fl = ⟨first.id, (mid.getLastD first).id⟩ ∧ (∀ j ∈ pre, P j = false) ∧
        (∀ j ∈ post, P j = false) ∧
        fl.insts D.module = some (first :: mid.filter fun j => !j.isDebug) := by
  obtain ⟨pre, first, mid, post, hb, hfl, hpre, hpost⟩ := rangeIn_split h
  have hparent : ∀ i ∈ q.2, D.module.parent i.id = some q := by
    intro i hi
    obtain ⟨body, hp, hblock⟩ := Module.mem_blockList.mp hq
    exact hwf.parent_eq hp hblock hi
  have hsub : ∀ i ∈ first :: mid, i ∈ q.2 := fun i hi => by
    rw [hb]
    exact List.mem_append_right pre (List.mem_append_left post hi)
  have hfirst : D.module.parent fl.first = some q := by
    rw [hfl]
    exact hparent first (hsub first List.mem_cons_self)
  have hlast : mid.getLastD first ∈ q.2 := hsub _ List.getLastD_mem_cons
  have hvalid : fl.isValid D.module = true := by
    rw [FixLoc.isValid, hfirst]
    exact List.any_eq_true.mpr ⟨_, hlast, by rw [hfl]; exact beq_self_eq_true _⟩
  refine ⟨hvalid, hfirst, ?_, pre, first, mid, post, hb, hfl, hpre, hpost, ?_⟩
  · rw [hfl]
    exact hparent _ hlast
  · have hnodup := hwf.nodup_block hq
    rw [hb] at hnodup
    rw [FixLoc.insts_eq_walk hvalid hfirst, hb, hfl]
    exact walk_eq hnodup

/-- The range of a block with the location. -/
lemma rangeAt_of_rangeIn (hwf : D.module.WF) {l : LocationInfo} {q : FnId × Block} {fl : FixLoc}
    (hq : q ∈ D.module.blockList) (h : rangeIn (D.isAt l) q.2 = some fl) : RangeAt D l q fl := by
  obtain ⟨hvalid, hfirst, hlast, pre, first, mid, post, hb, hfl, hpre, hpost, hwalk⟩ :=
    insts_of_rangeIn hwf hq h
  have hids : (first :: mid).Nodup := by
    have hnodup := (hwf.nodup_block hq).of_map
    rw [hb] at hnodup
    exact (hnodup.sublist (List.sublist_append_right pre _)).sublist (List.sublist_append_left _ _)
  have hends := ends_of_rangeIn h
  have hsubl : (first :: mid.filter fun j => !j.isDebug).Sublist (first :: mid) :=
    List.filter_sublist.cons_cons first
  refine ⟨hvalid, hfirst, hlast, hends.1, hends.2, pre, first :: mid, post, _, by simpa using hb,
    ?_, ?_, hwalk, hsubl, hids.sublist hsubl, fun i hi hil hdebug => ?_⟩
  · rw [hfl]
    rfl
  · rw [hfl, List.getLast?_cons, List.getLastD_eq_getLast?]
    rfl
  -- an instruction with the location is neither before the range nor after it
  · have hat : D.isAt l i = true := by
      rw [DebugModule.isAt, hil, Instr.isDbgDeclare_eq_false hdebug]
      simp
    rw [hb, List.mem_append, List.mem_append] at hi
    rcases hi with hi | hi | hi
    · rw [hpre i hi] at hat
      cases hat
    · rcases List.mem_cons.mp hi with rfl | hi
      · exact List.mem_cons_self
      · exact List.mem_cons_of_mem _ (List.mem_filter.mpr ⟨hi, by simp [hdebug]⟩)
    · rw [hpost i hi] at hat
      cases hat

/-- What the mapper holds for a location are ranges of instructions with debug locations, whatever
the file names. -/
lemma range_of_createMappings {H : StdHash} {B : Buckets} (hwf : D.module.WF)
    {t : HashTable LocationInfo (List FixLoc)} {l : LocationInfo} {locs : List FixLoc}
    {fl : FixLoc} (h : createMappings H B D = some t)
    (hfind : t.find (LocationInfo.same H) l = some locs) (hfl : fl ∈ locs) :
    ∃ insts q, (∀ i ∈ insts, (D.locationOf i).isSome = true) ∧ q ∈ D.module.blockList ∧
      rangeIn (among insts) q.2 = some fl := by
  obtain ⟨insts, hinsts, hlocs⟩ := exists_fixLocs_of_find h hfind
  obtain ⟨locs', hlocs', qs, -, hqs, hall⟩ :=
    fixLocs_spec (B := B) hwf fun i hi => (hinsts i hi).1
  obtain rfl := Option.some.inj (hlocs.symm.trans hlocs')
  obtain ⟨q, hq, hrange⟩ : ∃ q ∈ qs, rangeIn (among insts) q.2 = some fl := by
    clear hlocs hlocs' hfind hqs
    induction hall with
    | nil => exact absurd hfl List.not_mem_nil
    | @cons q fl' qs locs hhead _ ih =>
        rcases List.mem_cons.mp hfl with rfl | hfl
        · exact ⟨q, List.mem_cons_self, hhead⟩
        · obtain ⟨q', hq', hrange⟩ := ih hfl
          exact ⟨q', List.mem_cons_of_mem q hq', hrange⟩
  exact ⟨insts, q, fun i hi => (hinsts i hi).2, ((hqs q).mp hq).1, hrange⟩

/-- They start with an instruction of a function. -/
lemma insts_of_createMappings {H : StdHash} {B : Buckets} (hwf : D.module.WF)
    {t : HashTable LocationInfo (List FixLoc)} {l : LocationInfo} {locs : List FixLoc}
    {fl : FixLoc} (h : createMappings H B D = some t)
    (hfind : t.find (LocationInfo.same H) l = some locs) (hfl : fl ∈ locs) :
    ∃ first rest f, fl.insts D.module = some (first :: rest) ∧
      D.module.getFunction first.id = some f ∧ f ∈ D.module.funs.map Prod.fst := by
  obtain ⟨insts, q, -, hblock, hrange⟩ := range_of_createMappings hwf h hfind hfl
  obtain ⟨-, hfirst, -, -, first, _, -, -, hfl, -, -, hwalk⟩ := insts_of_rangeIn hwf hblock hrange
  obtain ⟨body, hp, -⟩ := Module.mem_blockList.mp hblock
  refine ⟨first, _, q.1, hwalk, ?_, List.mem_map_of_mem hp⟩
  rw [hfl] at hfirst
  rw [Module.getFunction, hfirst]
  rfl

/-- **The location map is complete and local to blocks**: for each block with an instruction at a
location it holds the range of the location there, and nothing else. -/
theorem createMappings_spec (H : StdHash) (B : Buckets) (hwf : D.module.WF)
    (hfiles : FilesApart D) {l : LocationInfo} {j : Instr} (hj : j ∈ D.module.insts)
    (hjl : D.isAt l j = true) :
    ∃ t locs, createMappings H B D = some t ∧ t.find (LocationInfo.same H) l = some locs ∧
      ∃ qs : List (FnId × Block), qs.Nodup ∧
        (∀ q, q ∈ qs ↔ q ∈ D.module.blockList ∧ ∃ i ∈ q.2, D.isAt l i = true) ∧
        List.Forall₂ (RangeAt D l) qs locs := by
  have hlaw := hfiles.lawful (H := H) hwf
  have hloc : D.locationOf j = some l := by
    rw [DebugModule.isAt, Bool.and_eq_true] at hjl
    exact beq_iff_eq.mp hjl.1
  have hl : l ∈ D.locations := ⟨j, hj, hloc⟩
  have hne : instsAt H D D.module.insts l ≠ [] := List.ne_nil_of_mem
    (mem_instsAt.mpr ⟨hj, l, hloc, (hfiles.same_iff hl hl).mpr rfl⟩)
  obtain ⟨locs, hlocs, qs, hnodup, hmem, hall⟩ :=
    hlaw.fixLocs_instsAt (B := B) (fun i hi => hi) (q := l)
  have hfound := hlaw.find_fixLocMap (B := B) (fun i hi => hi) hl
  rw [if_neg hne, hlocs] at hfound
  obtain ⟨t, ht, hfind⟩ := Option.bind_eq_some_iff.mp hfound
  -- the file names are apart, so the entry holds the instructions of the location only
  have hamong : ∀ q ∈ D.module.blockList, ∀ i ∈ q.2,
      among (instsAt H D D.module.insts l) i = D.isAt l i := by
    intro q hq i hi
    obtain ⟨body, hp, hblock⟩ := Module.mem_blockList.mp hq
    have hins := Module.mem_insts_of_block hp hblock hi
    rw [among, DebugModule.isAt]
    congr 1
    rw [Bool.eq_iff_iff, decide_eq_true_iff, mem_instsAt, beq_iff_eq]
    constructor
    · rintro ⟨-, li, hli, hsame⟩
      rw [hli, (hfiles.same_iff hl ⟨i, hins, hli⟩).mp hsame]
    · exact fun hli => ⟨hins, l, hli, (hfiles.same_iff hl hl).mpr rfl⟩
  refine ⟨t, locs, ht, hfind, qs, hnodup, fun q => ?_, ?_⟩
  · rw [hmem]
    exact and_congr_right fun hq => exists_congr fun i => and_congr_right fun hi => by
      rw [hamong q hq i hi]
  · have hblocks : ∀ q ∈ qs, q ∈ D.module.blockList := fun q hq => ((hmem q).mp hq).1
    clear hlocs hfound hfind hmem hnodup
    induction hall with
    | nil => exact List.Forall₂.nil
    | @cons q fl qs locs hfl _ ih =>
        obtain ⟨hq, hqs⟩ := List.forall_mem_cons.mp hblocks
        refine List.Forall₂.cons (rangeAt_of_rangeIn hwf hq ?_) (ih hqs)
        rw [rangeIn, ← List.filter_congr (hamong q hq)]
        exact hfl

end Complete

/-- A hash of strings and one of integers. -/
def sumHash : StdHash :=
  ⟨fun s => s.toList.foldl (fun h c => 31 * h + c.toNat.toUInt64) 7, fun n => n.toNat.toUInt64⟩

/-- New entries come first in their bucket. -/
def frontBuckets : Buckets :=
  ⟨⟨id, fun _ => List.Perm.refl _⟩, ⟨id, fun _ => List.Perm.refl _⟩,
    ⟨id, fun _ => List.Perm.refl _⟩⟩

/-- Line 10 of `update` is in two blocks, with a debug instruction between. -/
def twoBlocks : DebugModule where
  module :=
    ⟨[(FnId.named "update",
      ⟨[[⟨InstId.orig 0,
            .store (.constant "0" (.other "i64")) (.arg (FnId.named "update") 0 .i8Ptr)⟩,
          ⟨InstId.orig 1, .call (.function (FnId.intrinsic .dbg_value)) []⟩,
          ⟨InstId.orig 2, .other "add" []⟩,
          ⟨InstId.orig 3,
            .store (.constant "1" (.other "i64")) (.arg (FnId.named "update") 1 .i8Ptr)⟩],
        [⟨InstId.orig 4, .other "ret" []⟩]]⟩)], 0⟩
  dbg i :=
    if i = InstId.orig 2 then some ⟨11, "update.c"⟩
    else if i.num < 5 then some ⟨10, "update.c"⟩
    else none

lemma twoBlocks_wf : twoBlocks.module.WF := by
  refine ⟨by decide, by decide, ?_, ?_, by decide⟩
  · simp [twoBlocks, FnId.Below, FnId.named]
  · simp [twoBlocks, Module.insts, Function.insts, InstId.Below, InstId.orig]

lemma twoBlocks_filesApart : FilesApart twoBlocks := by
  have hfile : ∀ i ∈ twoBlocks.module.insts,
      ((twoBlocks.locationOf i).all fun li => li.file == "update.c") = true := by decide
  intro i hi j hj a b hia hjb _ _ _
  have ha := hfile i hi
  have hb := hfile j hj
  rw [hia, Option.all_some, beq_iff_eq] at ha
  rw [hjb, Option.all_some, beq_iff_eq] at hb
  rw [ha, hb]

theorem createMappings_spec_twoBlocks :
    ∃ t locs, createMappings sumHash frontBuckets twoBlocks = some t ∧
      t.find (LocationInfo.same sumHash) ⟨"update", "update.c", 10⟩ = some locs ∧
      ∃ qs : List (FnId × Block), qs.Nodup ∧
        (∀ q, q ∈ qs ↔ q ∈ twoBlocks.module.blockList ∧
          ∃ i ∈ q.2, twoBlocks.isAt ⟨"update", "update.c", 10⟩ i = true) ∧
        List.Forall₂ (RangeAt twoBlocks ⟨"update", "update.c", 10⟩) qs locs :=
  createMappings_spec sumHash frontBuckets twoBlocks_wf twoBlocks_filesApart
    (j := ⟨InstId.orig 4, .other "ret" []⟩) (by decide) (by decide)

/-! ### The laws of a hash table -/

namespace LocationInfo

/-- What a hash table asks of its keys, for the locations in `S`, and what it gives: lookups do not
depend on the order in which the instructions of a module are inserted. -/
structure HashLaws (H : StdHash) (S : Set LocationInfo) : Prop where
  refl : ∀ a ∈ S, a.eqv a = true
  symm : ∀ a ∈ S, ∀ b ∈ S, a.eqv b = true → b.eqv a = true
  trans : ∀ a ∈ S, ∀ b ∈ S, ∀ c ∈ S, a.eqv b = true → b.eqv c = true → a.eqv c = true
  hash : ∀ a ∈ S, ∀ b ∈ S, a.eqv b = true → a.hash H = b.hash H
  lookups : ∀ D : DebugModule, D.module.WF → D.locations ⊆ S →
    ∀ (B B' : Buckets) (order order' : List Instr), order.Perm D.module.insts →
      order'.Perm D.module.insts → ∀ q ∈ S,
        Option.Rel List.Perm ((locMap H B D order).find (same H) q)
          ((locMap H B' D order').find (same H) q) ∧
        Option.Rel List.Perm ((fixLocMap H B D order).bind fun t => t.find (same H) q)
          ((fixLocMap H B' D order').bind fun t => t.find (same H) q)

/-- For the locations of one line of a function: file names of which one is part of the other
agree in the hash of their last part, and of two that are parts of a third, or have a third as
part, one is part of the other. -/
structure FilesFit (H : StdHash) (S : Set LocationInfo) : Prop where
  names : ∀ a ∈ S, ∀ b ∈ S, a.function = b.function → a.line = b.line →
    a.file.toList <:+: b.file.toList → H.string a.getFilename = H.string b.getFilename
  chains : ∀ a ∈ S, ∀ b ∈ S, ∀ c ∈ S, a.function = b.function → b.function = c.function →
    a.line = b.line → b.line = c.line →
    (a.file.toList <:+: b.file.toList ∧ c.file.toList <:+: b.file.toList) ∨
      (b.file.toList <:+: a.file.toList ∧ b.file.toList <:+: c.file.toList) →
    a.file.toList <:+: c.file.toList ∨ c.file.toList <:+: a.file.toList

variable {H : StdHash} {S : Set LocationInfo}

lemma eqv_refl (a : LocationInfo) : a.eqv a = true :=
  eqv_iff.mpr ⟨rfl, rfl, .inl List.infix_rfl⟩

lemma eqv_symm {a b : LocationInfo} (h : a.eqv b = true) : b.eqv a = true := by
  obtain ⟨hf, hl, hfile⟩ := eqv_iff.mp h
  exact eqv_iff.mpr ⟨hf.symm, hl.symm, hfile.symm⟩

lemma FilesFit.trans (h : FilesFit H S) {a b c : LocationInfo} (ha : a ∈ S) (hb : b ∈ S)
    (hc : c ∈ S) (hab : a.eqv b = true) (hbc : b.eqv c = true) : a.eqv c = true := by
  obtain ⟨hf, hl, hfile⟩ := eqv_iff.mp hab
  obtain ⟨hf', hl', hfile'⟩ := eqv_iff.mp hbc
  refine eqv_iff.mpr ⟨hf.trans hf', hl.trans hl', ?_⟩
  rcases hfile with hab | hba <;> rcases hfile' with hbc | hcb
  · exact .inl (hab.trans hbc)
  · exact h.chains a ha b hb c hc hf hf' hl hl' (.inl ⟨hab, hcb⟩)
  · exact h.chains a ha b hb c hc hf hf' hl hl' (.inr ⟨hba, hbc⟩)
  · exact .inr (hcb.trans hba)

/-- At one line of a function the hashes agree when those of the last parts do. -/
lemma hash_eq_iff {a b : LocationInfo} (hf : a.function = b.function) (hl : a.line = b.line) :
    a.hash H = b.hash H ↔ H.string a.getFilename = H.string b.getFilename := by
  rw [LocationInfo.hash, LocationInfo.hash, hf, hl, UInt64.xor_left_inj, UInt64.xor_right_inj]

lemma FilesFit.hash (h : FilesFit H S) {a b : LocationInfo} (ha : a ∈ S) (hb : b ∈ S)
    (hab : a.eqv b = true) : a.hash H = b.hash H := by
  obtain ⟨hf, hl, hfile⟩ := eqv_iff.mp hab
  rw [hash_eq_iff hf hl]
  rcases hfile with hfile | hfile
  · exact h.names a ha b hb hf hl hfile
  · exact (h.names b hb a ha hf.symm hl.symm hfile).symm

lemma FilesFit.equivOn (h : FilesFit H S) : HashTable.EquivOn (same H) S := by
  have hsame : ∀ a ∈ S, ∀ b ∈ S, same H a b = a.eqv b := by
    intro a ha b hb
    rw [same]
    cases hab : a.eqv b with
    | false => rw [Bool.and_false]
    | true => rw [h.hash ha hb hab, beq_self_eq_true, Bool.and_true]
  refine ⟨fun a ha => ?_, fun a ha b hb => ?_, fun a ha b hb c hc => ?_⟩
  · rw [hsame a ha a ha]
    exact eqv_refl a
  · rw [hsame a ha b hb, hsame b hb a ha]
    exact eqv_symm
  · rw [hsame a ha b hb, hsame b hb c hc, hsame a ha c hc]
    exact h.trans ha hb hc

/-- **The laws of a hash table** hold of locations exactly when their file names fit. -/
theorem hashLaws_iff (H : StdHash) (S : Set LocationInfo) : HashLaws H S ↔ FilesFit H S := by
  constructor
  · intro h
    refine ⟨fun a ha b hb hf hl hfile => ?_, fun a ha b hb c hc hf hf' hl hl' hfiles => ?_⟩
    · exact (hash_eq_iff hf hl).mp (h.hash a ha b hb (eqv_iff.mpr ⟨hf, hl, .inl hfile⟩))
    -- `b` is equal to both, so transitivity makes the other two equal
    · have hab : a.eqv b = true := by
        refine eqv_iff.mpr ⟨hf, hl, ?_⟩
        rcases hfiles with ⟨hab, -⟩ | ⟨hba, -⟩
        · exact .inl hab
        · exact .inr hba
      have hbc : b.eqv c = true := by
        refine eqv_iff.mpr ⟨hf', hl', ?_⟩
        rcases hfiles with ⟨-, hcb⟩ | ⟨-, hbc⟩
        · exact .inr hcb
        · exact .inl hbc
      exact (eqv_iff.mp (h.trans a ha b hb c hc hab hbc)).2.2
  · intro h
    refine ⟨fun a _ => eqv_refl a, fun a _ b _ => eqv_symm, fun a ha b hb c hc => h.trans ha hb hc,
      fun a ha b hb => h.hash ha hb, fun D hwf hsub B B' order order' horder horder' q hq => ?_⟩
    have hlaw : Lawful H D S := ⟨hwf, h.equivOn, fun i hi li hli => hsub ⟨i, hi, hli⟩⟩
    have hmem : ∀ i ∈ order, i ∈ D.module.insts := fun i hi => horder.subset hi
    have hmem' : ∀ i ∈ order', i ∈ D.module.insts := fun i hi => horder'.subset hi
    -- the order of the instructions only permutes what is found
    have hinsts : (instsAt H D order q).Perm (instsAt H D order' q) :=
      (((horder.trans horder'.symm).filterMap _).filter _).map _
    rw [hlaw.find_locMap hmem hq, hlaw.find_locMap hmem' hq, hlaw.find_fixLocMap hmem hq,
      hlaw.find_fixLocMap hmem' hq]
    by_cases hnil : instsAt H D order q = []
    · have hnil' : instsAt H D order' q = [] := (hnil ▸ hinsts).nil_eq.symm
      rw [if_pos hnil, if_pos hnil', if_pos hnil, if_pos hnil']
      exact ⟨Option.Rel.none, Option.Rel.none⟩
    · have hnil' : instsAt H D order' q ≠ [] := fun heq => hnil (heq ▸ hinsts).eq_nil
      rw [if_neg hnil, if_neg hnil', if_neg hnil, if_neg hnil']
      refine ⟨Option.Rel.some hinsts, ?_⟩
      obtain ⟨locs, hlocs, hranges⟩ := hlaw.fixLocs_instsAt (B := B) hmem (q := q)
      obtain ⟨locs', hlocs', hranges'⟩ := hlaw.fixLocs_instsAt (B := B') hmem' (q := q)
      rw [hlocs, hlocs']
      refine Option.Rel.some (hranges.perm hranges' fun i => ?_)
      rw [among, among]
      congr 1
      rw [decide_eq_decide]
      exact hinsts.mem_iff

end LocationInfo

/-! ### One file under three names

Code of `list.c` from two directories is inlined into `update`. -/

def listStore (n : ℕ) : Instr :=
  ⟨InstId.orig n, .store (.constant "0" (.other "i64")) (.arg (FnId.named "update") n .i8Ptr)⟩

def listFiles : DebugModule where
  module := ⟨[(FnId.named "update", ⟨[[listStore 0, listStore 1, listStore 2]]⟩)], 0⟩
  dbg i :=
    if i = InstId.orig 0 then some ⟨10, "d1/list.c"⟩
    else if i = InstId.orig 1 then some ⟨10, "list.c"⟩
    else if i = InstId.orig 2 then some ⟨10, "d2/list.c"⟩
    else none

/-- The names in the two directories both pass for the bare name, and not for one another; what is
found for one of them depends on which name is inserted first. -/
theorem listFiles_not_hashLaws :
    ¬ LocationInfo.HashLaws sumHash listFiles.locations ∧
      (locMap sumHash frontBuckets listFiles [listStore 0, listStore 1, listStore 2]).find
        (LocationInfo.same sumHash) ⟨"update", "d2/list.c", 10⟩ = some [listStore 2] ∧
      (locMap sumHash frontBuckets listFiles [listStore 1, listStore 0, listStore 2]).find
        (LocationInfo.same sumHash) ⟨"update", "d2/list.c", 10⟩ =
          some [listStore 1, listStore 0, listStore 2] := by
  refine ⟨fun h => ?_, by decide, by decide⟩
  have htrans := h.trans ⟨"update", "d1/list.c", 10⟩ ⟨listStore 0, by decide, by decide⟩
    ⟨"update", "list.c", 10⟩ ⟨listStore 1, by decide, by decide⟩
    ⟨"update", "d2/list.c", 10⟩ ⟨listStore 2, by decide, by decide⟩ (by decide) (by decide)
  revert htrans
  decide

end Hippocrates

import Mathlib.Tactic
import Hippocrates.IR.Patch
import Hippocrates.Lib.HashTable

/-!
`BugLocationMapper` of `BugReports.cpp`, the map from source locations to the locations for fixes,
and the equality and the hash of source locations it goes by.

`DebugModule` is a module with the debug locations of its instructions; `StdHash` are the hash
functions of the library, and `Buckets` the orders of the hash tables, which are left open.

* `LocationInfo.eqv`, `LocationInfo.hash`: `operator==` and `LocationInfo::Hash`.
* `insertMapping`, `fixLocs`, `createMappings`: the maps.
-/

namespace Hippocrates

/-! ### Equality and hash of locations -/

/-- `std::hash` for strings and for integers. -/
structure StdHash where
  string : String → UInt64
  int64 : ℤ → UInt64

namespace LocationInfo

/-- The last part of the file name. -/
def getFilename (li : LocationInfo) : String :=
  String.ofList (li.file.toList.reverse.takeWhile fun c => c ≠ '/').reverse

/-- `operator==`: the shorter file name has to be found in the longer. (Where one is found in the
other, it is the shorter one in characters as in bytes.) -/
def eqv (a b : LocationInfo) : Bool :=
  if a.function ≠ b.function then false
  else if a.line ≠ b.line then false
  else if a.file.length < b.file.length then decide (a.file.toList <:+: b.file.toList)
  else decide (b.file.toList <:+: a.file.toList)

/-- `LocationInfo::Hash`. -/
def hash (H : StdHash) (li : LocationInfo) : UInt64 :=
  H.string li.function ^^^ H.string li.getFilename ^^^ H.int64 li.line

/-- The test of the hash tables: they compare the hashes first. -/
def same (H : StdHash) (a b : LocationInfo) : Bool := a.hash H == b.hash H && a.eqv b

end LocationInfo

/-! ### The mapper -/

/-- `DILocation`: the line, and the file of the scope. -/
structure DILocation where
  line : ℕ
  file : String
deriving DecidableEq

/-- A module with the debug locations of its instructions. -/
structure DebugModule where
  module : Module
  dbg : InstId → Option DILocation

/-- The order of the entries of a hash table after a new key. -/
structure BucketOrder (K V : Type*) where
  order : HashTable K V → HashTable K V
  perm : ∀ t, (order t).Perm t

/-- The orders of the tables of the mapper. -/
structure Buckets where
  locMap : BucketOrder LocationInfo (List Instr)
  blocks : BucketOrder (FnId × Block) (List Instr)
  fixLocMap : BucketOrder LocationInfo (List FixLoc)

namespace DebugModule

variable (D : DebugModule)

/-- The source location of an instruction. -/
def locationOf (i : Instr) : Option LocationInfo :=
  match D.dbg i.id, D.module.getFunction i.id with
  | some di, some f => some ⟨f.getName, di.file, di.line⟩
  | _, _ => none

end DebugModule

/-- `dyn_cast<CallBase>` calls `llvm.dbg.declare`. -/
def Instr.isDbgDeclare (i : Instr) : Bool :=
  match i.getCalledFunction with
  | some f => f.getIntrinsicID == .dbg_declare
  | none => false

/-- `OrderedBasicBlock::dominates`. -/
def dominates (b : Block) (i j : InstId) : Bool :=
  decide ((b.map Instr.id).idxOf i < (b.map Instr.id).idxOf j)

/-- One step of the search for the first and the last instruction. -/
def widen (b : Block) (fl : FixLoc) (ii : Instr) : FixLoc :=
  ⟨if dominates b ii.id fl.first then ii.id else fl.first,
    if dominates b fl.last ii.id then ii.id else fl.last⟩

/-- The range of the instructions of one block. -/
def rangeOf (p : (FnId × Block) × List Instr) : Option FixLoc :=
  match p.2 with
  | [] => none -- "wat"
  | front :: insts =>
    some ((front :: insts).foldl (widen p.1.2) ⟨front.id, (insts.getLastD front).id⟩)

section Mapper

variable (H : StdHash) (B : Buckets) (D : DebugModule)

/-- `insertMapping`. -/
def insertMapping (locMap : HashTable LocationInfo (List Instr)) (i : Instr) :
    HashTable LocationInfo (List Instr) :=
  match D.locationOf i with
  | none => locMap
  | some li => locMap.upsert (LocationInfo.same H) B.locMap.order li fun old => old.getD [] ++ [i]

/-- `locMap_`, when the instructions are inserted in the given order. -/
def locMap (order : List Instr) : HashTable LocationInfo (List Instr) :=
  order.foldl (insertMapping H B D) []

/-- The instructions of a location by their blocks, `llvm.dbg.declare` left out. -/
def blocksOf (instructions : List Instr) : HashTable (FnId × Block) (List Instr) :=
  instructions.foldl (fun blocks q =>
    if q.isDbgDeclare then blocks
    else
      match D.module.parent q.id with
      | none => blocks -- an instruction of the module has a parent
      | some p => blocks.upsert (· == ·) B.blocks.order p fun old => old.getD [] ++ [q]) []

/-- The locations for fixes of a source location. -/
def fixLocs (instructions : List Instr) : Option (List FixLoc) :=
  (blocksOf B D instructions).mapM rangeOf

/-- `fixLocMap_`, when the instructions are inserted in the given order. -/
def fixLocMap (order : List Instr) : Option (HashTable LocationInfo (List FixLoc)) :=
  if locMap H B D order = [] then none -- "no debug information found!!!"
  else
    ((locMap H B D order).mapM fun p => (fixLocs B D p.2).map fun locs => (p.1, locs)).map
      fun entries => HashTable.build (LocationInfo.same H) B.fixLocMap.order
        (entries.map fun p => (p.1, fun _ => p.2)) []

/-- `createMappings`: the functions, blocks and instructions in their order. -/
def createMappings : Option (HashTable LocationInfo (List FixLoc)) :=
  fixLocMap H B D D.module.insts

end Mapper

/-! ### The range of a block -/

section Range

variable {b : Block} {P : Instr → Bool}

/-- The range from the first to the last instruction with a property. -/
def rangeIn (P : Instr → Bool) (b : Block) : Option FixLoc :=
  match b.filter P with
  | [] => none
  | i :: is => some ⟨i.id, (is.getLastD i).id⟩

/-- The place of an instruction in its block. -/
def place (b : Block) (i : InstId) : ℕ := (b.map Instr.id).idxOf i

lemma dominates_iff {i j : InstId} : dominates b i j = true ↔ place b i < place b j :=
  decide_eq_true_iff

lemma pairwise_place (hb : (b.map Instr.id).Nodup) :
    b.Pairwise fun i j => place b i.id < place b j.id := by
  refine List.pairwise_iff_getElem.mpr fun i j hi hj hij => ?_
  have hplace : ∀ k (hk : k < b.length), place b b[k].id = k := by
    intro k hk
    have hget := hb.idxOf_getElem k (by simpa using hk)
    rwa [List.getElem_map] at hget
  rw [hplace i hi, hplace j hj]
  exact hij

/-- The ends are instructions of `insts`, and those of `seen` lie between them. -/
structure Spans (b : Block) (insts seen : List Instr) (fl : FixLoc) : Prop where
  first : ∃ i ∈ insts, i.id = fl.first
  last : ∃ i ∈ insts, i.id = fl.last
  between : ∀ i ∈ seen, place b fl.first ≤ place b i.id ∧ place b i.id ≤ place b fl.last

/-- The range of a property spans its instructions. -/
lemma spans_rangeIn (hb : (b.map Instr.id).Nodup) {fl : FixLoc} (h : rangeIn P b = some fl) :
    Spans b (b.filter P) (b.filter P) fl := by
  have hpw : (b.filter P).Pairwise fun i j => place b i.id ≤ place b j.id :=
    ((pairwise_place hb).filter P).imp le_of_lt
  rw [rangeIn] at h
  cases hf : b.filter P with
  | nil => simp [hf] at h
  | cons i is =>
      rw [hf] at h hpw
      obtain rfl := Option.some.inj h
      refine ⟨⟨i, List.mem_cons_self, rfl⟩, ⟨_, List.getLastD_mem_cons, rfl⟩,
        fun j hj => ⟨?_, ?_⟩⟩
      · rcases List.mem_cons.mp hj with rfl | hj
        · exact le_rfl
        · exact (List.pairwise_cons.mp hpw).1 j hj
      · have : Std.Refl fun i j : Instr => place b i.id ≤ place b j.id := ⟨fun _ => le_rfl⟩
        have hlast := hpw.rel_getLast hj
        rwa [List.getLast_eq_getLastD] at hlast

/-- One step of the search. -/
lemma Spans.widen {insts seen : List Instr} {fl : FixLoc} {ii : Instr}
    (h : Spans b insts seen fl) (hii : ii ∈ insts) :
    Spans b insts (seen ++ [ii]) (widen b fl ii) := by
  have hfirst : (Hippocrates.widen b fl ii).first =
      if place b ii.id < place b fl.first then ii.id else fl.first :=
    if_congr dominates_iff rfl rfl
  have hlast : (Hippocrates.widen b fl ii).last =
      if place b fl.last < place b ii.id then ii.id else fl.last :=
    if_congr dominates_iff rfl rfl
  refine ⟨?_, ?_, fun i hi => ?_⟩
  · rw [hfirst]
    split_ifs
    · exact ⟨ii, hii, rfl⟩
    · exact h.first
  · rw [hlast]
    split_ifs
    · exact ⟨ii, hii, rfl⟩
    · exact h.last
  -- the ends only move outwards, and the new instruction lies between them
  · have hle : place b (Hippocrates.widen b fl ii).first ≤ place b fl.first ∧
        place b (Hippocrates.widen b fl ii).first ≤ place b ii.id := by
      rw [hfirst]
      split_ifs <;> omega
    have hge : place b fl.last ≤ place b (Hippocrates.widen b fl ii).last ∧
        place b ii.id ≤ place b (Hippocrates.widen b fl ii).last := by
      rw [hlast]
      split_ifs <;> omega
    rcases List.mem_append.mp hi with hi | hi
    · have hbetween := h.between i hi
      omega
    · obtain rfl := List.mem_singleton.mp hi
      omega

lemma Spans.foldl {insts seen rest : List Instr} {fl : FixLoc} (h : Spans b insts seen fl)
    (hrest : ∀ i ∈ rest, i ∈ insts) :
    Spans b insts (seen ++ rest) (rest.foldl (Hippocrates.widen b) fl) := by
  induction rest generalizing seen fl with
  | nil => simpa using h
  | cons i rest ih =>
      obtain ⟨hi, hrest⟩ := List.forall_mem_cons.mp hrest
      simpa using ih (h.widen hi) hrest

/-- The ends are determined by the instructions, whatever their order. -/
lemma Spans.unique {insts insts' : List Instr} {fl fl' : FixLoc} (h : Spans b insts insts fl)
    (h' : Spans b insts' insts' fl') (hmem : ∀ i, i ∈ insts ↔ i ∈ insts')
    (hsub : ∀ i ∈ insts, i ∈ b) : fl = fl' := by
  have hinj : ∀ i ∈ insts, ∀ j ∈ insts, place b i.id = place b j.id → i.id = j.id :=
    fun i hi j _ hij => (List.idxOf_inj (List.mem_map_of_mem (hsub i hi))).mp hij
  obtain ⟨i, hi, hfirst⟩ := h.first
  obtain ⟨i', hi', hfirst'⟩ := h'.first
  obtain ⟨j, hj, hlast⟩ := h.last
  obtain ⟨j', hj', hlast'⟩ := h'.last
  -- each of the first instructions comes before the other
  have hii' : i.id = i'.id := by
    refine hinj i hi i' ((hmem i').mpr hi') ?_
    have h₁ := (h.between i' ((hmem i').mpr hi')).1
    have h₂ := (h'.between i ((hmem i).mp hi)).1
    rw [← hfirst] at h₁
    rw [← hfirst'] at h₂
    omega
  have hjj' : j.id = j'.id := by
    refine hinj j hj j' ((hmem j').mpr hj') ?_
    have h₁ := (h.between j' ((hmem j').mpr hj')).2
    have h₂ := (h'.between j ((hmem j).mp hj)).2
    rw [← hlast] at h₁
    rw [← hlast'] at h₂
    omega
  have hf : fl.first = fl'.first := hfirst.symm.trans (hii'.trans hfirst')
  have hl : fl.last = fl'.last := hlast.symm.trans (hjj'.trans hlast')
  cases fl
  cases fl'
  exact congrArg₂ FixLoc.mk hf hl

/-- **The range of a block**: the instructions of a block, in any order, give the range from the
first of them to the last. -/
lemma rangeOf_eq (hb : (b.map Instr.id).Nodup) {f : FnId} {insts : List Instr}
    (hmem : ∀ i, i ∈ insts ↔ i ∈ b.filter P) (hne : insts ≠ []) :
    ∃ fl, rangeOf ((f, b), insts) = some fl ∧ rangeIn P b = some fl := by
  cases insts with
  | nil => exact absurd rfl hne
  | cons front insts =>
      -- the search goes over all of them, from any ends to begin with
      have hspan : Spans b (front :: insts) (front :: insts)
          ((front :: insts).foldl (widen b) ⟨front.id, (insts.getLastD front).id⟩) := by
        have hstart : Spans b (front :: insts) [] ⟨front.id, (insts.getLastD front).id⟩ :=
          ⟨⟨front, List.mem_cons_self, rfl⟩, ⟨_, List.getLastD_mem_cons, rfl⟩, by simp⟩
        exact hstart.foldl fun i hi => hi
      cases hr : rangeIn P b with
      | none =>
          have hnil : b.filter P = [] := by
            rw [rangeIn] at hr
            split at hr
            · assumption
            · cases hr
          have hfront := (hmem front).mp List.mem_cons_self
          rw [hnil] at hfront
          exact absurd hfront List.not_mem_nil
      | some fl =>
          refine ⟨fl, ?_, rfl⟩
          rw [rangeOf]
          exact congrArg some (hspan.unique (spans_rangeIn hb hr) hmem fun i hi =>
            (List.mem_filter.mp ((hmem i).mp hi)).1)

end Range

/-! ### The locations of an instruction list -/

/-- The blocks of a module, with their functions. -/
def Module.blockList (m : Module) : List (FnId × Block) :=
  m.funs.flatMap fun p => p.2.blocks.map fun b => (p.1, b)

section Blocks

variable {m : Module} {f : FnId} {b : Block}

lemma Module.mem_blockList :
    (f, b) ∈ m.blockList ↔ ∃ body, (f, body) ∈ m.funs ∧ b ∈ body.blocks := by
  simp only [blockList, List.mem_flatMap, List.mem_map, Prod.mk.injEq, Prod.exists]
  constructor
  · rintro ⟨g, body, hp, b', hb', rfl, rfl⟩
    exact ⟨body, hp, hb'⟩
  · rintro ⟨body, hp, hb⟩
    exact ⟨f, body, hp, b, hb, rfl, rfl⟩

lemma Module.insts_eq_blockList : m.insts = m.blockList.flatMap Prod.snd := by
  rw [blockList, List.flatMap_assoc, Module.insts]
  refine List.flatMap_congr fun p _ => ?_
  rw [Function.insts, List.flatMap_map, List.flatMap_id']

lemma Module.WF.nodup_block (h : m.WF) (hb : (f, b) ∈ m.blockList) : (b.map Instr.id).Nodup := by
  have hids := h.ids
  rw [Module.insts_eq_blockList] at hids
  exact hids.sublist (List.Sublist.map _ (List.sublist_flatten_of_mem (List.mem_map_of_mem hb)))

lemma Module.WF.parent_iff (h : m.WF) {i : Instr} (hi : i ∈ m.insts) :
    m.parent i.id = some (f, b) ↔ (f, b) ∈ m.blockList ∧ i ∈ b := by
  constructor
  · intro hpar
    obtain ⟨body, hp, hb, j, hj, hid⟩ := Module.parent_spec hpar
    obtain rfl := h.eq_of_id (Module.mem_insts_of_block hp hb hj) hi hid
    exact ⟨Module.mem_blockList.mpr ⟨body, hp, hb⟩, hj⟩
  · rintro ⟨hmem, hib⟩
    obtain ⟨body, hp, hb⟩ := Module.mem_blockList.mp hmem
    exact h.parent_eq hp hb hib

end Blocks

section FixLocs

variable {B : Buckets} {D : DebugModule} {instructions : List Instr}

/-- The instructions with their blocks, `llvm.dbg.declare` left out. -/
def placed (D : DebugModule) (instructions : List Instr) : List ((FnId × Block) × Instr) :=
  instructions.filterMap fun q =>
    if q.isDbgDeclare then none else (D.module.parent q.id).map fun p => (p, q)

lemma blocksOf_eq : blocksOf B D instructions =
    HashTable.build (· == ·) B.blocks.order (HashTable.pushes (placed D instructions)) [] := by
  rw [blocksOf]
  generalize ([] : HashTable (FnId × Block) (List Instr)) = blocks
  induction instructions generalizing blocks with
  | nil => rfl
  | cons q instructions ih =>
      rw [List.foldl_cons, placed, List.filterMap_cons]
      cases hdecl : q.isDbgDeclare with
      | true => exact ih blocks
      | false =>
          simp only [Bool.false_eq_true, if_false]
          cases hpar : D.module.parent q.id with
          | none => exact ih blocks
          | some p => exact ih _

lemma mem_placed (hwf : D.module.WF) (hsub : ∀ i ∈ instructions, i ∈ D.module.insts)
    {q : FnId × Block} {i : Instr} : (q, i) ∈ placed D instructions ↔
      i ∈ instructions ∧ i.isDbgDeclare = false ∧ q ∈ D.module.blockList ∧ i ∈ q.2 := by
  simp only [placed, List.mem_filterMap]
  constructor
  · rintro ⟨j, hj, heq⟩
    split_ifs at heq with hdecl
    obtain ⟨p, hpar, hpq⟩ := Option.map_eq_some_iff.mp heq
    simp only [Prod.mk.injEq] at hpq
    obtain ⟨rfl, rfl⟩ := hpq
    exact ⟨hj, Bool.eq_false_iff.mpr hdecl, (hwf.parent_iff (hsub j hj)).mp hpar⟩
  · rintro ⟨hi, hdecl, hq⟩
    refine ⟨i, hi, ?_⟩
    rw [if_neg (by simp [hdecl]), (hwf.parent_iff (hsub i hi)).mpr hq]
    rfl

/-- The instructions of the list, `llvm.dbg.declare` left out. -/
def among (instructions : List Instr) (i : Instr) : Bool :=
  decide (i ∈ instructions) && !i.isDbgDeclare

lemma mapM_eq_filterMap {α β : Type*} {g h : α → Option β} {l : List α}
    (hgh : ∀ a ∈ l, ∃ b, g a = some b ∧ h a = some b) : l.mapM g = some (l.filterMap h) := by
  induction l with
  | nil => rfl
  | cons a l ih =>
      obtain ⟨⟨b, hg, hh⟩, hl⟩ := List.forall_mem_cons.mp hgh
      rw [List.mapM_cons, hg, List.filterMap_cons, hh, ih hl]
      rfl

/-- What a run of a function over a list gives. -/
lemma mem_of_mapM {α β : Type*} {g : α → Option β} {l : List α} {l' : List β}
    (h : l.mapM g = some l') {b : β} : b ∈ l' ↔ ∃ a ∈ l, g a = some b := by
  induction l generalizing l' with
  | nil =>
      obtain rfl : [] = l' := Option.some.inj h
      simp
  | cons a l ih =>
      rw [List.mapM_cons] at h
      obtain ⟨c, hc, h⟩ := Option.bind_eq_some_iff.mp h
      obtain ⟨l', hl', h⟩ := Option.bind_eq_some_iff.mp h
      obtain rfl := Option.some.inj h
      rw [List.mem_cons, ih hl', List.exists_mem_cons_iff, hc, Option.some.injEq, eq_comm]

lemma valid_blocksOf : HashTable.Valid (fun a b : FnId × Block => a == b) Set.univ
    (blocksOf B D instructions) := by
  rw [blocksOf_eq]
  exact HashTable.Valid.nil.build HashTable.EquivOn.beq B.blocks.perm (by simp)

/-- The entry of a block holds the instructions of the list in the block. -/
lemma blocksOf_entry (hwf : D.module.WF) (hsub : ∀ i ∈ instructions, i ∈ D.module.insts)
    {e : (FnId × Block) × List Instr} (he : e ∈ blocksOf B D instructions) :
    e.1 ∈ D.module.blockList ∧ e.2 ≠ [] ∧
      ∀ i, i ∈ e.2 ↔ i ∈ e.1.2.filter (among instructions) := by
  have hfind : HashTable.find (fun a b : FnId × Block => a == b) (blocksOf B D instructions) e.1 =
      some e.2 := (valid_blocksOf.find_eq_some_iff HashTable.EquivOn.beq trivial).mpr
        ⟨e, he, beq_self_eq_true _, rfl⟩
  rw [blocksOf_eq, HashTable.find_pushes HashTable.EquivOn.beq B.blocks.perm (by simp) trivial]
    at hfind
  split_ifs at hfind with hne
  have hpushed := Option.some.inj hfind
  rw [hpushed] at hne
  -- the entry has what was pushed for the block
  have hmem : ∀ i, i ∈ e.2 ↔ (e.1, i) ∈ placed D instructions := by
    intro i
    rw [← hpushed, HashTable.mem_pushed]
    constructor
    · rintro ⟨⟨q, j⟩, hp, heq, rfl⟩
      rwa [beq_iff_eq.mp heq]
    · exact fun hp => ⟨_, hp, beq_self_eq_true _, rfl⟩
  refine ⟨?_, hne, fun i => ?_⟩
  · obtain ⟨i, hi⟩ := List.exists_mem_of_ne_nil e.2 hne
    exact ((mem_placed hwf hsub).mp ((hmem i).mp hi)).2.2.1
  · rw [hmem, mem_placed hwf hsub, List.mem_filter, among, Bool.and_eq_true, decide_eq_true_eq,
      Bool.not_eq_true']
    constructor
    · exact fun ⟨hi, hdecl, _, hb⟩ => ⟨hb, hi, hdecl⟩
    · rintro ⟨hb, hi, hdecl⟩
      obtain ⟨j, hj⟩ := List.exists_mem_of_ne_nil e.2 hne
      exact ⟨hi, hdecl, ((mem_placed hwf hsub).mp ((hmem j).mp hj)).2.2.1, hb⟩

lemma exists_entry (hwf : D.module.WF) (hsub : ∀ i ∈ instructions, i ∈ D.module.insts)
    {q : FnId × Block} {i : Instr} (hq : q ∈ D.module.blockList)
    (hi : i ∈ q.2.filter (among instructions)) :
    ∃ e ∈ blocksOf B D instructions, e.1 = q := by
  rw [List.mem_filter, among, Bool.and_eq_true, decide_eq_true_eq, Bool.not_eq_true'] at hi
  obtain ⟨hib, hi, hdecl⟩ := hi
  have hpushed : i ∈ HashTable.pushed (fun a b : FnId × Block => a == b)
      (placed D instructions) q :=
    HashTable.mem_pushed.mpr
      ⟨(q, i), (mem_placed hwf hsub).mpr ⟨hi, hdecl, hq, hib⟩, beq_self_eq_true _, rfl⟩
  have hfind : HashTable.find (fun a b : FnId × Block => a == b) (blocksOf B D instructions) q =
      some (HashTable.pushed (fun a b => a == b) (placed D instructions) q) := by
    rw [blocksOf_eq, HashTable.find_pushes HashTable.EquivOn.beq B.blocks.perm (by simp) trivial,
      if_neg (List.ne_nil_of_mem hpushed)]
  obtain ⟨e, he, heq, -⟩ :=
    (valid_blocksOf.find_eq_some_iff HashTable.EquivOn.beq trivial).mp hfind
  exact ⟨e, he, (beq_iff_eq.mp heq).symm⟩

/-- The locations `locs` are the ranges of the instructions with a property, one for each block
with such an instruction. -/
def RangesOf (m : Module) (P : Instr → Bool) (locs : List FixLoc) : Prop :=
  ∃ qs : List (FnId × Block), qs.Nodup ∧
    (∀ q, q ∈ qs ↔ q ∈ m.blockList ∧ ∃ i ∈ q.2, P i = true) ∧
    List.Forall₂ (fun q fl => rangeIn P q.2 = some fl) qs locs

/-- **The locations for fixes** of a list of instructions, in any order: for each block with one of
them, the range from the first to the last. -/
lemma fixLocs_spec (hwf : D.module.WF) (hsub : ∀ i ∈ instructions, i ∈ D.module.insts) :
    ∃ locs, fixLocs B D instructions = some locs ∧
      RangesOf D.module (among instructions) locs := by
  have hranges : ∀ e ∈ blocksOf B D instructions, ∃ fl, rangeOf e = some fl ∧
      rangeIn (among instructions) e.1.2 = some fl := by
    intro e he
    obtain ⟨hblock, hne, hmem⟩ := blocksOf_entry hwf hsub he
    exact rangeOf_eq (hwf.nodup_block hblock) hmem hne
  refine ⟨_, mapM_eq_filterMap hranges, (blocksOf B D instructions).map Prod.fst, ?_,
    fun q => ?_, ?_⟩
  · refine List.pairwise_map.mpr (valid_blocksOf.apart.imp fun hne => ?_)
    exact fun heq => by simp [heq] at hne
  · rw [List.mem_map]
    constructor
    · rintro ⟨e, he, rfl⟩
      obtain ⟨hblock, hne, hmem⟩ := blocksOf_entry hwf hsub he
      obtain ⟨i, hi⟩ := List.exists_mem_of_ne_nil e.2 hne
      exact ⟨hblock, i, List.mem_filter.mp ((hmem i).mp hi)⟩
    · rintro ⟨hq, i, hi⟩
      exact exists_entry hwf hsub hq (List.mem_filter.mpr hi)
  · rw [List.forall₂_map_left_iff]
    generalize blocksOf B D instructions = t at hranges
    induction t with
    | nil => exact List.Forall₂.nil
    | cons e t ih =>
        obtain ⟨⟨fl, -, hfl⟩, ht⟩ := List.forall_mem_cons.mp hranges
        rw [List.filterMap_cons, hfl]
        exact List.Forall₂.cons hfl (ih ht)

/-- The ranges do not depend on the order. -/
lemma RangesOf.perm {m : Module} {P P' : Instr → Bool} {locs locs' : List FixLoc}
    (h : RangesOf m P locs) (h' : RangesOf m P' locs') (hP : ∀ i, P i = P' i) :
    locs.Perm locs' := by
  obtain rfl : P = P' := funext hP
  obtain ⟨qs, hnodup, hmem, hall⟩ := h
  obtain ⟨qs', hnodup', hmem', hall'⟩ := h'
  have hlocs : ∀ {qs : List (FnId × Block)} {locs : List FixLoc},
      List.Forall₂ (fun q fl => rangeIn P q.2 = some fl) qs locs →
        locs = qs.filterMap fun q => rangeIn P q.2 := by
    intro qs locs hall
    induction hall with
    | nil => rfl
    | cons hfl _ ih => rw [List.filterMap_cons, hfl, ← ih]
  have hqs : qs.Perm qs' :=
    (List.perm_ext_iff_of_nodup hnodup hnodup').mpr fun q => (hmem q).trans (hmem' q).symm
  rw [hlocs hall, hlocs hall']
  exact hqs.filterMap _

end FixLocs

/-! ### The maps -/

section Maps

variable {H : StdHash} {B : Buckets} {D : DebugModule} {order : List Instr}
  {S : Set LocationInfo} {q : LocationInfo}

/-- The instructions with their locations. -/
def located (D : DebugModule) (order : List Instr) : List (LocationInfo × Instr) :=
  order.filterMap fun i => (D.locationOf i).map fun li => (li, i)

lemma mem_located {i : Instr} : (q, i) ∈ located D order ↔ i ∈ order ∧ D.locationOf i = some q := by
  simp only [located, List.mem_filterMap, Option.map_eq_some_iff, Prod.mk.injEq]
  constructor
  · rintro ⟨j, hj, li, hli, rfl, rfl⟩
    exact ⟨hj, hli⟩
  · exact fun ⟨hi, hli⟩ => ⟨i, hi, q, hli, rfl, rfl⟩

lemma locMap_eq : locMap H B D order =
    HashTable.build (LocationInfo.same H) B.locMap.order
      (HashTable.pushes (located D order)) [] := by
  rw [locMap]
  generalize ([] : HashTable LocationInfo (List Instr)) = t
  induction order generalizing t with
  | nil => rfl
  | cons i order ih =>
      rw [List.foldl_cons, located, List.filterMap_cons, insertMapping]
      cases D.locationOf i with
      | none => exact ih t
      | some li => exact ih _

/-- The entries of `locMap_` are instructions that were inserted, whatever the hash. -/
lemma mem_of_mem_locMap {e : LocationInfo × List Instr} (he : e ∈ locMap H B D order) :
    ∀ i ∈ e.2, i ∈ order ∧ (D.locationOf i).isSome = true := by
  rw [locMap_eq] at he
  refine @HashTable.forall_build _ _ _ _ _
    (fun is => ∀ i ∈ is, i ∈ order ∧ (D.locationOf i).isSome = true) _ B.locMap.perm
    (by simp) (fun p hp => ?_) e he
  obtain ⟨⟨li, j⟩, hj, rfl⟩ := List.mem_map.mp hp
  obtain ⟨hj, hli⟩ := mem_located.mp hj
  have hsome : (D.locationOf j).isSome = true := by
    rw [hli]
    rfl
  refine ⟨by simpa using ⟨hj, hsome⟩, fun is his i hi => ?_⟩
  rcases List.mem_append.mp hi with hi | hi
  · exact his i hi
  · rw [List.mem_singleton.mp hi]
    exact ⟨hj, hsome⟩

/-- What `fixLocMap_` holds are the locations for fixes of some of the instructions. -/
lemma exists_fixLocs_of_find {t : HashTable LocationInfo (List FixLoc)} {locs : List FixLoc}
    (h : fixLocMap H B D order = some t) (hfind : t.find (LocationInfo.same H) q = some locs) :
    ∃ insts, (∀ i ∈ insts, i ∈ order ∧ (D.locationOf i).isSome = true) ∧
      fixLocs B D insts = some locs := by
  rw [fixLocMap] at h
  split_ifs at h
  obtain ⟨entries, hentries, rfl⟩ := Option.map_eq_some_iff.mp h
  obtain ⟨e, he, rfl⟩ := HashTable.exists_of_find hfind
  refine @HashTable.forall_build _ _ _ _ _
    (fun locs => ∃ insts, (∀ i ∈ insts, i ∈ order ∧ (D.locationOf i).isSome = true) ∧
      fixLocs B D insts = some locs) _ B.fixLocMap.perm (by simp) (fun p hp => ?_) e he
  obtain ⟨p', hp', rfl⟩ := List.mem_map.mp hp
  obtain ⟨e', he', heq⟩ := (mem_of_mapM hentries).mp hp'
  obtain ⟨locs, hlocs, rfl⟩ := Option.map_eq_some_iff.mp heq
  have hsome : ∃ insts, (∀ i ∈ insts, i ∈ order ∧ (D.locationOf i).isSome = true) ∧
      fixLocs B D insts = some locs :=
    ⟨e'.2, mem_of_mem_locMap he', hlocs⟩
  exact ⟨hsome, fun _ _ => hsome⟩

/-- The instructions in `order` at a location that passes for `q`. -/
def instsAt (H : StdHash) (D : DebugModule) (order : List Instr) (q : LocationInfo) :
    List Instr :=
  HashTable.pushed (LocationInfo.same H) (located D order) q

/-- The test is an equivalence on the locations in use. -/
structure Lawful (H : StdHash) (D : DebugModule) (S : Set LocationInfo) : Prop where
  wf : D.module.WF
  equiv : HashTable.EquivOn (LocationInfo.same H) S
  mem : ∀ i ∈ D.module.insts, ∀ li, D.locationOf i = some li → li ∈ S

lemma Lawful.find_locMap (h : Lawful H D S) (horder : ∀ i ∈ order, i ∈ D.module.insts)
    (hq : q ∈ S) : (locMap H B D order).find (LocationInfo.same H) q =
      if instsAt H D order q = [] then none else some (instsAt H D order q) := by
  have hmem : ∀ p ∈ located D order, p.1 ∈ S := fun p hp => by
    obtain ⟨hi, hli⟩ := mem_located.mp hp
    exact h.mem _ (horder _ hi) _ hli
  rw [locMap_eq, HashTable.find_pushes h.equiv B.locMap.perm hmem hq, instsAt]

lemma Lawful.valid_locMap (h : Lawful H D S) (horder : ∀ i ∈ order, i ∈ D.module.insts) :
    HashTable.Valid (LocationInfo.same H) S (locMap H B D order) := by
  rw [locMap_eq]
  refine HashTable.Valid.nil.build h.equiv B.locMap.perm fun p hp => ?_
  obtain ⟨p', hp', rfl⟩ := List.mem_map.mp hp
  obtain ⟨hi, hli⟩ := mem_located.mp hp'
  exact h.mem _ (horder _ hi) _ hli

/-- The instructions at a location are instructions of the module. -/
lemma mem_instsAt {i : Instr} : i ∈ instsAt H D order q ↔
    i ∈ order ∧ ∃ li, D.locationOf i = some li ∧ LocationInfo.same H q li = true := by
  rw [instsAt, HashTable.mem_pushed]
  constructor
  · rintro ⟨⟨li, j⟩, hp, hsame, rfl⟩
    obtain ⟨hj, hli⟩ := mem_located.mp hp
    exact ⟨hj, li, hli, hsame⟩
  · rintro ⟨hi, li, hli, hsame⟩
    exact ⟨(li, i), mem_located.mpr ⟨hi, hli⟩, hsame, rfl⟩

lemma Lawful.fixLocs_instsAt (h : Lawful H D S) (horder : ∀ i ∈ order, i ∈ D.module.insts) :
    ∃ locs, fixLocs B D (instsAt H D order q) = some locs ∧
      RangesOf D.module (among (instsAt H D order q)) locs :=
  fixLocs_spec h.wf fun i hi => horder i (mem_instsAt.mp hi).1

/-- The entries of `locMap_` have their locations for fixes. -/
lemma Lawful.fixLocs_entry (h : Lawful H D S) (horder : ∀ i ∈ order, i ∈ D.module.insts)
    {e : LocationInfo × List Instr} (he : e ∈ locMap H B D order) :
    ∃ locs, fixLocs B D e.2 = some locs := by
  have hkey := (h.valid_locMap horder).keys e he
  have hfind := ((h.valid_locMap horder).find_eq_some_iff h.equiv hkey).mpr
    ⟨e, he, h.equiv.refl _ hkey, rfl⟩
  rw [h.find_locMap horder hkey] at hfind
  split_ifs at hfind
  obtain ⟨locs, hlocs, -⟩ := h.fixLocs_instsAt (B := B) horder (q := e.1)
  exact ⟨locs, Option.some.inj hfind ▸ hlocs⟩

/-- **What the mapper holds** for a location: the locations for fixes of its instructions, if it
has any. -/
lemma Lawful.find_fixLocMap (h : Lawful H D S) (horder : ∀ i ∈ order, i ∈ D.module.insts)
    (hq : q ∈ S) : (fixLocMap H B D order).bind (fun t => t.find (LocationInfo.same H) q) =
      if instsAt H D order q = [] then none else fixLocs B D (instsAt H D order q) := by
  -- the map of fixes is the map of locations, entry by entry
  have hfind := h.find_locMap (B := B) horder hq
  have hentries : (locMap H B D order).mapM
      (fun p => (fixLocs B D p.2).map fun locs => (p.1, locs)) =
        some ((locMap H B D order).map fun p => (p.1, (fixLocs B D p.2).getD [])) := by
    rw [← List.filterMap_eq_map]
    refine mapM_eq_filterMap fun e he => ⟨_, ?_, rfl⟩
    obtain ⟨locs, hlocs⟩ := h.fixLocs_entry horder he
    simp only [hlocs, Option.map_some, Option.getD_some]
  have hassign := (h.valid_locMap (B := B) horder).find_assign h.equiv B.fixLocMap.perm
    (fun is => (fixLocs B D is).getD []) hq
  rw [hfind] at hassign
  rw [fixLocMap, hentries]
  split_ifs with hnil hinsts hinsts
  · rfl
  · rw [hnil, if_neg hinsts] at hfind
    cases hfind
  · rw [if_pos hinsts, Option.map_none] at hassign
    rw [Option.map_some, Option.bind_some, List.map_map]
    exact hassign
  · obtain ⟨locs, hlocs, -⟩ := h.fixLocs_instsAt (B := B) horder (q := q)
    rw [if_neg hinsts, Option.map_some, hlocs, Option.getD_some] at hassign
    rw [Option.map_some, Option.bind_some, List.map_map, hlocs]
    exact hassign

end Maps

end Hippocrates

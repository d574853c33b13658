import Mathlib.Tactic
import Hippocrates.IR.Erase
import Hippocrates.IR.LocationMapper
import Hippocrates.Lib.Weave

/-!
What one fix has put into a module, no later fix takes out.

* `Module.run`: the instructions that the tool has put right after an instruction.
* `Module.GrowsTo`: the blocks of the first module are in the second, with instructions inserted
  and with calls redirected that were not inserted.
* `Edits.growsTo`, `Module.GrowsTo.run`: edits let a module grow, and the runs only get longer.
* `FixType.code`, `fixBug_run`: the code of a primitive fix, which is at the head of the run of its
  store afterwards.
-/

namespace Hippocrates

open FixType

/-! ### Growth -/

/-- The instruction stays, with its name and its pointer, and unchanged if the tool put it there. -/
structure Instr.Keeps (i i' : Instr) : Prop where
  id : i'.id = i.id
  pointer : i'.pointerOperand = i.pointerOperand
  same : i.id.inserted = true → i' = i

/-- The block with more instructions inserted. -/
abbrev GrownBlock : Block → Block → Prop := Weave Instr.Keeps fun j => j.id.inserted = true

namespace Module

/-- The blocks of `m` are in `m'`, with instructions inserted. -/
def GrowsTo (m m' : Module) : Prop :=
  ∀ f b, (f, b) ∈ m.blockList → ∃ b', (f, b') ∈ m'.blockList ∧ GrownBlock b b'

/-- The instructions that the tool has put right after the instruction of the name. -/
def run (m : Module) (i : InstId) : List Instr :=
  match m.parent i with
  | none => []
  | some (_, b) => (afterInst b i).takeWhile fun j => j.id.inserted

/-- What the tool has inserted are flushes, fences and their casts. -/
def OnlyFlushes (m : Module) : Prop := ∀ j ∈ m.insts, j.id.inserted = true → IsInserted j

end Module

section Growth

variable {m m' m'' : Module} {i : Instr} {f : FnId}

lemma Instr.Keeps.refl (i : Instr) : i.Keeps i := ⟨rfl, rfl, fun _ => rfl⟩

lemma Instr.Keeps.trans {j k : Instr} (h : i.Keeps j) (h' : j.Keeps k) : i.Keeps k := by
  refine ⟨h'.id.trans h.id, h'.pointer.trans h.pointer, fun hi => ?_⟩
  obtain rfl := h.same hi
  exact h'.same hi

lemma Module.GrowsTo.refl (m : Module) : m.GrowsTo m := fun _ b hb =>
  ⟨b, hb, Weave.refl fun i _ => Instr.Keeps.refl i⟩

lemma Module.GrowsTo.trans (h : m.GrowsTo m') (h' : m'.GrowsTo m'') : m.GrowsTo m'' := by
  intro f b hb
  obtain ⟨b', hb', hgrown⟩ := h f b hb
  obtain ⟨b'', hb'', hgrown'⟩ := h' f b' hb'
  refine ⟨b'', hb'', hgrown.trans (fun _ _ _ => Instr.Keeps.trans) (fun j k hj hk => ?_) hgrown'⟩
  rw [hk.id, hj]

lemma Module.blockList_rewrite {F : Instr → List Instr} :
    (m.rewrite F).blockList = m.blockList.map fun q => (q.1, q.2.flatMap F) := by
  simp [blockList, rewrite, Function.rewrite, List.flatMap_map, List.map_flatMap,
    Function.comp_def]

lemma Module.mem_insts_of_blockList {b : Block} (hb : (f, b) ∈ m.blockList) (hi : i ∈ b) :
    i ∈ m.insts := by
  rw [Module.insts_eq_blockList]
  exact List.mem_flatMap.mpr ⟨_, hb, hi⟩

/-- A rewriting that keeps every instruction and puts new ones after it. -/
lemma Module.GrowsTo.rewrite {F : Instr → List Instr}
    (h : ∀ j ∈ m.insts, ∃ j' new, F j = j' :: new ∧ j.Keeps j' ∧ ∀ k ∈ new, k.id.inserted = true) :
    m.GrowsTo (m.rewrite F) := by
  intro f b hb
  refine ⟨b.flatMap F, ?_, Weave.flatMap fun j hj => h j (Module.mem_insts_of_blockList hb hj)⟩
  rw [Module.blockList_rewrite]
  exact List.mem_map_of_mem hb

lemma Module.GrowsTo.insertAfter (i : InstId) {new : List Instr}
    (hnew : ∀ j ∈ new, j.id.inserted = true) : m.GrowsTo (m.insertAfter i new) := by
  refine Module.GrowsTo.rewrite fun j _ => ?_
  rw [insertedAfter]
  split_ifs
  · exact ⟨j, new, rfl, .refl j, hnew⟩
  · exact ⟨j, [], rfl, .refl j, by simp⟩

lemma Module.GrowsTo.setCalledFunction {i : InstId} {g : FnId} {cb : Instr}
    (hcb : m.findInst i = some cb) (hins : cb.id.inserted = false) :
    m.GrowsTo (m.setCalledFunction i g) := by
  obtain ⟨hmem, rfl⟩ := Module.findInst_spec hcb
  refine Module.GrowsTo.rewrite fun j hj => ⟨_, [], rfl, ⟨redirect_id _ j, ?_, fun hj' => ?_⟩,
    by simp⟩
  · exact redirect_pointerOperand
  · rw [redirect, if_neg]
    exact fun heq => by simp [heq, hins] at hj'

lemma Module.GrowsTo.clone (h : m.clone f = some m') : m.GrowsTo m' := by
  obtain ⟨body, -, rfl⟩ := Option.map_eq_some_iff.mp h
  intro g b hb
  refine ⟨b, ?_, Weave.refl fun i _ => Instr.Keeps.refl i⟩
  rw [Module.blockList, List.flatMap_append]
  exact List.mem_append_left _ hb

/-- **An edit** lets the module grow. -/
lemma Edit.growsTo {G : GenEnv} (hm : m.OnlyFlushes) (h : Edit G m m') :
    m.GrowsTo m' ∧ m'.OnlyFlushes := by
  cases h with
  | insert i hnames hnew =>
      refine ⟨.insertAfter i fun j hj => (hnew j hj).inserted, fun j hj hins => ?_⟩
      rw [Module.insts_insertAfter] at hj
      rcases mem_flatMap_insertedAfter hj with hj | hj
      · exact hm j hj hins
      · exact hnew j hj
  | @retarget i f g cb hcb hcall hg hf =>
      -- what was inserted calls flush functions, so the call is not one of those
      have hcbins : cb.id.inserted = false := by
        refine Bool.eq_false_iff.mpr fun hins => ?_
        have hflush := (hm cb (Module.findInst_spec hcb).1 hins).not_called hcall
        rw [hg] at hflush
        cases hflush
      have hgrow := Module.GrowsTo.setCalledFunction (g := f) hcb hcbins
      refine ⟨hgrow, fun j hj hins => ?_⟩
      rw [Module.setCalledFunction, Module.insts_rewrite] at hj
      obtain ⟨k, hk, hjk⟩ := List.mem_flatMap.mp hj
      obtain rfl := List.mem_singleton.mp hjk
      rw [redirect_id] at hins
      obtain ⟨hmem, rfl⟩ := Module.findInst_spec hcb
      rw [redirect, if_neg (fun heq => by simp [heq, hcbins] at hins)]
      exact hm k hk hins
  | @clone f m' hclone =>
      refine ⟨.clone hclone, fun j hj hins => ?_⟩
      obtain ⟨body, hbody, rfl⟩ := Option.map_eq_some_iff.mp hclone
      simp only [Module.insts, List.flatMap_append, List.flatMap_cons, List.flatMap_nil,
        List.append_nil, Function.insts_rewrite, List.mem_append] at hj
      rcases hj with hj | hj
      · exact hm j hj hins
      · obtain ⟨k, hk, hjk⟩ := List.mem_flatMap.mp hj
        obtain rfl := List.mem_singleton.mp hjk
        exact (hm k (Module.mem_insts_of_lookup hbody hk) hins).copy _

/-- **A sequence of edits** lets the module grow. -/
lemma Edits.growsTo {G : GenEnv} (hm : m.OnlyFlushes) (h : Edits G m m') :
    m.GrowsTo m' ∧ m'.OnlyFlushes := by
  induction h with
  | refl => exact ⟨.refl m, hm⟩
  | tail hprev hedit ih =>
      have hlast := hedit.growsTo ih.2
      exact ⟨ih.1.trans hlast.1, hlast.2⟩

end Growth

/-! ### Runs -/

section Run

variable {m m' : Module} {i : Instr}

/-- What stands after an instruction of a block. -/
lemma afterInst_append_cons {pre post : Block} (h : ((pre ++ i :: post).map Instr.id).Nodup) :
    afterInst (pre ++ i :: post) i.id = post := by
  rw [List.map_append, List.map_cons, List.nodup_append] at h
  have hpre : ∀ k ∈ pre, k.id ≠ i.id := fun k hk =>
    h.2.2 k.id (List.mem_map_of_mem hk) i.id List.mem_cons_self
  rw [afterInst, List.dropWhile_append_of_pos (by simpa using hpre)]
  simp

/-- The run of an instruction, read off its block. -/
lemma Module.WF.run_eq (hwf : m.WF) {f : FnId} {pre post : Block}
    (hb : (f, pre ++ i :: post) ∈ m.blockList) :
    m.run i.id = post.takeWhile fun j => j.id.inserted := by
  have hib : i ∈ pre ++ i :: post := List.mem_append_right pre List.mem_cons_self
  have hpar := (hwf.parent_iff (Module.mem_insts_of_blockList hb hib)).mpr ⟨hb, hib⟩
  rw [run, hpar]
  dsimp only
  rw [afterInst_append_cons (hwf.nodup_block hb)]

lemma Module.exists_block (hi : i ∈ m.insts) :
    ∃ f pre post, (f, pre ++ i :: post) ∈ m.blockList := by
  rw [Module.insts_eq_blockList] at hi
  obtain ⟨⟨f, b⟩, hb, hib⟩ := List.mem_flatMap.mp hi
  obtain ⟨pre, post, rfl⟩ := List.append_of_mem hib
  exact ⟨f, pre, post, hb⟩

/-- **An instruction of the module stays**, and its run only gets longer. -/
lemma Module.GrowsTo.run (hwf : m.WF) (hwf' : m'.WF) (h : m.GrowsTo m') (hi : i ∈ m.insts) :
    ∃ i' ∈ m'.insts, i.Keeps i' ∧ (m.run i.id).Sublist (m'.run i.id) := by
  obtain ⟨f, pre, post, hb⟩ := Module.exists_block hi
  obtain ⟨b', hb', hgrown⟩ := h f _ hb
  obtain ⟨pre', i', post', rfl, hkeep, -, hpost⟩ := hgrown.split
  refine ⟨i', Module.mem_insts_of_blockList hb' (by simp), hkeep, ?_⟩
  rw [hwf.run_eq hb, ← hkeep.id, hwf'.run_eq hb']
  exact hpost.takeWhile (fun _ hj => hj) fun j j' hj hins => hj.same hins

lemma FreshNames.ne {new : List Instr} (hnames : FreshNames m new) (hwf : m.WF) {k : Instr}
    (hk : k ∈ new) (hi : i ∈ m.insts) : k.id ≠ i.id := by
  have hmem : k.id ∈ new.map Instr.id := List.mem_map_of_mem hk
  rw [hnames] at hmem
  obtain ⟨n, hn, hid⟩ := List.mem_map.mp hmem
  exact fun heq => hwf.ne_ins hi (List.mem_range'_1.mp hn).1 (heq.symm.trans hid.symm)

lemma FreshNames.nodup {new : List Instr} (h : FreshNames m new) : (new.map Instr.id).Nodup := by
  rw [h]
  refine List.Nodup.map (fun a b hab => ?_) (List.nodup_range' 1)
  simpa [InstId.ins] using hab

/-- The run of an instruction that a rewriting keeps, with `new` after it. -/
lemma Module.WF.run_rewrite (hwf : m.WF) {F : Instr → List Instr} {new : List Instr} {f : FnId}
    {pre post : Block} (hb : (f, pre ++ i :: post) ∈ m.blockList) (hF : F i = i :: new)
    (hother : ∀ j ∈ m.insts, j.id ≠ i.id → ∀ k ∈ F j, k.id ≠ i.id) :
    (m.rewrite F).run i.id = (new ++ post.flatMap F).takeWhile fun j => j.id.inserted := by
  have hib : i ∈ pre ++ i :: post := List.mem_append_right pre List.mem_cons_self
  have hi : i ∈ m.insts := Module.mem_insts_of_blockList hb hib
  -- the rewriting keeps the name only at the instruction itself
  have hself : ∀ j ∈ m.insts, (F j).any (fun k => k.id == i.id) = (j.id == i.id) := by
    intro j hj
    by_cases hji : j.id = i.id
    · rw [hwf.eq_of_id hj hi hji, hF]
      simp
    · have hnone := hother j hj hji
      rw [beq_eq_false_iff_ne.mpr hji, List.any_eq_false]
      exact fun k hk => by simpa using hnone k hk
  have hpar : (m.rewrite F).parent i.id = some (f, (pre ++ i :: post).flatMap F) := by
    have hold : m.parent i.id = some (f, pre ++ i :: post) := (hwf.parent_iff hi).mpr ⟨hb, hib⟩
    have hblocks := Module.blockList_rewrite (m := m) (F := F)
    rw [blockList] at hblocks
    rw [parent, hblocks, List.find?_map]
    rw [parent] at hold
    refine (congrArg _ (List.find?_congr fun q hq => ?_)).trans
      (congrArg (Option.map fun q : FnId × Block => (q.1, q.2.flatMap F)) hold)
    rw [Function.comp_apply, List.any_flatMap, Bool.eq_iff_iff, List.any_eq_true, List.any_eq_true]
    refine exists_congr fun j => and_congr_right fun hj => ?_
    rw [hself j (Module.mem_insts_of_blockList hq hj)]
  have hpre : ∀ k ∈ pre.flatMap F, k.id ≠ i.id := by
    intro k hk
    obtain ⟨j, hj, hkj⟩ := List.mem_flatMap.mp hk
    refine hother j (Module.mem_insts_of_blockList hb (List.mem_append_left _ hj)) ?_ k hkj
    have hnodup := hwf.nodup_block hb
    rw [List.map_append, List.map_cons, List.nodup_append] at hnodup
    exact hnodup.2.2 j.id (List.mem_map_of_mem hj) i.id List.mem_cons_self
  rw [run, hpar]
  dsimp only
  rw [List.flatMap_append, List.flatMap_cons, hF, List.cons_append, afterInst,
    List.dropWhile_append_of_pos (by simpa using hpre)]
  simp

/-- An instruction is not in its own run. -/
lemma Module.WF.notMem_run (hwf : m.WF) (hi : i ∈ m.insts) : i.id ∉ (m.run i.id).map Instr.id := by
  obtain ⟨f, pre, post, hb⟩ := Module.exists_block hi
  have hnodup := hwf.nodup_block hb
  rw [List.map_append, List.map_cons, List.nodup_append, List.nodup_cons] at hnodup
  rw [hwf.run_eq hb]
  exact fun hmem => hnodup.2.1.1 (((List.takeWhile_sublist _).map _).subset hmem)

/-- The run after an insertion. -/
lemma Module.WF.run_insertAfter (hwf : m.WF) {x : InstId} {new : List Instr}
    (hnames : FreshNames m new) (hnew : ∀ j ∈ new, j.id.inserted = true) (hi : i ∈ m.insts) :
    (m.insertAfter x new).run i.id =
      (if i.id = x then new else []) ++ (m.run i.id).flatMap (insertedAfter x new) := by
  obtain ⟨f, pre, post, hb⟩ := Module.exists_block hi
  have hF : insertedAfter x new i = i :: if i.id = x then new else [] := by
    rw [insertedAfter]
    split_ifs <;> rfl
  have hother : ∀ j ∈ m.insts, j.id ≠ i.id → ∀ k ∈ insertedAfter x new j, k.id ≠ i.id := by
    intro j _ hji k hk
    rw [insertedAfter] at hk
    split_ifs at hk
    · rcases List.mem_cons.mp hk with rfl | hk
      · exact hji
      · exact hnames.ne hwf hk hi
    · exact List.mem_singleton.mp hk ▸ hji
  have hrun : (m.insertAfter x new).run i.id = (m.rewrite (insertedAfter x new)).run i.id := rfl
  rw [hrun, hwf.run_rewrite hb hF hother, hwf.run_eq hb]
  have hpost : ∀ l : Block, (l.flatMap (insertedAfter x new)).takeWhile (fun j => j.id.inserted) =
      (l.takeWhile fun j => j.id.inserted).flatMap (insertedAfter x new) := by
    intro l
    induction l with
    | nil => rfl
    | cons j l ih =>
        -- what follows an inserted instruction has been inserted as well
        have hself : ∃ r, insertedAfter x new j = j :: r ∧ ∀ k ∈ r, k.id.inserted = true := by
          rw [insertedAfter]
          split_ifs
          · exact ⟨new, rfl, hnew⟩
          · exact ⟨[], rfl, by simp⟩
        obtain ⟨r, hr, hins⟩ := hself
        rw [List.flatMap_cons, hr, List.cons_append, List.takeWhile_cons, List.takeWhile_cons]
        split_ifs
        · rw [List.takeWhile_append_of_pos hins, ih, List.flatMap_cons, hr, List.cons_append]
        · rfl
  split_ifs
  · rw [List.takeWhile_append_of_pos hnew, hpost]
  · rw [List.nil_append, List.nil_append, hpost]

end Run

/-! ### The code of a fix -/

/-- What a primitive fix puts after a store through `v`, the names given out from `n` on. -/
def FixType.code (t : FixType) (n : ℕ) (v : Value) : List Instr :=
  match t with
  | ADD_FLUSH_ONLY => flushInstrs n v
  | ADD_FENCE_ONLY => [sfenceCall n]
  | ADD_FLUSH_AND_FENCE => flushInstrs n v ++ [sfenceCall (n + (flushInstrs n v).length)]
  | _ => []

section Code

variable {m m' : Module} {i : Instr} {v : Value}

/-- The flush ends with the call of `clwb`. -/
lemma flushInstrs_eq_append (n : ℕ) (v : Value) : ∃ l c, flushInstrs n v = l ++ [c] := by
  rw [flushInstrs]
  split
  · exact ⟨[], _, rfl⟩
  · split
    · exact ⟨[], _, rfl⟩
    · exact ⟨[_], _, rfl⟩

/-- The names of the code are the next ones, and the code is flushes and fences. -/
lemma code_spec (m : Module) (t : FixType) (v : Value) :
    FreshNames m (t.code m.next v) ∧ ∀ j ∈ t.code m.next v, IsInserted j := by
  obtain ⟨hnames, hnew⟩ := flushInstrs_spec m v
  have hfence : ∀ n, IsInserted (sfenceCall n) := fun n => ⟨rfl, .inr ⟨_, _, rfl, rfl⟩⟩
  cases t with
  | ADD_FLUSH_ONLY => exact ⟨hnames, hnew⟩
  | ADD_FENCE_ONLY => exact ⟨rfl, by simpa [FixType.code] using hfence m.next⟩
  | ADD_FLUSH_AND_FENCE =>
      refine ⟨?_, fun j hj => ?_⟩
      · rw [FreshNames, FixType.code, List.map_append, hnames, List.length_append,
          List.length_singleton, List.range'_concat, List.map_append]
        simp [sfenceCall]
      · rcases List.mem_append.mp hj with hj | hj
        · exact hnew j hj
        · exact List.mem_singleton.mp hj ▸ hfence _
  | _ => exact ⟨rfl, fun j hj => absurd hj List.not_mem_nil⟩

lemma Module.rewrite_congr {Q Q' : Instr → List Instr} (h : ∀ j ∈ m.insts, Q j = Q' j) :
    m.rewrite Q = m.rewrite Q' := by
  have hfun : ∀ p ∈ m.funs, p.2.rewrite Q = p.2.rewrite Q' := by
    intro p hp
    rw [Function.rewrite, Function.rewrite]
    congr 1
    exact List.map_congr_left fun b hb => List.flatMap_congr fun j hj =>
      h j (Module.mem_insts_of_block hp hb hj)
  rw [rewrite, rewrite]
  congr 1
  exact List.map_congr_left fun p hp => by rw [hfun p hp]

/-- An insertion after the last of what has been inserted. -/
lemma Module.insertAfter_insertAfter {x : InstId} {l new : List Instr} {c : Instr}
    (hc : c.id ∉ m.insts.map Instr.id) (hl : c.id ∉ l.map Instr.id) :
    (m.insertAfter x (l ++ [c])).insertAfter c.id new = m.insertAfter x (l ++ c :: new) := by
  have hinner : ∀ j ∈ m.insts, (insertedAfter x (l ++ [c]) j).flatMap (insertedAfter c.id new) =
      insertedAfter x (l ++ c :: new) j := by
    intro j hj
    have hj' : insertedAfter c.id new j = [j] := by
      rw [insertedAfter, if_neg]
      exact fun heq => hc (heq ▸ List.mem_map_of_mem hj)
    rw [insertedAfter, insertedAfter]
    split_ifs
    · rw [List.flatMap_cons, hj', List.flatMap_append, flatMap_insertedAfter_of_notMem hl]
      simp [insertedAfter]
    · rw [List.flatMap_singleton, hj']
  rw [insertAfter, insertAfter, insertAfter]
  congr 1
  · show ((m.rewrite _).rewrite _).funs = _
    rw [rewrite_rewrite, rewrite_congr hinner]
  · simp only [List.length_append, List.length_cons, List.length_nil]
    omega

/-- The next instruction, read off the block. -/
lemma Module.WF.nextOf_eq (hwf : m.WF) {f : FnId} {pre post : Block}
    (hb : (f, pre ++ i :: post) ∈ m.blockList) : m.nextOf i.id = post.head? := by
  have hib : i ∈ pre ++ i :: post := List.mem_append_right pre List.mem_cons_self
  have hpar := (hwf.parent_iff (Module.mem_insts_of_blockList hb hib)).mpr ⟨hb, hib⟩
  rw [nextOf, hpar, Option.bind_some, nextNode, afterInst_append_cons (hwf.nodup_block hb)]

/-- The block of an instruction after an insertion. -/
lemma Module.mem_blockList_insertAfter {x : InstId} {new : List Instr} {f : FnId}
    {pre post : Block} (hb : (f, pre ++ i :: post) ∈ m.blockList) :
    (f, pre.flatMap (insertedAfter x new) ++ i :: ((if i.id = x then new else []) ++
      post.flatMap (insertedAfter x new))) ∈ (m.insertAfter x new).blockList := by
  have hmem := List.mem_map_of_mem (f := fun q : FnId × Block =>
    (q.1, q.2.flatMap (insertedAfter x new))) hb
  rw [← Module.blockList_rewrite] at hmem
  have hself : insertedAfter x new i = i :: if i.id = x then new else [] := by
    rw [insertedAfter]
    split_ifs <;> rfl
  rwa [List.flatMap_append, List.flatMap_cons, hself, List.cons_append] at hmem

/-- An instruction that is followed by one still is. -/
lemma Module.WF.nextOf_insertAfter (hwf : m.WF) (hi : i ∈ m.insts) {x : InstId}
    {new : List Instr} (hnames : FreshNames m new) (hnext : (m.nextOf i.id).isSome = true) :
    ((m.insertAfter x new).nextOf i.id).isSome = true := by
  obtain ⟨f, pre, post, hb⟩ := Module.exists_block hi
  rw [hwf.nextOf_eq hb] at hnext
  rw [(hwf.insertAfter hnames).nextOf_eq (Module.mem_blockList_insertAfter hb)]
  cases post with
  | nil => cases hnext
  | cons j post =>
      rw [List.flatMap_cons, insertedAfter]
      split_ifs <;> cases new <;> rfl

/-- What has been inserted is followed by what followed. -/
lemma Module.WF.nextOf_inserted (hwf : m.WF) (hi : i ∈ m.insts) {l : List Instr} {c : Instr}
    (hnames : FreshNames m (l ++ [c])) (hnext : (m.nextOf i.id).isSome = true) :
    ((m.insertAfter i.id (l ++ [c])).nextOf c.id).isSome = true := by
  obtain ⟨f, pre, post, hb⟩ := Module.exists_block hi
  have hb' : (f, _ ++ i :: ((if i.id = i.id then l ++ [c] else []) ++ _)) ∈
      (m.insertAfter i.id (l ++ [c])).blockList := Module.mem_blockList_insertAfter hb
  rw [if_pos rfl, List.append_assoc, List.singleton_append, ← List.cons_append,
    ← List.append_assoc] at hb'
  rw [hwf.nextOf_eq hb] at hnext
  rw [(hwf.insertAfter hnames).nextOf_eq hb']
  cases post with
  | nil => cases hnext
  | cons j post =>
      rw [List.flatMap_cons, insertedAfter]
      split_ifs <;> rfl

/-- The flush of a store. -/
lemma insertFlush_single (hwf : m.WF) (hi : i ∈ m.insts) (hv : i.pointerOperand = some v) :
    insertFlush m (FixLoc.single i.id) =
      (m.nextOf i.id).map fun _ => (m.insertAfter i.id (flushInstrs m.next v),
        (flushInstrs m.next v).getLast?.map Instr.id) := by
  rw [insertFlush, hwf.insts_single hi]
  dsimp only
  rw [List.foldlM_cons, insertFlushAt, hv]
  cases m.nextOf i.id <;> rfl

/-- **A primitive fix at a store** puts its code after the store. -/
lemma fixBug_single {G : GenEnv} (hwf : m.WF) (hi : i ∈ m.insts) (hv : i.pointerOperand = some v)
    {desc : FixDesc} (ht : desc.type.isPrimative = true) :
    fixBug G m (FixLoc.single i.id) desc = (m.nextOf i.id).map fun _ =>
      (m.insertAfter i.id (desc.type.code m.next v), true) := by
  obtain ⟨hnames, -⟩ := flushInstrs_spec m v
  obtain ⟨l, c, hlc⟩ := flushInstrs_eq_append m.next v
  have hlast : (flushInstrs m.next v).getLast?.map Instr.id = some c.id := by
    rw [hlc, List.getLast?_concat]
    rfl
  have hcmem : c ∈ flushInstrs m.next v := hlc ▸ List.mem_append_right l (List.mem_singleton_self c)
  rw [fixBug]
  split
  · rename_i htype
    rw [insertFlush_single hwf hi hv, hlast, htype]
    cases m.nextOf i.id <;> rfl
  · rename_i htype
    have hfence : insertFence m (FixLoc.single i.id) = (m.nextOf i.id).map fun _ =>
        (m.insertAfter i.id [sfenceCall m.next], InstId.ins m.next) := by
      rw [insertFence, FixLoc.single]
      cases m.nextOf i.id <;> rfl
    rw [hfence, htype]
    cases m.nextOf i.id <;> rfl
  · rename_i htype
    rw [insertFlush_single hwf hi hv, hlast, htype]
    cases hnext : m.nextOf i.id with
    | none => rfl
    | some next =>
        have hnext' := hwf.nextOf_inserted hi (hlc ▸ hnames) (by rw [hnext]; rfl)
        rw [← hlc, Option.isSome_iff_exists] at hnext'
        obtain ⟨next', hnext'⟩ := hnext'
        -- the fence goes after the last of the flushes, whose name occurs once
        have hc : c.id ∉ m.insts.map Instr.id := by
          intro hmem
          obtain ⟨j, hj, hjc⟩ := List.mem_map.mp hmem
          exact hnames.ne hwf hcmem hj hjc.symm
        have hl : c.id ∉ l.map Instr.id := by
          have hnodup : ((flushInstrs m.next v).map Instr.id).Nodup := hnames.nodup
          rw [hlc, List.map_append, List.nodup_append] at hnodup
          exact fun hmem => hnodup.2.2 _ hmem c.id (List.mem_singleton_self _) rfl
        have hboth : ∀ n, (m.insertAfter i.id (flushInstrs m.next v)).insertAfter c.id
            [sfenceCall n] = m.insertAfter i.id (flushInstrs m.next v ++ [sfenceCall n]) := by
          intro n
          rw [hlc, Module.insertAfter_insertAfter hc hl, List.append_assoc]
          rfl
        rw [Option.map_some, Option.map_some]
        dsimp only
        rw [insertFence, FixLoc.single]
        dsimp only
        rw [hnext']
        dsimp only
        rw [hboth]
        rfl
  all_goals simp [*, isPrimative] at ht

/-- **The code of a primitive fix** is put right after its store. -/
lemma fixBug_run {G : GenEnv} (hwf : m.WF) (hi : i ∈ m.insts) (hv : i.pointerOperand = some v)
    {desc : FixDesc} {res : Bool} (ht : desc.type.isPrimative = true)
    (h : fixBug G m (FixLoc.single i.id) desc = some (m', res)) :
    m'.run i.id = desc.type.code m.next v ++ m.run i.id := by
  rw [fixBug_single hwf hi hv ht] at h
  obtain ⟨_, -, heq⟩ := Option.map_eq_some_iff.mp h
  obtain ⟨rfl, -⟩ := Prod.mk.inj heq
  obtain ⟨hnames, hnew⟩ := code_spec m desc.type v
  rw [hwf.run_insertAfter hnames (fun j hj => (hnew j hj).inserted) hi, if_pos rfl,
    flatMap_insertedAfter_of_notMem (hwf.notMem_run hi)]

end Code

end Hippocrates

import Mathlib.Data.List.Forall2
import Mathlib.Tactic
import Hippocrates.IR.Edit

/-!
The repair does no harm: without the inserted instructions, and with the clones and the
persistent versions of primitives named as what they replace, the repaired module is the given
one.

* `ErasesInstr`, `ErasesBlock`, `ErasesFun`, `ErasesTo`: the erasure, as a relation between the
  repaired and the given code. A block of the repaired code may have more instructions, all of
  them inserted; the clones come after the given functions.
* `Edit.erasesTo`: every edit keeps the relation; `fixBugs_erasesTo`: so do fixes in any order.
-/

namespace Hippocrates

open FixType

/-! ### The names before cloning -/

/-- The operand without the clonings of its name. -/
def Value.strip : Value → Value
  | .inst id ty => .inst id.stripped ty
  | .alloca id ty => .alloca id.stripped ty
  | .arg fn n ty => .arg fn.stripped n ty
  | .function f => .function f
  | .constant name ty => .constant name ty

def Callee.strip : Callee → Callee
  | .function f => .function f
  | .pointer v => .pointer v.strip
  | .inlineAsm text => .inlineAsm text

def Opcode.strip : Opcode → Opcode
  | .store value pointer => .store value.strip pointer.strip
  | .cmpxchg pointer compare newVal => .cmpxchg pointer.strip compare.strip newVal.strip
  | .atomicrmw operation pointer value => .atomicrmw operation pointer.strip value.strip
  | .call callee args => .call callee.strip (args.map Value.strip)
  | .bitCast v ty => .bitCast v.strip ty
  | .alloca => .alloca
  | .other name operands => .other name (operands.map Value.strip)

@[simp] lemma Value.strip_copy (k : ℕ) (v : Value) : (v.copy k).strip = v.strip := by
  cases v <;> rfl

@[simp] lemma Opcode.strip_copy (k : ℕ) (o : Opcode) : (o.copy k).strip = o.strip := by
  have hmap : ∀ l : List Value, (l.map (Value.copy k)).map Value.strip = l.map Value.strip := by
    intro l
    simp [List.map_map, Function.comp_def]
  cases o with
  | call callee args => cases callee <;> simp [copy, strip, Callee.copy, Callee.strip]
  | other name operands => simp [copy, strip]
  | store => simp [copy, strip]
  | cmpxchg => simp [copy, strip]
  | atomicrmw => simp [copy, strip]
  | bitCast => simp [copy, strip]
  | alloca => rfl

/-! ### The erasure -/

/-- The instruction is `i`, up to the clonings and the callee of a direct call. -/
structure ErasesInstr (G : GenEnv) (i' i : Instr) : Prop where
  id : i'.id.stripped = i.id
  op : i'.op.strip = i.op ∨ ∃ g f args, i'.op.strip = .call (.function g) args ∧
    i.op = .call (.function f) args ∧ Relation.ReflTransGen (Renames G) g f

/-- The block is the second one with inserted instructions. -/
inductive ErasesBlock (G : GenEnv) : Block → Block → Prop
  | nil : ErasesBlock G [] []
  | drop {i' : Instr} {b' b : Block} (hi : IsInserted i') (h : ErasesBlock G b' b) :
      ErasesBlock G (i' :: b') b
  | keep {i' i : Instr} {b' b : Block} (hi : ErasesInstr G i' i) (h : ErasesBlock G b' b) :
      ErasesBlock G (i' :: b') (i :: b)

def ErasesFun (G : GenEnv) (f' f : Function) : Prop :=
  List.Forall₂ (ErasesBlock G) f'.blocks f.blocks

/-- The module consists of the functions of the second one and of clones of them, with inserted
instructions. -/
def ErasesTo (G : GenEnv) (m' m : Module) : Prop :=
  ∃ originals clones, m'.funs = originals ++ clones ∧
    List.Forall₂ (fun p' p => p'.1 = p.1 ∧ ErasesFun G p'.2 p.2) originals m.funs ∧
    ∀ p' ∈ clones, p'.1.copies ≠ [] ∧
      ∃ body, (p'.1.stripped, body) ∈ m.funs ∧ ErasesFun G p'.2 body

/-- A module before any repair. -/
structure Module.Original (m : Module) : Prop where
  functions : ∀ p ∈ m.funs, p.1.copies = []
  ids : ∀ i ∈ m.insts, i.id.inserted = false ∧ i.id.copies = []
  operands : ∀ i ∈ m.insts, i.op.strip = i.op

section Erases

variable {G : GenEnv} {m m' : Module}

lemma ErasesBlock.refl {b : Block} (h : ∀ i ∈ b, i.id.stripped = i.id ∧ i.op.strip = i.op) :
    ErasesBlock G b b := by
  induction b with
  | nil => exact .nil
  | cons i b ih =>
      have hi := h i List.mem_cons_self
      exact .keep ⟨hi.1, .inl hi.2⟩ (ih fun j hj => h j (List.mem_cons_of_mem i hj))

lemma Module.Original.erasesTo (h : m.Original) : ErasesTo G m m := by
  refine ⟨m.funs, [], by simp, List.forall₂_same.mpr fun p hp => ⟨rfl, ?_⟩, by simp⟩
  refine List.forall₂_same.mpr fun b hb => ErasesBlock.refl fun i hi => ?_
  have hmem : i ∈ m.insts := Module.mem_insts_of_block hp hb hi
  refine ⟨?_, h.operands i hmem⟩
  rw [InstId.stripped, ← (h.ids i hmem).2]

lemma ErasesBlock.of_inserted {rest b' b : Block} (hrest : ∀ k ∈ rest, IsInserted k)
    (h : ErasesBlock G b' b) : ErasesBlock G (rest ++ b') b := by
  induction rest with
  | nil => exact h
  | cons k rest ih =>
      rw [List.forall_mem_cons] at hrest
      exact .drop hrest.1 (ih hrest.2)

/-- **A rewriting of a block** that keeps what its instructions erase to. -/
lemma ErasesBlock.flatMap {F : Instr → List Instr} {b' b : Block}
    (hkeep : ∀ j ∈ b', ∀ i, ErasesInstr G j i →
      ∃ j' rest, F j = j' :: rest ∧ ErasesInstr G j' i ∧ ∀ k ∈ rest, IsInserted k)
    (hdrop : ∀ j ∈ b', IsInserted j → ∀ k ∈ F j, IsInserted k) (h : ErasesBlock G b' b) :
    ErasesBlock G (b'.flatMap F) b := by
  induction h with
  | nil => exact .nil
  | @drop j b' b hj _ ih =>
      rw [List.forall_mem_cons] at hkeep hdrop
      rw [List.flatMap_cons]
      exact .of_inserted (hdrop.1 hj) (ih hkeep.2 hdrop.2)
  | @keep j i b' b hj _ ih =>
      rw [List.forall_mem_cons] at hkeep hdrop
      obtain ⟨j', rest, hF, hj', hrest⟩ := hkeep.1 i hj
      rw [List.flatMap_cons, hF, List.cons_append]
      exact .keep hj' (.of_inserted hrest (ih hkeep.2 hdrop.2))

lemma ErasesFun.rewrite {F : Instr → List Instr} {f' f : Function}
    (hkeep : ∀ j ∈ f'.insts, ∀ i, ErasesInstr G j i →
      ∃ j' rest, F j = j' :: rest ∧ ErasesInstr G j' i ∧ ∀ k ∈ rest, IsInserted k)
    (hdrop : ∀ j ∈ f'.insts, IsInserted j → ∀ k ∈ F j, IsInserted k) (h : ErasesFun G f' f) :
    ErasesFun G (f'.rewrite F) f := by
  have hmem : ∀ b ∈ f'.blocks, ∀ j ∈ b, j ∈ f'.insts := fun b hb j hj =>
    List.mem_flatten.mpr ⟨b, hb, hj⟩
  have hblocks :
      List.Forall₂ (fun b' b => b' ∈ f'.blocks ∧ ErasesBlock G b' b) f'.blocks f.blocks :=
    (List.forall₂_and_left f'.blocks f.blocks).mpr ⟨fun b hb => hb, h⟩
  rw [ErasesFun, Function.rewrite]
  dsimp only
  rw [List.forall₂_map_left_iff]
  refine hblocks.imp fun b' b hb => hb.2.flatMap (fun j hj => hkeep j (hmem b' hb.1 j hj))
    fun j hj => hdrop j (hmem b' hb.1 j hj)

/-- A rewriting of a module. -/
lemma ErasesTo.rewrite {F : Instr → List Instr}
    (hkeep : ∀ j ∈ m'.insts, ∀ i, ErasesInstr G j i →
      ∃ j' rest, F j = j' :: rest ∧ ErasesInstr G j' i ∧ ∀ k ∈ rest, IsInserted k)
    (hdrop : ∀ j ∈ m'.insts, IsInserted j → ∀ k ∈ F j, IsInserted k) (h : ErasesTo G m' m) :
    ErasesTo G (m'.rewrite F) m := by
  obtain ⟨originals, clones, hfuns, horig, hclones⟩ := h
  have hfun : ∀ p' ∈ m'.funs, ∀ f, ErasesFun G p'.2 f → ErasesFun G (p'.2.rewrite F) f := by
    intro p' hp' f hf
    have hmem : ∀ j ∈ p'.2.insts, j ∈ m'.insts := fun j hj => List.mem_flatMap.mpr ⟨p', hp', hj⟩
    exact hf.rewrite (fun j hj => hkeep j (hmem j hj)) fun j hj => hdrop j (hmem j hj)
  rw [hfuns] at hfun
  refine ⟨originals.map fun p => (p.1, p.2.rewrite F), clones.map fun p => (p.1, p.2.rewrite F),
    by simp [Module.rewrite, hfuns], ?_, fun p' hp' => ?_⟩
  · have hboth := (List.forall₂_and_left (p := fun p' => p' ∈ originals) originals m.funs).mpr
      ⟨fun p' hp' => hp', horig⟩
    rw [List.forall₂_map_left_iff]
    refine hboth.imp fun p' p hp => ⟨hp.2.1, ?_⟩
    exact hfun p' (List.mem_append_left _ hp.1) p.2 hp.2.2
  · obtain ⟨q, hq, rfl⟩ := List.mem_map.mp hp'
    obtain ⟨hcopies, body, hbody, herases⟩ := hclones q hq
    exact ⟨hcopies, body, hbody, hfun q (List.mem_append_right _ hq) body herases⟩

/-- The given function of a name, and what its code erases to. -/
lemma ErasesTo.of_mem (horig : m.Original) (h : ErasesTo G m' m) {f : FnId} {body' : Function}
    (hmem : (f, body') ∈ m'.funs) :
    ∃ body, (f.stripped, body) ∈ m.funs ∧ ErasesFun G body' body := by
  obtain ⟨originals, clones, hfuns, hfor, hclones⟩ := h
  rw [hfuns, List.mem_append] at hmem
  rcases hmem with hmem | hmem
  · obtain ⟨n, hn, hget⟩ := List.mem_iff_getElem.mp hmem
    have hn' : n < m.funs.length := hfor.length_eq ▸ hn
    have hrel := hfor.get hn hn'
    rw [List.get_eq_getElem, List.get_eq_getElem, hget] at hrel
    have hname : f = m.funs[n].1 := hrel.1
    have hstrip : f.stripped = m.funs[n].1 := by
      rw [hname, FnId.stripped, ← horig.functions _ (List.getElem_mem hn')]
    refine ⟨m.funs[n].2, ?_, hrel.2⟩
    rw [hstrip]
    exact List.getElem_mem hn'
  · exact (hclones _ hmem).2

lemma IsInserted.copy {i : Instr} (h : IsInserted i) (k : ℕ) : IsInserted (i.copy k) := by
  refine ⟨h.inserted, ?_⟩
  rcases h.op with ⟨v, ty, hop⟩ | ⟨f, args, hop, hf⟩
  · exact .inl ⟨v.copy k, ty, by rw [Instr.copy, hop]; rfl⟩
  · exact .inr ⟨f, args.map (Value.copy k), by rw [Instr.copy, hop]; rfl, hf⟩

lemma ErasesInstr.copy {j i : Instr} (h : ErasesInstr G j i) (k : ℕ) :
    ErasesInstr G (j.copy k) i :=
  ⟨h.id, by rw [Instr.copy, Opcode.strip_copy]; exact h.op⟩

/-- A redirected call erases to the same call. -/
lemma ErasesInstr.setCalledFunction {j i : Instr} {f g : FnId} (h : ErasesInstr G j i)
    (hcall : j.getCalledFunction = some g) (hf : Relation.ReflTransGen (Renames G) f g) :
    ErasesInstr G (j.setCalledFunction f) i := by
  obtain ⟨id, op⟩ := j
  cases op with
  | call callee args =>
      cases callee with
      | function g' =>
          obtain rfl : g' = g := Option.some.inj hcall
          refine ⟨h.id, .inr ⟨f, ?_⟩⟩
          rcases h.op with hop | ⟨g₁, f₁, args₁, hop, hi, hren⟩
          · exact ⟨g', args.map Value.strip, rfl, hop.symm, hf⟩
          · simp only [Opcode.strip, Callee.strip, Opcode.call.injEq, Callee.function.injEq] at hop
            obtain ⟨rfl, rfl⟩ := hop
            exact ⟨f₁, _, rfl, hi, hf.trans hren⟩
      | pointer v => cases hcall
      | inlineAsm text => cases hcall
  | _ => cases hcall

lemma IsInserted.not_called {i : Instr} {g : FnId} (h : IsInserted i)
    (hcall : i.getCalledFunction = some g) : g.isFlushOrFence = true := by
  rcases h.op with ⟨v, ty, hop⟩ | ⟨f, args, hop, hf⟩
  · simp [Instr.getCalledFunction, hop] at hcall
  · rw [Instr.getCalledFunction, hop] at hcall
    exact Option.some.inj hcall ▸ hf

/-- Instructions that are inserted are erased. -/
lemma ErasesTo.insertAfter {i : InstId} {new : List Instr} (hnew : ∀ k ∈ new, IsInserted k)
    (h : ErasesTo G m' m) : ErasesTo G (m'.insertAfter i new) m := by
  refine ErasesTo.rewrite (fun j _ k hk => ?_) (fun j _ hj k hk => ?_) h
  · rw [insertedAfter]
    split_ifs
    · exact ⟨j, _, rfl, hk, hnew⟩
    · exact ⟨j, [], rfl, hk, by simp⟩
  · rw [insertedAfter] at hk
    split_ifs at hk
    · rcases List.mem_cons.mp hk with rfl | hk
      · exact hj
      · exact hnew k hk
    · exact List.mem_singleton.mp hk ▸ hj

/-- A call that is redirected erases to the call it was. -/
lemma ErasesTo.setCalledFunction {i : InstId} {f g : FnId} {cb : Instr} (hwf : m'.WF)
    (hcb : m'.findInst i = some cb) (hcall : cb.getCalledFunction = some g)
    (hg : g.isFlushOrFence = false) (hf : Relation.ReflTransGen (Renames G) f g)
    (h : ErasesTo G m' m) : ErasesTo G (m'.setCalledFunction i f) m := by
  obtain ⟨hmem, hid⟩ := Module.findInst_spec hcb
  have hcase : ∀ j ∈ m'.insts, redirect (fun k => if k = i then some f else none) j = j ∨
      (j = cb ∧ redirect (fun k => if k = i then some f else none) j =
        j.setCalledFunction f) := by
    intro j hj
    rw [redirect]
    by_cases hji : j.id = i
    · exact .inr ⟨hwf.eq_of_id hj hmem (hji.trans hid.symm), by rw [if_pos hji]⟩
    · exact .inl (by rw [if_neg hji])
  refine ErasesTo.rewrite (fun j hj k hk => ?_) (fun j hj hins k hk => ?_) h
  · rcases hcase j hj with heq | ⟨rfl, heq⟩
    · exact ⟨j, [], by rw [heq], hk, by simp⟩
    · exact ⟨_, [], by rw [heq], hk.setCalledFunction hcall hf, by simp⟩
  · rcases hcase j hj with heq | ⟨rfl, heq⟩
    · rw [heq, List.mem_singleton] at hk
      exact hk ▸ hins
    · rw [hins.not_called hcall] at hg
      cases hg

/-- A clone erases to what the function it copies erases to. -/
lemma ErasesTo.clone {f : FnId} {m'' : Module} (horig : m.Original) (h : ErasesTo G m' m)
    (hclone : m'.clone f = some m'') : ErasesTo G m'' m := by
  obtain ⟨body', hbody', rfl⟩ := Option.map_eq_some_iff.mp hclone
  obtain ⟨body, hbody, herases⟩ := h.of_mem horig (Module.mem_of_lookup hbody')
  obtain ⟨originals, clones, hfuns, hfor, hclones⟩ := h
  refine ⟨originals, clones ++ [(f.clone m'.next, body'.rewrite fun i => [i.copy m'.next])],
    by simp [hfuns], hfor, fun p' hp' => ?_⟩
  rcases List.mem_append.mp hp' with hp' | hp'
  · exact hclones p' hp'
  · obtain rfl := List.mem_singleton.mp hp'
    refine ⟨List.cons_ne_nil _ _, body, hbody, herases.rewrite (fun j _ i hi => ?_)
      fun j _ hj k hk => ?_⟩
    · exact ⟨_, [], rfl, hi.copy _, by simp⟩
    · exact List.mem_singleton.mp hk ▸ hj.copy _

/-- **Every edit** keeps the erasure. -/
lemma Edit.erasesTo {m'' : Module} (horig : m.Original) (hwf : m'.WF) (h : ErasesTo G m' m)
    (hedit : Edit G m' m'') : ErasesTo G m'' m := by
  cases hedit with
  | insert i hnames hnew => exact h.insertAfter hnew
  | retarget hcb hcall hg hf => exact h.setCalledFunction hwf hcb hcall hg hf
  | clone hclone => exact h.clone horig hclone

/-- A sequence of edits keeps the erasure. -/
lemma Edits.erasesTo {m'' : Module} (horig : m.Original) (hwf : m'.WF) (h : ErasesTo G m' m)
    (hedits : Edits G m' m'') : ErasesTo G m'' m := by
  induction hedits with
  | refl => exact h
  | tail hprev hedit ih => exact hedit.erasesTo horig (Edits.wf hprev hwf) ih

/-- **The repair does no harm**: whatever fixes are applied, in whatever order, the erasure of
the repaired module is the given one. -/
theorem fixBugs_erasesTo (hwf : m.WF) (horig : m.Original) {fixes : List (FixLoc × FixDesc)}
    (h : fixBugs G m fixes = some m') : ErasesTo G m' m := by
  have hrun : ∀ (fixes : List (FixLoc × FixDesc)) (m₁ : Module), m₁.WF → ErasesTo G m₁ m →
      fixBugs G m₁ fixes = some m' → ErasesTo G m' m := by
    intro fixes
    induction fixes with
    | nil =>
        intro m₁ _ herases h
        exact Option.some.inj h ▸ herases
    | cons fix fixes ih =>
        intro m₁ hwf₁ herases h
        rw [fixBugs] at h
        split at h
        · cases h
        · rename_i m₂ res hfix
          have hedits := fixBug_edits hwf₁ hfix
          exact ih m₂ (hedits.wf hwf₁) (hedits.erasesTo horig hwf₁ herases) h
  exact hrun fixes m hwf horig.erasesTo h

end Erases

lemma storeBelow_original : storeBelow.Original :=
  ⟨by decide, by decide, by decide⟩

theorem fixBugs_erasesTo_storeBelow :
    ∃ m', fixBugs (storeBelowEnv (.inst (InstId.orig 4) (.other "i64*"))) storeBelow
        [(FixLoc.single (InstId.orig 5),
            FixDesc.mk' ADD_PERSIST_CALLSTACK_OPT storeBelowStack 2),
          (FixLoc.single (InstId.orig 0), FixDesc.mk' ADD_FLUSH_ONLY [] 0)] = some m' ∧
      ErasesTo (storeBelowEnv (.inst (InstId.orig 4) (.other "i64*"))) m' storeBelow := by
  have hrun : (fixBugs (storeBelowEnv (.inst (InstId.orig 4) (.other "i64*"))) storeBelow
      [(FixLoc.single (InstId.orig 5), FixDesc.mk' ADD_PERSIST_CALLSTACK_OPT storeBelowStack 2),
        (FixLoc.single (InstId.orig 0), FixDesc.mk' ADD_FLUSH_ONLY [] 0)]).isSome = true := by
    decide
  obtain ⟨m', hm'⟩ := Option.isSome_iff_exists.mp hrun
  exact ⟨m', hm', fixBugs_erasesTo storeBelow_wf storeBelow_original hm'⟩

end Hippocrates

import Mathlib.Tactic
import Hippocrates.IR.Module

/-!
The operations of LLVM that the fix generator uses to change a module: inserting
instructions after another one, `CallBase::setCalledFunction`, and `llvm::CloneFunction`.

* `rewrite`: every instruction is replaced by a list of instructions. Inserting and redirecting
  are rewritings.
* `WF`: every function and every instruction has one name, and the names given out so far are
  below `next`. The operations keep it (`WF.insertAfter`, `WF.setCalledFunction`, `WF.clone`).
-/

namespace Hippocrates

/-! ### Rewriting -/

/-- Every instruction is replaced by a list of instructions. -/
def Function.rewrite (F : Instr → List Instr) (f : Function) : Function :=
  ⟨f.blocks.map fun b => b.flatMap F⟩

namespace Module

/-- All instructions. -/
def insts (m : Module) : List Instr := m.funs.flatMap fun p => p.2.insts

def rewrite (F : Instr → List Instr) (m : Module) : Module :=
  { m with funs := m.funs.map fun p => (p.1, p.2.rewrite F) }

/-- The instruction of a name. -/
def findInst (m : Module) (i : InstId) : Option Instr := m.insts.find? fun j => j.id == i

/-- `getNextNode` of the instruction `i`. -/
def nextOf (m : Module) (i : InstId) : Option Instr :=
  (m.parent i).bind fun q => nextNode q.2 i

end Module

/-- The instructions `new` are put after the instruction of the name. -/
def insertedAfter (i : InstId) (new : List Instr) (j : Instr) : List Instr :=
  if j.id = i then j :: new else [j]

/-- The instructions `new` are inserted after `i`; their names are given out. -/
def Module.insertAfter (m : Module) (i : InstId) (new : List Instr) : Module :=
  { m.rewrite (insertedAfter i new) with next := m.next + new.length }

/-- `setCalledFunction`. -/
def Instr.setCalledFunction (i : Instr) (f : FnId) : Instr :=
  match i.op with
  | .call _ args => { i with op := .call (.function f) args }
  | _ => i

/-- The calls are redirected as `ρ` says. -/
def redirect (ρ : InstId → Option FnId) (i : Instr) : Instr :=
  match ρ i.id with
  | some f => i.setCalledFunction f
  | none => i

def Module.setCalledFunction (m : Module) (i : InstId) (f : FnId) : Module :=
  m.rewrite fun j => [redirect (fun k => if k = i then some f else none) j]

/-! ### Cloning -/

/-- The operand in the `k`-th clone. -/
def Value.copy (k : ℕ) : Value → Value
  | .inst id ty => .inst (id.copy k) ty
  | .alloca id ty => .alloca (id.copy k) ty
  | .arg fn n ty => .arg (fn.clone k) n ty
  | .function f => .function f
  | .constant name ty => .constant name ty

def Callee.copy (k : ℕ) : Callee → Callee
  | .function f => .function f -- also a call of the cloned function itself
  | .pointer v => .pointer (v.copy k)
  | .inlineAsm text => .inlineAsm text

def Opcode.copy (k : ℕ) : Opcode → Opcode
  | .store value pointer => .store (value.copy k) (pointer.copy k)
  | .cmpxchg pointer compare newVal => .cmpxchg (pointer.copy k) (compare.copy k) (newVal.copy k)
  | .atomicrmw operation pointer value => .atomicrmw operation (pointer.copy k) (value.copy k)
  | .call callee args => .call (callee.copy k) (args.map (Value.copy k))
  | .bitCast v ty => .bitCast (v.copy k) ty
  | .alloca => .alloca
  | .other name operands => .other name (operands.map (Value.copy k))

def Instr.copy (k : ℕ) (i : Instr) : Instr := ⟨i.id.copy k, i.op.copy k⟩

/-- `CloneFunction`: the clone of `f` is added to the module. -/
def Module.clone (m : Module) (f : FnId) : Option Module :=
  (m.lookup f).map fun body =>
    ⟨m.funs ++ [(f.clone m.next, body.rewrite fun i => [i.copy m.next])], m.next + 1⟩

/-! ### Names -/

/-- The name of an instruction is below `n` in all that the tool has given out. -/
def InstId.Below (n : ℕ) (i : InstId) : Prop :=
  (i.inserted = true → i.num < n) ∧ ∀ k ∈ i.copies, k < n

def FnId.Below (n : ℕ) (f : FnId) : Prop := ∀ k ∈ f.copies, k < n

/-- Every function and every instruction has one name, below `next`, and intrinsics have no
body. -/
structure Module.WF (m : Module) : Prop where
  names : (m.funs.map Prod.fst).Nodup
  ids : (m.insts.map Instr.id).Nodup
  namesBelow : ∀ p ∈ m.funs, p.1.Below m.next
  idsBelow : ∀ i ∈ m.insts, i.id.Below m.next
  intrinsics : ∀ p ∈ m.funs, p.1.getIntrinsicID ≠ .not_intrinsic → p.2.blocks = []

lemma InstId.Below.mono {n n' : ℕ} {i : InstId} (h : i.Below n) (hn : n ≤ n') : i.Below n' :=
  ⟨fun hi => (h.1 hi).trans_le hn, fun k hk => (h.2 k hk).trans_le hn⟩

lemma FnId.Below.mono {n n' : ℕ} {f : FnId} (h : f.Below n) (hn : n ≤ n') : f.Below n' :=
  fun k hk => (h k hk).trans_le hn

/-- The copy of an instruction is numbered by the copies and the clone. -/
lemma InstId.Below.copy {n : ℕ} {i : InstId} (h : i.Below n) : (i.copy n).Below (n + 1) := by
  refine ⟨fun hins => (h.1 hins).trans (Nat.lt_succ_self _), fun k hk => ?_⟩
  rcases List.mem_cons.mp hk with rfl | hk
  · exact Nat.lt_succ_self _
  · exact (h.2 k hk).trans (Nat.lt_succ_self _)

lemma FnId.Below.clone {n : ℕ} {f : FnId} (h : f.Below n) : (f.clone n).Below (n + 1) := by
  intro k hk
  rcases List.mem_cons.mp hk with rfl | hk
  · exact Nat.lt_succ_self _
  · exact (h k hk).trans (Nat.lt_succ_self _)

lemma InstId.copy_injective (k : ℕ) : Function.Injective (InstId.copy k) := by
  rintro ⟨a, b, c⟩ ⟨a', b', c'⟩ h
  simp only [InstId.copy, InstId.mk.injEq, List.cons.injEq, true_and] at h ⊢
  exact h

lemma InstId.not_below_copy {n k : ℕ} (hk : n ≤ k) (i : InstId) : ¬ (i.copy k).Below n :=
  fun h => absurd (h.2 k List.mem_cons_self) (not_lt.mpr hk)

lemma InstId.not_below_ins {n k : ℕ} (hk : n ≤ k) : ¬ (InstId.ins k).Below n :=
  fun h => absurd (h.1 rfl) (not_lt.mpr hk)

lemma FnId.not_below_clone {n k : ℕ} (hk : n ≤ k) (f : FnId) : ¬ (f.clone k).Below n :=
  fun h => absurd (h k List.mem_cons_self) (not_lt.mpr hk)

lemma FnId.clone_ne (f : FnId) (k : ℕ) : f.clone k ≠ f := by
  intro h
  have hlen := congrArg (fun f => f.copies.length) h
  simp [clone] at hlen

lemma FnId.clone_injective (f : FnId) : Function.Injective f.clone := by
  intro k l h
  simpa [clone] using h

/-! ### Rewritings and lookups -/

section Rewrite

variable {F : Instr → List Instr} {m : Module} {f : FnId}

lemma Function.insts_rewrite (f : Function) : (f.rewrite F).insts = f.insts.flatMap F := by
  rw [insts, rewrite, insts]
  induction f.blocks with
  | nil => rfl
  | cons b bs ih => simpa using ih

lemma Function.rewrite_rewrite (G : Instr → List Instr) (f : Function) :
    (f.rewrite F).rewrite G = f.rewrite fun j => (F j).flatMap G := by
  rw [rewrite, rewrite, rewrite, List.map_map]
  congr 1
  exact List.map_congr_left fun b _ => List.flatMap_assoc

lemma Module.rewrite_rewrite (G : Instr → List Instr) :
    (m.rewrite F).rewrite G = m.rewrite fun j => (F j).flatMap G := by
  rw [rewrite, rewrite, rewrite, List.map_map]
  congr 1
  exact List.map_congr_left fun p _ => by rw [Function.comp_apply, Function.rewrite_rewrite]

/-- A rewriting that keeps every instruction. -/
lemma Function.rewrite_eq_self {body : Function} (h : ∀ j ∈ body.insts, F j = [j]) :
    body.rewrite F = body := by
  have hblocks : ∀ b ∈ body.blocks, b.flatMap F = b := by
    intro b hb
    calc b.flatMap F = b.flatMap fun j => [j] :=
          List.flatMap_congr fun j hj => h j (List.mem_flatten.mpr ⟨b, hb, hj⟩)
      _ = b := List.flatMap_singleton' b
  rw [Function.rewrite, List.map_congr_left hblocks, List.map_id']

lemma Module.rewrite_eq_self (h : ∀ j ∈ m.insts, F j = [j]) : m.rewrite F = m := by
  have hfuns : m.funs.map (fun p => (p.1, p.2.rewrite F)) = m.funs.map id :=
    List.map_congr_left fun p hp => Prod.ext rfl (Function.rewrite_eq_self fun j hj =>
      h j (List.mem_flatMap.mpr ⟨p, hp, hj⟩))
  rw [rewrite, hfuns, List.map_id]

lemma Function.mem_insts_rewrite {body : Function} {j j' : Instr} (hj : j ∈ body.insts)
    (hF : j' ∈ F j) : j' ∈ (body.rewrite F).insts := by
  rw [insts_rewrite]
  exact List.mem_flatMap.mpr ⟨j, hj, hF⟩

@[simp] lemma Module.insts_rewrite : (m.rewrite F).insts = m.insts.flatMap F := by
  rw [insts, rewrite, insts]
  dsimp only
  induction m.funs with
  | nil => rfl
  | cons p ps ih =>
      rw [List.map_cons, List.flatMap_cons, List.flatMap_cons, List.flatMap_append, ih,
        Function.insts_rewrite]

@[simp] lemma Module.names_rewrite :
    (m.rewrite F).funs.map Prod.fst = m.funs.map Prod.fst := by
  simp [rewrite]

@[simp] lemma Module.lookup_rewrite :
    (m.rewrite F).lookup f = (m.lookup f).map (Function.rewrite F) := by
  rw [lookup, lookup, rewrite]
  dsimp only
  induction m.funs with
  | nil => rfl
  | cons p ps ih =>
      rw [List.map_cons, List.find?_cons, List.find?_cons]
      cases p.1 == f
      · exact ih
      · rfl

lemma Module.insts_of_funs {m' : Module} (h : m'.funs = (m.rewrite F).funs) :
    m'.insts = m.insts.flatMap F := by
  rw [← insts_rewrite, insts, h]
  rfl

lemma Module.lookup_of_funs {m' : Module} (h : m'.funs = (m.rewrite F).funs) :
    m'.lookup f = (m.lookup f).map (Function.rewrite F) := by
  rw [← lookup_rewrite, lookup, h]
  rfl

lemma Module.lookup_insertAfter {i : InstId} {new : List Instr} :
    (m.insertAfter i new).lookup f =
      (m.lookup f).map (Function.rewrite (insertedAfter i new)) := Module.lookup_rewrite

lemma Module.insts_insertAfter {i : InstId} {new : List Instr} :
    (m.insertAfter i new).insts = m.insts.flatMap (insertedAfter i new) := Module.insts_rewrite

lemma Module.WF.intrinsics_rewrite (h : m.WF) :
    ∀ p ∈ (m.rewrite F).funs, p.1.getIntrinsicID ≠ .not_intrinsic → p.2.blocks = [] := by
  intro p hp hid
  obtain ⟨q, hq, rfl⟩ := List.mem_map.mp hp
  have hnil := h.intrinsics q hq hid
  simp [Function.rewrite, hnil]

/-- A function of the module is found under its name. -/
lemma Module.WF.lookup_eq (h : m.WF) {body : Function} (hmem : (f, body) ∈ m.funs) :
    m.lookup f = some body := by
  have hnames := h.names
  rw [lookup]
  clear h
  generalize m.funs = ps at hnames hmem
  induction ps with
  | nil => exact absurd hmem List.not_mem_nil
  | cons p ps ih =>
      rw [List.map_cons, List.nodup_cons] at hnames
      rw [List.find?_cons]
      rcases List.mem_cons.mp hmem with rfl | hmem
      · simp
      · have hne : (p.1 == f) = false := by
          refine beq_eq_false_iff_ne.mpr fun heq => hnames.1 ?_
          exact heq ▸ List.mem_map_of_mem hmem
        rw [hne]
        exact ih hnames.2 hmem

lemma Module.mem_of_lookup {body : Function} (h : m.lookup f = some body) :
    (f, body) ∈ m.funs := by
  obtain ⟨⟨g, b⟩, hfind, rfl⟩ := Option.map_eq_some_iff.mp h
  have hg : g = f := by simpa using List.find?_some hfind
  exact hg ▸ List.mem_of_find?_eq_some hfind

lemma Module.mem_insts_of_lookup {body : Function} (h : m.lookup f = some body) {j : Instr}
    (hj : j ∈ body.insts) : j ∈ m.insts :=
  List.mem_flatMap.mpr ⟨(f, body), mem_of_lookup h, hj⟩

end Rewrite

/-! ### Instructions and their places -/

/-- The instructions of a location, over its ranges. -/
def InstOf (m : Module) (fixLocs : List FixLoc) (i : Instr) : Prop :=
  ∃ fLoc ∈ fixLocs, ∃ insts, fLoc.insts m = some insts ∧ i ∈ insts

section Places

variable {m : Module} {i : InstId} {j : Instr} {f : FnId} {b : Block}

lemma Module.parent_spec (h : m.parent i = some (f, b)) :
    ∃ body, (f, body) ∈ m.funs ∧ b ∈ body.blocks ∧ ∃ j ∈ b, j.id = i := by
  have hmem := List.mem_of_find?_eq_some h
  have hany := List.find?_some h
  obtain ⟨⟨g, body⟩, hp, hq⟩ := List.mem_flatMap.mp hmem
  obtain ⟨b', hb', heq⟩ := List.mem_map.mp hq
  simp only [Prod.mk.injEq] at heq
  obtain ⟨rfl, rfl⟩ := heq
  simpa using ⟨body, hp, hb', by simpa using hany⟩

lemma Module.mem_insts_of_block {body : Function} (hp : (f, body) ∈ m.funs)
    (hb : b ∈ body.blocks) (hj : j ∈ b) : j ∈ m.insts :=
  List.mem_flatMap.mpr ⟨_, hp, List.mem_flatten.mpr ⟨b, hb, hj⟩⟩

/-- The walk over a location stays in one block. -/
lemma FixLoc.mem_of_insts {fl : FixLoc} {insts : List Instr} (h : fl.insts m = some insts)
    (hj : j ∈ insts) : ∃ f b, m.parent fl.first = some (f, b) ∧ j ∈ b := by
  rw [FixLoc.insts] at h
  split at h
  · obtain rfl := Option.some.inj h
    exact absurd hj List.not_mem_nil
  · split at h
    · obtain rfl := Option.some.inj h
      exact absurd hj List.not_mem_nil
    · rename_i f b hpar
      refine ⟨f, b, hpar, ?_⟩
      split at h
      · obtain rfl := Option.some.inj h
        exact absurd hj List.not_mem_nil
      · rename_i first rest hdrop
        -- the walk is cut out of its block
        have hwalk : ∀ k ∈ first :: rest.filter fun k => !k.isDebug, k ∈ b := by
          intro k hk
          refine (List.dropWhile_sublist (l := b) fun j => decide (j.id ≠ fl.first)).subset ?_
          rw [hdrop]
          rcases List.mem_cons.mp hk with rfl | hk
          · exact List.mem_cons_self
          · exact List.mem_cons_of_mem _ (List.mem_filter.mp hk).1
        dsimp only at h
        split at h
        · obtain rfl := Option.some.inj h
          exact hwalk j hj
        · split at h
          · obtain rfl := Option.some.inj h
            exact hwalk j (List.takeWhile_subset _ hj)
          · cases h

lemma FixLoc.mem_insts {fl : FixLoc} {insts : List Instr} (h : fl.insts m = some insts)
    (hj : j ∈ insts) : j ∈ m.insts := by
  obtain ⟨f, b, hpar, hjb⟩ := mem_of_insts h hj
  obtain ⟨body, hp, hb, -⟩ := Module.parent_spec hpar
  exact Module.mem_insts_of_block hp hb hjb

/-- A list that makes up a list without repetitions is determined by any of its elements. -/
lemma eq_of_nodup_flatMap {α β : Type*} {g : α → List β} {l : List α} (h : (l.flatMap g).Nodup)
    {q q' : α} (hq : q ∈ l) (hq' : q' ∈ l) {a : β} (ha : a ∈ g q) (ha' : a ∈ g q') : q = q' := by
  induction l with
  | nil => exact absurd hq List.not_mem_nil
  | cons p l ih =>
      rw [List.flatMap_cons, List.nodup_append] at h
      have hrest : ∀ r ∈ l, a ∈ g r → a ∉ g p := fun r hr har hap =>
        h.2.2 a hap a (List.mem_flatMap.mpr ⟨r, hr, har⟩) rfl
      rcases List.mem_cons.mp hq with rfl | hql
      · rcases List.mem_cons.mp hq' with rfl | hql'
        · rfl
        · exact absurd ha (hrest q' hql' ha')
      · rcases List.mem_cons.mp hq' with rfl | hql'
        · exact absurd ha' (hrest q hql ha)
        · exact ih h.2.1 hql hql'

/-- An instruction is found in its block. -/
lemma Module.WF.parent_eq (h : m.WF) {body : Function} (hp : (f, body) ∈ m.funs)
    (hb : b ∈ body.blocks) (hj : j ∈ b) : m.parent j.id = some (f, b) := by
  have hids : (m.funs.flatMap fun p => p.2.blocks.map fun b => (p.1, b)).flatMap
      (fun q => q.2.map Instr.id) = m.insts.map Instr.id := by
    simp only [Module.insts, Function.insts, List.flatMap_assoc, List.map_flatMap,
      List.flatMap_map, List.map_flatten, ← List.flatMap_def]
  have hmem : (f, b) ∈ m.funs.flatMap fun p => p.2.blocks.map fun b => (p.1, b) :=
    List.mem_flatMap.mpr ⟨_, hp, List.mem_map_of_mem hb⟩
  have hnodup := h.ids
  rw [← hids] at hnodup
  cases hfind : m.parent j.id with
  | none =>
      have hnone := List.find?_eq_none.mp hfind _ hmem
      exact absurd (List.any_eq_true.mpr ⟨j, hj, by simp⟩) hnone
  | some q =>
      have hq := List.mem_of_find?_eq_some hfind
      have hany : (q.2.any fun k => k.id == j.id) = true := by
        simpa using List.find?_some hfind
      obtain ⟨k, hk, hkj⟩ := List.any_eq_true.mp hany
      have hid : k.id = j.id := beq_iff_eq.mp hkj
      congr 1
      exact eq_of_nodup_flatMap hnodup hq hmem (hid ▸ List.mem_map_of_mem hk)
        (List.mem_map_of_mem hj)

/-- No instruction of the module has a name that is still to be given out. -/
lemma Module.WF.ne_ins (h : m.WF) (hj : j ∈ m.insts) {k : ℕ} (hk : m.next ≤ k) :
    j.id ≠ InstId.ins k :=
  fun heq => InstId.not_below_ins hk (heq ▸ h.idsBelow j hj)

lemma Module.findInst_spec (h : m.findInst i = some j) : j ∈ m.insts ∧ j.id = i :=
  ⟨List.mem_of_find?_eq_some h, by simpa using List.find?_some h⟩

/-- Two instructions of the module with one name are the same. -/
lemma Module.WF.eq_of_id (h : m.WF) {k : Instr} (hj : j ∈ m.insts) (hk : k ∈ m.insts)
    (hid : j.id = k.id) : j = k := List.inj_on_of_nodup_map h.ids hj hk hid

lemma Module.WF.findInst_eq (h : m.WF) (hj : j ∈ m.insts) : m.findInst j.id = some j := by
  cases hfind : m.findInst j.id with
  | none =>
      have hnone := List.find?_eq_none.mp hfind j hj
      simp at hnone
  | some k =>
      obtain ⟨hk, hid⟩ := findInst_spec hfind
      rw [h.eq_of_id hk hj hid]

end Places

/-! ### The operations keep the names apart -/

section WF

variable {m : Module} {i : InstId} {f : FnId}

lemma redirect_id (ρ : InstId → Option FnId) (j : Instr) : (redirect ρ j).id = j.id := by
  rw [redirect]
  split
  · rw [Instr.setCalledFunction]
    split <;> rfl
  · rfl

lemma map_id_flatMap_singleton {g : Instr → Instr} (hg : ∀ j, (g j).id = j.id)
    (l : List Instr) : (l.flatMap fun j => [g j]).map Instr.id = l.map Instr.id := by
  induction l with
  | nil => rfl
  | cons j l ih => simp [hg, ih]

lemma Module.WF.redirect (h : m.WF) (ρ : InstId → Option FnId) :
    (m.rewrite fun j => [redirect ρ j]).WF := by
  have hids := map_id_flatMap_singleton (redirect_id ρ) m.insts
  refine ⟨?_, ?_, ?_, ?_, h.intrinsics_rewrite⟩
  · rw [names_rewrite]
    exact h.names
  · rw [insts_rewrite, hids]
    exact h.ids
  · intro p hp
    obtain ⟨q, hq, rfl⟩ := List.mem_map.mp hp
    exact h.namesBelow q hq
  · intro j hj
    have hmem : j.id ∈ m.insts.map Instr.id := by
      rw [← hids, ← insts_rewrite]
      exact List.mem_map_of_mem hj
    obtain ⟨k, hk, hkj⟩ := List.mem_map.mp hmem
    exact hkj ▸ h.idsBelow k hk

lemma Module.WF.setCalledFunction (h : m.WF) (i : InstId) (f : FnId) :
    (m.setCalledFunction i f).WF := h.redirect _

/-- Where the name does not occur nothing is inserted. -/
lemma flatMap_insertedAfter_of_notMem {new l : List Instr} (h : i ∉ l.map Instr.id) :
    l.flatMap (insertedAfter i new) = l := by
  induction l with
  | nil => rfl
  | cons j l ih =>
      rw [List.map_cons, List.mem_cons, not_or] at h
      rw [List.flatMap_cons, ih h.2, insertedAfter, if_neg (Ne.symm h.1)]
      rfl

lemma mem_insertedAfter_self (i : InstId) (new : List Instr) (j : Instr) :
    j ∈ insertedAfter i new j := by
  rw [insertedAfter]
  split_ifs <;> exact List.mem_cons_self

lemma mem_flatMap_insertedAfter {new l : List Instr} {j : Instr}
    (h : j ∈ l.flatMap (insertedAfter i new)) : j ∈ l ∨ j ∈ new := by
  obtain ⟨k, hk, hj⟩ := List.mem_flatMap.mp h
  rw [insertedAfter] at hj
  split_ifs at hj
  · rcases List.mem_cons.mp hj with rfl | hj
    · exact .inl hk
    · exact .inr hj
  · exact .inl (List.mem_singleton.mp hj ▸ hk)

lemma nodup_flatMap_insertedAfter {new l : List Instr} (hl : (l.map Instr.id).Nodup)
    (hnew : (new.map Instr.id).Nodup) (hdisj : ∀ j ∈ new, j.id ∉ l.map Instr.id) :
    ((l.flatMap (insertedAfter i new)).map Instr.id).Nodup := by
  induction l with
  | nil => exact List.nodup_nil
  | cons j l ih =>
      rw [List.map_cons, List.nodup_cons] at hl
      have hdisj' : ∀ k ∈ new, k.id ∉ l.map Instr.id := fun k hk hkl =>
        hdisj k hk (List.mem_cons_of_mem _ hkl)
      rw [List.flatMap_cons, insertedAfter]
      split_ifs with hji
      · rw [flatMap_insertedAfter_of_notMem (hji ▸ hl.1), List.cons_append, List.map_cons,
          List.map_append, List.nodup_cons, List.mem_append, not_or, List.nodup_append]
        refine ⟨⟨fun hj => ?_, hl.1⟩, hnew, hl.2, fun a ha b hb hab => ?_⟩
        · obtain ⟨k, hk, hkj⟩ := List.mem_map.mp hj
          exact hdisj k hk (hkj ▸ List.mem_cons_self)
        · obtain ⟨k, hk, rfl⟩ := List.mem_map.mp ha
          exact hdisj' k hk (hab ▸ hb)
      · rw [List.singleton_append, List.map_cons, List.nodup_cons]
        refine ⟨fun hj => ?_, ih hl.2 hdisj'⟩
        obtain ⟨k, hk, hkj⟩ := List.mem_map.mp hj
        rcases mem_flatMap_insertedAfter hk with hk | hk
        · exact hl.1 (hkj ▸ List.mem_map_of_mem hk)
        · exact hdisj k hk (hkj ▸ List.mem_cons_self)

/-- The names of `new` are the next ones to be given out. -/
def FreshNames (m : Module) (new : List Instr) : Prop :=
  new.map Instr.id = (List.range' m.next new.length).map InstId.ins

lemma Module.WF.insertAfter (h : m.WF) {new : List Instr} (hnew : FreshNames m new) :
    (m.insertAfter i new).WF := by
  have hins : ∀ j ∈ new, ∃ k, m.next ≤ k ∧ k < m.next + new.length ∧ j.id = InstId.ins k := by
    intro j hj
    have hmem : j.id ∈ new.map Instr.id := List.mem_map_of_mem hj
    rw [hnew] at hmem
    obtain ⟨k, hk, hkj⟩ := List.mem_map.mp hmem
    rw [List.mem_range'_1] at hk
    exact ⟨k, hk.1, hk.2, hkj.symm⟩
  have hnodup : (new.map Instr.id).Nodup := by
    rw [hnew]
    refine List.Nodup.map (fun a b hab => ?_) (List.nodup_range' 1)
    simpa [InstId.ins] using hab
  -- the names in the module are below the counter
  have hdisj : ∀ j ∈ new, j.id ∉ m.insts.map Instr.id := by
    intro j hj hmem
    obtain ⟨k, hk, -, hjk⟩ := hins j hj
    obtain ⟨j', hj', hid⟩ := List.mem_map.mp hmem
    exact h.ne_ins hj' hk (hid.trans hjk)
  refine ⟨?_, ?_, ?_, ?_, h.intrinsics_rewrite⟩
  · have hnames : (m.insertAfter i new).funs.map Prod.fst = m.funs.map Prod.fst := names_rewrite
    rw [hnames]
    exact h.names
  · rw [insts_insertAfter]
    exact nodup_flatMap_insertedAfter h.ids hnodup hdisj
  · intro p hp
    obtain ⟨q, hq, rfl⟩ := List.mem_map.mp hp
    exact (h.namesBelow q hq).mono (Nat.le_add_right _ _)
  · intro j hj
    rw [insts_insertAfter] at hj
    rcases mem_flatMap_insertedAfter hj with hj | hj
    · exact (h.idsBelow j hj).mono (Nat.le_add_right _ _)
    · obtain ⟨k, -, hk, hjk⟩ := hins j hj
      rw [hjk]
      exact ⟨fun _ => hk, by simp [InstId.ins]⟩

lemma Module.WF.clone (h : m.WF) {m' : Module} (hm : m.clone f = some m') : m'.WF := by
  obtain ⟨body, hbody, rfl⟩ := Option.map_eq_some_iff.mp hm
  have hmem := mem_of_lookup hbody
  -- the module has the copies as well, under the number of the clone
  have hinsts : Module.insts ⟨m.funs ++ [(f.clone m.next, body.rewrite fun i => [i.copy m.next])],
      m.next + 1⟩ = m.insts ++ body.insts.map (Instr.copy m.next) := by
    simp only [Module.insts, List.flatMap_append, List.flatMap_cons, List.flatMap_nil,
      List.append_nil, Function.insts_rewrite, ← List.map_eq_flatMap]
  have hsub : ∀ i ∈ body.insts, i ∈ m.insts := fun i hi => List.mem_flatMap.mpr ⟨_, hmem, hi⟩
  have hids : (body.insts.map (Instr.copy m.next)).map Instr.id =
      (body.insts.map Instr.id).map (InstId.copy m.next) := by
    simp [List.map_map, Function.comp_def, Instr.copy]
  have hbody : (body.insts.map Instr.id).Nodup := by
    refine h.ids.sublist (List.Sublist.map _ ?_)
    simpa [Module.insts] using (List.singleton_sublist.mpr hmem).flatMap fun p => p.2.insts
  refine ⟨?_, ?_, ?_, ?_, ?_⟩
  · rw [List.map_append, List.map_singleton, List.nodup_append]
    refine ⟨h.names, List.nodup_singleton _, fun a ha b hb hab => ?_⟩
    obtain ⟨p, hp, rfl⟩ := List.mem_map.mp ha
    obtain rfl := List.mem_singleton.mp hb
    have hbelow := h.namesBelow p hp
    rw [hab] at hbelow
    exact FnId.not_below_clone le_rfl f hbelow
  · rw [hinsts, List.map_append, hids, List.nodup_append]
    refine ⟨h.ids, hbody.map (InstId.copy_injective _), fun a ha b hb hab => ?_⟩
    obtain ⟨i, hi, rfl⟩ := List.mem_map.mp ha
    obtain ⟨j, -, rfl⟩ := List.mem_map.mp hb
    have hbelow := h.idsBelow i hi
    rw [hab] at hbelow
    exact InstId.not_below_copy le_rfl j hbelow
  · intro p hp
    rcases List.mem_append.mp hp with hp | hp
    · exact (h.namesBelow p hp).mono (Nat.le_succ _)
    · obtain rfl := List.mem_singleton.mp hp
      exact (h.namesBelow _ hmem).clone
  · intro i hi
    rw [hinsts, List.mem_append] at hi
    rcases hi with hi | hi
    · exact (h.idsBelow i hi).mono (Nat.le_succ _)
    · obtain ⟨j, hj, rfl⟩ := List.mem_map.mp hi
      exact (h.idsBelow j (hsub j hj)).copy
  · intro p hp hid
    rcases List.mem_append.mp hp with hp | hp
    · exact h.intrinsics p hp hid
    · obtain rfl := List.mem_singleton.mp hp
      have hnil : body.blocks = [] := h.intrinsics _ hmem hid
      simp [Function.rewrite, hnil]

end WF

end Hippocrates

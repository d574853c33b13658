import Mathlib.Tactic
import Hippocrates.IR.FixGenerator

/-!
`BugFixer::patchMemoryPrimitives` and `FixGenerator::modifyCall`: calls of memory primitives are
replaced by calls of the persistent routines.

* `selected`: the calls that are replaced. They are told by the intrinsic, or else by the name of
  the function, which has to contain the name of a primitive, and by the second argument.
* `modifyCall`, `replaceCall`: the new call with its casts, which takes the place of the old one.
* `patchMemoryPrimitives`: the pass. `patchMemoryPrimitives_spec` says that it rewrites the
  selected calls and nothing else.

`patchedExactly_iff`: exactly the calls of memory primitives are replaced when no call of a
primitive of the library is overlooked for its arguments (`Overlooked`), and no call of another
function is taken for its name (`Lookalike`).
-/

namespace Hippocrates

/-! ### The calls that are replaced -/

/-- The primitives, in the order in which their names are tried. -/
inductive MemPrimitive where
  | memcpy
  | memset
  | memmove
  | strncpy
deriving DecidableEq

namespace MemPrimitive

def all : List MemPrimitive := [memcpy, memset, memmove, strncpy]

def name : MemPrimitive → String
  | memcpy => "memcpy"
  | memset => "memset"
  | memmove => "memmove"
  | strncpy => "strncpy"

/-- The primitive an intrinsic is. -/
def ofIntrinsic : IntrinsicID → Option MemPrimitive
  | .memcpy => some memcpy
  | .memset => some memset
  | .memmove => some memmove
  | _ => none

/-- The types of the parameters of the persistent routines. -/
def paramTypes : MemPrimitive → List Ty
  | memset => [.i8Ptr, .other "i8", .other "i64", .other "i1"]
  | memcpy | memmove => [.i8Ptr, .i8Ptr, .other "i64", .other "i1"]
  | strncpy => [.i8Ptr, .i8Ptr, .other "i64"]

/-- The persistent routine, the naive one if `dumb`. -/
def routine (dumb : Bool) (p : MemPrimitive) : FnId :=
  FnId.named ("PMFIXER_" ++ if dumb then p.name ++ "_naive" else p.name)

end MemPrimitive

/-- The name of an intrinsic; the suffixes for its types are left out. -/
def IntrinsicID.name : IntrinsicID → String
  | not_intrinsic => ""
  | memcpy => "llvm.memcpy"
  | memset => "llvm.memset"
  | memmove => "llvm.memmove"
  | x86_clwb => "llvm.x86.clwb"
  | x86_sse_sfence => "llvm.x86.sse.sfence"
  | dbg_declare => "llvm.dbg.declare"
  | dbg_value => "llvm.dbg.value"
  | dbg_label => "llvm.dbg.label"
  | other name => name

/-- The name of a function, intrinsics included. -/
def FnId.fullName (f : FnId) : String :=
  match f.root with
  | .named _ => f.getName
  | .intrinsic id => id.name

/-- `fname.find(sub) != std::string::npos`. -/
def hasSubstring (fname sub : String) : Bool := decide (sub.toList <:+: fname.toList)

/-- Functions that are known to flush by themselves. -/
def isExcluded (fname : String) : Bool :=
  hasSubstring fname "movnt" || hasSubstring fname "clflush" || hasSubstring fname "clwb" ||
    hasSubstring fname "use_" || hasSubstring fname "pmemops_"

/-- Three arguments, the second of which is neither a vector nor a pointer. -/
def fitsMemset (args : List Value) : Bool :=
  match args with
  | _ :: v :: _ :: _ => !v.getType.isVectorTy && !v.isPointer
  | _ => false

/-- The primitives the name contains. -/
def namedPrimitives (fname : String) : List MemPrimitive :=
  MemPrimitive.all.filter fun p => hasSubstring fname p.name

/-- The primitive a call is taken for; of several names the last counts. -/
def selected (i : Instr) : Option MemPrimitive :=
  match i.op with
  | .call (.function f) args =>
    match MemPrimitive.ofIntrinsic f.getIntrinsicID with
    | some p => some p
    | none =>
      if isExcluded f.fullName then none
      else if !fitsMemset args then none
      else (namedPrimitives f.fullName).getLast?
  | _ => none

/-- The routine that replaces a primitive. Both versions have to be there if `dumb`. -/
def replacement (m : Module) (dumb : Bool) (p : MemPrimitive) : Option FnId :=
  match getPersistentVersion m p.name with
  | none => none
  | some f => if dumb then getPersistentVersion m (p.name ++ "_naive") else some f

/-- An entry of `replace_map`. -/
structure Replacement where
  call : Instr
  primitive : MemPrimitive
  newFn : FnId

/-- The entry for an instruction; an entry for a later name overwrites that for an earlier. -/
def replaceEntry (m : Module) (dumb : Bool) (i : Instr) : Option (Option Replacement) :=
  let entry := fun p => (replacement m dumb p).map fun fn => some ⟨i, p, fn⟩
  match i.op with
  | .call (.function f) args =>
    match MemPrimitive.ofIntrinsic f.getIntrinsicID with
    | some p => entry p
    | none =>
      if isExcluded f.fullName then some none
      else if !fitsMemset args then some none
      else (namedPrimitives f.fullName).foldlM (fun _ p => entry p) none
  | _ => some none

/-- `replace_map`. The entries are for different calls, so their order does not matter. -/
def replaceMap (m : Module) (dumb : Bool) : List Instr → Option (List Replacement)
  | [] => some []
  | i :: insts =>
    match replaceEntry m dumb i with
    | none => none
    | some entry => (replaceMap m dumb insts).map fun entries => entry.toList ++ entries

/-! ### The new calls -/

/-- The text of an integer type is an `i` with the number of bits. -/
def Ty.isIntegerTy : Ty → Bool
  | i8Ptr => false
  | other name =>
    name.toList.head? == some 'i' && !(name.toList.drop 1).isEmpty &&
      (name.toList.drop 1).all Char.isDigit

/-- The text of a type. -/
def Ty.text : Ty → String
  | i8Ptr => "i8*"
  | other name => name

/-- The conversion of a constant is a constant. -/
def Value.foldedCast (ty : Ty) : Value → Option Value
  | .function f => some (.constant ("cast of @" ++ f.fullName) ty)
  | .constant name ty' => some (.constant ("cast of " ++ ty'.text ++ " " ++ name) ty)
  | _ => none

/-- The operand for a parameter, the next name given out being `n`: the instructions that convert
it, and the new operand. `CreateBitOrPointerCast` and `CreateIntCast` are written as bit casts,
whose types tell them apart. A value that cannot be converted fails an assertion. -/
def castOperand (n : ℕ) (op : Value) (ty : Ty) : Option (List Instr × Value) :=
  if op.getType = ty then some ([], op)
  else if !(op.getType.isIntegerTy || ty.isPointerTy && op.isPointer) then none
  else
    match op.foldedCast ty with
    | some c => some ([], c)
    | none => some ([⟨InstId.ins n, .bitCast op ty⟩], .inst (InstId.ins n) ty)

/-- The operands of the new call; those the old call lacks are null. -/
def castOperands : ℕ → List Value → List Ty → Option (List Instr × List Value)
  | _, _, [] => some ([], [])
  | n, [], ty :: tys => (castOperands n [] tys).map fun r => (r.1, .constant "null" ty :: r.2)
  | n, op :: ops, ty :: tys =>
    match castOperand n op ty with
    | none => none
    | some (casts, v) =>
      (castOperands (n + casts.length) ops tys).map fun r => (casts ++ r.1, v :: r.2)

/-- `modifyCall`: the casts and the new call. -/
def modifyCall (n : ℕ) (cb : Instr) (newFn : FnId) (params : List Ty) : Option (List Instr) :=
  match cb.op with
  | .call _ args => (castOperands n args params).map fun r =>
      r.1 ++ [⟨InstId.ins (n + r.1.length), .call (.function newFn) r.2⟩]
  | _ => none

/-- The instructions `new` take the place of the instruction of the name. -/
def replacedBy (i : InstId) (new : List Instr) (j : Instr) : List Instr :=
  if j.id = i then new else [j]

/-- The new call is put after the old one, which is erased. -/
def replaceCall (m : Module) (r : Replacement) : Option Module :=
  match m.nextOf r.call.id with
  | none => none
  | some _ => (modifyCall m.next r.call r.newFn r.primitive.paramTypes).map fun new =>
      { m.rewrite (replacedBy r.call.id new) with next := m.next + new.length }

/-- `patchMemoryPrimitives`. -/
def patchMemoryPrimitives (m : Module) (dumb : Bool) : Option (Module × Bool) :=
  match replaceMap m dumb m.insts with
  | none => none
  | some entries => (entries.foldlM replaceCall m).map fun m' => (m', !entries.isEmpty)

/-! ### What is replaced -/

section ReplaceMap

variable {m : Module} {dumb : Bool} {i : Instr}

lemma getPersistentVersion_eq {name : String} {f : FnId}
    (h : getPersistentVersion m name = some f) : f = FnId.named ("PMFIXER_" ++ name) := by
  rw [getPersistentVersion, getPersistentIntrinsic] at h
  split_ifs at h
  exact (Option.some.inj h).symm

lemma replacement_eq {p : MemPrimitive} {f : FnId} (h : replacement m dumb p = some f) :
    f = p.routine dumb := by
  rw [replacement] at h
  split at h
  · cases h
  · rename_i f' hf'
    rw [MemPrimitive.routine]
    split_ifs at h ⊢ with hdumb
    · exact getPersistentVersion_eq h
    · obtain rfl := Option.some.inj h
      exact getPersistentVersion_eq hf'

/-- The last of the entries stays. -/
lemma foldlM_entry {l : List MemPrimitive} {start r : Option Replacement}
    (h : l.foldlM (fun _ p => (replacement m dumb p).map fun fn =>
      some (⟨i, p, fn⟩ : Replacement)) start = some r) :
    (l = [] ∧ r = start) ∨
      ∃ p, l.getLast? = some p ∧ r = some ⟨i, p, p.routine dumb⟩ := by
  induction l generalizing start with
  | nil => exact .inl ⟨rfl, (Option.some.inj h).symm⟩
  | cons p l ih =>
      rw [List.foldlM_cons] at h
      cases hrep : replacement m dumb p with
      | none => simp [hrep] at h
      | some fn =>
          simp only [hrep, Option.map_some, Option.bind_eq_bind, Option.bind_some] at h
          rcases ih h with ⟨rfl, rfl⟩ | ⟨q, hq, rfl⟩
          · exact .inr ⟨p, rfl, by rw [replacement_eq hrep]⟩
          · refine .inr ⟨q, ?_, rfl⟩
            rw [List.getLast?_cons, hq]
            rfl

/-- The entry of an instruction is that of the primitive it is taken for. -/
lemma replaceEntry_eq {r : Option Replacement} (h : replaceEntry m dumb i = some r) :
    r = (selected i).map fun p => ⟨i, p, p.routine dumb⟩ := by
  rw [replaceEntry] at h
  rw [selected]
  split at h
  · rename_i f args hop
    cases hid : MemPrimitive.ofIntrinsic f.getIntrinsicID with
    | some p =>
        simp only [hid] at h
        obtain ⟨fn, hfn, rfl⟩ := Option.map_eq_some_iff.mp h
        rw [replacement_eq hfn]
        rfl
    | none =>
        simp only [hid] at h ⊢
        split_ifs at h ⊢
        · exact (Option.some.inj h).symm
        · exact (Option.some.inj h).symm
        · rcases foldlM_entry h with ⟨hnil, rfl⟩ | ⟨p, hp, rfl⟩
          · rw [hnil]
            rfl
          · rw [hp]
            rfl
  · exact (Option.some.inj h).symm

lemma replaceMap_eq {insts : List Instr} {entries : List Replacement}
    (h : replaceMap m dumb insts = some entries) :
    entries = insts.filterMap fun i => (selected i).map fun p => ⟨i, p, p.routine dumb⟩ := by
  induction insts generalizing entries with
  | nil => exact (Option.some.inj h).symm
  | cons i insts ih =>
      rw [replaceMap] at h
      cases hentry : replaceEntry m dumb i with
      | none => simp [hentry] at h
      | some r =>
          rw [hentry] at h
          obtain ⟨rest, hrest, rfl⟩ := Option.map_eq_some_iff.mp h
          rw [ih hrest, List.filterMap_cons, ← replaceEntry_eq hentry]
          cases r <;> rfl

end ReplaceMap

/-! ### What takes the place of a call -/

section ModifyCall

variable {n : ℕ}

/-- The instructions have the names that are given out from `n` on. -/
def NamedFrom (n : ℕ) (new : List Instr) : Prop :=
  new.map Instr.id = (List.range' n new.length).map InstId.ins

lemma NamedFrom.append {l l' : List Instr} (h : NamedFrom n l)
    (h' : NamedFrom (n + l.length) l') : NamedFrom n (l ++ l') := by
  rw [NamedFrom, List.map_append, h, h', ← List.map_append, List.length_append,
    List.range'_append_1]

lemma NamedFrom.le {l : List Instr} (h : NamedFrom n l) {j : Instr} (hj : j ∈ l) :
    ∃ k, n ≤ k ∧ j.id = InstId.ins k := by
  have hmem : j.id ∈ l.map Instr.id := List.mem_map_of_mem hj
  rw [h] at hmem
  obtain ⟨k, hk, hid⟩ := List.mem_map.mp hmem
  exact ⟨k, (List.mem_range'_1.mp hk).1, hid.symm⟩

/-- A conversion is at most one new instruction, which is no call. -/
lemma castOperand_spec {op : Value} {ty : Ty} {casts : List Instr} {v : Value}
    (h : castOperand n op ty = some (casts, v)) :
    NamedFrom n casts ∧ ∀ j ∈ casts, j.isCallBase = false := by
  have hnil : NamedFrom n [] ∧ ∀ j ∈ ([] : List Instr), j.isCallBase = false :=
    ⟨rfl, fun _ hj => absurd hj List.not_mem_nil⟩
  rw [castOperand] at h
  split_ifs at h
  · simp only [Option.some.injEq, Prod.mk.injEq] at h
    exact h.1 ▸ hnil
  · split at h
    · simp only [Option.some.injEq, Prod.mk.injEq] at h
      exact h.1 ▸ hnil
    · simp only [Option.some.injEq, Prod.mk.injEq] at h
      obtain ⟨rfl, -⟩ := h
      refine ⟨rfl, fun j hj => ?_⟩
      obtain rfl := List.mem_singleton.mp hj
      rfl

lemma castOperands_spec {ops : List Value} {tys : List Ty} {r : List Instr × List Value}
    (h : castOperands n ops tys = some r) :
    NamedFrom n r.1 ∧ ∀ j ∈ r.1, j.isCallBase = false := by
  induction tys generalizing n ops r with
  | nil =>
      rw [castOperands] at h
      obtain rfl := Option.some.inj h
      exact ⟨rfl, fun _ hj => absurd hj List.not_mem_nil⟩
  | cons ty tys ih =>
      cases ops with
      | nil =>
          rw [castOperands] at h
          obtain ⟨r', hr', rfl⟩ := Option.map_eq_some_iff.mp h
          have hrest := ih hr'
          exact hrest
      | cons op ops =>
          rw [castOperands] at h
          split at h
          · cases h
          · rename_i casts v hcast
            obtain ⟨r', hr', rfl⟩ := Option.map_eq_some_iff.mp h
            obtain ⟨hname, hcall⟩ := castOperand_spec hcast
            have hrest := ih hr'
            -- the names of the casts come one after the other
            refine ⟨hname.append hrest.1, fun j hj => ?_⟩
            rcases List.mem_append.mp hj with hj | hj
            · exact hcall j hj
            · exact hrest.2 j hj

/-- The instructions call the function, after others that call nothing. -/
def OnlyCalls (f : FnId) (new : List Instr) : Prop :=
  ∃ casts c, new = casts ++ [c] ∧ c.getCalledFunction = some f ∧ ∀ j ∈ casts, j.isCallBase = false

lemma modifyCall_spec {cb : Instr} {newFn : FnId} {params : List Ty} {new : List Instr}
    (h : modifyCall n cb newFn params = some new) :
    NamedFrom n new ∧ OnlyCalls newFn new := by
  rw [modifyCall] at h
  split at h
  · obtain ⟨r, hr, rfl⟩ := Option.map_eq_some_iff.mp h
    obtain ⟨hname, hcall⟩ := castOperands_spec hr
    exact ⟨hname.append rfl, _, _, rfl, rfl, hcall⟩
  · cases h

end ModifyCall

/-! ### The pass -/

section Pass

variable {m : Module} {dumb : Bool}

/-- The instructions that take the place of one: those of `modifyCall` for a call of a primitive,
with names that `m` has not given out. -/
def RewritesAs (m : Module) (dumb : Bool) (i : Instr) (new : List Instr) : Prop :=
  match selected i with
  | none => new = [i]
  | some p => ∃ n, m.next ≤ n ∧ modifyCall n i (p.routine dumb) p.paramTypes = some new

/-- The module `m₁` is `m` with the calls replaced but for those in `todo`. -/
structure Replacing (m : Module) (dumb : Bool) (todo : List Instr) (F : Instr → List Instr)
    (m₁ : Module) : Prop where
  funs : m₁.funs = (m.rewrite F).funs
  next : m.next ≤ m₁.next
  left : ∀ i ∈ todo, F i = [i]
  done : ∀ i ∈ m.insts, i ∉ todo → RewritesAs m dumb i (F i)

lemma RewritesAs.self {i : Instr} {new : List Instr} (h : RewritesAs m dumb i new)
    (hsel : selected i = none) : new = [i] := by
  rw [RewritesAs, hsel] at h
  exact h

lemma RewritesAs.modifyCall {i : Instr} {new : List Instr} {p : MemPrimitive}
    (h : RewritesAs m dumb i new) (hsel : selected i = some p) :
    ∃ n, m.next ≤ n ∧ Hippocrates.modifyCall n i (p.routine dumb) p.paramTypes = some new := by
  rw [RewritesAs, hsel] at h
  exact h

/-- The instructions that replace a call have new names. -/
lemma RewritesAs.fresh {i : Instr} {new : List Instr} {p : MemPrimitive} (hwf : m.WF)
    (h : RewritesAs m dumb i new) (hsel : selected i = some p) :
    OnlyCalls (p.routine dumb) new ∧ ∀ j ∈ new, j.id ∉ m.insts.map Instr.id := by
  obtain ⟨n, hn, hmod⟩ := h.modifyCall hsel
  obtain ⟨hname, hcalls⟩ := modifyCall_spec hmod
  refine ⟨hcalls, fun j hj hmem => ?_⟩
  obtain ⟨k, hk, hid⟩ := hname.le hj
  obtain ⟨i', hi', hid'⟩ := List.mem_map.mp hmem
  exact hwf.ne_ins hi' (hn.trans hk) (hid'.trans hid)

/-- An instruction is kept, or all that replaces it has new names. -/
lemma RewritesAs.kept_or_fresh {i : Instr} {new : List Instr} (hwf : m.WF)
    (h : RewritesAs m dumb i new) : new = [i] ∨ ∀ j ∈ new, j.id ∉ m.insts.map Instr.id := by
  cases hsel : selected i with
  | none => exact .inl (h.self hsel)
  | some p => exact .inr (h.fresh hwf hsel).2

/-- One more call is replaced. -/
lemma Replacing.replaceCall (hwf : m.WF) {i : Instr} {todo : List Instr} {F : Instr → List Instr}
    {m₁ m₂ : Module} {p : MemPrimitive} (hi : i ∈ m.insts) (hnot : i ∉ todo)
    (htodo : ∀ j ∈ todo, j ∈ m.insts) (h : Replacing m dumb (i :: todo) F m₁)
    (hsel : selected i = some p)
    (hstep : replaceCall m₁ ⟨i, p, p.routine dumb⟩ = some m₂) :
    ∃ F', Replacing m dumb todo F' m₂ := by
  have hself : F i = [i] := h.left i List.mem_cons_self
  rw [Hippocrates.replaceCall] at hstep
  cases hnext : m₁.nextOf i.id with
  | none => simp [hnext] at hstep
  | some _ =>
      simp only [hnext, Option.map_eq_some_iff] at hstep
      obtain ⟨new, hnew, rfl⟩ := hstep
      -- what replaces the call has new names, so nothing else is replaced
      have hother : ∀ j ∈ m.insts, j ≠ i → (F j).flatMap (replacedBy i.id new) = F j := by
        intro j hj hne
        have hsame : ∀ k ∈ F j, replacedBy i.id new k = [k] := by
          refine fun k hk => if_neg fun hki => ?_
          by_cases hjt : j ∈ i :: todo
          · rw [h.left j hjt, List.mem_singleton] at hk
            exact hne (hwf.eq_of_id hj hi (hk ▸ hki))
          · rcases (h.done j hj hjt).kept_or_fresh hwf with hkept | hnew
            · rw [hkept, List.mem_singleton] at hk
              exact hne (hwf.eq_of_id hj hi (hk ▸ hki))
            · exact hnew k hk (hki ▸ List.mem_map_of_mem hi)
        rw [List.flatMap_congr hsame, List.flatMap_singleton']
      have hat : (F i).flatMap (replacedBy i.id new) = new := by
        rw [hself, List.flatMap_singleton]
        exact if_pos rfl
      refine ⟨fun j => (F j).flatMap (replacedBy i.id new), ?_, ?_, fun j hj => ?_,
        fun j hj hjt => ?_⟩
      · calc (m₁.rewrite (replacedBy i.id new)).funs
            = ((m.rewrite F).rewrite (replacedBy i.id new)).funs := by
              rw [Module.rewrite, Module.rewrite, h.funs]
          _ = (m.rewrite fun j => (F j).flatMap (replacedBy i.id new)).funs := by
              rw [Module.rewrite_rewrite]
      · exact h.next.trans (Nat.le_add_right _ _)
      · have hne : j ≠ i := fun heq => hnot (heq ▸ hj)
        rw [hother j (htodo j hj) hne]
        exact h.left j (List.mem_cons_of_mem _ hj)
      · by_cases hji : j = i
        · subst hji
          rw [hat, RewritesAs, hsel]
          exact ⟨m₁.next, h.next, hnew⟩
        · rw [hother j hj hji]
          exact h.done j hj fun hmem => (List.mem_cons.mp hmem).elim hji hjt

/-- The calls in `todo` are replaced one after the other. -/
lemma Replacing.foldlM (hwf : m.WF) {todo : List Instr} {F : Instr → List Instr}
    {m₁ m₂ : Module} (hnodup : todo.Nodup) (htodo : ∀ j ∈ todo, j ∈ m.insts)
    (h : Replacing m dumb todo F m₁)
    (hrun : (todo.filterMap fun i => (selected i).map fun p =>
      (⟨i, p, p.routine dumb⟩ : Replacement)).foldlM Hippocrates.replaceCall m₁ = some m₂) :
    ∃ F', Replacing m dumb [] F' m₂ := by
  induction todo generalizing F m₁ with
  | nil =>
      obtain rfl := Option.some.inj hrun
      exact ⟨F, h⟩
  | cons i todo ih =>
      rw [List.nodup_cons] at hnodup
      have hi := htodo i List.mem_cons_self
      have hrest : ∀ j ∈ todo, j ∈ m.insts := fun j hj => htodo j (List.mem_cons_of_mem _ hj)
      rw [List.filterMap_cons] at hrun
      cases hsel : selected i with
      | none =>
          simp only [hsel, Option.map_none] at hrun
          -- a call that is not selected stays, and counts as done
          refine ih hnodup.2 hrest ⟨h.funs, h.next, fun j hj => ?_, fun j hj hjt => ?_⟩ hrun
          · exact h.left j (List.mem_cons_of_mem _ hj)
          · by_cases hji : j = i
            · rw [RewritesAs, hji, hsel]
              exact h.left i List.mem_cons_self
            · exact h.done j hj fun hmem => (List.mem_cons.mp hmem).elim hji hjt
      | some p =>
          simp only [hsel, Option.map_some, List.foldlM_cons, Option.bind_eq_bind,
            Option.bind_eq_some_iff] at hrun
          obtain ⟨m₃, hstep, hrun⟩ := hrun
          obtain ⟨F', h'⟩ := h.replaceCall hwf hi hnodup.1 hrest hsel hstep
          exact ih hnodup.2 hrest h' hrun

/-- The pass rewrites the selected calls and nothing else. -/
theorem patchMemoryPrimitives_spec {m' : Module} {changed : Bool} (hwf : m.WF)
    (h : patchMemoryPrimitives m dumb = some (m', changed)) :
    ∃ F, m'.funs = (m.rewrite F).funs ∧ ∀ i ∈ m.insts, RewritesAs m dumb i (F i) := by
  rw [patchMemoryPrimitives] at h
  split at h
  · cases h
  · rename_i entries hmap
    obtain ⟨m₂, hrun, heq⟩ := Option.map_eq_some_iff.mp h
    simp only [Prod.mk.injEq] at heq
    obtain ⟨rfl, -⟩ := heq
    rw [replaceMap_eq hmap] at hrun
    have hstart : Replacing m dumb m.insts (fun j => [j]) m := by
      refine ⟨?_, le_rfl, fun _ _ => rfl, fun i hi hnot => absurd hi hnot⟩
      rw [Module.rewrite_eq_self fun _ _ => rfl]
    obtain ⟨F, hF⟩ := hstart.foldlM hwf hwf.ids.of_map (fun _ hj => hj) hrun
    exact ⟨F, hF.funs, fun i hi => hF.done i hi List.not_mem_nil⟩

end Pass

/-! ### Which calls should be replaced -/

/-- The memory primitive a function is, an intrinsic or a function of the library. -/
def primitiveOf (f : FnId) : Option MemPrimitive :=
  (MemPrimitive.ofIntrinsic f.getIntrinsicID).or
    (MemPrimitive.all.find? fun p => f == FnId.named p.name)

/-- The memory primitive an instruction calls. -/
def calledPrimitive (i : Instr) : Option MemPrimitive := i.getCalledFunction.bind primitiveOf

/-- The direct calls of memory primitives are replaced by new calls of the matching routines, and
all other instructions stay. -/
def PatchedExactly (m : Module) (dumb : Bool) (m' : Module) : Prop :=
  ∃ F, m'.funs = (m.rewrite F).funs ∧ ∀ i ∈ m.insts,
    match calledPrimitive i with
    | none => F i = [i]
    | some p => OnlyCalls (p.routine dumb) (F i) ∧ ∀ j ∈ F i, j.id ∉ m.insts.map Instr.id

/-- A call of a primitive of the library with less than three arguments, or with a vector or a
pointer as the second one, as `memcpy`, `memmove` and `strncpy` have it. -/
def Overlooked (i : Instr) : Prop :=
  ∃ p args, i.op = .call (.function (FnId.named (MemPrimitive.name p))) args ∧
    fitsMemset args = false

/-- A call of another function that has the name of a primitive in its name, with arguments like
those of `memset`. -/
def Lookalike (i : Instr) : Prop :=
  ∃ f args, i.op = .call (.function f) args ∧ primitiveOf f = none ∧
    isExcluded f.fullName = false ∧ namedPrimitives f.fullName ≠ [] ∧ fitsMemset args = true

section Selected

variable {i : Instr} {f : FnId} {p : MemPrimitive}

lemma MemPrimitive.mem_all (p : MemPrimitive) : p ∈ all := by
  cases p <;> decide

/-- The names of the primitives are told apart. -/
lemma MemPrimitive.fullName (p : MemPrimitive) :
    (FnId.named p.name).fullName = p.name ∧ isExcluded p.name = false ∧
      namedPrimitives p.name = [p] := by
  cases p <;> decide

lemma primitiveOf_cases (h : primitiveOf f = some p) :
    MemPrimitive.ofIntrinsic f.getIntrinsicID = some p ∨
      MemPrimitive.ofIntrinsic f.getIntrinsicID = none ∧ f = FnId.named p.name := by
  rcases Option.or_eq_some_iff.mp h with h | ⟨hnone, h⟩
  · exact .inl h
  · have hname := List.find?_some h
    exact .inr ⟨hnone, beq_iff_eq.mp hname⟩

lemma primitiveOf_named (p : MemPrimitive) : primitiveOf (FnId.named p.name) = some p := by
  cases p <;> decide

/-- A call of an intrinsic is taken for the primitive the intrinsic is. -/
lemma selected_intrinsic {args : List Value} (hop : i.op = .call (.function f) args)
    (hid : MemPrimitive.ofIntrinsic f.getIntrinsicID = some p) : selected i = some p := by
  rw [selected, hop]
  simp only [hid]

/-- A call of a primitive is taken for that primitive, unless it is overlooked. -/
lemma selected_of_called (h : calledPrimitive i = some p) :
    selected i = some p ∨ selected i = none ∧ Overlooked i := by
  obtain ⟨f, hf, hprim⟩ := Option.bind_eq_some_iff.mp h
  rw [Instr.getCalledFunction] at hf
  split at hf
  · rename_i g args hop
    obtain rfl := Option.some.inj hf
    rcases primitiveOf_cases hprim with hid | ⟨hid, rfl⟩
    · exact .inl (selected_intrinsic hop hid)
    · obtain ⟨hname, hexcl, hcontains⟩ := p.fullName
      rw [selected, hop]
      dsimp only
      rw [hid, hname, hexcl, hcontains]
      cases hfits : fitsMemset args with
      | false => exact .inr ⟨rfl, p, args, hop, hfits⟩
      | true => exact .inl rfl
  · cases hf

lemma Overlooked.selected_eq (h : Overlooked i) : selected i = none := by
  obtain ⟨p, args, hop, hfits⟩ := h
  obtain ⟨hname, hexcl, -⟩ := p.fullName
  have hid : MemPrimitive.ofIntrinsic (FnId.named p.name).getIntrinsicID = none := rfl
  rw [selected, hop]
  simp only [hid, hname, hexcl, hfits]
  rfl

/-- A call of no primitive is left alone, unless it is taken for its name. -/
lemma selected_of_not_called (h : calledPrimitive i = none) :
    selected i ≠ none ↔ Lookalike i := by
  rw [selected]
  split
  · rename_i f args hop
    have hprim : primitiveOf f = none := by
      rw [calledPrimitive, Instr.getCalledFunction, hop] at h
      exact h
    have hlike : Lookalike i ↔ isExcluded f.fullName = false ∧ namedPrimitives f.fullName ≠ [] ∧
        fitsMemset args = true := by
      constructor
      · rintro ⟨g, args', hop', -, hrest⟩
        rw [hop] at hop'
        cases hop'
        exact hrest
      · exact fun hrest => ⟨f, args, hop, hprim, hrest⟩
    have hid : MemPrimitive.ofIntrinsic f.getIntrinsicID = none :=
      (Option.or_eq_none_iff.mp hprim).1
    rw [hlike, hid]
    cases isExcluded f.fullName <;> cases fitsMemset args <;> simp
  · rename_i hop
    refine iff_of_false (fun hne => hne rfl) ?_
    rintro ⟨f, args, hop', -⟩
    exact hop f args hop'

lemma Lookalike.calledPrimitive_eq (h : Lookalike i) : calledPrimitive i = none := by
  obtain ⟨f, args, hop, hprim, -⟩ := h
  rw [calledPrimitive, Instr.getCalledFunction, hop]
  exact hprim

/-- When an instruction is taken for what it calls. -/
lemma selected_eq_iff : selected i = calledPrimitive i ↔ ¬ Overlooked i ∧ ¬ Lookalike i := by
  cases hcall : calledPrimitive i with
  | none =>
      have hnot : ¬ Overlooked i := by
        rintro ⟨p, args, hop, -⟩
        rw [calledPrimitive, Instr.getCalledFunction, hop] at hcall
        cases (primitiveOf_named p).symm.trans hcall
      rw [← selected_of_not_called hcall, not_not]
      exact (and_iff_right hnot).symm
  | some p =>
      have hnot : ¬ Lookalike i := by
        intro hlook
        cases hlook.calledPrimitive_eq.symm.trans hcall
      rw [and_iff_left hnot]
      rcases selected_of_called hcall with hsel | ⟨hsel, hover⟩
      · exact iff_of_true hsel fun hover => by simp [hover.selected_eq] at hsel
      · exact iff_of_false (by simp [hsel]) (not_not.mpr hover)

end Selected

/-! ### When exactly these are replaced -/

section Exactly

variable {m m' : Module} {dumb : Bool} {F : Instr → List Instr}

/-- An instruction is kept when it is there afterwards. -/
lemma mem_insts_iff_kept (hfuns : m'.funs = (m.rewrite F).funs)
    (hF : ∀ j ∈ m.insts, F j = [j] ∨ ∀ k ∈ F j, k.id ∉ m.insts.map Instr.id) {i : Instr}
    (hi : i ∈ m.insts) : i ∈ m'.insts ↔ F i = [i] := by
  rw [Module.insts_of_funs hfuns]
  constructor
  · intro hmem
    obtain ⟨j, hj, hij⟩ := List.mem_flatMap.mp hmem
    rcases hF j hj with hself | hnew
    · rw [hself, List.mem_singleton] at hij
      exact hij ▸ hself
    · exact absurd (List.mem_map_of_mem hi) (hnew i hij)
  · exact fun hself => List.mem_flatMap.mpr ⟨i, hi, hself ▸ List.mem_cons_self⟩

lemma RewritesAs.kept_iff (hwf : m.WF) {i : Instr} {new : List Instr} (hi : i ∈ m.insts)
    (h : RewritesAs m dumb i new) : new = [i] ↔ selected i = none := by
  refine ⟨fun hkept => ?_, h.self⟩
  by_contra hne
  obtain ⟨p, hsel⟩ := Option.ne_none_iff_exists'.mp hne
  have hnew := (h.fresh hwf hsel).2 i (hkept ▸ List.mem_cons_self)
  exact hnew (List.mem_map_of_mem hi)

/-- After an exact patch the calls were taken for what they call. -/
lemma PatchedExactly.selected_eq {changed : Bool} (hwf : m.WF)
    (hrun : patchMemoryPrimitives m dumb = some (m', changed)) (h : PatchedExactly m dumb m')
    {i : Instr} (hi : i ∈ m.insts) : selected i = calledPrimitive i := by
  obtain ⟨F, hF, hrewrites⟩ := patchMemoryPrimitives_spec hwf hrun
  obtain ⟨F', hF', hexact⟩ := h
  have hkept : i ∈ m'.insts ↔ selected i = none := by
    rw [mem_insts_iff_kept hF (fun j hj => (hrewrites j hj).kept_or_fresh hwf) hi]
    exact (hrewrites i hi).kept_iff hwf hi
  -- what takes the place of a call has new names
  have hfresh : ∀ j ∈ m.insts, F' j = [j] ∨ ∀ k ∈ F' j, k.id ∉ m.insts.map Instr.id := by
    intro j hj
    have hat := hexact j hj
    split at hat
    · exact .inl hat
    · exact .inr hat.2
  have hcalled : i ∈ m'.insts ↔ calledPrimitive i = none := by
    rw [mem_insts_iff_kept hF' hfresh hi]
    have hat := hexact i hi
    split at hat
    · exact iff_of_true hat ‹_›
    · rename_i p hcall
      refine iff_of_false (fun hself => ?_) (by simp [hcall])
      exact hat.2 i (hself ▸ List.mem_cons_self) (List.mem_map_of_mem hi)
  cases hcall : calledPrimitive i with
  | none => exact hkept.mp (hcalled.mpr hcall)
  | some p =>
      rcases selected_of_called hcall with hsel | ⟨hsel, -⟩
      · exact hsel
      · have hnone := hcalled.mp (hkept.mpr hsel)
        cases hnone.symm.trans hcall

/-- **The memory primitives, and nothing else, are replaced exactly when no call of a primitive of
the library is overlooked and no other call is taken for its name.** -/
theorem patchedExactly_iff {changed : Bool} (hwf : m.WF)
    (hrun : patchMemoryPrimitives m dumb = some (m', changed)) :
    PatchedExactly m dumb m' ↔ ∀ i ∈ m.insts, ¬ Overlooked i ∧ ¬ Lookalike i := by
  constructor
  · exact fun h i hi => selected_eq_iff.mp (h.selected_eq hwf hrun hi)
  · intro h
    obtain ⟨F, hF, hrewrites⟩ := patchMemoryPrimitives_spec hwf hrun
    refine ⟨F, hF, fun i hi => ?_⟩
    have hsel := selected_eq_iff.mpr (h i hi)
    cases hcall : calledPrimitive i with
    | none => exact (hrewrites i hi).self (hsel.trans hcall)
    | some p => exact (hrewrites i hi).fresh hwf (hsel.trans hcall)

end Exactly

/-- A module of the routines, and of `main`, which calls two functions on its arguments: the first
on two pointers and a length, the second on a pointer, an `int` and a length. -/
def memoryCalls (f g : FnId) : Module :=
  let d := Value.arg (FnId.named "main") 0 .i8Ptr
  let s := Value.arg (FnId.named "main") 1 .i8Ptr
  let n := Value.arg (FnId.named "main") 2 (.other "i64")
  ⟨(FnId.named "main", ⟨[[⟨InstId.orig 0, .call (.function f) [d, s, n]⟩,
      ⟨InstId.orig 1, .call (.function g) [d, .constant "7" (.other "i32"), n]⟩,
      ⟨InstId.orig 2, .other "ret" []⟩]]⟩) ::
    MemPrimitive.all.flatMap fun p => [(p.routine false, ⟨[]⟩), (p.routine true, ⟨[]⟩)], 0⟩

lemma memoryCalls_wf (f g : FnId) : (memoryCalls f g).WF := by
  refine ⟨(by decide : (((memoryCalls (FnId.named "f") (FnId.named "g")).funs.map Prod.fst).Nodup)),
    (by decide : ([InstId.orig 0, InstId.orig 1, InstId.orig 2] : List InstId).Nodup), ?_, ?_, ?_⟩
  · simp [memoryCalls, MemPrimitive.all, MemPrimitive.routine, FnId.Below, FnId.named]
  · simp [memoryCalls, MemPrimitive.all, Module.insts, Function.insts, InstId.Below, InstId.orig]
  · simp [memoryCalls, MemPrimitive.all, MemPrimitive.routine, FnId.named, FnId.getIntrinsicID]

/-- The `memmove` intrinsic and `memset` of the library are replaced, by the naive routines. -/
theorem patchedExactly_iff_setAndMove :
    ∃ m' changed,
      patchMemoryPrimitives (memoryCalls (FnId.intrinsic .memmove) (FnId.named "memset")) true =
        some (m', changed) ∧
      PatchedExactly (memoryCalls (FnId.intrinsic .memmove) (FnId.named "memset")) true m' := by
  have hrun : (patchMemoryPrimitives
      (memoryCalls (FnId.intrinsic .memmove) (FnId.named "memset")) true).isSome = true := by
    decide
  obtain ⟨⟨m', changed⟩, hm'⟩ := Option.isSome_iff_exists.mp hrun
  refine ⟨m', changed, hm', (patchedExactly_iff (memoryCalls_wf _ _) hm').mpr fun i hi => ?_⟩
  rw [← selected_eq_iff]
  revert i
  decide

/-- `memcpy` of the library is not replaced, and a library routine that sets memory, flushes and
fences is replaced for its name. -/
theorem copyAndSet_not_patchedExactly :
    (memoryCalls (FnId.named "memcpy") (FnId.named "pmem_memset_persist")).WF ∧
      ∃ m' changed,
        patchMemoryPrimitives
          (memoryCalls (FnId.named "memcpy") (FnId.named "pmem_memset_persist")) false =
            some (m', changed) ∧
        ¬ PatchedExactly
          (memoryCalls (FnId.named "memcpy") (FnId.named "pmem_memset_persist")) false m' := by
  have hrun : (patchMemoryPrimitives
      (memoryCalls (FnId.named "memcpy") (FnId.named "pmem_memset_persist")) false).isSome =
        true := by
    decide
  obtain ⟨⟨m', changed⟩, hm'⟩ := Option.isSome_iff_exists.mp hrun
  refine ⟨memoryCalls_wf _ _, m', changed, hm', fun hexact => ?_⟩
  have hall : ∀ i ∈ (memoryCalls (FnId.named "memcpy") (FnId.named "pmem_memset_persist")).insts,
      selected i = calledPrimitive i :=
    fun i hi => hexact.selected_eq (memoryCalls_wf _ _) hm' hi
  exact absurd hall (by decide)

end Hippocrates

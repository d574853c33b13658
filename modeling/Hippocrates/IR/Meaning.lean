import Mathlib.Tactic
import Hippocrates.IR.Primitives
import Hippocrates.Intrinsics.Naive

/-!
What the calls do that `patchMemoryPrimitives` puts in place of memory primitives.

* `Machine`: what an execution depends on besides the module. `callFn` runs a call with a bound on
  the depth of calls, `runInst` an instruction. The primitives act on the memory as in C, the
  naive routines as `persistent_intrinsics.c` has them; the other routines run their code in the
  module.
* `castOperands_run`: the new call gets the operands of the old one, converted.
* `callFn_routine_eq_none`: a routine whose own primitive was replaced by a call of the routine
  does not return.
* `Leaves`: what a call did before it was replaced. That is the effect of the function that was
  called, which need not be the primitive it was taken for (`ActsAlike`).

`keepsMeaning_iff`: the replaced calls keep their meaning exactly when the naive routines are used,
no result of a replaced call is, and the functions taken for a primitive by their names act alike.
-/

namespace Hippocrates

/-! ### Values and memory routines -/

/-- The number of bits of an integer type, and 64 for a pointer. -/
def Ty.bits : Ty → ℕ
  | i8Ptr => 64
  | other name =>
    if (other name).isIntegerTy then
      (name.toList.drop 1).foldl (fun n c => 10 * n + (c.toNat - '0'.toNat)) 0
    else 64

namespace MemPrimitive

/-- What a call of the primitive does to the memory. -/
def effect (p : MemPrimitive) (args : List ℕ) (mem : Memory) : Memory :=
  let d := args.getD 0 0
  let s := args.getD 1 0
  let n := args.getD 2 0
  match p with
  | memset => Hippocrates.memset d (UInt8.ofNat s) n mem
  | memcpy => Hippocrates.memcpy d s n mem
  | memmove => Hippocrates.memmove d s n mem
  | strncpy => Hippocrates.strncpy d s n mem

/-- What a call of the naive routine does, and its result if it has one. -/
def naive (p : MemPrimitive) (k : FlushKind) (args : List ℕ) (mem : Memory) : Option (ℕ × Memory) :=
  let d := args.getD 0 0
  let s := args.getD 1 0
  let n := args.getD 2 0
  let unused := args.getD 3 0 != 0
  match p with
  | memset => some (0, (PMFIXER_memset_naive k d (UInt8.ofNat s) n unused mem).1)
  | memcpy => some (0, (PMFIXER_memcpy_naive k d s n unused mem).1)
  | memmove => (PMFIXER_memmove_naive k d s n unused mem).map fun r => (0, r.1)
  | strncpy =>
    let r := PMFIXER_strncpy_naive k d s n mem
    some (r.1, r.2.1)

/-- The call is defined: the ranges lie in the address space, those of `memcpy` do not overlap
unless they are the same, and neither does the string with its destination. -/
def Defined (p : MemPrimitive) (args : List ℕ) (mem : Memory) : Prop :=
  let d := args.getD 0 0
  let s := args.getD 1 0
  let n := args.getD 2 0
  d < 2 ^ 64 ∧ n < 2 ^ 63 - 1 ∧ d + n ≤ 2 ^ 64 ∧
    match p with
    | memset => True
    | memcpy => s < 2 ^ 64 ∧ s + n ≤ 2 ^ 64 ∧ (s = d ∨ d + n ≤ s ∨ s + n ≤ d)
    | memmove => s < 2 ^ 64 ∧ s + n ≤ 2 ^ 64
    | strncpy => s < 2 ^ 64 ∧ StringApart mem d s n

end MemPrimitive

/-! ### Executions -/

/-- A call of a function that runs: its arguments, and the results of its instructions. -/
structure Frame where
  args : List ℕ
  regs : InstId → ℕ

/-- The instruction has the result `v`. -/
def Frame.set (fr : Frame) (i : InstId) (v : ℕ) : Frame :=
  { fr with regs := Function.update fr.regs i v }

/-- What an execution depends on besides the module: the flush instruction that is built in, the
constants and the addresses of functions, the code of the naive routines, and what other functions
do where they are defined, and instructions that are neither direct calls nor conversions. -/
structure Machine where
  kind : FlushKind
  constant : String → Ty → ℕ
  address : FnId → ℕ
  naiveBody : MemPrimitive → Function
  external : FnId → List ℕ → Memory → Option (ℕ × Memory)
  step : Instr → Frame → Memory → Frame × Memory

namespace Machine

variable (M : Machine)

/-- The value of an operand; one of a type with `n` bits is below `2 ^ n`. -/
def eval (fr : Frame) (v : Value) : ℕ :=
  (match v with
    | .inst id _ => fr.regs id
    | .alloca id _ => fr.regs id
    | .arg _ n _ => fr.args.getD n 0
    | .function f => M.address f
    | .constant name ty => M.constant name ty) % 2 ^ v.getType.bits

/-- One instruction; `call` says what a call does. -/
def runInst (call : FnId → List ℕ → Memory → Option (ℕ × Memory)) (s : Frame × Memory)
    (i : Instr) : Option (Frame × Memory) :=
  match i.op with
  | .call (.function f) args =>
    (call f (args.map (M.eval s.1)) s.2).map fun r => (s.1.set i.id r.1, r.2)
  | .bitCast v _ => some (s.1.set i.id (M.eval s.1 v), s.2)
  | _ => some (M.step i s.1 s.2)

/-- The value a function returns. -/
def returned (fr : Frame) (insts : List Instr) : ℕ :=
  match insts.getLast? with
  | some ⟨_, .other "ret" [v]⟩ => M.eval fr v
  | _ => 0

/-- The naive routine a function is, by its name and code. -/
def naiveOf (f : FnId) (body : Function) : Option MemPrimitive :=
  MemPrimitive.all.find? fun p => f == p.routine true && body == M.naiveBody p

/-- A call, with a bound on the depth of calls; `none` if the bound is reached, if an assertion of a
naive routine fails, or if another function is not defined there. The code is performed in the order
of the text: the functions that are run are the persistent routines, which have the call of the
primitive in their first block, and after it the loop that flushes. -/
def callFn (m : Module) : ℕ → FnId → List ℕ → Memory → Option (ℕ × Memory)
  | 0, _, _, _ => none
  | fuel + 1, f, args, mem =>
    match primitiveOf f with
    | some p => some (args.getD 0 0, p.effect args mem)
    | none =>
      match m.lookup f with
      | none => M.external f args mem
      | some body =>
        match M.naiveOf f body with
        | some p => p.naive M.kind args mem
        | none =>
          if body.isDeclaration then M.external f args mem
          else
            (body.insts.foldlM (M.runInst (callFn m fuel)) (⟨args, fun _ => 0⟩, mem)).map fun s =>
              (M.returned s.1 body.insts, s.2)

/-- The execution of instructions in a function of the module, for calls to any depth. -/
def Runs (m : Module) (insts : List Instr) (s s' : Frame × Memory) : Prop :=
  ∃ fuel, insts.foldlM (M.runInst (M.callFn m fuel)) s = some s'

/-- The folded conversion of a constant has the value of the conversion, and a null constant is
zero. -/
structure FoldsConstants (args : List Value) : Prop where
  folded : ∀ v ∈ args, ∀ ty c, v.foldedCast ty = some c → ∀ fr fr',
    M.eval fr' c = M.eval fr v % 2 ^ ty.bits
  null : ∀ ty, M.constant "null" ty = 0

end Machine

section Depth

variable {M : Machine} {call call' : FnId → List ℕ → Memory → Option (ℕ × Memory)}

/-- Calls that return more often let more code come to its end. -/
lemma foldlM_runInst_mono (h : ∀ f args mem r, call f args mem = some r → call' f args mem = some r)
    {insts : List Instr} {s s' : Frame × Memory}
    (hrun : insts.foldlM (M.runInst call) s = some s') :
    insts.foldlM (M.runInst call') s = some s' := by
  induction insts generalizing s with
  | nil => exact hrun
  | cons i insts ih =>
      rw [List.foldlM_cons, Option.bind_eq_bind, Option.bind_eq_some_iff] at hrun ⊢
      obtain ⟨mid, hi, hrest⟩ := hrun
      refine ⟨mid, ?_, ih hrest⟩
      rw [Machine.runInst] at hi ⊢
      split at hi
      · obtain ⟨r, hr, rfl⟩ := Option.map_eq_some_iff.mp hi
        rw [h _ _ _ r hr]
        rfl
      · exact hi
      · exact hi

/-- A greater depth gives the same result. -/
lemma callFn_succ {m : Module} {fuel : ℕ} {f : FnId} {args : List ℕ} {mem : Memory}
    {r : ℕ × Memory} (h : M.callFn m fuel f args mem = some r) :
    M.callFn m (fuel + 1) f args mem = some r := by
  induction fuel generalizing f args mem r with
  | zero => cases h
  | succ fuel ih =>
      rw [Machine.callFn] at h ⊢
      split at h
      · exact h
      · split at h
        · exact h
        · split at h
          · exact h
          · split_ifs at h ⊢
            · exact h
            · obtain ⟨s, hs, rfl⟩ := Option.map_eq_some_iff.mp h
              rw [foldlM_runInst_mono (fun _ _ _ _ => ih) hs]
              rfl

lemma callFn_mono {m : Module} {fuel fuel' : ℕ} (hle : fuel ≤ fuel') {f : FnId} {args : List ℕ}
    {mem : Memory} {r : ℕ × Memory} (h : M.callFn m fuel f args mem = some r) :
    M.callFn m fuel' f args mem = some r := by
  induction hle with
  | refl => exact h
  | step _ ih => exact callFn_succ ih

/-- **An execution has one end**, to whatever depth its calls are followed. -/
theorem Machine.Runs.unique {m : Module} {insts : List Instr} {s s₁ s₂ : Frame × Memory}
    (h₁ : M.Runs m insts s s₁) (h₂ : M.Runs m insts s s₂) : s₁ = s₂ := by
  obtain ⟨a, ha⟩ := h₁
  obtain ⟨b, hb⟩ := h₂
  have ha' := foldlM_runInst_mono (fun _ _ _ _ => callFn_mono (le_max_left a b)) ha
  have hb' := foldlM_runInst_mono (fun _ _ _ _ => callFn_mono (le_max_right a b)) hb
  exact Option.some.inj (ha'.symm.trans hb')

end Depth

/-! ### The operands of the new call -/

/-- The operands of an instruction. -/
def Opcode.operands : Opcode → List Value
  | .store value pointer => [value, pointer]
  | .cmpxchg pointer compare newVal => [pointer, compare, newVal]
  | .atomicrmw _ pointer value => [pointer, value]
  | .call (.pointer v) args => v :: args
  | .call _ args => args
  | .bitCast v _ => [v]
  | .alloca => []
  | .other _ operands => operands

/-- The instruction a value is the result of. -/
def Value.instId : Value → Option InstId
  | inst id _ => some id
  | alloca id _ => some id
  | _ => none

/-- The instruction uses the result of `i`. -/
def Instr.Uses (j : Instr) (i : InstId) : Prop := ∃ v ∈ j.op.operands, v.instId = some i

/-- The value is the result of no instruction that is named from `n` on. -/
def Value.Avoids (n : ℕ) (v : Value) : Prop := ∀ k, n ≤ k → v.instId ≠ some (InstId.ins k)

/-- The frames differ in the results of instructions named from `n` on only. -/
structure Frame.AgreeBelow (n : ℕ) (fr fr' : Frame) : Prop where
  args : fr'.args = fr.args
  regs : ∀ i, (∀ k, n ≤ k → i ≠ InstId.ins k) → fr'.regs i = fr.regs i

/-- What a call passes on to parameters of the types, if its operands have the values. -/
def passed : List ℕ → List Ty → List ℕ
  | _, [] => []
  | [], _ :: tys => 0 :: passed [] tys
  | a :: args, ty :: tys => a % 2 ^ ty.bits :: passed args tys

section Operands

variable {M : Machine} {n : ℕ} {fr fr' : Frame} {v : Value}

lemma Frame.AgreeBelow.refl (n : ℕ) (fr : Frame) : fr.AgreeBelow n fr := ⟨rfl, fun _ _ => rfl⟩

lemma Frame.AgreeBelow.trans {n' : ℕ} {fr'' : Frame} (h : fr.AgreeBelow n fr') (hn : n ≤ n')
    (h' : fr'.AgreeBelow n' fr'') : fr.AgreeBelow n fr'' := by
  refine ⟨h'.args.trans h.args, fun i hi => ?_⟩
  rw [h'.regs i fun k hk => hi k (hn.trans hk), h.regs i hi]

lemma Value.Avoids.mono {n' : ℕ} (h : v.Avoids n) (hn : n ≤ n') : v.Avoids n' :=
  fun k hk => h k (hn.trans hk)

lemma Machine.eval_congr (hv : v.Avoids n) (h : fr.AgreeBelow n fr') :
    M.eval fr' v = M.eval fr v := by
  cases v with
  | inst id ty => rw [eval, eval, h.regs id fun k hk heq => hv k hk (congrArg some heq)]
  | alloca id ty => rw [eval, eval, h.regs id fun k hk heq => hv k hk (congrArg some heq)]
  | arg fn k ty => rw [eval, eval, h.args]
  | function f => rfl
  | constant name ty => rfl

lemma Machine.eval_lt (v : Value) : M.eval fr v < 2 ^ v.getType.bits :=
  Nat.mod_lt _ (Nat.two_pow_pos _)

lemma Value.foldedCast_type {ty : Ty} {c : Value} (h : v.foldedCast ty = some c) :
    c.instId = none := by
  cases v with
  | function f => obtain rfl := Option.some.inj h; rfl
  | constant name ty' => obtain rfl := Option.some.inj h; rfl
  | _ => cases h

/-- The conversion of an operand. -/
lemma castOperand_run {op : Value} {ty : Ty} {casts : List Instr}
    (h : castOperand n op ty = some (casts, v)) (hop : op.Avoids n)
    (hfold : ∀ c, op.foldedCast ty = some c → ∀ fr fr', M.eval fr' c = M.eval fr op % 2 ^ ty.bits)
    (call : FnId → List ℕ → Memory → Option (ℕ × Memory)) (fr : Frame) (mem : Memory) :
    v.Avoids (n + casts.length) ∧ ∃ fr', fr.AgreeBelow n fr' ∧
      casts.foldlM (M.runInst call) (fr, mem) = some (fr', mem) ∧
      M.eval fr' v = M.eval fr op % 2 ^ ty.bits := by
  rw [castOperand] at h
  split_ifs at h with hty
  -- no cast, a folded constant, or a cast whose result has a new name
  · simp only [Option.some.injEq, Prod.mk.injEq] at h
    obtain ⟨rfl, rfl⟩ := h
    refine ⟨hop, fr, .refl n fr, rfl, ?_⟩
    rw [Nat.mod_eq_of_lt (hty ▸ M.eval_lt op)]
  · split at h
    · rename_i c hc
      simp only [Option.some.injEq, Prod.mk.injEq] at h
      obtain ⟨rfl, rfl⟩ := h
      refine ⟨fun k _ hk => ?_, fr, .refl n fr, rfl, hfold c hc fr fr⟩
      rw [Value.foldedCast_type hc] at hk
      cases hk
    · simp only [Option.some.injEq, Prod.mk.injEq] at h
      obtain ⟨rfl, rfl⟩ := h
      refine ⟨fun k hk heq => ?_, fr.set (InstId.ins n) (M.eval fr op), ⟨rfl, fun i hi => ?_⟩, rfl,
        ?_⟩
      · have hkn : InstId.ins n = InstId.ins k := Option.some.inj heq
        simp only [InstId.ins, InstId.mk.injEq, and_true] at hkn
        rw [List.length_singleton] at hk
        omega
      · exact Function.update_of_ne (hi n le_rfl) _ _
      · rw [Machine.eval, Frame.set]
        simp [Value.getType]

/-- The conversions run, and the operands of the new call have the values of the old ones. -/
lemma castOperands_run {ops : List Value} {tys : List Ty} {r : List Instr × List Value}
    (h : castOperands n ops tys = some r) (hops : ∀ op ∈ ops, op.Avoids n)
    (hfold : M.FoldsConstants ops) (call : FnId → List ℕ → Memory → Option (ℕ × Memory))
    (fr : Frame) (mem : Memory) :
    ∃ fr', fr.AgreeBelow n fr' ∧ r.1.foldlM (M.runInst call) (fr, mem) = some (fr', mem) ∧
      r.2.map (M.eval fr') = passed (ops.map (M.eval fr)) tys := by
  induction tys generalizing n ops r fr with
  | nil =>
      rw [castOperands] at h
      obtain rfl := Option.some.inj h
      exact ⟨fr, .refl n fr, rfl, by simp [passed]⟩
  | cons ty tys ih =>
      cases ops with
      | nil =>
          rw [castOperands] at h
          obtain ⟨r', hr', rfl⟩ := Option.map_eq_some_iff.mp h
          obtain ⟨fr', hagree, hrun, hvals⟩ := ih hr' hops hfold fr
          refine ⟨fr', hagree, hrun, ?_⟩
          -- an operand that is missing is null
          have hnull : M.eval fr' (.constant "null" ty) = 0 := by
            rw [Machine.eval, hfold.null, Nat.zero_mod]
          rw [List.map_cons, hnull, hvals]
          rfl
      | cons op ops =>
          rw [castOperands] at h
          split at h
          · cases h
          · rename_i casts v hcast
            obtain ⟨r', hr', rfl⟩ := Option.map_eq_some_iff.mp h
            have hop := hops op List.mem_cons_self
            have hrest : ∀ o ∈ ops, o.Avoids n := fun o ho => hops o (List.mem_cons_of_mem _ ho)
            obtain ⟨hv, fr₁, hagree, hrun, hval⟩ := castOperand_run hcast hop
              (hfold.folded op List.mem_cons_self ty) call fr mem
            obtain ⟨fr₂, hagree', hrun', hvals⟩ := ih hr'
              (fun o ho => (hrest o ho).mono (Nat.le_add_right _ _))
              ⟨fun o ho => hfold.folded o (List.mem_cons_of_mem _ ho), hfold.null⟩ fr₁
            refine ⟨fr₂, hagree.trans (Nat.le_add_right _ _) hagree', ?_, ?_⟩
            · rw [List.foldlM_append, hrun]
              exact hrun'
            -- the casts of the first operand do not change the others
            · have hsame : ops.map (M.eval fr₁) = ops.map (M.eval fr) :=
                List.map_congr_left fun o ho => M.eval_congr (hrest o ho) hagree
              rw [List.map_cons, hvals, M.eval_congr hv hagree', hval, hsame]
              rfl

/-- A conversion, and the new operand, use what the operand is. -/
lemma castOperand_uses {op : Value} {ty : Ty} {casts : List Instr} {i : InstId}
    (h : castOperand n op ty = some (casts, v)) (hi : ∀ k, n ≤ k → i ≠ InstId.ins k) :
    ((∃ j ∈ casts, j.Uses i) ∨ v.instId = some i) ↔ op.instId = some i := by
  rw [castOperand] at h
  split_ifs at h
  · simp only [Option.some.injEq, Prod.mk.injEq] at h
    obtain ⟨rfl, rfl⟩ := h
    simp
  · split at h
    · rename_i c hc
      simp only [Option.some.injEq, Prod.mk.injEq] at h
      obtain ⟨rfl, rfl⟩ := h
      have hop : op.instId = none := by
        cases op with
        | function f => rfl
        | constant name ty' => rfl
        | _ => cases hc
      simp [Value.foldedCast_type hc, hop]
    · simp only [Option.some.injEq, Prod.mk.injEq] at h
      obtain ⟨rfl, rfl⟩ := h
      have hne : InstId.ins n ≠ i := (hi n le_rfl).symm
      simp [Instr.Uses, Opcode.operands, Value.instId, hne]

lemma castOperands_uses {ops : List Value} {tys : List Ty} {r : List Instr × List Value}
    {i : InstId} (h : castOperands n ops tys = some r) (hi : ∀ k, n ≤ k → i ≠ InstId.ins k) :
    ((∃ j ∈ r.1, j.Uses i) ∨ ∃ v ∈ r.2, v.instId = some i) ↔
      ∃ v ∈ ops.take tys.length, v.instId = some i := by
  induction tys generalizing n ops r with
  | nil =>
      rw [castOperands] at h
      obtain rfl := Option.some.inj h
      simp
  | cons ty tys ih =>
      cases ops with
      | nil =>
          rw [castOperands] at h
          obtain ⟨r', hr', rfl⟩ := Option.map_eq_some_iff.mp h
          have hrest := ih hr' hi
          simpa [Value.instId] using hrest
      | cons op ops =>
          rw [castOperands] at h
          split at h
          · cases h
          · rename_i casts v hcast
            obtain ⟨r', hr', rfl⟩ := Option.map_eq_some_iff.mp h
            have hhead := castOperand_uses hcast hi
            have hrest := ih hr' fun k hk => hi k ((Nat.le_add_right _ _).trans hk)
            rw [List.length_cons, List.take_succ_cons]
            simp only [List.mem_append, List.exists_mem_cons_iff, or_and_right, exists_or]
            rw [← hhead, ← hrest]
            exact or_or_or_comm

/-- The new call and its conversions use the operands that are passed on. -/
lemma modifyCall_uses {cb : Instr} {callee : Callee} {args : List Value} {newFn : FnId}
    {params : List Ty} {new : List Instr} {i : InstId} (hcb : cb.op = .call callee args)
    (h : modifyCall n cb newFn params = some new) (hi : ∀ k, n ≤ k → i ≠ InstId.ins k) :
    (∃ j ∈ new, j.Uses i) ↔ ∃ v ∈ args.take params.length, v.instId = some i := by
  rw [modifyCall, hcb] at h
  obtain ⟨r, hr, rfl⟩ := Option.map_eq_some_iff.mp h
  rw [← castOperands_uses hr hi]
  simp [Instr.Uses, Opcode.operands, or_and_right, exists_or]

end Operands

/-! ### The naive routines -/

section Naive

variable {M : Machine} {m m' : Module} {p : MemPrimitive} {dumb : Bool}

/-- A parameter gets its operand, converted. -/
lemma passed_getD {args : List ℕ} {tys : List Ty} {k : ℕ} {ty : Ty} (h : tys[k]? = some ty) :
    (passed args tys).getD k 0 = args.getD k 0 % 2 ^ ty.bits := by
  induction tys generalizing args k with
  | nil => cases h
  | cons t tys ih =>
      cases args with
      | nil =>
          cases k with
          | zero => rfl
          | succ k =>
              rw [passed, List.getD_cons_succ, ih h]
              rfl
      | cons a args =>
          cases k with
          | zero =>
              obtain rfl : t = ty := Option.some.inj h
              rfl
          | succ k => rw [passed, List.getD_cons_succ, List.getD_cons_succ, ih h]

/-- The operands of a defined call are passed on as they are, up to the byte of `memset`. -/
lemma passed_of_defined {args : List ℕ} {mem : Memory} (hdef : p.Defined args mem) :
    (passed args p.paramTypes).getD 0 0 = args.getD 0 0 ∧
      (passed args p.paramTypes).getD 2 0 = args.getD 2 0 ∧
      (passed args p.paramTypes).getD 1 0 =
        if p = .memset then args.getD 1 0 % 2 ^ 8 else args.getD 1 0 := by
  have h8 : (Ty.other "i8").bits = 8 := by decide
  have h64 : (Ty.other "i64").bits = 64 := by decide
  obtain ⟨hd, hn, -, hp⟩ := hdef
  -- a defined call has its pointers and its length in 64 bits
  have hn' : args.getD 2 0 < 2 ^ 64 := by omega
  refine ⟨?_, ?_, ?_⟩
  · have hty : p.paramTypes[0]? = some .i8Ptr := by cases p <;> rfl
    rw [passed_getD hty]
    exact Nat.mod_eq_of_lt hd
  · have hty : p.paramTypes[2]? = some (.other "i64") := by cases p <;> rfl
    rw [passed_getD hty, h64]
    exact Nat.mod_eq_of_lt hn'
  · cases p with
    | memset =>
        have hty : MemPrimitive.memset.paramTypes[1]? = some (.other "i8") := rfl
        rw [passed_getD hty, h8, if_pos rfl]
    | memcpy =>
        have hty : MemPrimitive.memcpy.paramTypes[1]? = some .i8Ptr := rfl
        rw [passed_getD hty, if_neg (by simp)]
        exact Nat.mod_eq_of_lt hp.1
    | memmove =>
        have hty : MemPrimitive.memmove.paramTypes[1]? = some .i8Ptr := rfl
        rw [passed_getD hty, if_neg (by simp)]
        exact Nat.mod_eq_of_lt hp.1
    | strncpy =>
        have hty : MemPrimitive.strncpy.paramTypes[1]? = some .i8Ptr := rfl
        rw [passed_getD hty, if_neg (by simp)]
        exact Nat.mod_eq_of_lt hp.1

/-- On the operands passed on the naive routine does what the primitive does on its own. -/
lemma naive_passed {args : List ℕ} {mem : Memory} (hdef : p.Defined args mem) (k : FlushKind) :
    ∃ r, p.naive k (passed args p.paramTypes) mem = some (r, p.effect args mem) := by
  obtain ⟨h₀, h₂, h₁⟩ := passed_of_defined hdef
  obtain ⟨-, hn, hdn, hp⟩ := hdef
  -- each routine does what the standard says of its primitive
  cases p with
  | memset =>
      refine ⟨0, ?_⟩
      simp only [MemPrimitive.naive, h₀, h₁, h₂, if_true, UInt8.ofNat_mod_size]
      rw [(memset_naive_implements _ _ hdn).memory]
      rfl
  | memcpy =>
      refine ⟨0, ?_⟩
      simp only [MemPrimitive.naive, h₀, h₁, h₂, reduceCtorEq, if_false]
      rw [(memcpy_naive_implements _ hdn hp.2.1 (by omega)).memory]
      rfl
  | memmove =>
      obtain ⟨r, hr, himpl⟩ := @memmove_naive_implements k mem _ _ _
        ((passed args MemPrimitive.memmove.paramTypes).getD 3 0 != 0) hdn hp.2 hn
      refine ⟨0, ?_⟩
      simp only [MemPrimitive.naive, h₀, h₁, h₂, reduceCtorEq, if_false]
      rw [hr, Option.map_some, himpl.memory]
      rfl
  | strncpy =>
      refine ⟨args.getD 0 0, ?_⟩
      simp only [MemPrimitive.naive, h₀, h₁, h₂, reduceCtorEq, if_false]
      rw [(strncpy_naive_implements hdn hp.2).memory]
      rfl

end Naive

/-! ### Linked modules -/

/-- The module is linked with the compiled intrinsics: the routines for `memset`, `memcpy` and
`memmove` call the intrinsic, on operands that are no constants, and the naive routines have their
code, in which no call is taken for a primitive. -/
structure Linked (M : Machine) (m : Module) : Prop where
  routines : ∀ p, p ≠ MemPrimitive.strncpy → ∃ body, m.lookup (p.routine false) = some body ∧
    ∃ c ∈ body.insts, ∃ f args, c.op = .call (.function f) args ∧
      MemPrimitive.ofIntrinsic f.getIntrinsicID = some p ∧ ∀ v ∈ args.take 3, v.isConstant = false
  naive : ∀ p, m.lookup (MemPrimitive.routine true p) = some (M.naiveBody p) ∧
    ∀ j ∈ (M.naiveBody p).insts, selected j = none

/-- The operands are results of instructions of the module. -/
def OperandsIn (m : Module) : Prop :=
  ∀ j ∈ m.insts, ∀ v ∈ j.op.operands, ∀ i, v.instId = some i → i ∈ m.insts.map Instr.id

/-- A call of the function is defined, and leaves the memory `mem'`: the effect of the primitive, or
else of the function, whatever its name. -/
def Machine.Leaves (M : Machine) (f : FnId) (args : List ℕ) (mem mem' : Memory) : Prop :=
  match primitiveOf f with
  | some p => p.Defined args mem ∧ mem' = p.effect args mem
  | none => ∃ v, M.external f args mem = some (v, mem')

/-- Whenever the call is defined, `new` runs to its end in place of it, and leaves the memory that
the call would have left. -/
def SameEffect (M : Machine) (m' : Module) (i : Instr) (new : List Instr) : Prop :=
  ∀ f args, i.op = .call (.function f) args → ∀ fr mem mem',
    M.Leaves f (args.map (M.eval fr)) mem mem' → ∃ fr', M.Runs m' new (fr, mem) (fr', mem')

/-- The replaced calls have the same effect in the module `m'`, and their results are not used
there. -/
structure KeepsMeaning (M : Machine) (m : Module) (dumb : Bool) (m' : Module) : Prop where
  same : ∃ F, m'.funs = (m.rewrite F).funs ∧ ∀ i ∈ m.insts, RewritesAs m dumb i (F i) ∧
    (selected i ≠ none → SameEffect M m' i (F i))
  unused : ∀ i ∈ m.insts, selected i ≠ none → ∀ j ∈ m'.insts, ¬ j.Uses i.id

/-- The function that is called leaves the memory that the naive routine for `p` leaves. -/
def ActsAlike (M : Machine) (p : MemPrimitive) (i : Instr) : Prop :=
  ∀ f args, i.op = .call (.function f) args → ∀ fr mem mem',
    M.Leaves f (args.map (M.eval fr)) mem mem' →
      ∃ v, p.naive M.kind (passed (args.map (M.eval fr)) p.paramTypes) mem = some (v, mem')

/-- The operands of an instruction that remain: those of a call that is replaced as far as the
routine takes them. -/
def Instr.remaining (j : Instr) : List Value :=
  match selected j with
  | none => j.op.operands
  | some p => j.op.operands.take p.paramTypes.length

/-- No result of a replaced call is an operand that remains. -/
def ResultsUnused (m : Module) : Prop :=
  ∀ i ∈ m.insts, selected i ≠ none → ∀ j ∈ m.insts, ∀ v ∈ j.remaining, v.instId ≠ some i.id

section Linked

variable {M : Machine} {m m' : Module} {p : MemPrimitive} {dumb : Bool} {F : Instr → List Instr}

lemma routine_inj {q : MemPrimitive} {b b' : Bool} (h : p.routine b = q.routine b') :
    p = q ∧ b = b' := by
  revert h
  cases p <;> cases q <;> cases b <;> cases b' <;> decide

lemma primitiveOf_routine (b : Bool) : primitiveOf (p.routine b) = none := by
  cases p <;> cases b <;> decide

lemma selected_call {i : Instr} (h : selected i ≠ none) :
    ∃ f args, i.op = .call (.function f) args := by
  rw [selected] at h
  split at h
  · exact ⟨_, _, ‹_›⟩
  · exact absurd rfl h

/-- The naive routines are as they were linked. -/
lemma callFn_naive (hlink : Linked M m) (hfuns : m'.funs = (m.rewrite F).funs)
    (hF : ∀ i ∈ m.insts, RewritesAs m dumb i (F i)) (fuel : ℕ) (args : List ℕ) (mem : Memory) :
    M.callFn m' (fuel + 1) (p.routine true) args mem = p.naive M.kind args mem := by
  obtain ⟨hlookup, hsel⟩ := hlink.naive p
  have hbody : (M.naiveBody p).rewrite F = M.naiveBody p :=
    Function.rewrite_eq_self fun j hj =>
      (hF j (Module.mem_insts_of_lookup hlookup hj)).self (hsel j hj)
  have hnaive : M.naiveOf (p.routine true) (M.naiveBody p) = some p := by
    cases hfind : M.naiveOf (p.routine true) (M.naiveBody p) with
    | none => simpa using List.find?_eq_none.mp hfind p p.mem_all
    | some q =>
        have hq := List.find?_some hfind
        rw [Bool.and_eq_true, beq_iff_eq] at hq
        rw [(routine_inj hq.1).1]
  rw [Machine.callFn, primitiveOf_routine, Module.lookup_of_funs hfuns, hlookup, Option.map_some,
    hbody]
  simp only [hnaive]

/-- A direct call that does not return keeps the code from its end. -/
lemma foldlM_eq_none_of_call {call : FnId → List ℕ → Memory → Option (ℕ × Memory)} {g : FnId}
    (hg : ∀ args mem, call g args mem = none) {insts : List Instr} {c : Instr} (hc : c ∈ insts)
    (hcall : c.getCalledFunction = some g) (s : Frame × Memory) :
    insts.foldlM (M.runInst call) s = none := by
  induction insts generalizing s with
  | nil => exact absurd hc List.not_mem_nil
  | cons i insts ih =>
      rw [List.foldlM_cons]
      rcases List.mem_cons.mp hc with rfl | hc
      · have hnone : M.runInst call s c = none := by
          rw [Instr.getCalledFunction] at hcall
          split at hcall
          · rename_i f args hop
            obtain rfl := Option.some.inj hcall
            rw [Machine.runInst, hop]
            simp [hg]
          · cases hcall
        rw [hnone]
        rfl
      · cases M.runInst call s i with
        | none => rfl
        | some s' => exact ih hc s'

/-- **The routine calls itself** once its own primitive is replaced, and no depth of calls is
enough. -/
lemma callFn_routine_eq_none (hwf : m.WF) (hlink : Linked M m)
    (hfuns : m'.funs = (m.rewrite F).funs) (hF : ∀ i ∈ m.insts, RewritesAs m false i (F i))
    (hp : p ≠ .strncpy) (fuel : ℕ) (args : List ℕ) (mem : Memory) :
    M.callFn m' fuel (p.routine false) args mem = none := by
  obtain ⟨body, hlookup, c, hc, f, ops, hop, hid, -⟩ := hlink.routines p hp
  have hsel := selected_intrinsic hop hid
  obtain ⟨casts, c', hnew, hcall, -⟩ :=
    ((hF c (Module.mem_insts_of_lookup hlookup hc)).fresh hwf hsel).1
  -- the replaced call is in the rewritten body, and calls the routine again
  have hc' : c' ∈ (body.rewrite F).insts :=
    Function.mem_insts_rewrite hc (hnew ▸ List.mem_append_right _ List.mem_cons_self)
  have hdecl : (body.rewrite F).isDeclaration = false := by
    rw [Function.isDeclaration, List.isEmpty_eq_false_iff]
    intro hnil
    rw [Function.insts, hnil] at hc'
    exact absurd hc' List.not_mem_nil
  have hnaive : M.naiveOf (p.routine false) (body.rewrite F) = none := by
    refine List.find?_eq_none.mpr fun q _ hq => ?_
    rw [Bool.and_eq_true, beq_iff_eq] at hq
    cases (routine_inj hq.1).2
  induction fuel generalizing args mem with
  | zero => rfl
  | succ fuel ih =>
      rw [Machine.callFn, primitiveOf_routine, Module.lookup_of_funs hfuns, hlookup,
        Option.map_some]
      simp only [hnaive, hdecl]
      rw [foldlM_eq_none_of_call ih hc' hcall]
      rfl

/-- The new call runs exactly when the naive routine comes to its end, and leaves its memory. -/
lemma runs_naive_iff (hwf : m.WF) (hops : OperandsIn m) (hlink : Linked M m)
    (hfuns : m'.funs = (m.rewrite F).funs) (hF : ∀ i ∈ m.insts, RewritesAs m true i (F i))
    {i : Instr} (hi : i ∈ m.insts) (hfold : M.FoldsConstants i.op.operands)
    (hsel : selected i = some p) {f : FnId} {args : List Value}
    (hop : i.op = .call (.function f) args) (fr : Frame) (mem mem' : Memory) :
    (∃ fr', M.Runs m' (F i) (fr, mem) (fr', mem')) ↔
      ∃ v, p.naive M.kind (passed (args.map (M.eval fr)) p.paramTypes) mem = some (v, mem') := by
  obtain ⟨n, hn, hmod⟩ := (hF i hi).modifyCall hsel
  rw [modifyCall, hop] at hmod
  obtain ⟨r, hr, hnew⟩ := Option.map_eq_some_iff.mp hmod
  have hmem := hops i hi
  rw [hop] at hfold hmem
  have havoid : ∀ op ∈ args, op.Avoids n := by
    intro op hop k hk hid
    obtain ⟨j, hj, hjk⟩ := List.mem_map.mp (hmem op hop _ hid)
    exact hwf.ne_ins hj (hn.trans hk) hjk
  -- to any depth, the conversions run first, and then the naive routine
  have hdepth : ∀ fuel, ∃ fr₁ : ℕ → Frame,
      (F i).foldlM (M.runInst (M.callFn m' (fuel + 1))) (fr, mem) =
        (p.naive M.kind (passed (args.map (M.eval fr)) p.paramTypes) mem).map fun r =>
          (fr₁ r.1, r.2) := by
    intro fuel
    obtain ⟨fr₁, -, hrun, hvals⟩ :=
      castOperands_run hr havoid hfold (M.callFn m' (fuel + 1)) fr mem
    refine ⟨fun v => fr₁.set (InstId.ins (n + r.1.length)) v, ?_⟩
    rw [← hnew, List.foldlM_append, hrun, Option.bind_eq_bind, Option.bind_some, List.foldlM_cons,
      Machine.runInst]
    simp only [hvals, callFn_naive hlink hfuns hF fuel]
    cases p.naive M.kind (passed (args.map (M.eval fr)) p.paramTypes) mem <;> rfl
  constructor
  · rintro ⟨fr', fuel, hrun⟩
    obtain ⟨fr₁, heq⟩ := hdepth fuel
    rw [foldlM_runInst_mono (fun _ _ _ _ => callFn_succ) hrun] at heq
    obtain ⟨⟨v, mem₁⟩, hnaive, hends⟩ := Option.map_eq_some_iff.mp heq.symm
    obtain rfl : mem₁ = mem' := (Prod.mk.inj hends).2
    exact ⟨v, hnaive⟩
  · rintro ⟨v, hnaive⟩
    obtain ⟨fr₁, heq⟩ := hdepth 0
    rw [hnaive] at heq
    exact ⟨fr₁ v, 1, heq⟩

/-- A replaced call has the same effect when its function acts alike; a primitive does. -/
lemma sameEffect_iff (hwf : m.WF) (hops : OperandsIn m) (hlink : Linked M m)
    (hfuns : m'.funs = (m.rewrite F).funs) (hF : ∀ i ∈ m.insts, RewritesAs m true i (F i))
    {i : Instr} (hi : i ∈ m.insts) (hfold : M.FoldsConstants i.op.operands)
    (hsel : selected i = some p) : SameEffect M m' i (F i) ↔ (Lookalike i → ActsAlike M p i) := by
  have halike : SameEffect M m' i (F i) ↔ ActsAlike M p i := by
    refine forall₃_congr fun f args hop => forall₄_congr fun fr mem mem' _ => ?_
    exact runs_naive_iff hwf hops hlink hfuns hF hi hfold hsel hop fr mem mem'
  rw [halike]
  refine ⟨fun h _ => h, fun h => ?_⟩
  cases hcall : calledPrimitive i with
  | none => exact h ((selected_of_not_called hcall).mp (by simp [hsel]))
  | some q =>
      -- the primitive that is called is the one the call is taken for
      obtain rfl : p = q := by
        rcases selected_of_called hcall with hq | ⟨hq, -⟩
        · exact Option.some.inj (hsel.symm.trans hq)
        · cases hsel.symm.trans hq
      intro f args hop fr mem mem' hleaves
      have hprim : primitiveOf f = some p := by
        rw [calledPrimitive, Instr.getCalledFunction, hop] at hcall
        exact hcall
      rw [Machine.Leaves, hprim] at hleaves
      obtain ⟨hdef, rfl⟩ := hleaves
      exact naive_passed hdef M.kind

/-- What is used after the pass are the operands that remain. -/
lemma exists_uses_iff (hwf : m.WF) {i j : Instr} (hi : i ∈ m.insts)
    (hrewrites : RewritesAs m dumb j (F j)) :
    (∃ j' ∈ F j, j'.Uses i.id) ↔ ∃ v ∈ j.remaining, v.instId = some i.id := by
  rw [Instr.remaining]
  cases hsel : selected j with
  | none =>
      rw [hrewrites.self hsel]
      simp [Instr.Uses]
  | some p =>
      obtain ⟨f, args, hop⟩ := selected_call (by simp [hsel] : selected j ≠ none)
      obtain ⟨n, hn, hmod⟩ := hrewrites.modifyCall hsel
      rw [hop]
      exact modifyCall_uses hop hmod fun k hk => hwf.ne_ins hi (hn.trans hk)

lemma unused_iff (hwf : m.WF) (hfuns : m'.funs = (m.rewrite F).funs)
    (hF : ∀ i ∈ m.insts, RewritesAs m dumb i (F i)) :
    (∀ i ∈ m.insts, selected i ≠ none → ∀ j ∈ m'.insts, ¬ j.Uses i.id) ↔ ResultsUnused m := by
  refine forall₂_congr fun i hi => imp_congr_right fun _ => ?_
  rw [Module.insts_of_funs hfuns]
  constructor
  · intro h j hj v hv hid
    obtain ⟨j', hj', huse⟩ := (exists_uses_iff hwf hi (hF j hj)).mpr ⟨v, hv, hid⟩
    exact h j' (List.mem_flatMap.mpr ⟨j, hj, hj'⟩) huse
  · intro h j' hj' huse
    obtain ⟨j, hj, hj'⟩ := List.mem_flatMap.mp hj'
    obtain ⟨v, hv, hid⟩ := (exists_uses_iff hwf hi (hF j hj)).mp ⟨j', hj', huse⟩
    exact h j hj v hv hid

/-- A call on operands that are no constants is defined when all of them are zero. -/
lemma defined_zero {args : List Value} (hargs : ∀ v ∈ args.take 3, v.isConstant = false) :
    MemPrimitive.memset.Defined (args.map (M.eval ⟨[], fun _ => 0⟩)) fun _ => 0 := by
  have hzero : ∀ j, j < 3 → (args.map (M.eval ⟨[], fun _ => 0⟩)).getD j 0 = 0 := by
    intro j hj
    rw [List.getD_eq_getElem?_getD, List.getElem?_map]
    cases hv : args[j]? with
    | none => rfl
    | some v =>
        have hmem : v ∈ args.take 3 := by
          refine List.mem_of_getElem? (i := j) ?_
          rw [List.getElem?_take_of_lt hj, hv]
        have hconst := hargs v hmem
        cases v with
        | function f => cases hconst
        | constant name ty => cases hconst
        | _ => simp [Machine.eval]
  rw [MemPrimitive.Defined, hzero 0 (by omega), hzero 2 (by omega)]
  exact ⟨by omega, by omega, by omega, trivial⟩

/-- The call in the routine for `memset` does not return if it became a call of the routine. -/
lemma KeepsMeaning.dumb_eq_true (hwf : m.WF) (hlink : Linked M m) (h : KeepsMeaning M m dumb m') :
    dumb = true := by
  by_contra hdumb
  rw [Bool.not_eq_true] at hdumb
  subst hdumb
  obtain ⟨F, hfuns, hsame⟩ := h.same
  obtain ⟨body, hlookup, c, hc, f, args, hop, hid, hargs⟩ := hlink.routines .memset (by decide)
  have hcm := Module.mem_insts_of_lookup hlookup hc
  have hsel := selected_intrinsic hop hid
  have hprim : primitiveOf f = some .memset := by rw [primitiveOf, hid]; rfl
  have hleaves : M.Leaves f (args.map (M.eval ⟨[], fun _ => 0⟩)) (fun _ => 0)
      (MemPrimitive.memset.effect (args.map (M.eval ⟨[], fun _ => 0⟩)) fun _ => 0) := by
    rw [Machine.Leaves, hprim]
    exact ⟨defined_zero hargs, rfl⟩
  obtain ⟨fr', fuel, hfuel⟩ := (hsame c hcm).2 (by simp [hsel]) f args hop _ _ _ hleaves
  obtain ⟨casts, c', hnew, hcall, -⟩ := ((hsame c hcm).1.fresh hwf hsel).1
  have hmem : c' ∈ F c := hnew ▸ List.mem_append_right _ List.mem_cons_self
  rw [foldlM_eq_none_of_call (callFn_routine_eq_none hwf hlink hfuns
    (fun i hi => (hsame i hi).1) (by decide) fuel) hmem hcall] at hfuel
  cases hfuel

/-- **The replaced calls keep their meaning** exactly when the naive routines are used, no result of
a replaced call is an operand that remains, and the functions that are taken for a primitive by
their names only act alike. -/
theorem keepsMeaning_iff {changed : Bool} (hwf : m.WF) (hops : OperandsIn m) (hlink : Linked M m)
    (hfold : ∀ i ∈ m.insts, selected i ≠ none → M.FoldsConstants i.op.operands)
    (hrun : patchMemoryPrimitives m dumb = some (m', changed)) :
    KeepsMeaning M m dumb m' ↔ dumb = true ∧ ResultsUnused m ∧
      ∀ i ∈ m.insts, Lookalike i → ∀ p, selected i = some p → ActsAlike M p i := by
  obtain ⟨F, hfuns, hF⟩ := patchMemoryPrimitives_spec hwf hrun
  rw [← unused_iff hwf hfuns hF]
  constructor
  · intro h
    obtain rfl := h.dumb_eq_true hwf hlink
    obtain ⟨F', hfuns', hsame⟩ := h.same
    refine ⟨rfl, h.unused, fun i hi hlook p hsel => ?_⟩
    refine (sameEffect_iff hwf hops hlink hfuns' (fun j hj => (hsame j hj).1) hi
      (hfold i hi (by simp [hsel])) hsel).mp ?_ hlook
    exact (hsame i hi).2 (by simp [hsel])
  · rintro ⟨rfl, hunused, hlook⟩
    refine ⟨⟨F, hfuns, fun i hi => ⟨hF i hi, fun hne => ?_⟩⟩, hunused⟩
    obtain ⟨p, hsel⟩ := Option.ne_none_iff_exists'.mp hne
    exact (sameEffect_iff hwf hops hlink hfuns hF hi (hfold i hi hne) hsel).mpr fun h =>
      hlook i hi h p hsel

end Linked

/-! ### A module with a call of `memset` -/

/-- The function a routine calls. -/
def wrappedFn : MemPrimitive → FnId
  | .memcpy => FnId.intrinsic .memcpy
  | .memset => FnId.intrinsic .memset
  | .memmove => FnId.intrinsic .memmove
  | .strncpy => FnId.named "strncpy"

/-- The code of a routine: the call, and the loop that flushes. -/
def routineBody (n : ℕ) (p : MemPrimitive) : Function :=
  let args := (p.paramTypes.take 3).mapIdx fun k ty => Value.arg (p.routine false) k ty
  ⟨[[⟨InstId.orig n, .call (.function (wrappedFn p)) args⟩,
    ⟨InstId.orig (n + 1), .other "flush_loop" args⟩]]⟩

/-- The code of the naive routines is one loop each. -/
def bytewise : MemPrimitive → Function
  | .memcpy => ⟨[[⟨InstId.orig 12, .other "memcpy_naive loop" []⟩]]⟩
  | .memset => ⟨[[⟨InstId.orig 22, .other "memset_naive loop" []⟩]]⟩
  | .memmove => ⟨[[⟨InstId.orig 32, .other "memmove_naive loops" []⟩]]⟩
  | .strncpy => ⟨[[⟨InstId.orig 42, .other "strncpy_naive loops" []⟩]]⟩

/-- A linked module: `main` calls `memset`, or `wmemset` if `wide`, on its arguments, and returns
the result if `used`. -/
def setAndReturn (wide used : Bool) : Module :=
  ⟨[(FnId.named "main", ⟨[[⟨InstId.orig 0,
      .call (.function (FnId.named (if wide then "wmemset" else "memset")))
        [.arg (FnId.named "main") 0 .i8Ptr, .constant "7" (.other "i32"),
          .arg (FnId.named "main") 1 (.other "i64")]⟩,
      ⟨InstId.orig 1, .other "ret" (if used then [.inst (InstId.orig 0) .i8Ptr] else [])⟩]]⟩),
    (MemPrimitive.memcpy.routine false, routineBody 10 .memcpy),
    (MemPrimitive.memcpy.routine true, bytewise .memcpy),
    (MemPrimitive.memset.routine false, routineBody 20 .memset),
    (MemPrimitive.memset.routine true, bytewise .memset),
    (MemPrimitive.memmove.routine false, routineBody 30 .memmove),
    (MemPrimitive.memmove.routine true, bytewise .memmove),
    (MemPrimitive.strncpy.routine false, routineBody 40 .strncpy),
    (MemPrimitive.strncpy.routine true, bytewise .strncpy)], 0⟩

/-- `wmemset`, where a `wchar_t` has four bytes. -/
def wmemset (d c n : ℕ) (mem : Memory) : Memory := fun x =>
  if d ≤ x ∧ x < d + 4 * n then UInt8.ofNat (c / 2 ^ (8 * ((x - d) % 4))) else mem x

/-- The constants are seven, and null. -/
def sevenMachine : Machine where
  kind := .CLWB
  constant name _ := if name = "7" ∨ name = "cast of i32 7" then 7 else 0
  address _ := 0
  naiveBody := bytewise
  external f args mem :=
    if f = FnId.named "wmemset" then
      some (args.getD 0 0, wmemset (args.getD 0 0) (args.getD 1 0) (args.getD 2 0) mem)
    else some (0, mem)
  step _ fr mem := (fr, mem)

lemma setAndReturn_wf (wide used : Bool) : (setAndReturn wide used).WF := by
  refine ⟨by decide +revert, by decide +revert, ?_, ?_, by decide +revert⟩
  · simp [setAndReturn, FnId.Below, FnId.named, MemPrimitive.routine]
  · simp [setAndReturn, Module.insts, Function.insts, InstId.Below, InstId.orig, routineBody,
      bytewise]

lemma setAndReturn_operandsIn (wide used : Bool) : OperandsIn (setAndReturn wide used) := by
  have hops : ∀ j ∈ (setAndReturn wide used).insts, ∀ v ∈ j.op.operands,
      v.instId = none ∨ v.instId = some (InstId.orig 0) := by
    cases wide <;> cases used <;> decide
  intro j hj v hv i hi
  rcases hops j hj v hv with hnone | hsome
  · simp [hnone] at hi
  · obtain rfl := Option.some.inj (hsome.symm.trans hi)
    cases wide <;> cases used <;> decide

lemma setAndReturn_linked (wide used : Bool) : Linked sevenMachine (setAndReturn wide used) := by
  refine ⟨fun p hp => ?_, fun p => ?_⟩
  · cases p with
    | memcpy =>
        exact ⟨routineBody 10 .memcpy, rfl, _, List.mem_cons_self, _, _, rfl, rfl, by decide⟩
    | memset =>
        exact ⟨routineBody 20 .memset, rfl, _, List.mem_cons_self, _, _, rfl, rfl, by decide⟩
    | memmove =>
        exact ⟨routineBody 30 .memmove, rfl, _, List.mem_cons_self, _, _, rfl, rfl, by decide⟩
    | strncpy => exact absurd rfl hp
  · cases p <;> exact ⟨rfl, by decide⟩

lemma setAndReturn_folds (wide used : Bool) :
    ∀ i ∈ (setAndReturn wide used).insts, selected i ≠ none →
      sevenMachine.FoldsConstants i.op.operands := by
  have hconst : ∀ i ∈ (setAndReturn wide used).insts, ∀ v ∈ i.op.operands,
      v = .constant "7" (.other "i32") ∨ v.isConstant = false := by
    cases wide <;> cases used <;> decide
  refine fun i hi _ => ⟨fun v hv ty c hc fr fr' => ?_, fun _ => rfl⟩
  rcases hconst i hi v hv with rfl | hnot
  · obtain rfl := Option.some.inj hc
    have h32 : (Ty.other "i32").bits = 32 := by decide
    have hfolded : "cast of " ++ (Ty.other "i32").text ++ " " ++ "7" = "cast of i32 7" := by decide
    simp only [Machine.eval, Value.getType, hfolded, sevenMachine, h32]
    rfl
  · cases v with
    | function f => cases hnot
    | constant name ty' => cases hnot
    | _ => cases hc

theorem keepsMeaning_iff_setOnly :
    ∃ m' changed, patchMemoryPrimitives (setAndReturn false false) true = some (m', changed) ∧
      KeepsMeaning sevenMachine (setAndReturn false false) true m' := by
  have hrun : (patchMemoryPrimitives (setAndReturn false false) true).isSome = true := by
    decide
  obtain ⟨⟨m', changed⟩, hm'⟩ := Option.isSome_iff_exists.mp hrun
  have hunused : ∀ j ∈ (setAndReturn false false).insts, ∀ v ∈ j.remaining, v.instId = none := by
    decide
  have hprim : ∀ i ∈ (setAndReturn false false).insts,
      calledPrimitive i = none → selected i = none := by
    decide
  refine ⟨m', changed, hm', (keepsMeaning_iff (setAndReturn_wf false false)
    (setAndReturn_operandsIn false false) (setAndReturn_linked false false)
    (setAndReturn_folds false false) hm').mpr
    ⟨rfl, fun i _ _ j hj v hv hid => ?_, fun i hi hlook p hsel => ?_⟩⟩
  · cases (hunused j hj v hv).symm.trans hid
  · cases (hprim i hi hlook.calledPrimitive_eq).symm.trans hsel

/-- `wmemset` writes four bytes for each of its characters, the naive routine one. -/
lemma wmemset_not_actsAlike {i : Instr} {args : List Value}
    (hop : i.op = .call (.function (FnId.named "wmemset")) args)
    (hargs : args.map (sevenMachine.eval ⟨[0, 1], fun _ => 0⟩) = [0, 7, 1]) :
    ¬ ActsAlike sevenMachine .memset i := by
  intro halike
  have hleaves : sevenMachine.Leaves (FnId.named "wmemset") [0, 7, 1] (fun _ => 1)
      (wmemset 0 7 1 fun _ => 1) := by
    have hprim : primitiveOf (FnId.named "wmemset") = none := by decide
    rw [Machine.Leaves, hprim]
    exact ⟨0, rfl⟩
  obtain ⟨v, hv⟩ := halike _ args hop ⟨[0, 1], fun _ => 0⟩ _ _ (hargs ▸ hleaves)
  have hdef : MemPrimitive.memset.Defined [0, 7, 1] fun _ => 1 := by
    exact ⟨by decide, by decide, by decide, trivial⟩
  obtain ⟨r, hr⟩ := naive_passed hdef sevenMachine.kind
  rw [hargs, hr] at hv
  have hbytes := congrFun (Prod.mk.inj (Option.some.inj hv)).2 1
  revert hbytes
  decide

/-- Without `ExtraDumb` the routine for `memset` calls itself. With it, the result of `memset` that
`main` returns is erased, and `wmemset` sets a quarter of the bytes. -/
theorem setAndReturn_not_keepsMeaning :
    (∀ wide used, (setAndReturn wide used).WF ∧ OperandsIn (setAndReturn wide used) ∧
      Linked sevenMachine (setAndReturn wide used)) ∧
    (∃ m' changed, patchMemoryPrimitives (setAndReturn false false) false = some (m', changed) ∧
      ¬ KeepsMeaning sevenMachine (setAndReturn false false) false m') ∧
    (∃ m' changed, patchMemoryPrimitives (setAndReturn false true) true = some (m', changed) ∧
      ¬ KeepsMeaning sevenMachine (setAndReturn false true) true m') ∧
    ∃ m' changed, patchMemoryPrimitives (setAndReturn true false) true = some (m', changed) ∧
      ¬ KeepsMeaning sevenMachine (setAndReturn true false) true m' := by
  refine ⟨fun wide used => ⟨setAndReturn_wf wide used, setAndReturn_operandsIn wide used,
    setAndReturn_linked wide used⟩, ?_, ?_, ?_⟩
  · have hrun : (patchMemoryPrimitives (setAndReturn false false) false).isSome = true := by
      decide
    obtain ⟨⟨m', changed⟩, hm'⟩ := Option.isSome_iff_exists.mp hrun
    refine ⟨m', changed, hm', fun hkeeps => ?_⟩
    cases hkeeps.dumb_eq_true (setAndReturn_wf false false) (setAndReturn_linked false false)
  · have hrun : (patchMemoryPrimitives (setAndReturn false true) true).isSome = true := by
      decide
    obtain ⟨⟨m', changed⟩, hm'⟩ := Option.isSome_iff_exists.mp hrun
    refine ⟨m', changed, hm', fun hkeeps => ?_⟩
    obtain ⟨F, hfuns, hF⟩ := patchMemoryPrimitives_spec (setAndReturn_wf false true) hm'
    have hunused := (unused_iff (setAndReturn_wf false true) hfuns hF).mp hkeeps.unused
    have hret : ∃ i ∈ (setAndReturn false true).insts, selected i ≠ none ∧
        ∃ j ∈ (setAndReturn false true).insts, ∃ v ∈ j.remaining, v.instId = some i.id := by
      decide
    obtain ⟨i, hi, hsel, j, hj, v, hv, hid⟩ := hret
    exact hunused i hi hsel j hj v hv hid
  · have hrun : (patchMemoryPrimitives (setAndReturn true false) true).isSome = true := by
      decide
    obtain ⟨⟨m', changed⟩, hm'⟩ := Option.isSome_iff_exists.mp hrun
    refine ⟨m', changed, hm', fun hkeeps => ?_⟩
    obtain ⟨F, hfuns, hsame⟩ := hkeeps.same
    -- the call of `wmemset` is taken for one of `memset`
    have hwide : ∃ i ∈ (setAndReturn true false).insts, selected i = some .memset ∧
        calledPrimitive i = none ∧ ∃ args, i.op = .call (.function (FnId.named "wmemset")) args ∧
          args.map (sevenMachine.eval ⟨[0, 1], fun _ => 0⟩) = [0, 7, 1] := by
      exact ⟨_, List.mem_cons_self, by decide, by decide, _, rfl, by decide⟩
    obtain ⟨i, hi, hsel, hcall, args, hop, hargs⟩ := hwide
    have hne : selected i ≠ none := by simp [hsel]
    refine wmemset_not_actsAlike hop hargs ((sameEffect_iff (setAndReturn_wf true false)
      (setAndReturn_operandsIn true false) (setAndReturn_linked true false) hfuns
      (fun j hj => (hsame j hj).1) hi (setAndReturn_folds true false i hi hne) hsel).mp
      ((hsame i hi).2 hne) ((selected_of_not_called hcall).mp hne))

end Hippocrates

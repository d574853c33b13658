import Mathlib.Tactic
import Hippocrates.IR.Flushes
import Hippocrates.IR.Grow
import Hippocrates.IR.Persist

/-!
What comes directly after an instruction.

* `StartsFlush`, `StartsFence`: instructions that begin with a flush of an address, or with a fence.
  The tool puts a `clwb` and an `sfence`, and a program may have flushes and fences of its own.
* `FollowedBy`: what comes after an instruction of a function is as a predicate says.
* `FlushedBlock.startsFlush_iff`: in a clone, after the copy of a store comes a flush of its pointer
  if the store is a flush point, or comes before one in the cloned function.
* `startsFence_redirected_iff`: after a call comes a fence if one is inserted there, or was.
-/

namespace Hippocrates

/-- `utils::isFence`. -/
def Instr.isFence (i : Instr) : Bool := checkInstrinicInst i ["sfence"]

/-- The instructions begin with a flush of the address, or of a cast of it. -/
inductive StartsFlush (v : Value) : List Instr → Prop
  | direct {i : Instr} {rest : List Instr} {callee : Callee} {w : Value} {args : List Value}
      (hflush : isFlush i = true) (hi : i.op = .call callee (w :: args))
      (hw : w = v ∨ v.constCast = some w) : StartsFlush v (i :: rest)
  | cast {c i : Instr} {rest : List Instr} {callee : Callee} {args : List Value} {ty : Ty}
      (hc : c.op = .bitCast v ty) (hflush : isFlush i = true)
      (hi : i.op = .call callee (.inst c.id ty :: args)) : StartsFlush v (c :: i :: rest)

lemma StartsFlush.exists_isFlush {v : Value} {rest : List Instr} (h : StartsFlush v rest) :
    ∃ i ∈ rest, isFlush i = true := by
  cases h with
  | direct hflush _ _ => exact ⟨_, List.mem_cons_self, hflush⟩
  | cast _ hflush _ => exact ⟨_, List.mem_cons_of_mem _ List.mem_cons_self, hflush⟩

/-- The instructions begin with a fence. -/
def StartsFence (rest : List Instr) : Prop := ∃ i ∈ rest.head?, i.isFence = true

/-- In the function what comes after the instruction `x` is as `P` says. -/
def FollowedBy (m : Module) (g : FnId) (x : InstId) (P : List Instr → Prop) : Prop :=
  ∃ pre i rest, (g, pre ++ i :: rest) ∈ m.blockList ∧ i.id = x ∧ P rest

/-- There is one place of an instruction. -/
lemma Module.WF.followedBy_iff {m : Module} (hwf : m.WF) {g : FnId} {pre rest : List Instr}
    {i : Instr} (hb : (g, pre ++ i :: rest) ∈ m.blockList) {P : List Instr → Prop} :
    FollowedBy m g i.id P ↔ P rest := by
  refine ⟨?_, fun h => ⟨pre, i, rest, hb, rfl, h⟩⟩
  rintro ⟨pre', j, rest', hb', hid, hP⟩
  have hi := Module.mem_insts_of_blockList hb (List.mem_append_right pre List.mem_cons_self)
  have hj := Module.mem_insts_of_blockList hb' (List.mem_append_right pre' List.mem_cons_self)
  obtain rfl := hwf.eq_of_id hj hi hid
  have hpar := (hwf.parent_iff hi).mpr ⟨hb, List.mem_append_right pre List.mem_cons_self⟩
  rw [(hwf.parent_iff hi).mpr ⟨hb', List.mem_append_right pre' List.mem_cons_self⟩] at hpar
  obtain ⟨-, hsame⟩ := Prod.mk.inj (Option.some.inj hpar)
  have hafter : rest' = rest := by
    rw [← afterInst_append_cons (hwf.nodup_block hb'), hsame,
      afterInst_append_cons (hwf.nodup_block hb)]
  exact hafter ▸ hP

/-! ### Flushes in a clone -/

section Clone

variable {k : ℕ} {P : InstId → Prop} {b b' : Block} {i : Instr} {v : Value}

lemma FnId.clone_right_injective (k : ℕ) : Function.Injective (FnId.clone k) := by
  rintro ⟨root, copies⟩ ⟨root', copies'⟩ h
  simpa [FnId.clone] using h

lemma Value.copy_injective (k : ℕ) : Function.Injective (Value.copy k) := by
  intro v w h
  cases v <;> cases w <;> simp only [Value.copy, reduceCtorEq, Value.inst.injEq,
    Value.alloca.injEq, Value.arg.injEq, (InstId.copy_injective k).eq_iff,
    (FnId.clone_right_injective k).eq_iff, Value.function.injEq, Value.constant.injEq] at h ⊢
  all_goals exact h

lemma isFlush_copy (k : ℕ) (i : Instr) : isFlush (i.copy k) = isFlush i := by
  obtain ⟨id, op⟩ := i
  cases op with
  | call callee args => cases callee <;> rfl
  | _ => rfl

lemma Value.constCast_copy {w : Value} : (v.copy k).constCast = some (w.copy k) ↔
    v.constCast = some w := by
  cases v <;> cases w <;> simp [Value.copy, Value.constCast]

/-- The tool's flush. -/
lemma startsFlush_flushInstrs (n : ℕ) (v : Value) (rest : List Instr) :
    StartsFlush v (flushInstrs n v ++ rest) := by
  rw [flushInstrs]
  split_ifs
  · exact .direct rfl rfl (.inl rfl)
  · split
    · rename_i w hw
      exact .direct rfl rfl (.inr hw)
    · exact .cast rfl rfl rfl

/-- The instructions of a clone after the copy of an instruction. -/
lemma FlushedBlock.split {pre rest : Block} (h : FlushedBlock k P (pre ++ i :: rest) b') :
    ∃ pre' flush rest', b' = pre' ++ i.copy k :: (flush ++ rest') ∧ FlushedBlock k P rest rest' ∧
      (¬ P i.id ∧ flush = [] ∨
        P i.id ∧ ∃ p n, i.pointerOperand = some p ∧ flush = flushInstrs n (p.copy k)) := by
  induction pre generalizing b' with
  | nil =>
      cases h with
      | copy hi h => exact ⟨[], [], _, rfl, h, .inl ⟨hi, rfl⟩⟩
      | flush hi hp n h => exact ⟨[], _, _, rfl, h, .inr ⟨hi, _, n, hp, rfl⟩⟩
  | cons j pre ih =>
      cases h with
      | copy hj h =>
          obtain ⟨pre', flush, rest', rfl, hrest⟩ := ih h
          exact ⟨j.copy k :: pre', flush, rest', rfl, hrest⟩
      | @flush _ p _ _ hj hp n h =>
          obtain ⟨pre', flush, rest', rfl, hrest⟩ := ih h
          exact ⟨j.copy k :: (flushInstrs n (p.copy k) ++ pre'), flush, rest', by simp, hrest⟩

/-- The block of a clone begins with the copy of the first instruction. -/
lemma FlushedBlock.of_cons (h : FlushedBlock k P (i :: b) b') :
    ∃ rest', b' = i.copy k :: rest' ∧ (¬ P i.id → FlushedBlock k P b rest') := by
  cases h with
  | copy hi h => exact ⟨_, rfl, fun _ => h⟩
  | flush hi hp n h => exact ⟨_, rfl, fun hnot => absurd hi hnot⟩

lemma FlushedBlock.to_cons {j : Instr} {rest' : Block} (h : FlushedBlock k P b (j :: rest')) :
    ∃ i rest, b = i :: rest ∧ j = i.copy k ∧ (¬ P i.id → FlushedBlock k P rest rest') := by
  cases h with
  | copy hi h => exact ⟨_, _, rfl, rfl, fun _ => h⟩
  | flush hi hp n h => exact ⟨_, _, rfl, rfl, fun hnot => absurd hi hnot⟩

lemma Opcode.copy_eq_call {o : Opcode} {callee : Callee} {w : Value} {args : List Value}
    (h : o.copy k = .call callee (w :: args)) :
    ∃ callee₀ w₀ args₀, o = .call callee₀ (w₀ :: args₀) ∧ w = w₀.copy k := by
  cases o with
  | call callee₀ args₀ =>
      obtain ⟨-, hargs⟩ := Opcode.call.inj h
      cases args₀ with
      | nil => cases hargs
      | cons w₀ args₀ => exact ⟨callee₀, w₀, args₀, rfl, (List.cons.inj hargs).1.symm⟩
  | _ => cases h

lemma Opcode.copy_eq_bitCast {o : Opcode} {w : Value} {ty : Ty} (h : o.copy k = .bitCast w ty) :
    ∃ v, o = .bitCast v ty ∧ w = v.copy k := by
  cases o with
  | bitCast v ty' =>
      obtain ⟨rfl, rfl⟩ := Opcode.bitCast.inj h
      exact ⟨v, rfl, rfl⟩
  | _ => cases h

/-- The copies of instructions that begin with a flush begin with a flush of the copy. -/
lemma FlushedBlock.startsFlush_iff (h : FlushedBlock k P b b')
    (hP : ∀ j ∈ b, P j.id → j.pointerOperand.isSome = true) :
    StartsFlush (v.copy k) b' ↔ StartsFlush v b := by
  have hcast : ∀ c ∈ b, ∀ w ty, c.op = .bitCast w ty → ¬ P c.id := by
    intro c hc w ty hop hPc
    have hptr := hP c hc hPc
    rw [Instr.pointerOperand, hop] at hptr
    cases hptr
  constructor
  · intro hstart
    cases hstart with
    | direct hflush hop hw =>
        obtain ⟨i, rest, rfl, rfl, -⟩ := h.to_cons
        obtain ⟨callee, w, args, hi, rfl⟩ := Opcode.copy_eq_call hop
        refine .direct (isFlush_copy k i ▸ hflush) hi ?_
        exact hw.imp (fun heq => Value.copy_injective k heq) Value.constCast_copy.mp
    | cast hc hflush hop =>
        obtain ⟨c, rest, rfl, rfl, hrest⟩ := h.to_cons
        obtain ⟨w, hbit, hv⟩ := Opcode.copy_eq_bitCast hc
        obtain rfl := Value.copy_injective k hv
        -- a cast is no flush point, so the copy of the next instruction is next
        obtain ⟨i, rest', rfl, rfl, -⟩ :=
          (hrest (hcast c List.mem_cons_self v _ hbit)).to_cons
        obtain ⟨callee, w, args, hi, hw⟩ := Opcode.copy_eq_call hop
        obtain rfl : Value.inst c.id _ = w := Value.copy_injective k hw
        exact .cast hbit (isFlush_copy k i ▸ hflush) hi
  · intro hstart
    cases hstart with
    | @direct i rest callee w args hflush hop hw =>
        obtain ⟨rest', rfl, -⟩ := h.of_cons
        have hcopy : (i.copy k).op = .call (callee.copy k) (w.copy k :: args.map (Value.copy k)) :=
          congrArg (Opcode.copy k) hop
        exact .direct ((isFlush_copy k i).trans hflush) hcopy
          (hw.imp (congrArg (Value.copy k)) Value.constCast_copy.mpr)
    | @cast c i rest callee args ty hc hflush hop =>
        obtain ⟨rest', rfl, hrest⟩ := h.of_cons
        obtain ⟨rest'', rfl, -⟩ := (hrest (hcast c List.mem_cons_self v ty hc)).of_cons
        have hbit : (c.copy k).op = .bitCast (v.copy k) ty := congrArg (Opcode.copy k) hc
        have hcopy : (i.copy k).op =
            .call (callee.copy k) (.inst (c.copy k).id ty :: args.map (Value.copy k)) :=
          congrArg (Opcode.copy k) hop
        exact .cast hbit ((isFlush_copy k i).trans hflush) hcopy

end Clone

/-! ### Fences after redirected calls -/

section Fence

/-- Of a call the ID of the called function decides. -/
lemma isFence_call (n : InstId) (f : FnId) (args : List Value) :
    Instr.isFence ⟨n, .call (.function f) args⟩ =
      (f.getIntrinsicID != .not_intrinsic && hasSubstring f.getIntrinsicID.name "sfence") := by
  obtain ⟨root, copies⟩ := f
  cases root with
  | named name => rfl
  | intrinsic id => simp [Instr.isFence, checkInstrinicInst, Instr.getCalledFunction, FnId.fullName,
      FnId.getIntrinsicID]

/-- The tool's fence. -/
lemma isFence_sfenceCall (n : ℕ) : (sfenceCall n).isFence = true :=
  (isFence_call (InstId.ins n) (FnId.intrinsic .x86_sse_sfence) []).trans (by decide)

lemma isFence_redirect {ρ : InstId → Option FnId} {j : Instr} (hcallee : ∀ g, ρ j.id = some g →
    ∃ f, j.getCalledFunction = some f ∧ g.getIntrinsicID = f.getIntrinsicID) :
    (redirect ρ j).isFence = j.isFence := by
  rw [redirect]
  cases hρ : ρ j.id with
  | none => rfl
  | some g =>
      obtain ⟨f, hf, hid⟩ := hcallee g hρ
      obtain ⟨n, op⟩ := j
      cases op with
      | call callee args =>
          cases callee with
          | function f' =>
              obtain rfl := Option.some.inj hf
              exact (isFence_call n g args).trans (hid ▸ (isFence_call n f' args).symm)
          | _ => cases hf
      | _ => cases hf

/-- After the calls are redirected and a fence is inserted after one of them. -/
lemma startsFence_redirected_iff {ρ : InstId → Option FnId} {r : InstId} {n : ℕ}
    {rest : List Instr} (hcallee : ∀ j ∈ rest, ∀ g, ρ j.id = some g →
      ∃ f, j.getCalledFunction = some f ∧ g.getIntrinsicID = f.getIntrinsicID) :
    StartsFence ((rest.map (redirect ρ)).flatMap (insertedAfter r [sfenceCall n])) ↔
      StartsFence rest := by
  cases rest with
  | nil => exact Iff.rfl
  | cons j rest =>
      have hhead : ((List.map (redirect ρ) (j :: rest)).flatMap
          (insertedAfter r [sfenceCall n])).head? = some (redirect ρ j) := by
        rw [List.map_cons, List.flatMap_cons, insertedAfter]
        split_ifs <;> rfl
      rw [StartsFence, hhead, StartsFence]
      simp [isFence_redirect (hcallee j List.mem_cons_self)]

end Fence

end Hippocrates

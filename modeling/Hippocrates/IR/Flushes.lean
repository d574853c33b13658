import Mathlib.Tactic
import Hippocrates.IR.Erase
import Hippocrates.IR.Primitives

/-!
The tests of `PassUtils.cpp` that tell flushes.

* `getFlush`, `checkInlineAsmEq`, `checkInstrinicInst`, `isFlush`: the tests.
* `isFlush_call`: of a direct call the ID of the called function decides.
* `isFlush_erases`: what an instruction of a repaired program erases to is a flush if and only if
  it is one.
-/

namespace Hippocrates

/-! ### The tests -/

/-- `getFlush`: the intrinsic a call flushes with. -/
def getFlush (i : Instr) : Option FnId :=
  match i.getCalledFunction with
  | none => none
  | some f =>
    if f.getIntrinsicID = .x86_clwb ∨ f.getIntrinsicID = .other "llvm.x86.clflushopt" ∨
        f.getIntrinsicID = .other "llvm.x86.sse2.clflush" then some f
    else none

/-- The call is of inline assembly with one of the texts. -/
def checkInlineAsmEq (i : Instr) (texts : List String) : Bool :=
  match i.op with
  | .call (.inlineAsm text) _ => texts.contains text
  | _ => false

/-- The call is of an intrinsic whose name contains one of the names. -/
def checkInstrinicInst (i : Instr) (names : List String) : Bool :=
  match i.getCalledFunction with
  | none => false
  | some f => f.getIntrinsicID != .not_intrinsic && names.any (hasSubstring f.fullName)

def isFlush (i : Instr) : Bool :=
  checkInstrinicInst i ["clflush"] ||
    checkInlineAsmEq i [".byte 0x66; clflush $0", ".byte 0x66; xsaveopt $0"] ||
    (getFlush i).isSome

/-- The intrinsics whose calls are flushes. -/
def IntrinsicID.isFlush (id : IntrinsicID) : Bool :=
  (id != .not_intrinsic && hasSubstring id.name "clflush") || id == .x86_clwb ||
    id == .other "llvm.x86.clflushopt" || id == .other "llvm.x86.sse2.clflush"

section Erased

variable {G : GenEnv}

/-- The ID of the called function decides. -/
lemma isFlush_call (n : InstId) (f : FnId) (args : List Value) :
    isFlush ⟨n, .call (.function f) args⟩ = f.getIntrinsicID.isFlush := by
  have hget : (getFlush ⟨n, .call (.function f) args⟩).isSome =
      (f.getIntrinsicID == .x86_clwb || f.getIntrinsicID == .other "llvm.x86.clflushopt" ||
        f.getIntrinsicID == .other "llvm.x86.sse2.clflush") := by
    simp only [getFlush, Instr.getCalledFunction]
    split_ifs with hid
    · rcases hid with hid | hid | hid <;> simp [hid]
    · push Not at hid
      simp [hid]
  have hcheck : checkInstrinicInst ⟨n, .call (.function f) args⟩ ["clflush"] =
      (f.getIntrinsicID != .not_intrinsic && hasSubstring f.getIntrinsicID.name "clflush") := by
    obtain ⟨root, copies⟩ := f
    cases root with
    | named name => rfl
    | intrinsic id => simp [checkInstrinicInst, Instr.getCalledFunction, FnId.fullName,
        FnId.getIntrinsicID]
  rw [isFlush, hget, hcheck, IntrinsicID.isFlush]
  simp [checkInlineAsmEq, Bool.or_assoc]

/-- The clone or the persistent version of a function is called by a flush if the function is. -/
lemma isFlush_renames {g f : FnId} (h : Renames G g f) :
    g.getIntrinsicID.isFlush = f.getIntrinsicID.isFlush := by
  cases h with
  | clone => rfl
  | memcpy hid => rw [hid]; decide
  | memset hid => rw [hid]; decide
  | memmove hid => rw [hid]; decide
  | declaration hid => rw [hid]; rfl

lemma isFlush_renamed {g f : FnId} (h : Relation.ReflTransGen (Renames G) g f) :
    g.getIntrinsicID.isFlush = f.getIntrinsicID.isFlush := by
  induction h with
  | refl => rfl
  | tail _ hlast ih => exact ih.trans (isFlush_renames hlast)

lemma isFlush_strip (n n' : InstId) (o : Opcode) : isFlush ⟨n, o.strip⟩ = isFlush ⟨n', o⟩ := by
  cases o with
  | call callee args => cases callee with
    | function f => rw [Opcode.strip, Callee.strip, isFlush_call, isFlush_call]
    | _ => rfl
  | _ => rfl

/-- **What an instruction erases to** is a flush if and only if it is one. -/
lemma isFlush_erases {j i : Instr} (h : ErasesInstr G j i) : isFlush j = isFlush i := by
  rw [← isFlush_strip i.id j.id j.op]
  rcases h.op with hop | ⟨g, f, args, hj, hi, hren⟩
  · rw [hop]
  · obtain ⟨n, o⟩ := i
    obtain rfl : o = _ := hi
    rw [hj, isFlush_call, isFlush_call]
    exact isFlush_renamed hren

end Erased

end Hippocrates

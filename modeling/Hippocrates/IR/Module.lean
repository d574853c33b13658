import Mathlib.Tactic

/-!
The part of LLVM IR the fix generator works on: modules of functions, functions of basic
blocks, blocks of instructions.

Pointers to instructions and functions are names (`InstId`, `FnId`). A name keeps what
`llvm::CloneFunction` made of it: `copies` lists the clonings it went through, latest first,
and `stripped` forgets them. An instruction inserted by the tool is marked in its name. The
intrinsics of LLVM are named by their ID and are functions without a body.

* `Instr.isDebug`, `nextNode`, `nextNonDebug`: how `llvm::Instruction` walks a block.
* `FixLoc` of `BugReports.hpp`, with `isValid` and `insts`.
-/

namespace Hippocrates

/-- The name of an instruction. -/
structure InstId where
  num : ℕ
  inserted : Bool
  copies : List ℕ
deriving DecidableEq

/-- `llvm::Intrinsic::ID`. -/
inductive IntrinsicID where
  | not_intrinsic
  | memcpy
  | memset
  | memmove
  | x86_clwb
  | x86_sse_sfence
  | dbg_declare
  | dbg_value
  | dbg_label
  | other (name : String)
deriving DecidableEq

/-- The name of a function before any cloning. -/
inductive FnRoot where
  | named (name : String)
  | intrinsic (id : IntrinsicID)
deriving DecidableEq

/-- The name of a function. -/
structure FnId where
  root : FnRoot
  copies : List ℕ
deriving DecidableEq

namespace InstId

/-- An instruction of the original module. -/
def orig (n : ℕ) : InstId := ⟨n, false, []⟩

/-- The `n`-th name of an inserted instruction. -/
def ins (n : ℕ) : InstId := ⟨n, true, []⟩

/-- The name in the `k`-th clone. -/
def copy (k : ℕ) (i : InstId) : InstId := { i with copies := k :: i.copies }

/-- The name without the clonings. -/
def stripped (i : InstId) : InstId := { i with copies := [] }

end InstId

namespace FnId

/-- A function known by its name only. -/
def named (name : String) : FnId := ⟨.named name, []⟩

def intrinsic (id : IntrinsicID) : FnId := ⟨.intrinsic id, []⟩

/-- The `k`-th clone. -/
def clone (k : ℕ) (f : FnId) : FnId := { f with copies := k :: f.copies }

/-- The function it was cloned from in the end. -/
def stripped (f : FnId) : FnId := { f with copies := [] }

def getIntrinsicID (f : FnId) : IntrinsicID :=
  match f.root with
  | .named _ => .not_intrinsic
  | .intrinsic id => id

end FnId

/-- The types the generator tells apart. -/
inductive Ty where
  | i8Ptr
  | other (name : String)
deriving DecidableEq

namespace Ty

/-- The text of a pointer type ends with a star. -/
def isPointerTy : Ty → Bool
  | i8Ptr => true
  | other name => name.toList.getLast? == some '*'

/-- The text of a vector type stands in angle brackets; that of a packed struct has braces in
them. -/
def isVectorTy : Ty → Bool
  | i8Ptr => false
  | other name =>
    name.toList.head? == some '<' && name.toList.getLast? == some '>' &&
      (name.toList.drop 1).head? != some '{'

end Ty

/-- A value, with its type: the result of an instruction, an argument, a function, or another
constant (a global variable, a null pointer). Stack slots are told apart from the other
instructions. -/
inductive Value where
  | inst (id : InstId) (ty : Ty)
  | alloca (id : InstId) (ty : Ty)
  | arg (fn : FnId) (n : ℕ) (ty : Ty)
  | function (f : FnId)
  | constant (name : String) (ty : Ty)
deriving DecidableEq

namespace Value

def getType : Value → Ty
  | inst _ ty => ty
  | alloca _ ty => ty
  | arg _ _ ty => ty
  | function _ => .other "function"
  | constant _ ty => ty

/-- `getType()->isPointerTy()`; the type of a function as a value is a pointer. -/
def isPointer : Value → Bool
  | function _ => true
  | v => v.getType.isPointerTy

def isAllocaInst : Value → Bool
  | alloca _ _ => true
  | _ => false

def isFunction : Value → Bool
  | function _ => true
  | _ => false

/-- Functions are constants as well. -/
def isConstant : Value → Bool
  | function _ => true
  | constant _ _ => true
  | _ => false

end Value

/-- What a call calls. -/
inductive Callee where
  | function (f : FnId)
  | pointer (v : Value)
  | inlineAsm (text : String)
deriving DecidableEq

inductive Opcode where
  | store (value pointer : Value)
  | cmpxchg (pointer compare newVal : Value)
  | atomicrmw (operation : String) (pointer value : Value)
  | call (callee : Callee) (args : List Value)
  | bitCast (v : Value) (ty : Ty)
  | alloca
  | other (name : String) (operands : List Value)
deriving DecidableEq

structure Instr where
  id : InstId
  op : Opcode
deriving DecidableEq

namespace Instr

/-- The pointer operand of the instructions the generator flushes: `StoreInst` and
`AtomicCmpXchgInst`. -/
def pointerOperand (i : Instr) : Option Value :=
  match i.op with
  | .store _ pointer => some pointer
  | .cmpxchg pointer _ _ => some pointer
  | _ => none

/-- `dyn_cast<CallBase>`. -/
def isCallBase (i : Instr) : Bool :=
  match i.op with
  | .call _ _ => true
  | _ => false

/-- The function a call calls directly. -/
def getCalledFunction (i : Instr) : Option FnId :=
  match i.op with
  | .call (.function f) _ => some f
  | _ => none

/-- A debug intrinsic. -/
def isDebug (i : Instr) : Bool :=
  match i.getCalledFunction with
  | some f =>
    f.getIntrinsicID == .dbg_declare || f.getIntrinsicID == .dbg_value ||
      f.getIntrinsicID == .dbg_label
  | none => false

end Instr

/-- A basic block. -/
abbrev Block := List Instr

/-- The instructions after `i`. -/
def afterInst (b : Block) (i : InstId) : Block := (b.dropWhile fun j => j.id ≠ i).tail

/-- `getNextNode`. -/
def nextNode (b : Block) (i : InstId) : Option Instr := (afterInst b i).head?

/-- `getNextNonDebugInstruction`. -/
def nextNonDebug (b : Block) (i : InstId) : Option Instr :=
  (afterInst b i).find? fun j => !j.isDebug

/-- A function; one without blocks is a declaration. -/
structure Function where
  blocks : List Block
deriving DecidableEq

def Function.isDeclaration (f : Function) : Bool := f.blocks.isEmpty

def Function.insts (f : Function) : List Instr := f.blocks.flatten

/-- A module: its functions, and the number of names given out by the tool. -/
structure Module where
  funs : List (FnId × Function)
  next : ℕ

namespace Module

/-- The function of a name. -/
def lookup (m : Module) (f : FnId) : Option Function :=
  (m.funs.find? fun p => p.1 == f).map Prod.snd

/-- The function and the block an instruction belongs to. -/
def parent (m : Module) (i : InstId) : Option (FnId × Block) :=
  (m.funs.flatMap fun p => p.2.blocks.map fun b => (p.1, b)).find? fun q =>
    q.2.any fun j => j.id == i

/-- `Instruction::getFunction`. -/
def getFunction (m : Module) (i : InstId) : Option FnId := (m.parent i).map Prod.fst

end Module

/-- A location for a fix: a range of instructions within one block. -/
structure FixLoc where
  first : InstId
  last : InstId

namespace FixLoc

/-- The location of a single instruction. -/
def single (i : InstId) : FixLoc := ⟨i, i⟩

/-- Both ends lie in one block. -/
def isValid (m : Module) (fl : FixLoc) : Bool :=
  match m.parent fl.first with
  | none => false
  | some (_, b) => b.any fun j => j.id == fl.last

/-- The instructions from `first` to `last`, debug instructions after `first` left out; `none`
if the walk runs off the block. -/
def insts (m : Module) (fl : FixLoc) : Option (List Instr) :=
  if !fl.isValid m then some []
  else
    match m.parent fl.first with
    | none => some []
    | some (_, b) =>
      match b.dropWhile fun j => j.id ≠ fl.first with
      | [] => some []
      | first :: rest =>
        let walk := first :: rest.filter fun j => !j.isDebug
        match nextNonDebug b fl.last with
        | none => some walk
        | some stop =>
          if walk.any fun j => j.id == stop.id then
            some (walk.takeWhile fun j => j.id ≠ stop.id)
          else none

end FixLoc

end Hippocrates

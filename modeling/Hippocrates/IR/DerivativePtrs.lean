import Mathlib.Tactic
import Hippocrates.Lib.Closure

/-!
`utils::getDerivativePtrs` of `PassUtils.cpp`, which adds to a set of pointers what is derived from
them.

* `UseGraph`: the values of a module with their users, and the operands of stores and loads.
* `getPtrsFromStoredLocs`: the loads from the locations that a pointer is stored to.
* `getDerivativePtrs`: the recursion. It goes on with the pointers found in the last round, whether
  they have been found before or not.
* `Derives`: one step, to a user of pointer type or to a load.

`getDerivativePtrs_computes_iff`: the set is closed under the steps in the end exactly when no value
is derived from itself; otherwise the recursion does not end.
-/

namespace Hippocrates

open Relation

/-- The values of a module. `storeInst` are the value and the pointer operand of a `StoreInst`,
`loadInst` is the pointer operand of a `LoadInst`. -/
structure UseGraph (V : Type*) where
  users : V → List V
  isPointerTy : V → Bool
  storeInst : V → Option (V × V)
  loadInst : V → Option V

namespace UseGraph

variable {V : Type*} [DecidableEq V] (G : UseGraph V)

/-- `getPtrsFromStoredLocs`. -/
def getPtrsFromStoredLocs (ptr : V) : Finset V :=
  ((G.users ptr).flatMap fun u =>
    match G.storeInst u with
    | none => []
    | some (value, store_loc) =>
      if ptr = value then (G.users store_loc).filter fun su => G.loadInst su = some store_loc
      else []).toFinset

/-- What is derived from one value, in one round. -/
def derived (v : V) : Finset V :=
  if !G.isPointerTy v then ∅
  else ((G.users v).filter G.isPointerTy).toFinset ∪ G.getPtrsFromStoredLocs v

/-- `getDerivativePtrs`, with a bound for the depth of the recursion. -/
def getDerivativePtrs : ℕ → Finset V → Option (Finset V)
  | 0, _ => none
  | n + 1, s =>
    if s = ∅ then some s
    else (getDerivativePtrs n (s.biUnion G.derived)).map fun der => s ∪ der

omit [DecidableEq V] in
/-- One step: to a user of pointer type, or to a load from where the pointer is stored. -/
inductive Derives : V → V → Prop
  | user {v u : V} (hv : G.isPointerTy v = true) (hu : u ∈ G.users v)
      (hptr : G.isPointerTy u = true) : Derives v u
  | load {v u loc l : V} (hv : G.isPointerTy v = true) (hu : u ∈ G.users v)
      (hstore : G.storeInst u = some (v, loc)) (hl : l ∈ G.users loc)
      (hload : G.loadInst l = some loc) : Derives v l

/-- The recursion ends, with the start and everything derived from it. -/
def Computes (s : Finset V) : Prop :=
  ∃ n t, G.getDerivativePtrs n s = some t ∧ ∀ b, b ∈ t ↔ ∃ a ∈ s, ReflTransGen G.Derives a b

variable {G} {s t : Finset V} {v l : V} {n : ℕ}

lemma mem_getPtrsFromStoredLocs : l ∈ G.getPtrsFromStoredLocs v ↔
    ∃ u ∈ G.users v, ∃ loc, G.storeInst u = some (v, loc) ∧ l ∈ G.users loc ∧
      G.loadInst l = some loc := by
  rw [getPtrsFromStoredLocs, List.mem_toFinset, List.mem_flatMap]
  refine exists_congr fun u => and_congr_right fun _ => ?_
  cases hstore : G.storeInst u with
  | none => simp
  | some p =>
      obtain ⟨value, store_loc⟩ := p
      dsimp only
      split_ifs with hvalue
      · subst hvalue
        simp only [List.mem_filter, decide_eq_true_eq, Option.some.injEq, Prod.mk.injEq, true_and]
        constructor
        · exact fun h => ⟨store_loc, rfl, h⟩
        · rintro ⟨loc, rfl, h⟩
          exact h
      · refine iff_of_false List.not_mem_nil ?_
        rintro ⟨loc, heq, -⟩
        simp only [Option.some.injEq, Prod.mk.injEq] at heq
        exact hvalue heq.1.symm

/-- A round takes the steps. -/
lemma step_derived : Closure.Step G.derived = G.Derives := by
  funext v u
  rw [Closure.Step, derived, eq_iff_iff]
  cases hv : G.isPointerTy v with
  | false =>
      refine iff_of_false (Finset.notMem_empty u) fun h => ?_
      cases h with
      | user hv' => simp [hv] at hv'
      | load hv' => simp [hv] at hv'
  | true =>
      rw [if_neg (by simp), Finset.mem_union, List.mem_toFinset, List.mem_filter,
        mem_getPtrsFromStoredLocs]
      constructor
      · rintro (⟨hu, hptr⟩ | ⟨w, hw, loc, hstore, hl, hload⟩)
        · exact .user hv hu hptr
        · exact .load hv hw hstore hl hload
      · rintro (⟨-, hu, hptr⟩ | ⟨-, hw, hstore, hl, hload⟩)
        · exact .inl ⟨hu, hptr⟩
        · exact .inr ⟨_, hw, _, hstore, hl, hload⟩

lemma getDerivativePtrs_eq : G.getDerivativePtrs n s = Closure.collect G.derived n s := by
  induction n generalizing s with
  | zero => rfl
  | succ n ih => rw [getDerivativePtrs, Closure.collect, ih]

/-- Where the recursion ends, the set is the right one. -/
lemma computes_iff_ends : G.Computes s ↔ ∃ n t, Closure.collect G.derived n s = some t := by
  constructor
  · rintro ⟨n, t, ht, -⟩
    exact ⟨n, t, getDerivativePtrs_eq.symm.trans ht⟩
  · rintro ⟨n, t, ht⟩
    refine ⟨n, t, getDerivativePtrs_eq.trans ht, fun b => ?_⟩
    rw [Closure.mem_collect_iff ht, Closure.Reached, step_derived (G := G)]

/-- **Derivative pointers are computed** exactly when nothing that is derived from the start is
derived from itself. -/
theorem getDerivativePtrs_computes_iff [Fintype V] : G.Computes s ↔
    ∀ b, (∃ a ∈ s, ReflTransGen G.Derives a b) → ¬ TransGen G.Derives b b := by
  simp only [computes_iff_ends, Closure.exists_collect_iff, Closure.Reached, step_derived]

/-- The pointers of a loop that walks over a buffer: the argument, the phi of the loop, and the
pointer of the next round, which is computed from the phi and goes into it. -/
inductive LoopPtr where
  | buf
  | phi
  | next
deriving DecidableEq

instance : Fintype LoopPtr where
  elems := {.buf, .phi, .next}
  complete v := by cases v <;> decide

/-- The loop. -/
def phiLoop : UseGraph LoopPtr where
  users
    | .buf => [.phi]
    | .phi => [.next]
    | .next => [.phi]
  isPointerTy _ := true
  storeInst _ := none
  loadInst _ := none

/-- The recursion never ends on it. -/
theorem phiLoop_not_computes : ¬ phiLoop.Computes {.buf} := by
  simp only [computes_iff_ends, Closure.exists_collect_iff, Closure.Reached, step_derived]
  have hstep : ∀ v u, u ∈ phiLoop.users v → phiLoop.Derives v u := fun v u hu =>
    .user rfl hu rfl
  intro h
  refine h .phi ⟨.buf, Finset.mem_singleton_self _, ?_⟩
    (.tail (.single (hstep .phi .next ?_)) (hstep .next .phi ?_))
  · exact .single (hstep .buf .phi (by decide))
  · decide
  · decide

end UseGraph

end Hippocrates

import Mathlib.Tactic
import Hippocrates.IR.FixGenerator

/-!
`PmDesc` of `FlowAnalyzer.cpp` with its two sets of persistent values, the locals and the globals.
A context of the flow analysis has one, and hands the globals back when it returns.

* `AliasResult`: what the alias analysis knows.
* `addKnownPmValue`, `pointsToPm`, `doReturn`: the operations. `none` is an assertion that fails.
* `Represents`: locals and globals together, as the fix generator sees them.
-/

namespace Hippocrates

/-- What the alias analysis knows, and which values are globals. -/
structure AliasResult where
  getPointsToSet : Value → Option (List Value)
  isGlobalValue : Value → Bool

/-- The values known to be persistent. -/
structure PmSets where
  pm_locals : Finset Value
  pm_globals : Finset Value
deriving DecidableEq

namespace PmSets

/-- A new `PmDesc`. -/
def empty : PmSets := ⟨∅, ∅⟩

/-- The end of `addKnownPmValue`: what `pmv` points to is filtered and inserted. -/
def insertTargets (A : AliasResult) (d : PmSets) (pmv : Value) (ptsSet : List Value) : PmSets :=
  let filtered := ((PmDesc.targets pmv ptsSet).filter PmDesc.isFiltered).toFinset
  if A.isGlobalValue pmv then { d with pm_globals := d.pm_globals ∪ filtered }
  else { d with pm_locals := d.pm_locals ∪ filtered }

/-- `addKnownPmValue`. -/
def addKnownPmValue (A : AliasResult) (d : PmSets) (pmv : Value) : Option PmSets :=
  (A.getPointsToSet pmv).map (d.insertTargets A pmv) -- "could not get!"

/-- `getNumPmAliases`. -/
def getNumPmAliases (d : PmSets) (ptsSet : List Value) : ℕ :=
  ((d.pm_locals ∪ d.pm_globals) ∩ ptsSet.toFinset).card

/-- `pointsToPm`. -/
def pointsToPm (A : AliasResult) (d : PmSets) (pmv : Value) : Option Bool :=
  (A.getPointsToSet pmv).map fun ptsSet =>
    decide (0 < d.getNumPmAliases (PmDesc.targets pmv ptsSet)) -- "could not get!"

/-- `PmDesc::doReturn`: the globals of the callee. -/
def doReturn (d callee : PmSets) : PmSets := { d with pm_globals := callee.pm_globals }

/-- The fix generator does not tell locals from globals. -/
structure Represents (A : AliasResult) (d : PmSets) (e : PmDesc) : Prop where
  points : e.getPointsToSet = A.getPointsToSet
  values : ∀ v, v ∈ e.pmValues ↔ v ∈ d.pm_locals ∪ d.pm_globals

variable {A : AliasResult} {d : PmSets} {e : PmDesc} {pmv v : Value} {ptsSet : List Value}

lemma mem_insertTargets : v ∈ (d.insertTargets A pmv ptsSet).pm_locals ∪
      (d.insertTargets A pmv ptsSet).pm_globals ↔ v ∈ d.pm_locals ∪ d.pm_globals ∨
    v ∈ (PmDesc.targets pmv ptsSet).filter PmDesc.isFiltered := by
  rw [insertTargets]
  split_ifs
  · simp only [Finset.mem_union, List.mem_toFinset, or_assoc]
  · simp only [Finset.mem_union, List.mem_toFinset]
    tauto

/-- A value is added to both alike. -/
lemma Represents.addKnownPmValue {d' : PmSets} (h : Represents A d e)
    (hd : d.addKnownPmValue A pmv = some d') :
    ∃ e', e.addKnownPmValue pmv = some e' ∧ Represents A d' e' := by
  obtain ⟨ptsSet, hpts, rfl⟩ := Option.map_eq_some_iff.mp hd
  rw [PmDesc.addKnownPmValue, h.points, hpts]
  refine ⟨_, rfl, rfl, fun v => ?_⟩
  rw [mem_insertTargets, List.mem_append, h.values]

end PmSets

end Hippocrates

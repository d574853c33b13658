import Mathlib.Tactic
import Hippocrates.Lib.OrderedMap
import Hippocrates.IR.Module
import Hippocrates.Trace.TraceEvent

/-!
The fixes of `BugFixer.hpp`: `FixType`, `FixDesc` and the fix map, which is ordered by the
fix locations. The order of the locations (in the source that of the addresses) is a
parameter.

The correctness fixes are ordered by what they do (`FixType.Does`): flush the operation,
fence it, and do so for a whole call (`isPST`).
-/

namespace Hippocrates

/-- The kinds of fixes. -/
inductive FixType where
  | NO_FIX
  | ADD_FLUSH_ONLY
  | ADD_FENCE_ONLY
  | ADD_FLUSH_AND_FENCE
  | ADD_PERSIST_CALLSTACK_OPT_NOFENCE
  | ADD_PERSIST_CALLSTACK_OPT
  | REMOVE_FLUSH_ONLY
  | REMOVE_FLUSH_CONDITIONAL
deriving DecidableEq

namespace FixType

/-- The fixes that add a flush or a fence at their location. -/
def isPrimative (t : FixType) : Bool :=
  t == ADD_FLUSH_AND_FENCE || t == ADD_FLUSH_ONLY || t == ADD_FENCE_ONLY

/-- The persistent subprogram transformations. -/
def isPST (t : FixType) : Bool :=
  t == ADD_PERSIST_CALLSTACK_OPT || t == ADD_PERSIST_CALLSTACK_OPT_NOFENCE

/-- The fixes that add a fence. -/
def addsFence (t : FixType) : Bool :=
  t == ADD_PERSIST_CALLSTACK_OPT || t == ADD_FENCE_ONLY || t == ADD_FLUSH_AND_FENCE

/-- The correctness fixes. -/
def isCorrectness (t : FixType) : Bool := t.isPrimative || t.isPST

/-- Whether a correctness fix flushes, fences, and covers a whole call. -/
def does : FixType → Bool × Bool × Bool
  | ADD_FLUSH_ONLY => (true, false, false)
  | ADD_FENCE_ONLY => (false, true, false)
  | ADD_FLUSH_AND_FENCE => (true, true, false)
  | ADD_PERSIST_CALLSTACK_OPT_NOFENCE => (true, false, true)
  | ADD_PERSIST_CALLSTACK_OPT => (true, true, true)
  | _ => (false, false, false)

/-- The correctness fixes are ordered by what they do; the other types are incomparable. -/
instance : LE FixType :=
  ⟨fun a b => a = b ∨ (a.isCorrectness ∧ b.isCorrectness ∧ a.does ≤ b.does)⟩

instance (a b : FixType) : Decidable (a ≤ b) :=
  inferInstanceAs (Decidable (a = b ∨ (a.isCorrectness ∧ b.isCorrectness ∧ a.does ≤ b.does)))

lemma does_injective {a b : FixType} (ha : a.isCorrectness) (hb : b.isCorrectness)
    (h : a.does = b.does) : a = b := by
  cases a <;> cases b <;> first | rfl | (revert ha hb h; decide)

instance : PartialOrder FixType where
  le_refl a := .inl rfl
  le_trans a b c := by
    rintro (rfl | ⟨ha, hb, hab⟩) (rfl | ⟨hb', hc, hbc⟩)
    · exact .inl rfl
    · exact .inr ⟨hb', hc, hbc⟩
    · exact .inr ⟨ha, hb, hab⟩
    · exact .inr ⟨ha, hc, hab.trans hbc⟩
  le_antisymm a b := by
    rintro (rfl | ⟨ha, hb, hab⟩) (h | ⟨-, -, hba⟩)
    · rfl
    · rfl
    · exact h.symm
    · exact does_injective ha hb (le_antisymm hab hba)

/-- The correctness fix that does what one of the two does. -/
def join (a b : FixType) : FixType :=
  match a.does ⊔ b.does with
  | (true, false, false) => ADD_FLUSH_ONLY
  | (false, true, false) => ADD_FENCE_ONLY
  | (true, true, false) => ADD_FLUSH_AND_FENCE
  | (true, false, true) => ADD_PERSIST_CALLSTACK_OPT_NOFENCE
  | _ => ADD_PERSIST_CALLSTACK_OPT

lemma le_iff {a b : FixType} (ha : a.isCorrectness) :
    a ≤ b ↔ b.isCorrectness ∧ a.does ≤ b.does := by
  constructor
  · rintro (rfl | ⟨-, hb, hab⟩)
    · exact ⟨ha, le_rfl⟩
    · exact ⟨hb, hab⟩
  · exact fun ⟨hb, hab⟩ => .inr ⟨ha, hb, hab⟩

lemma join_isCorrectness (a b : FixType) : (join a b).isCorrectness := by
  rw [join]
  split <;> rfl

lemma does_join {a b : FixType} (ha : a.isCorrectness) (hb : b.isCorrectness) :
    (join a b).does = a.does ⊔ b.does := by
  cases a <;> cases b <;> first | rfl | (revert ha hb; decide)

/-- `join` is the least upper bound. -/
lemma isLUB_join {a b : FixType} (ha : a.isCorrectness) (hb : b.isCorrectness) :
    IsLUB {a, b} (join a b) := by
  refine ⟨?_, fun c hc => ?_⟩
  · rintro c (rfl | rfl)
    · rw [le_iff ha, does_join ha hb]
      exact ⟨join_isCorrectness _ _, le_sup_left⟩
    · rw [le_iff hb, does_join ha hb]
      exact ⟨join_isCorrectness _ _, le_sup_right⟩
  · have hac := (le_iff ha).mp (hc (by simp))
    have hbc := (le_iff hb).mp (hc (by simp))
    rw [le_iff (join_isCorrectness a b), does_join ha hb]
    exact ⟨hac.1, sup_le hac.2 hbc.2⟩

/-- A primitive fix is no subprogram. -/
lemma not_isPST_of_isPrimative {t : FixType} (h : t.isPrimative = true) : ¬ t.isPST = true := by
  revert h
  cases t <;> decide

lemma isPST_iff {t : FixType} : t.isPST = true ↔
    t = ADD_PERSIST_CALLSTACK_OPT ∨ t = ADD_PERSIST_CALLSTACK_OPT_NOFENCE := by
  simp [isPST]

end FixType

/-- `FixLoc::Compare`: locations are ordered by the addresses of their ends. -/
abbrev FixLoc.compare (address : InstId → ℕ) (h : address.Injective) : LinearOrder FixLoc :=
  LinearOrder.lift' (fun fl => toLex (address fl.first, address fl.last)) (by
    rintro ⟨a, b⟩ ⟨c, d⟩ heq
    simp only [toLex_inj, Prod.mk.injEq] at heq
    rw [h heq.1, h heq.2])

/-- A description of the fix to be applied. -/
structure FixDesc where
  type : FixType
  dynStack : List LocationInfo
  stackIdx : ℕ
  originals : List FixLoc
  points : List InstId

namespace FixDesc

/-- `FixDesc(t, l, si)`. -/
def mk' (t : FixType) (l : List LocationInfo) (si : ℕ) : FixDesc := ⟨t, l, si, [], []⟩

/-- `operator==`, which ignores the call stack. -/
def eq [LinearOrder FixLoc] (d f : FixDesc) : Bool :=
  d.type == f.type && d.originals == f.originals && d.points == f.points

end FixDesc

/-- The fix map. -/
abbrev FixMap [LinearOrder FixLoc] := OrderedMap FixLoc FixDesc

end Hippocrates

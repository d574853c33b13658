import Mathlib.Order.Bounds.Basic
import Mathlib.Tactic
import Hippocrates.IR.Meaning

/-!
`FunctionCleaner` of `FunctionCleaner.cpp`: in rounds, the functions that are trivially dead are
erased, until there are none.

* `LinkedModule`: a module with the linkage of its functions, their operands, and the constants.
* `Use`, `users`: the uses of a function, by instructions, by functions and by constants.
* `cleanRounds`, `runOnModule`: the pass. The bodies of the erased functions go with their uses, and
  so do their operands; a constant stays when what it is used by has gone.
* `Closed`: the sets of functions that contain whatever is used in them only.
* `ClosedDirectly`: the same, where no use by a constant counts as lying in a function.
* `Cleaned`: what the pass does.

`runOnModule_cleaned_iff`: the erased functions are the least set closed directly, whatever the
order of the functions. They are the dead ones exactly if no constant expression uses a dead one;
`castModule` has a dead function that is cast in the body of another.
-/

namespace Hippocrates

/-- A constant other than a function: a global variable or an alias, the address of a block, or an
expression, such as a cast. -/
inductive ConstantKind where
  | global
  | blockAddress
  | expr
deriving DecidableEq

/-- A constant with the values it uses: its initialiser or its operands. -/
structure Constant where
  name : String
  kind : ConstantKind
  operands : List Value
deriving DecidableEq

/-- A use: by an instruction in the body of `fn`, by the function `fn` itself, whose personality,
prefix and prologue are its operands, or by a constant. -/
inductive Use where
  | inst (fn : FnId) (id : InstId)
  | operand (fn : FnId)
  | constant (c : Constant)
deriving DecidableEq

namespace Use

def isBlockAddress : Use → Bool
  | constant c => c.kind == .blockAddress
  | _ => false

/-- The function that the use goes away with. -/
def owner : Use → Option FnId
  | inst fn _ => some fn
  | operand fn => some fn
  | constant _ => none

end Use

/-- The function is an operand, or called. -/
def Instr.usesFunction (i : Instr) (f : FnId) : Bool :=
  i.getCalledFunction == some f || i.op.operands.contains (.function f)

def Value.isConstantNamed (v : Value) (name : String) : Bool :=
  match v with
  | .constant n _ => n == name
  | _ => false

/-- A module with the functions of local, link-once or available-externally linkage, the operands of
its functions, and its constants. -/
structure LinkedModule where
  module : Module
  discardable : FnId → Bool
  operands : FnId → List Value
  constants : List Constant

namespace LinkedModule

/-- The names of the functions. -/
def names (m : LinkedModule) : List FnId := m.module.funs.map Prod.fst

/-- The uses of a value, by the instructions and as an operand. -/
def usersOf (m : LinkedModule) (byInst : Instr → Bool) (isOperand : Value → Bool) : List Use :=
  (m.module.funs.flatMap fun p => (p.2.insts.filter byInst).map fun i => .inst p.1 i.id) ++
    (m.names.filter fun g => (m.operands g).any isOperand).map .operand ++
      (m.constants.filter fun c => c.operands.any isOperand).map .constant

/-- `users()` of a function. -/
def users (m : LinkedModule) (f : FnId) : List Use :=
  m.usersOf (fun i => i.usesFunction f) fun v => v == .function f

/-- `users()` of a constant. -/
def constantUsers (m : LinkedModule) (c : Constant) : List Use :=
  m.usersOf (fun i => i.op.operands.any fun v => v.isConstantNamed c.name) fun v =>
    v.isConstantNamed c.name

/-- `isDefTriviallyDead`. -/
def isDefTriviallyDead (m : LinkedModule) (f : FnId) : Bool :=
  m.discardable f && (m.users f).all Use.isBlockAddress

/-- The module with other functions. -/
def withFuns (m : LinkedModule) (funs : List (FnId × Function)) : LinkedModule :=
  { m with module := { m.module with funs := funs } }

/-- The module with some of its functions. -/
def keep (m : LinkedModule) (P : FnId → Bool) : LinkedModule :=
  m.withFuns (m.module.funs.filter fun p => P p.1)

/-- `eraseFromParent`. -/
def eraseFromParent (m : LinkedModule) (f : FnId) : LinkedModule := m.keep fun g => g != f

/-- The rounds, with a bound for their number. -/
def cleanRounds : ℕ → LinkedModule → ℕ → Option (LinkedModule × ℕ)
  | 0, _, _ => none
  | n + 1, m, nremoved =>
    let toRemove := m.names.filter m.isDefTriviallyDead
    let changed := toRemove.length > 0
    let m' := toRemove.foldl eraseFromParent m
    if changed then cleanRounds n m' (nremoved + toRemove.length) else some (m', nremoved)

/-- `runOnModule`. -/
def runOnModule (m : LinkedModule) : Option (LinkedModule × Bool) :=
  (cleanRounds (m.names.length + 1) m 0).map fun r => (r.1, decide (r.2 > 0))

/-! ### Dead functions -/

/-- The functions that a use lies in, in the body or as an operand. A use by an expression lies
where the expression is used; the initialiser of a global variable lies in none. -/
inductive LiesIn (m : LinkedModule) : Use → Option FnId → Prop
  | inst {g : FnId} {i : InstId} : LiesIn m (.inst g i) (some g)
  | operand {g : FnId} : LiesIn m (.operand g) (some g)
  | global {c : Constant} (h : c.kind = .global) : LiesIn m (.constant c) none
  | expr {c : Constant} {u : Use} {place : Option FnId} (h : c.kind = .expr)
      (hu : u ∈ m.constantUsers c) (hplace : LiesIn m u place) : LiesIn m (.constant c) place

/-- The use lies in functions of the set only. -/
def Within (m : LinkedModule) (D : Set FnId) (u : Use) : Prop :=
  (∃ place, m.LiesIn u place) ∧ ∀ place, m.LiesIn u place → ∃ g ∈ D, place = some g

/-- A function of discardable linkage is in the set when all its uses other than block addresses lie
in functions of the set. -/
def Closed (m : LinkedModule) (D : Set FnId) : Prop :=
  ∀ f ∈ m.names, m.discardable f = true →
    (∀ u ∈ m.users f, u.isBlockAddress = false → m.Within D u) → f ∈ D

/-- The dead functions, the least closed set. -/
def dead (m : LinkedModule) : Set FnId := {f | ∀ D, m.Closed D → f ∈ D}

/-- A function of discardable linkage is in the set when all its uses other than block addresses go
away with functions of the set. -/
def ClosedDirectly (m : LinkedModule) (D : Set FnId) : Prop :=
  ∀ f ∈ m.names, m.discardable f = true →
    (∀ u ∈ m.users f, u.isBlockAddress = false → ∃ g ∈ D, u.owner = some g) → f ∈ D

/-- What a global variable or a function of the set uses, directly or through further functions. -/
inductive Reachable (m : LinkedModule) (K : Set FnId) : FnId → Prop
  | global {f : FnId} {u : Use} (h : u ∈ m.users f) (hu : m.LiesIn u none) : Reachable m K f
  | used {f g : FnId} {u : Use} (h : u ∈ m.users f) (hu : m.LiesIn u (some g)) (hg : g ∈ K) :
      Reachable m K f
  | step {f g : FnId} {u : Use} (h : u ∈ m.users f) (hu : m.LiesIn u (some g))
      (hg : Reachable m K g) : Reachable m K f

/-- The functions of `m` that `m'` lacks. -/
def removed (m m' : LinkedModule) : Set FnId := {f | f ∈ m.names ∧ f ∉ m'.names}

/-- `m'` is `m` without the functions that lose all their uses. -/
structure Cleaned (m m' : LinkedModule) : Prop where
  rest : m' = m.keep fun f => decide (f ∈ m'.names)
  least : IsLeast {D | m.ClosedDirectly D} (m.removed m')
  none_dead : ∀ f ∈ m'.names, m'.isDefTriviallyDead f = false
  reachable : ∀ f, m.Reachable {g | g ∈ m'.names} f → f ∉ m.removed m'

section Users

variable {m : LinkedModule} {f g : FnId} {u : Use} {P Q : FnId → Bool} {toRemove : List FnId}
  {byInst : Instr → Bool} {isOperand : Value → Bool}

lemma mem_names_keep : f ∈ (m.keep P).names ↔ f ∈ m.names ∧ P f = true := by
  simp only [names, keep, withFuns, List.mem_map, List.mem_filter]
  constructor
  · rintro ⟨p, ⟨hp, hP⟩, rfl⟩
    exact ⟨⟨p, hp, rfl⟩, hP⟩
  · rintro ⟨⟨p, hp, rfl⟩, hP⟩
    exact ⟨p, ⟨hp, hP⟩, rfl⟩

lemma length_names_keep : (m.keep P).names.length = (m.names.filter P).length := by
  rw [names, names, List.filter_map, List.length_map, List.length_map]
  rfl

lemma keep_congr (h : ∀ f ∈ m.names, P f = Q f) : m.keep P = m.keep Q := by
  rw [keep, keep]
  congr 1
  exact List.filter_congr fun p hp => h p.1 (List.mem_map_of_mem hp)

lemma keep_keep : (m.keep P).keep Q = m.keep fun f => P f && Q f := by
  rw [keep, keep, keep]
  simp only [withFuns, List.filter_filter, Bool.and_comm]

lemma keep_self (h : ∀ f ∈ m.names, P f = true) : m.keep P = m := by
  rw [keep, List.filter_eq_self.mpr fun p hp => h p.1 (List.mem_map_of_mem hp)]
  rfl

lemma isDefTriviallyDead_iff : m.isDefTriviallyDead f = true ↔
    m.discardable f = true ∧ ∀ u ∈ m.users f, u.isBlockAddress = true := by
  simp [isDefTriviallyDead]

/-- A use lies in a body that is there, is an operand of a function that is there, or is a
constant. -/
lemma mem_usersOf : u ∈ m.usersOf byInst isOperand ↔
    (∃ p ∈ m.module.funs, ∃ j ∈ p.2.insts, byInst j = true ∧ u = .inst p.1 j.id) ∨
      (∃ g ∈ m.names, (m.operands g).any isOperand = true ∧ u = .operand g) ∨
        ∃ c ∈ m.constants, c.operands.any isOperand = true ∧ u = .constant c := by
  simp only [usersOf, List.mem_append, List.mem_flatMap, List.mem_map, List.mem_filter, and_assoc,
    or_assoc, eq_comm]

lemma mem_names_of_usersOf (h : u ∈ m.usersOf byInst isOperand) (hg : u.owner = some g) :
    g ∈ m.names := by
  rcases mem_usersOf.mp h with ⟨p, hp, j, -, -, rfl⟩ | ⟨g', hg', -, rfl⟩ | ⟨c, -, -, rfl⟩
  · obtain rfl := Option.some.inj hg
    exact List.mem_map_of_mem hp
  · obtain rfl := Option.some.inj hg
    exact hg'
  · cases hg

/-- The uses that are left when only some functions are. -/
lemma mem_usersOf_keep : u ∈ (m.keep P).usersOf byInst isOperand ↔
    u ∈ m.usersOf byInst isOperand ∧ ∀ g, u.owner = some g → P g = true := by
  rw [mem_usersOf, mem_usersOf]
  constructor
  · rintro (⟨p, hp, j, hj, huse, rfl⟩ | ⟨g, hg, huse, rfl⟩ | ⟨c, hc, huse, rfl⟩)
    · obtain ⟨hp, hP⟩ := List.mem_filter.mp hp
      exact ⟨.inl ⟨p, hp, j, hj, huse, rfl⟩, fun g heq => Option.some.inj heq ▸ hP⟩
    · obtain ⟨hg, hP⟩ := mem_names_keep.mp hg
      exact ⟨.inr (.inl ⟨g, hg, huse, rfl⟩), fun g' heq => Option.some.inj heq ▸ hP⟩
    · exact ⟨.inr (.inr ⟨c, hc, huse, rfl⟩), fun g heq => by cases heq⟩
  · rintro ⟨⟨p, hp, j, hj, huse, rfl⟩ | ⟨g, hg, huse, rfl⟩ | ⟨c, hc, huse, rfl⟩, hP⟩
    · exact .inl ⟨p, List.mem_filter.mpr ⟨hp, hP _ rfl⟩, j, hj, huse, rfl⟩
    · exact .inr (.inl ⟨g, mem_names_keep.mpr ⟨hg, hP _ rfl⟩, huse, rfl⟩)
    · exact .inr (.inr ⟨c, hc, huse, rfl⟩)

/-- What goes away with a function lies in it, and nowhere else. -/
lemma liesIn_iff_of_owner (h : u.owner = some g) {place : Option FnId} :
    m.LiesIn u place ↔ place = some g := by
  cases u with
  | inst fn id =>
      obtain rfl := Option.some.inj h
      exact ⟨fun hlies => by cases hlies; rfl, fun heq => heq ▸ .inst⟩
  | operand fn =>
      obtain rfl := Option.some.inj h
      exact ⟨fun hlies => by cases hlies; rfl, fun heq => heq ▸ .operand⟩
  | constant c => cases h

lemma within_of_owner {D : Set FnId} (h : u.owner = some g) : m.Within D u ↔ g ∈ D := by
  simp only [Within, liesIn_iff_of_owner h, forall_eq, exists_eq, true_and]
  exact ⟨fun ⟨g', hg', heq⟩ => Option.some.inj heq ▸ hg', fun hg => ⟨g, hg, rfl⟩⟩

lemma Within.mono {D E : Set FnId} (h : m.Within D u) (hsub : D ⊆ E) : m.Within E u :=
  ⟨h.1, fun place hlies => (h.2 place hlies).imp fun _ hg => ⟨hsub hg.1, hg.2⟩⟩

/-- The sets closed directly contain less. -/
lemma Closed.closedDirectly {D : Set FnId} (h : m.Closed D) : m.ClosedDirectly D := by
  refine fun f hf hdis husers => h f hf hdis fun u hu hBA => ?_
  obtain ⟨g, hg, howner⟩ := husers u hu hBA
  exact (within_of_owner howner).mpr hg

lemma foldl_eraseFromParent :
    toRemove.foldl eraseFromParent m = m.keep fun f => decide (f ∉ toRemove) := by
  induction toRemove generalizing m with
  | nil => exact (keep_self (by simp)).symm
  | cons g toRemove ih =>
      rw [List.foldl_cons, ih, eraseFromParent, keep_keep]
      refine keep_congr fun f _ => ?_
      rw [Bool.eq_iff_iff]
      simp

end Users

/-! ### The rounds -/

/-- `m'` is on the way from `m`: it lacks some functions, all of which are in every set closed
directly. -/
structure Cleaning (m m' : LinkedModule) : Prop where
  rest : ∃ P, m' = m.keep P
  least : ∀ D, m.ClosedDirectly D → m.removed m' ⊆ D

section Rounds

variable {m m' : LinkedModule} {f : FnId} {u : Use} {n : ℕ}

/-- The functions a round leaves. -/
def cleanRound (m : LinkedModule) : LinkedModule := m.keep fun f => !m.isDefTriviallyDead f

lemma foldl_toRemove :
    (m.names.filter m.isDefTriviallyDead).foldl eraseFromParent m = m.cleanRound := by
  rw [foldl_eraseFromParent]
  refine keep_congr fun f hf => ?_
  rw [Bool.eq_iff_iff]
  simp [hf]

lemma Cleaning.refl (m : LinkedModule) : Cleaning m m where
  rest := ⟨fun _ => true, (keep_self fun _ _ => rfl).symm⟩
  least := fun _ _ _ hf => absurd hf.1 hf.2

lemma Cleaning.rest_eq (h : Cleaning m m') : m' = m.keep fun f => decide (f ∈ m'.names) := by
  obtain ⟨P, hP⟩ := h.rest
  conv_lhs => rw [hP]
  refine keep_congr fun f hf => ?_
  rw [Bool.eq_iff_iff, decide_eq_true_iff, hP, mem_names_keep]
  exact (and_iff_right hf).symm

lemma Cleaning.discardable_eq (h : Cleaning m m') : m'.discardable = m.discardable := by
  obtain ⟨P, rfl⟩ := h.rest
  rfl

lemma Cleaning.subset (h : Cleaning m m') (hf : f ∈ m'.names) : f ∈ m.names := by
  obtain ⟨P, rfl⟩ := h.rest
  exact (mem_names_keep.mp hf).1

lemma Cleaning.mem_users (h : Cleaning m m') :
    u ∈ m'.users f ↔ u ∈ m.users f ∧ ∀ g, u.owner = some g → g ∈ m'.names := by
  conv_lhs => rw [h.rest_eq, users, mem_usersOf_keep]
  simp [users]

/-- A function that is dead now is in every set closed directly. -/
lemma Cleaning.dead (h : Cleaning m m') (hf : f ∈ m'.names)
    (hdead : m'.isDefTriviallyDead f = true) {D : Set FnId} (hD : m.ClosedDirectly D) : f ∈ D := by
  obtain ⟨hdis, husers⟩ := isDefTriviallyDead_iff.mp hdead
  refine hD f (h.subset hf) (h.discardable_eq ▸ hdis) fun u hu hBA => ?_
  -- the use has gone, so its function has
  have hgone : ¬ ∀ g, u.owner = some g → g ∈ m'.names := by
    intro hin
    rw [husers u (h.mem_users.mpr ⟨hu, hin⟩)] at hBA
    cases hBA
  simp only [not_forall] at hgone
  obtain ⟨g, howner, hg⟩ := hgone
  exact ⟨g, h.least D hD ⟨mem_names_of_usersOf hu howner, hg⟩, howner⟩

/-- One round. -/
lemma Cleaning.step (h : Cleaning m m') : Cleaning m m'.cleanRound where
  rest := by
    obtain ⟨P, rfl⟩ := h.rest
    exact ⟨_, keep_keep⟩
  least := by
    intro D hD f hf
    by_cases hold : f ∈ m'.names
    · refine h.dead hold ?_ hD
      by_contra hdead
      exact hf.2 (mem_names_keep.mpr ⟨hold, by simpa using hdead⟩)
    · exact h.least D hD ⟨hf.1, hold⟩

/-- **The rounds end** when nothing is dead; the functions removed have been counted. -/
lemma exists_cleanRounds (nremoved : ℕ) (h : Cleaning m m') (hn : m'.names.length < n) :
    ∃ m₁ k, cleanRounds n m' nremoved = some (m₁, k) ∧ Cleaning m m₁ ∧
      (∀ f ∈ m₁.names, m₁.isDefTriviallyDead f = false) ∧
      k + m₁.names.length = nremoved + m'.names.length := by
  induction n generalizing m' nremoved with
  | zero => omega
  | succ n ih =>
      have hlen : (m'.names.filter m'.isDefTriviallyDead).length + m'.cleanRound.names.length =
          m'.names.length := by
        rw [cleanRound, length_names_keep]
        exact (List.length_eq_length_filter_add _).symm
      rw [cleanRounds, foldl_toRemove]
      split_ifs with hchanged
      -- each round but the last erases a function, which is the measure
      · obtain ⟨m₁, k, hrun, hclean, hdead, hk⟩ := ih _ h.step (by omega)
        exact ⟨m₁, k, hrun, hclean, hdead, by omega⟩
      · have hnil : m'.names.filter m'.isDefTriviallyDead = [] :=
          List.length_eq_zero_iff.mp (by omega)
        have halive : ∀ f ∈ m'.names, m'.isDefTriviallyDead f = false := by
          intro f hf
          simpa using List.filter_eq_nil_iff.mp hnil f hf
        have hself : m'.cleanRound = m' := keep_self fun f hf => by rw [halive f hf]; rfl
        rw [hself]
        exact ⟨m', nremoved, rfl, h, halive, rfl⟩

/-- When nothing is dead, what has been removed is closed directly. -/
lemma Cleaning.closedDirectly (h : Cleaning m m')
    (hdead : ∀ f ∈ m'.names, m'.isDefTriviallyDead f = false) :
    m.ClosedDirectly (m.removed m') := by
  refine fun f hf hdis husers => ⟨hf, fun hf' => ?_⟩
  have hd : m'.isDefTriviallyDead f = true := by
    refine isDefTriviallyDead_iff.mpr ⟨h.discardable_eq ▸ hdis, fun u hu => ?_⟩
    obtain ⟨hu, hin⟩ := h.mem_users.mp hu
    by_contra hBA
    obtain ⟨g, hg, howner⟩ := husers u hu (Bool.not_eq_true _ ▸ hBA)
    exact hg.2 (hin g howner)
  rw [hdead f hf'] at hd
  cases hd

end Rounds

/-! ### Least sets -/

section Least

variable {m m' : LinkedModule} {D E : Set FnId} {f : FnId}

/-- The dead functions are the least closed set. -/
lemma isLeast_dead (m : LinkedModule) : IsLeast {D | m.Closed D} m.dead := by
  refine ⟨fun f hf hdis husers D hD => hD f hf hdis fun u hu hBA => ?_, fun D hD f hf => hf D hD⟩
  exact (husers u hu hBA).mono fun g hg => hg D hD

/-- The uses of a function in the least set closed directly go away with the set. -/
lemma owner_of_isLeast (h : IsLeast {D | m.ClosedDirectly D} D) (hf : f ∈ D) :
    ∀ u ∈ m.users f, u.isBlockAddress = false → ∃ g ∈ D, u.owner = some g := by
  have hclosed : m.ClosedDirectly {f | f ∈ D ∧
      ∀ u ∈ m.users f, u.isBlockAddress = false → ∃ g ∈ D, u.owner = some g} := by
    intro f hf hdis husers
    have hin : ∀ u ∈ m.users f, u.isBlockAddress = false → ∃ g ∈ D, u.owner = some g :=
      fun u hu hBA => (husers u hu hBA).imp fun g hg => ⟨hg.1.1, hg.2⟩
    exact ⟨h.1 f hf hdis hin, hin⟩
  exact (h.2 hclosed hf).2

/-- The least set closed directly is the least closed set exactly if no expression uses a function
of the latter. -/
lemma isLeast_closed_iff (h : IsLeast {D | m.ClosedDirectly D} D) : IsLeast {D | m.Closed D} D ↔
    ∀ f ∈ m.dead, ∀ c, .constant c ∈ m.users f → c.kind = .blockAddress := by
  have hBA : ∀ {c : Constant}, Use.isBlockAddress (.constant c) = true ↔ c.kind = .blockAddress :=
    beq_iff_eq
  have hsub : D ⊆ m.dead := h.2 m.isLeast_dead.1.closedDirectly
  constructor
  · intro hleast f hf c hc
    rw [m.isLeast_dead.unique hleast] at hf
    by_contra hkind
    obtain ⟨g, -, howner⟩ := owner_of_isLeast h hf _ hc (Bool.not_eq_true _ ▸ mt hBA.mp hkind)
    cases howner
  · intro hdirect
    -- in the dead functions no use is by a constant, so the two closures agree
    have hclosed : m.Closed (m.dead ∩ D) := by
      intro f hf hdis husers
      have hdead : f ∈ m.dead := m.isLeast_dead.1 f hf hdis fun u hu hu' =>
        (husers u hu hu').mono Set.inter_subset_left
      refine ⟨hdead, h.1 f hf hdis fun u hu hu' => ?_⟩
      cases howner : u.owner with
      | some g => exact ⟨g, ((within_of_owner howner).mp (husers u hu hu')).2, rfl⟩
      | none =>
          cases u with
          | constant c => rw [hBA.mpr (hdirect f hdead c hu)] at hu'; cases hu'
          | inst _ _ => cases howner
          | operand _ => cases howner
    have heq : D = m.dead :=
      hsub.antisymm ((m.isLeast_dead.2 hclosed).trans Set.inter_subset_right)
    exact heq ▸ m.isLeast_dead

/-- Nothing removed is reachable. -/
lemma not_mem_removed_of_reachable (h : IsLeast {D | m.ClosedDirectly D} (m.removed m'))
    (hreach : m.Reachable {g | g ∈ m'.names} f) : f ∉ m.removed m' := by
  intro hf
  -- a use of a removed function lies in a removed function, and so on
  have hplace : ∀ {f u place}, f ∈ m.removed m' → u ∈ m.users f → m.LiesIn u place →
      ∃ g ∈ m.removed m', place = some g := by
    intro f u place hf hu hlies
    have hBA : u.isBlockAddress = false := by
      cases hlies with
      | inst => rfl
      | operand => rfl
      | global hkind => simp [Use.isBlockAddress, hkind]
      | expr hkind _ _ => simp [Use.isBlockAddress, hkind]
    obtain ⟨g, hg, howner⟩ := owner_of_isLeast h hf u hu hBA
    exact ⟨g, hg, (liesIn_iff_of_owner howner).mp hlies⟩
  induction hreach with
  | global hu hlies =>
      obtain ⟨g, -, heq⟩ := hplace hf hu hlies
      cases heq
  | used hu hlies hg =>
      obtain ⟨g', hg', heq⟩ := hplace hf hu hlies
      obtain rfl := Option.some.inj heq
      exact hg'.2 hg
  | step hu hlies _ ih =>
      obtain ⟨g', hg', heq⟩ := hplace hf hu hlies
      obtain rfl := Option.some.inj heq
      exact ih hg'

/-- When nothing is dead, what has been removed is the least set closed directly. -/
lemma Cleaning.cleaned (h : Cleaning m m')
    (hdead : ∀ f ∈ m'.names, m'.isDefTriviallyDead f = false) : Cleaned m m' where
  rest := h.rest_eq
  least := ⟨h.closedDirectly hdead, h.least⟩
  none_dead := hdead
  reachable := fun _ hreach => not_mem_removed_of_reachable ⟨h.closedDirectly hdead, h.least⟩ hreach

/-- The pass ends, and says whether it has removed a function. -/
lemma exists_runOnModule (m : LinkedModule) : ∃ m' changed, m.runOnModule = some (m', changed) ∧
    Cleaned m m' ∧ (changed = true ↔ (m.removed m').Nonempty) := by
  obtain ⟨m', k, hrun, hclean, hdead, hk⟩ :=
    exists_cleanRounds 0 (Cleaning.refl m) (Nat.lt_succ_self _)
  refine ⟨m', decide (k > 0), by rw [runOnModule, hrun]; rfl, hclean.cleaned hdead, ?_⟩
  have hlen : m'.names.length = (m.names.filter fun f => decide (f ∈ m'.names)).length := by
    conv_lhs => rw [hclean.rest_eq]
    exact length_names_keep
  have hsum := List.length_eq_length_filter_add (l := m.names) fun f => decide (f ∈ m'.names)
  have hcount : k = (m.names.filter fun f => !decide (f ∈ m'.names)).length := by omega
  rw [decide_eq_true_iff, hcount, gt_iff_lt, List.length_pos_iff_exists_mem]
  simp [removed, Set.Nonempty]

end Least

/-! ### The order of the functions -/

section Order

variable {m m₂ : LinkedModule} {D : Set FnId} {funs : List (FnId × Function)}

lemma mem_names_perm (h : funs.Perm m.module.funs) {f : FnId} :
    f ∈ (m.withFuns funs).names ↔ f ∈ m.names := (h.map Prod.fst).mem_iff

lemma mem_users_perm (h : funs.Perm m.module.funs) {f : FnId} {u : Use} :
    u ∈ (m.withFuns funs).users f ↔ u ∈ m.users f := by
  rw [users, users, mem_usersOf, mem_usersOf]
  refine or_congr (exists_congr fun p => and_congr_left fun _ => h.mem_iff) ?_
  exact or_congr_left (exists_congr fun g => and_congr_left fun _ => mem_names_perm h)

/-- The closed sets do not depend on the order of the functions. -/
lemma closedDirectly_perm (h : funs.Perm m.module.funs) :
    (m.withFuns funs).ClosedDirectly D ↔ m.ClosedDirectly D := by
  simp only [ClosedDirectly, mem_users_perm h, mem_names_perm h]
  exact Iff.rfl

end Order

/-- **The function cleaner removes what loses all its uses**, the least set closed directly, and the
order of the functions in the module makes no difference. It removes exactly the dead functions if
and only if no constant but a block address uses one of them. -/
theorem runOnModule_cleaned_iff (m : LinkedModule) : ∃ m' changed,
    m.runOnModule = some (m', changed) ∧ Cleaned m m' ∧
      (changed = true ↔ (m.removed m').Nonempty) ∧
      (∀ funs, funs.Perm m.module.funs → ∃ m₂, (m.withFuns funs).runOnModule = some (m₂, changed) ∧
        m₂.module.funs.Perm m'.module.funs) ∧
      (IsLeast {D | m.Closed D} (m.removed m') ↔
        ∀ f ∈ m.dead, ∀ c, .constant c ∈ m.users f → c.kind = .blockAddress) := by
  obtain ⟨m', changed, hrun, hclean, hchanged⟩ := exists_runOnModule m
  refine ⟨m', changed, hrun, hclean, hchanged, fun funs hperm => ?_,
    isLeast_closed_iff hclean.least⟩
  obtain ⟨m₂, changed₂, hrun₂, hclean₂, hchanged₂⟩ := exists_runOnModule (m.withFuns funs)
  have hleast₂ : IsLeast {D | m.ClosedDirectly D} ((m.withFuns funs).removed m₂) := by
    have hleast := hclean₂.least
    simp only [closedDirectly_perm hperm] at hleast
    exact hleast
  have hremoved := hleast₂.unique hclean.least
  -- the same functions are left, in the order in which they were given
  have hsame : ∀ f ∈ m.names, (f ∈ m₂.names ↔ f ∈ m'.names) := by
    intro f hf
    have hiff : f ∈ (m.withFuns funs).names ∧ f ∉ m₂.names ↔ f ∈ m.names ∧ f ∉ m'.names :=
      Set.ext_iff.mp hremoved f
    rw [mem_names_perm hperm, and_iff_right hf, and_iff_right hf] at hiff
    exact not_iff_not.mp hiff
  have hbool : changed₂ = changed := by
    rw [Bool.eq_iff_iff, hchanged, hchanged₂, hremoved]
  refine ⟨m₂, by rw [hrun₂, hbool], ?_⟩
  rw [hclean₂.rest, hclean.rest]
  refine (hperm.filter _).trans (List.Perm.of_eq (List.filter_congr fun p hp => ?_))
  exact decide_eq_decide.mpr (hsame p.1 (List.mem_map_of_mem hp))

/-- The address of `handler`, cast to a pointer to bytes. -/
def handlerCast : Constant where
  name := "bitcast (void ()* @handler to i8*)"
  kind := .expr
  operands := [.function (.named "handler")]

/-- Two functions of local linkage: nothing uses `setup`, which registers `handler`. -/
def castModule : LinkedModule where
  module :=
    { funs :=
        [(.named "setup", ⟨[[⟨.orig 0, .call (.function (.named "atexit"))
            [.constant "bitcast (void ()* @handler to i8*)" .i8Ptr]⟩,
            ⟨.orig 1, .other "ret" []⟩]]⟩),
         (.named "handler", ⟨[[⟨.orig 2, .other "ret" []⟩]]⟩),
         (.named "atexit", ⟨[]⟩)]
      next := 0 }
  discardable f := f == .named "setup" || f == .named "handler"
  operands _ := []
  constants := [handlerCast]

/-- `handler` is used in the body of `setup` only. -/
lemma castModule_liesIn {place : Option FnId} :
    castModule.LiesIn (.constant handlerCast) place ↔ place = some (.named "setup") := by
  have hused : castModule.constantUsers handlerCast = [.inst (.named "setup") (.orig 0)] := by
    decide
  constructor
  · intro h
    cases h with
    | global hkind => cases hkind
    | expr _ hu hplace =>
        rw [hused, List.mem_singleton] at hu
        subst hu
        exact (liesIn_iff_of_owner rfl).mp hplace
  · rintro rfl
    exact .expr rfl (hused ▸ List.mem_singleton_self _) .inst

/-- `setup` is erased, `handler` stays: the cast is a constant, which still uses it. -/
theorem castModule_handler_stays : ¬ ∀ m : LinkedModule, ∃ m' changed,
    m.runOnModule = some (m', changed) ∧ IsLeast {D | m.Closed D} (m.removed m') := by
  intro h
  obtain ⟨m', changed, hrun, hleast⟩ := h castModule
  have hnames : castModule.runOnModule.map (fun r => r.1.names) =
      some [.named "handler", .named "atexit"] := by decide
  rw [hrun] at hnames
  have hleft : m'.names = [.named "handler", .named "atexit"] := Option.some.inj hnames
  have hstays : FnId.named "handler" ∈ m'.names := hleft ▸ List.mem_cons_self
  have hsetup : FnId.named "setup" ∈ castModule.removed m' := by
    refine hleast.1 _ (by decide) (by decide) fun u hu => ?_
    have hnone : castModule.users (.named "setup") = [] := by decide
    rw [hnone] at hu
    cases hu
  have hhandler : FnId.named "handler" ∈ castModule.removed m' := by
    refine hleast.1 _ (by decide) (by decide) fun u hu _ => ?_
    have hone : castModule.users (.named "handler") = [.constant handlerCast] := by decide
    rw [hone, List.mem_singleton] at hu
    subst hu
    exact ⟨⟨_, castModule_liesIn.mpr rfl⟩, fun _ hlies => ⟨_, hsetup, castModule_liesIn.mp hlies⟩⟩
  exact hhandler.2 hstays

end LinkedModule

end Hippocrates

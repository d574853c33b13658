import Mathlib.Tactic
import Hippocrates.IR.FixGenerator

/-!
The heuristic of `BugFixer::raiseFixLocation`: the frame to start raising from is the one with
the most persistent and the fewest volatile aliases.

* `collectAliases`: the aliases of the operands at a frame. `scoreFrames`: the scores of the
  frames, with the cache. Unmapped frames and frames without aliases are encoded by the two
  least numbers of the score's type.
* `selectIdx`, `heuristicIdx`: the search for the greatest score, which is left at the first
  frame without aliases.
* `SelectsBest`: what the search is for.

`selectsBest_iff`: it succeeds exactly when the first mapped frame has aliases; otherwise it is
left with no frame found, and the assertion on `maxIdx` fails.
-/

namespace Hippocrates

/-! ### The aliases of a frame -/

/-- An `unordered_set` of values. Its nodes are in memory, so there are less than `2^62`. -/
structure ValueSet where
  elems : Finset Value
  card_lt : elems.card < 2 ^ 62

namespace ValueSet

def empty : ValueSet := ⟨∅, by simp⟩

/-- `insert`, which throws if the set cannot grow. -/
def insert (s : ValueSet) (v : Value) : Option ValueSet :=
  if h : (Insert.insert v s.elems).card < 2 ^ 62 then some ⟨Insert.insert v s.elems, h⟩ else none

def size (s : ValueSet) : ℕ := s.elems.card

end ValueSet

/-- The aliases of a frame, volatile and persistent. -/
structure AliasSets where
  volAlias : ValueSet
  pmAlias : ValueSet

namespace AliasSets

def empty : AliasSets := ⟨ValueSet.empty, ValueSet.empty⟩

/-- Neither kind of alias. -/
def IsEmpty (a : AliasSets) : Prop := a.pmAlias.size = 0 ∧ a.volAlias.size = 0

instance (a : AliasSets) : Decidable a.IsEmpty := inferInstanceAs (Decidable (_ ∧ _))

/-- `pmAlias - volAlias`. -/
def value (a : AliasSets) : ℤ := a.pmAlias.size - a.volAlias.size

end AliasSets

/-- What the heuristic depends on; `traceInst` is the map into the module of the trace based or
reduced alias analysis, if one of them is used. -/
structure HeuristicEnv where
  module : Module
  mapper : LocationInfo → Option (List FixLoc)
  pmDesc : PmDesc
  traceInst : Option (Instr → Option Instr)

/-- The value is an alias of its kind; it has to be known to the analysis. -/
def addAlias (d : PmDesc) (acc : AliasSets) (v : Value) : Option AliasSets :=
  if !d.contains v then none -- "could not get!"
  else if d.pointsToPm v then
    (acc.pmAlias.insert v).map fun pmAlias => { acc with pmAlias := pmAlias }
  else (acc.volAlias.insert v).map fun volAlias => { acc with volAlias := volAlias }

/-- The aliases of an operand: what it points to, or itself if that is nothing. -/
def addOperand (d : PmDesc) (acc : AliasSets) (v : Value) : Option AliasSets :=
  if !v.isPointer || v.isFunction then some acc
  else
    match (d.getPointsToSet v).getD [] with
    | [] => addAlias d acc v
    | val :: ptsSet => (val :: ptsSet).foldlM (addAlias d) acc

/-- The intrinsics that are looked at, besides the functions that are none. -/
def IntrinsicID.isExamined (id : IntrinsicID) : Bool :=
  id == .not_intrinsic || id == .memset || id == .memcpy || id == .memmove

/-- The operands of the instructions that are looked at; `some none` at a function pointer. -/
def examinedOperands (i : Instr) : Option (List Value) :=
  match i.op with
  | .call (.function f) args =>
    some (if f.getIntrinsicID.isExamined then args ++ [.function f] else [])
  | .call _ _ => none -- "Function pointer! ABORT ALL!"
  | .store value pointer => some [value, pointer]
  | .cmpxchg pointer compare newVal => some [pointer, compare, newVal]
  | _ => some []

/-- The aliases of the instructions; `some none` if one is a call of a function pointer. -/
def addInsts (H : HeuristicEnv) : List Instr → AliasSets → Option (Option AliasSets)
  | [], acc => some (some acc)
  | inst :: insts, acc =>
    match H.traceInst.elim (some inst) fun vMap => vMap inst with
    | none => none
    | some i =>
      match examinedOperands i with
      | none => some none
      | some operands =>
        match operands.foldlM (addOperand H.pmDesc) acc with
        | none => none
        | some acc => addInsts H insts acc

/-- The aliases of the locations of a frame: none if there is a function pointer. -/
def addLocs (H : HeuristicEnv) : List FixLoc → AliasSets → Option AliasSets
  | [], acc => some acc
  | fl :: fls, acc =>
    match fl.insts H.module with
    | none => none
    | some insts =>
      match addInsts H insts acc with
      | none => none
      | some none => some AliasSets.empty
      | some (some acc) => addLocs H fls acc

/-- The aliases of a frame. -/
def collectAliases (H : HeuristicEnv) (loc : LocationInfo) : Option AliasSets :=
  match H.mapper loc with
  | none => none
  | some fls => addLocs H fls AliasSets.empty

/-! ### The scores and the search -/

def INT64_MIN : ℤ := -2 ^ 63

def NO_ALIASES : ℤ := INT64_MIN + 1

/-- The score of a mapped frame. The sizes are subtracted as `size_t`. -/
def AliasSets.score (a : AliasSets) : ℤ :=
  if a.IsEmpty then NO_ALIASES else Int.bmod (a.pmAlias.size - a.volAlias.size) (2 ^ 64)

/-- `heuristicCache_`. -/
abbrev HeuristicCache := LocationInfo → Option AliasSets

/-- The scores of the frames. `collect` is the computation of the aliases of a frame. -/
def scoreFrames (mapped : LocationInfo → Bool) (collect : LocationInfo → Option AliasSets) :
    List LocationInfo → HeuristicCache → Option (List ℤ × HeuristicCache)
  | [], cache => some ([], cache)
  | loc :: stack, cache =>
    if !mapped loc then
      (scoreFrames mapped collect stack cache).map fun r => (INT64_MIN :: r.1, r.2)
    else
      match (cache loc).or (collect loc) with
      | none => none
      | some a =>
        (scoreFrames mapped collect stack (Function.update cache loc (some a))).map fun r =>
          (a.score :: r.1, r.2)

/-- The search from the frame `l` on. -/
def selectIdx : List ℤ → ℕ → ℤ → ℤ → ℤ
  | [], _, maxIdx, _ => maxIdx
  | score :: scores, l, maxIdx, maxScore =>
    if score = NO_ALIASES then maxIdx -- "Score: NO ALIAS, abort!"
    else if score > maxScore then selectIdx scores (l + 1) l score
    else selectIdx scores (l + 1) maxIdx maxScore

/-- The frame the heuristic selects, and the cache. -/
def heuristicIdx (mapped : LocationInfo → Bool) (collect : LocationInfo → Option AliasSets)
    (cache : HeuristicCache) (stack : List LocationInfo) : Option (ℕ × HeuristicCache) :=
  match scoreFrames mapped collect stack cache with
  | none => none
  | some (scores, cache') =>
    let maxIdx := selectIdx scores 0 (-1) INT64_MIN
    if maxIdx < 0 then none -- "didn't do anything!"
    else some (maxIdx.toNat, cache')

/-! ### The best frame -/

/-- The frame `j` is mapped and has the value `v`, and no mapped frame up to it is without
aliases; `A` are the aliases of the frames. -/
def Considered (mapped : LocationInfo → Bool) (A : LocationInfo → AliasSets)
    (stack : List LocationInfo) (j : ℕ) (v : ℤ) : Prop :=
  (∃ li, stack[j]? = some li ∧ mapped li = true ∧ (A li).value = v) ∧
    ∀ i ≤ j, ∀ li, stack[i]? = some li → mapped li = true → ¬ (A li).IsEmpty

/-- The heuristic selects the least of the frames with the greatest value before the first
mapped frame without aliases. -/
def SelectsBest (mapped : LocationInfo → Bool) (collect : LocationInfo → Option AliasSets)
    (cache : HeuristicCache) (A : LocationInfo → AliasSets) (stack : List LocationInfo) : Prop :=
  ∃ idx cache' v, heuristicIdx mapped collect cache stack = some (idx, cache') ∧
    Considered mapped A stack idx v ∧
    ∀ j w, Considered mapped A stack j w → w ≤ v ∧ (j < idx → w < v)

/-- The first mapped frame has aliases. -/
def FirstHasAliases (mapped : LocationInfo → Bool) (A : LocationInfo → AliasSets)
    (stack : List LocationInfo) : Prop :=
  ∃ (i : ℕ) (li : LocationInfo), stack[i]? = some li ∧ mapped li = true ∧ ¬ (A li).IsEmpty ∧
    ∀ j < i, ∀ lj, stack[j]? = some lj → mapped lj = false

section Scores

variable {mapped : LocationInfo → Bool} {collect : LocationInfo → Option AliasSets}
  {cache : HeuristicCache} {A : LocationInfo → AliasSets} {stack : List LocationInfo}

/-- The encoding keeps the values apart from the two special scores. -/
lemma AliasSets.score_spec (a : AliasSets) :
    (a.IsEmpty ∧ a.score = NO_ALIASES) ∨
      (¬ a.IsEmpty ∧ a.score = a.value ∧ NO_ALIASES < a.value) := by
  rw [score]
  split_ifs with hempty
  · exact .inl ⟨hempty, rfl⟩
  · have hpm : a.pmAlias.size < 2 ^ 62 := a.pmAlias.card_lt
    have hvol : a.volAlias.size < 2 ^ 62 := a.volAlias.card_lt
    refine .inr ⟨hempty, ?_, ?_⟩
    · rw [value]
      exact Int.bmod_eq_of_le_mul_two (by omega) (by omega)
    · rw [value, NO_ALIASES, INT64_MIN]
      omega

/-- The score of a frame. -/
def frameScore (mapped : LocationInfo → Bool) (A : LocationInfo → AliasSets)
    (li : LocationInfo) : ℤ :=
  if mapped li then (A li).score else INT64_MIN

/-- With the aliases of the mapped frames at hand the scores are those of the frames, whatever
has been cached. -/
lemma scoreFrames_eq
    (hA : ∀ li ∈ stack, mapped li = true → (cache li).or (collect li) = some (A li)) :
    ∃ cache', scoreFrames mapped collect stack cache =
        some (stack.map (frameScore mapped A), cache') ∧
      ∀ li, (cache' li).or (collect li) = (cache li).or (collect li) := by
  induction stack generalizing cache with
  | nil => exact ⟨cache, rfl, fun _ => rfl⟩
  | cons loc stack ih =>
      rw [scoreFrames]
      cases hmap : mapped loc with
      | false =>
          obtain ⟨cache', hrun, hsame⟩ := ih fun li hli => hA li (List.mem_cons_of_mem loc hli)
          refine ⟨cache', ?_, hsame⟩
          simp [hrun, frameScore, hmap]
      | true =>
          have hloc := hA loc List.mem_cons_self hmap
          -- caching the aliases of the frame changes no result
          have hcached : ∀ li, ((Function.update cache loc (some (A loc))) li).or (collect li) =
              (cache li).or (collect li) := by
            intro li
            rw [Function.update_apply]
            split_ifs with hli
            · rw [hli, hloc]
              rfl
            · rfl
          obtain ⟨cache', hrun, hsame⟩ := ih fun li hli hli' =>
            (hcached li).trans (hA li (List.mem_cons_of_mem loc hli) hli')
          refine ⟨cache', ?_, fun li => (hsame li).trans (hcached li)⟩
          simp [hloc, hrun, frameScore, hmap]

end Scores

section Search

variable {scores rest : List ℤ} {l : ℕ} {maxIdx maxScore : ℤ}

/-- The score `v` of `j` is one the search can take. -/
def Taken (scores : List ℤ) (j : ℕ) (v : ℤ) : Prop :=
  scores[j]? = some v ∧ INT64_MIN < v ∧ ∀ i ≤ j, scores[i]? ≠ some NO_ALIASES

/-- The variables of the search before the frame `l`. -/
inductive Best (scores : List ℤ) (l : ℕ) : ℤ → ℤ → Prop
  | none (h : ∀ j < l, ∀ v, ¬ Taken scores j v) : Best scores l (-1) INT64_MIN
  | some {idx : ℕ} {v : ℤ} (taken : Taken scores idx v) (lt : idx < l)
      (greatest : ∀ j < l, ∀ w, Taken scores j w → w ≤ v ∧ (j < idx → w < v)) :
      Best scores l idx v

lemma Best.le (h : Best scores l maxIdx maxScore) : INT64_MIN ≤ maxScore := by
  cases h with
  | none => exact le_rfl
  | some taken => exact taken.2.1.le

/-- Frames with scores that are not greater leave the best as it is. -/
lemma Best.skip (h : Best scores l maxIdx maxScore) {l' : ℕ} (hl : l ≤ l')
    (hskip : ∀ j w, l ≤ j → j < l' → Taken scores j w → w ≤ maxScore) :
    Best scores l' maxIdx maxScore := by
  cases h with
  | none h =>
      refine .none fun j hj v hv => ?_
      rcases lt_or_ge j l with hlt | hge
      · exact h j hlt v hv
      · exact absurd (hskip j v hge hj hv) (not_le.mpr hv.2.1)
  | some taken lt greatest =>
      refine .some taken (lt.trans_le hl) fun j hj w hw => ?_
      rcases lt_or_ge j l with hlt | hge
      · exact greatest j hlt w hw
      · exact ⟨hskip j w hge hj hw, fun hidx => absurd (hidx.trans lt) (not_lt.mpr hge)⟩

/-- A greater score is the best from then on. -/
lemma Best.take (h : Best scores l maxIdx maxScore) {score : ℤ} (htaken : Taken scores l score)
    (hgt : maxScore < score) : Best scores (l + 1) l score := by
  refine .some htaken (Nat.lt_succ_self l) fun j hj w hw => ?_
  rcases (Nat.lt_succ_iff_lt_or_eq.mp hj) with hlt | rfl
  · have hlt' : w < score := by
      cases h with
      | none h => exact absurd hw (h j hlt w)
      | some taken lt greatest => exact (greatest j hlt w hw).1.trans_lt hgt
    exact ⟨hlt'.le, fun _ => hlt'⟩
  · obtain rfl : score = w := Option.some.inj (htaken.1.symm.trans hw.1)
    exact ⟨le_rfl, fun hself => absurd hself (lt_irrefl j)⟩

/-- **The search** finds the best of all frames. -/
lemma selectIdx_best {pre : List ℤ} (heq : scores = pre ++ rest)
    (hpre : ∀ s ∈ pre, s ≠ NO_ALIASES) (h : Best scores pre.length maxIdx maxScore) :
    ∃ v, Best scores scores.length (selectIdx rest pre.length maxIdx maxScore) v := by
  induction rest generalizing pre maxIdx maxScore with
  | nil =>
      rw [List.append_nil] at heq
      subst heq
      exact ⟨maxScore, h⟩
  | cons score rest ih =>
      have hat : scores[pre.length]? = some score := by simp [heq]
      have hlen : pre.length ≤ scores.length := by simp [heq]
      have hnext : scores = (pre ++ [score]) ++ rest := by simp [heq]
      rw [selectIdx]
      split_ifs with hno hgt
      · -- the search is left: nothing can be taken from here on
        refine ⟨maxScore, h.skip hlen fun j w hj _ hw => ?_⟩
        exact absurd (hat.trans (congrArg some hno)) (hw.2.2 pre.length hj)
      · have hpre' : ∀ s ∈ pre ++ [score], s ≠ NO_ALIASES := by
          simpa [or_imp, forall_and] using ⟨hpre, hno⟩
        have htaken : Taken scores pre.length score := by
          refine ⟨hat, h.le.trans_lt hgt, fun i hi => ?_⟩
          rw [hnext, List.getElem?_append_left (by simp; omega)]
          exact fun hi' => hpre' _ (List.mem_of_getElem? hi') rfl
        have hbest := ih hnext hpre' (by simpa using h.take htaken hgt)
        simpa using hbest
      · have hpre' : ∀ s ∈ pre ++ [score], s ≠ NO_ALIASES := by
          simpa [or_imp, forall_and] using ⟨hpre, hno⟩
        have hskip : Best scores (pre.length + 1) maxIdx maxScore := by
          refine h.skip (Nat.le_succ _) fun j w hj hj' hw => ?_
          obtain rfl : j = pre.length := by omega
          obtain rfl : score = w := Option.some.inj (hat.symm.trans hw.1)
          exact not_lt.mp hgt
        have hbest := ih hnext hpre' (by simpa using hskip)
        simpa using hbest

end Search

section Main

variable {mapped : LocationInfo → Bool} {collect : LocationInfo → Option AliasSets}
  {cache : HeuristicCache} {A : LocationInfo → AliasSets} {stack : List LocationInfo}

/-- What the search can take are the frames to be considered. -/
lemma taken_iff {j : ℕ} {v : ℤ} :
    Taken (stack.map (frameScore mapped A)) j v ↔ Considered mapped A stack j v := by
  have hno : ∀ li, frameScore mapped A li = NO_ALIASES ↔ mapped li = true ∧ (A li).IsEmpty := by
    intro li
    rw [frameScore]
    split_ifs with hmap
    · rcases (A li).score_spec with ⟨hempty, hscore⟩ | ⟨hne, hscore, hlt⟩
      · simp [hempty, hscore, hmap]
      · simp [hne, hscore, hlt.ne']
    · simp [hmap, NO_ALIASES]
  -- a frame without aliases has the score that ends the search
  have hbelow : (∀ i ≤ j, (stack.map (frameScore mapped A))[i]? ≠ some NO_ALIASES) ↔
      ∀ i ≤ j, ∀ li, stack[i]? = some li → mapped li = true → ¬ (A li).IsEmpty := by
    refine forall_congr' fun i => forall_congr' fun _ => ?_
    rw [List.getElem?_map, Ne, Option.map_eq_some_iff]
    simp only [hno, not_exists, not_and]
  rw [Taken, Considered, hbelow, ← and_assoc]
  refine and_congr_left fun hall => ?_
  rw [List.getElem?_map, Option.map_eq_some_iff]
  constructor
  · rintro ⟨⟨li, hli, rfl⟩, hlt⟩
    rw [frameScore] at hlt ⊢
    split_ifs at hlt ⊢ with hmap
    · rcases (A li).score_spec with ⟨hempty, -⟩ | ⟨-, hscore, -⟩
      · exact absurd hempty (hall j le_rfl li hli hmap)
      · exact ⟨li, hli, hmap, hscore.symm⟩
    · exact absurd hlt (lt_irrefl _)
  · rintro ⟨li, hli, hmap, rfl⟩
    rcases (A li).score_spec with ⟨hempty, -⟩ | ⟨-, hscore, hlt⟩
    · exact absurd hempty (hall j le_rfl li hli hmap)
    · refine ⟨⟨li, hli, by rw [frameScore, if_pos hmap, hscore]⟩, ?_⟩
      exact (lt_add_one INT64_MIN).trans hlt

/-- There is a frame to consider exactly when the first mapped frame has aliases. -/
lemma exists_considered_iff :
    (∃ j v, Considered mapped A stack j v) ↔ FirstHasAliases mapped A stack := by
  classical
  constructor
  · rintro ⟨j, v, ⟨li, hli, hmap, -⟩, hall⟩
    have hex : ∃ i : ℕ, ∃ li, stack[i]? = some li ∧ mapped li = true := ⟨j, li, hli, hmap⟩
    obtain ⟨l, hl, hlmap⟩ := Nat.find_spec hex
    refine ⟨Nat.find hex, l, hl, hlmap, ?_, fun i hi li' hli' => ?_⟩
    · exact hall _ (Nat.find_min' hex ⟨li, hli, hmap⟩) l hl hlmap
    · rw [← Bool.not_eq_true]
      exact fun hmap' => Nat.find_min hex hi ⟨li', hli', hmap'⟩
  · rintro ⟨i, li, hli, hmap, hne, hbelow⟩
    refine ⟨i, _, ⟨li, hli, hmap, rfl⟩, fun i' hi' li' hli' hmap' => ?_⟩
    rcases hi'.lt_or_eq with hlt | rfl
    · rw [hbelow i' hlt li' hli'] at hmap'
      cases hmap'
    · obtain rfl : li = li' := Option.some.inj (hli.symm.trans hli')
      exact hne

/-- **When the heuristic selects the best frame**: when the first mapped frame has aliases. `A`
are the alias results of the frames, cached or computed. -/
theorem selectsBest_iff
    (hA : ∀ li ∈ stack, mapped li = true → (cache li).or (collect li) = some (A li)) :
    SelectsBest mapped collect cache A stack ↔ FirstHasAliases mapped A stack := by
  obtain ⟨cache', hscores, -⟩ := scoreFrames_eq hA
  have hstart : Best (stack.map (frameScore mapped A)) ([] : List ℤ).length (-1) INT64_MIN :=
    .none fun j hj => absurd hj (Nat.not_lt_zero j)
  obtain ⟨v, hbest⟩ := selectIdx_best (List.nil_append _).symm (by simp) hstart
  rw [← exists_considered_iff]
  constructor
  · rintro ⟨idx, -, v, -, hconsidered, -⟩
    exact ⟨idx, v, hconsidered⟩
  · rintro ⟨j, w, hw⟩
    have hj : j < (stack.map (frameScore mapped A)).length := by
      obtain ⟨li, hli, -⟩ := hw.1
      rw [List.length_map]
      exact (List.getElem?_eq_some_iff.mp hli).1
    rw [SelectsBest, heuristicIdx, hscores]
    dsimp only [List.length_nil] at hbest ⊢
    -- only what the search has found matters from here on
    generalize selectIdx (stack.map (frameScore mapped A)) 0 (-1) INT64_MIN = maxIdx at hbest ⊢
    cases hbest with
    | none hnone => exact absurd (taken_iff.mpr hw) (hnone j hj w)
    | @some idx v taken lt greatest =>
        refine ⟨idx, cache', v, ?_, taken_iff.mp taken, fun i u hu => ?_⟩
        · rw [if_neg (by omega), Int.toNat_natCast]
        · have hi : i < (stack.map (frameScore mapped A)).length := by
            obtain ⟨li, hli, -⟩ := hu.1
            rw [List.length_map]
            exact (List.getElem?_eq_some_iff.mp hli).1
          exact greatest i hi u (taken_iff.mpr hu)

end Main

/-! ### The cache -/

section Cache

variable {collect : LocationInfo → Option AliasSets} {cache : HeuristicCache}

/-- The cache holds results of the computation. -/
def Consistent (collect : LocationInfo → Option AliasSets) (cache : HeuristicCache) : Prop :=
  ∀ loc a, cache loc = some a → collect loc = some a

lemma Consistent.or_eq (h : Consistent collect cache) (loc : LocationInfo) :
    (cache loc).or (collect loc) = collect loc := by
  cases hcache : cache loc with
  | none => rfl
  | some a => exact (h loc a hcache).symm

lemma Consistent.update (h : Consistent collect cache) {loc : LocationInfo} {a : AliasSets}
    (ha : collect loc = some a) : Consistent collect (Function.update cache loc (some a)) := by
  intro loc' a' hget
  rw [Function.update_apply] at hget
  split_ifs at hget with hloc
  · rw [hloc, ha, hget]
  · exact h loc' a' hget

end Cache

/-- The frame selected for a stack, whatever the stacks before. -/
def HeuristicEnv.select (H : HeuristicEnv) (stack : List LocationInfo) : Option ℕ :=
  (heuristicIdx (fun loc => (H.mapper loc).isSome) (collectAliases H) (fun _ => none) stack).map
    Prod.fst

/-! ### A copy through a function pointer -/

/-- `pmem_memcpy` calls the copy that fits the processor, and `main` calls `pmem_memcpy`. -/
def copyThrough : Module :=
  ⟨[(FnId.named "pmem_memcpy", ⟨[[
        ⟨InstId.orig 0, .call (.pointer (.constant "memmove_nodrain" .i8Ptr))
          [.arg (FnId.named "pmem_memcpy") 0 .i8Ptr]⟩]]⟩),
    (FnId.named "main", ⟨[[
        ⟨InstId.orig 1, .call (.function (FnId.named "map")) []⟩,
        ⟨InstId.orig 2, .call (.function (FnId.named "pmem_memcpy"))
          [.inst (InstId.orig 1) .i8Ptr]⟩]]⟩)], 0⟩

/-- The mapping is persistent. -/
def copyThroughEnv : HeuristicEnv where
  module := copyThrough
  mapper li :=
    if li = ⟨"pmem_memcpy", "pmem.c", 7⟩ then some [FixLoc.single (InstId.orig 0)]
    else if li = ⟨"main", "main.c", 20⟩ then some [FixLoc.single (InstId.orig 2)]
    else none
  pmDesc := ⟨fun v => some [v], [.inst (InstId.orig 1) .i8Ptr]⟩
  traceInst := none

/-- The aliases of its frames. -/
def copyThroughAliases (li : LocationInfo) : AliasSets :=
  (collectAliases copyThroughEnv li).getD AliasSets.empty

lemma copyThrough_collect {stack : List LocationInfo}
    (h : ∀ li ∈ stack, (copyThroughEnv.mapper li).isSome = true →
      (collectAliases copyThroughEnv li).isSome = true) :
    ∀ li ∈ stack, (copyThroughEnv.mapper li).isSome = true →
      (none : Option AliasSets).or (collectAliases copyThroughEnv li) =
        some (copyThroughAliases li) := fun li hli hmap => by
  obtain ⟨a, ha⟩ := Option.isSome_iff_exists.mp (h li hli hmap)
  rw [copyThroughAliases, ha]
  rfl

/-- The stack of a store of the copy, with the copy itself not mapped. -/
def copyStack : List LocationInfo :=
  [⟨"memmove_avx512f", "avx512f.S", 1⟩, ⟨"pmem_memcpy", "pmem.c", 7⟩, ⟨"main", "main.c", 20⟩]

/-- The call of the function pointer is taken to have no aliases, and no frame is selected. -/
theorem copyStack_not_selectsBest :
    (∃ li ∈ copyStack, (copyThroughEnv.mapper li).isSome = true) ∧
      (∀ li ∈ copyStack, (copyThroughEnv.mapper li).isSome = true →
        (none : Option AliasSets).or (collectAliases copyThroughEnv li) =
          some (copyThroughAliases li)) ∧
      ¬ SelectsBest (fun li => (copyThroughEnv.mapper li).isSome) (collectAliases copyThroughEnv)
        (fun _ => none) copyThroughAliases copyStack := by
  refine ⟨⟨⟨"main", "main.c", 20⟩, by simp [copyStack], rfl⟩, copyThrough_collect (by decide), ?_⟩
  rintro ⟨idx, cache', v, hsel, -⟩
  have hnone : (heuristicIdx (fun li => (copyThroughEnv.mapper li).isSome)
      (collectAliases copyThroughEnv) (fun _ => none) copyStack).isNone = true := by decide
  rw [hsel] at hnone
  cases hnone

theorem selectsBest_iff_main :
    SelectsBest (fun li => (copyThroughEnv.mapper li).isSome) (collectAliases copyThroughEnv)
      (fun _ => none) copyThroughAliases
      [⟨"memmove_avx512f", "avx512f.S", 1⟩, ⟨"main", "main.c", 20⟩] := by
  refine (selectsBest_iff (copyThrough_collect (by decide))).mpr
    ⟨1, ⟨"main", "main.c", 20⟩, rfl, rfl, by decide, fun j hj lj hlj => ?_⟩
  obtain rfl : j = 0 := by omega
  obtain rfl := Option.some.inj hlj
  rfl

end Hippocrates

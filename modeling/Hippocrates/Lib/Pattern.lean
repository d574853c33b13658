import Mathlib.Data.List.TakeWhile
import Mathlib.Tactic

/-!
Patterns over sequences, matched from the start with backtracking: of the runs of a class the
longest is tried first, as the regular expressions of most libraries do.

* `firstMatch`: the captured runs of the first match, in the order of the trials.
* `Matches`: the matches in any order. `firstMatch_eq_none_iff`: a match is found if there is one.
* `firstMatch_group_iff`: the captured run is the longest with which the rest is matched;
  `firstMatch_run_word`, `firstMatch_group_word`: a run ends where the next word has to begin.
-/

/-- A part of a pattern: a fixed word, or a nonempty run of a class, which may be captured. -/
inductive Pattern.Part (α : Type*) where
  | word (w : List α)
  | run (p : α → Bool)
  | group (p : α → Bool)

/-- The parts, one after the other. Text after the last of them is left alone. -/
abbrev Pattern (α : Type*) := List (Pattern.Part α)

namespace Pattern

variable {α β : Type*}

/-- The first success of `f n`, …, `f 1`. -/
def longest (f : ℕ → Option β) : ℕ → Option β
  | 0 => none
  | n + 1 =>
    match f (n + 1) with
    | some b => some b
    | none => longest f n

/-- The captured runs of the first match. -/
def firstMatch [DecidableEq α] : Pattern α → List α → Option (List (List α))
  | [], _ => some []
  | .word w :: parts, s => if w <+: s then firstMatch parts (s.drop w.length) else none
  | .run p :: parts, s =>
    longest (fun n => firstMatch parts (s.drop n)) (s.takeWhile p).length
  | .group p :: parts, s =>
    longest (fun n => (firstMatch parts (s.drop n)).map (s.take n :: ·)) (s.takeWhile p).length

/-- The text begins with a match that captures the runs. -/
inductive Matches : Pattern α → List α → List (List α) → Prop
  | nil (s : List α) : Matches [] s []
  | word {w s : List α} {parts : Pattern α} {runs : List (List α)} (h : Matches parts s runs) :
      Matches (.word w :: parts) (w ++ s) runs
  | run {p : α → Bool} {r s : List α} {parts : Pattern α} {runs : List (List α)} (hne : r ≠ [])
      (hr : ∀ c ∈ r, p c = true) (h : Matches parts s runs) :
      Matches (.run p :: parts) (r ++ s) runs
  | group {p : α → Bool} {r s : List α} {parts : Pattern α} {runs : List (List α)} (hne : r ≠ [])
      (hr : ∀ c ∈ r, p c = true) (h : Matches parts s runs) :
      Matches (.group p :: parts) (r ++ s) (r :: runs)

/-! ### The longest success -/

lemma longest_eq_some_iff {f : ℕ → Option β} {n : ℕ} {b : β} :
    longest f n = some b ↔
      ∃ m, 1 ≤ m ∧ m ≤ n ∧ f m = some b ∧ ∀ k, m < k → k ≤ n → f k = none := by
  induction n with
  | zero =>
      simp only [longest, reduceCtorEq, false_iff]
      rintro ⟨m, h1, h0, -⟩
      omega
  | succ n ih =>
      rw [longest]
      cases hf : f (n + 1) with
      | some b' =>
          simp only [Option.some.injEq]
          constructor
          · rintro rfl
            exact ⟨n + 1, by omega, le_rfl, hf, fun k hk hkn => by omega⟩
          · rintro ⟨m, -, hmn, hm, hlong⟩
            rcases Nat.lt_or_eq_of_le hmn with hlt | rfl
            · rw [hlong (n + 1) hlt le_rfl] at hf
              cases hf
            · exact Option.some.inj (hf.symm.trans hm)
      | none =>
          simp only [ih]
          constructor
          · rintro ⟨m, h1, hmn, hm, hlong⟩
            refine ⟨m, h1, by omega, hm, fun k hk hkn => ?_⟩
            rcases Nat.lt_or_eq_of_le hkn with hlt | rfl
            · exact hlong k hk (by omega)
            · exact hf
          · rintro ⟨m, h1, hmn, hm, hlong⟩
            rcases Nat.lt_or_eq_of_le hmn with hlt | rfl
            · exact ⟨m, h1, by omega, hm, fun k hk hkn => hlong k hk (by omega)⟩
            · rw [hf] at hm
              cases hm

lemma longest_eq_none_iff {f : ℕ → Option β} {n : ℕ} :
    longest f n = none ↔ ∀ m, 1 ≤ m → m ≤ n → f m = none := by
  induction n with
  | zero =>
      simp only [longest, true_iff]
      intro m h1 h0
      omega
  | succ n ih =>
      rw [longest]
      cases hf : f (n + 1) with
      | some b =>
          simp only [reduceCtorEq, false_iff]
          intro h
          rw [h (n + 1) (by omega) le_rfl] at hf
          cases hf
      | none =>
          rw [ih]
          refine ⟨fun h m h1 hm => ?_, fun h m h1 hm => h m h1 (by omega)⟩
          rcases Nat.lt_or_eq_of_le hm with hlt | rfl
          · exact h m h1 (by omega)
          · exact hf

/-- The beginning of a text is a nonempty run of a class. -/
def Run (p : α → Bool) (s r t : List α) : Prop := s = r ++ t ∧ r ≠ [] ∧ ∀ c ∈ r, p c = true

/-- The lengths that are tried are those of the runs. -/
lemma run_iff {p : α → Bool} {s r t : List α} :
    Run p s r t ↔
      ∃ n, 1 ≤ n ∧ n ≤ (s.takeWhile p).length ∧ r = s.take n ∧ t = s.drop n := by
  constructor
  · rintro ⟨rfl, hne, hr⟩
    refine ⟨r.length, List.length_pos_iff.mpr hne, ?_, by simp, by simp⟩
    rw [List.takeWhile_append_of_pos hr, List.length_append]
    exact Nat.le_add_right _ _
  · rintro ⟨n, h1, hn, rfl, rfl⟩
    have htake : s.take n = (s.takeWhile p).take n := by
      rw [List.prefix_iff_eq_take.mp (List.takeWhile_prefix p), List.take_take, Nat.min_eq_left hn]
    refine ⟨(List.take_append_drop n s).symm, ?_, fun c hc => ?_⟩
    · rw [htake, Ne, ← List.length_eq_zero_iff, List.length_take, Nat.min_eq_left hn]
      omega
    · rw [htake] at hc
      exact List.mem_takeWhile_imp (List.mem_of_mem_take hc)

section Trials

variable {p : α → Bool} {f : List α → List α → Option β} {s : List α}

lemma trials_eq_none_iff :
    longest (fun n => f (s.take n) (s.drop n)) (s.takeWhile p).length = none ↔
      ∀ r t, Run p s r t → f r t = none := by
  rw [longest_eq_none_iff]
  constructor
  · intro h r t hrun
    obtain ⟨n, h1, hn, rfl, rfl⟩ := run_iff.mp hrun
    exact h n h1 hn
  · exact fun h n h1 hn => h _ _ (run_iff.mpr ⟨n, h1, hn, rfl, rfl⟩)

lemma trials_eq_some_iff {b : β} :
    longest (fun n => f (s.take n) (s.drop n)) (s.takeWhile p).length = some b ↔
      ∃ r t, Run p s r t ∧ f r t = some b ∧
        ∀ r' t', Run p t r' t' → f (r ++ r') t' = none := by
  rw [longest_eq_some_iff]
  constructor
  · rintro ⟨n, h1, hn, hsome, hlong⟩
    have hrun := run_iff.mpr ⟨n, h1, hn, rfl, rfl⟩
    refine ⟨_, _, hrun, hsome, fun r' t' hrun' => ?_⟩
    obtain ⟨ht, hne', hr'⟩ := hrun'
    -- a longer run would be tried before this one, and fails
    have hall : Run p s (s.take n ++ r') t' := by
      refine ⟨by rw [List.append_assoc, ← ht, List.take_append_drop], by simp [hne'], ?_⟩
      intro c hc
      rcases List.mem_append.mp hc with hc | hc
      · exact hrun.2.2 c hc
      · exact hr' c hc
    obtain ⟨k, -, hk, hr, ht'⟩ := run_iff.mp hall
    rw [hr, ht']
    refine hlong k ?_ hk
    have hlen := congrArg List.length hr
    have hn' := hn.trans (List.takeWhile_prefix p).length_le
    have hk' := hk.trans (List.takeWhile_prefix p).length_le
    rw [List.length_append, List.length_take_of_le hn', List.length_take_of_le hk'] at hlen
    have := List.length_pos_iff.mpr hne'
    omega
  · rintro ⟨r, t, hrun, hsome, hlong⟩
    obtain ⟨n, h1, hn, rfl, rfl⟩ := run_iff.mp hrun
    refine ⟨n, h1, hn, hsome, fun k hk hkn => ?_⟩
    have hrun' := run_iff.mpr ⟨k, by omega, hkn, rfl, rfl⟩
    -- the run of length `k` is that of length `n`, followed by another
    have htake : s.take k = s.take n ++ (s.drop n).take (k - n) := by
      conv_lhs => rw [show k = n + (k - n) by omega, List.take_add]
    have hdrop : s.drop k = (s.drop n).drop (k - n) := by
      rw [List.drop_drop]
      congr 1
      omega
    rw [htake, hdrop]
    refine hlong _ _ ⟨(List.take_append_drop _ _).symm, ?_, fun c hc => hrun'.2.2 c ?_⟩
    · have hk' := hkn.trans (List.takeWhile_prefix p).length_le
      rw [Ne, ← List.length_eq_zero_iff, List.length_take, List.length_drop]
      omega
    · rw [htake]
      exact List.mem_append_right _ hc

end Trials

/-! ### The first match -/

section FirstMatch

variable [DecidableEq α] {p : α → Bool} {parts : Pattern α} {s r t w : List α}
  {runs : List (List α)}

@[simp] lemma firstMatch_nil : firstMatch [] s = some [] := rfl

@[simp] lemma firstMatch_word : firstMatch (.word w :: parts) (w ++ t) = firstMatch parts t := by
  simp [firstMatch]

lemma firstMatch_word_iff :
    firstMatch (.word w :: parts) s = some runs ↔
      ∃ t, s = w ++ t ∧ firstMatch parts t = some runs := by
  constructor
  · intro h
    rw [firstMatch] at h
    split at h
    · rename_i hw
      obtain ⟨t, rfl⟩ := hw
      exact ⟨t, rfl, by simpa using h⟩
    · cases h
  · rintro ⟨t, rfl, h⟩
    rwa [firstMatch_word]

/-- The run is the longest with which the rest is matched. -/
lemma firstMatch_run_iff :
    firstMatch (.run p :: parts) s = some runs ↔
      ∃ r t, Run p s r t ∧ firstMatch parts t = some runs ∧
        ∀ r' t', Run p t r' t' → firstMatch parts t' = none :=
  trials_eq_some_iff (f := fun _ t => firstMatch parts t)

/-- The captured run is the longest with which the rest is matched. -/
lemma firstMatch_group_iff :
    firstMatch (.group p :: parts) s = some runs ↔
      ∃ r t runs', runs = r :: runs' ∧ Run p s r t ∧ firstMatch parts t = some runs' ∧
        ∀ r' t', Run p t r' t' → firstMatch parts t' = none := by
  rw [firstMatch, trials_eq_some_iff (f := fun r t => (firstMatch parts t).map (r :: ·))]
  simp only [Option.map_eq_some_iff, Option.map_eq_none_iff]
  constructor
  · rintro ⟨r, t, hrun, ⟨runs', hmatch, rfl⟩, hlong⟩
    exact ⟨r, t, runs', rfl, hrun, hmatch, hlong⟩
  · rintro ⟨r, t, runs', rfl, hrun, hmatch, hlong⟩
    exact ⟨r, t, hrun, ⟨runs', hmatch, rfl⟩, hlong⟩

/-- The captured runs are those of a match. -/
lemma matches_of_firstMatch (h : firstMatch parts s = some runs) : Matches parts s runs := by
  induction parts generalizing s runs with
  | nil =>
      obtain rfl := Option.some.inj h
      exact .nil s
  | cons part parts ih =>
      cases part with
      | word w =>
          obtain ⟨t, rfl, hparts⟩ := firstMatch_word_iff.mp h
          exact .word (ih hparts)
      | run p =>
          obtain ⟨r, t, ⟨rfl, hne, hr⟩, h, -⟩ := firstMatch_run_iff.mp h
          exact .run hne hr (ih h)
      | group p =>
          obtain ⟨r, t, runs', rfl, ⟨rfl, hne, hr⟩, h, -⟩ := firstMatch_group_iff.mp h
          exact .group hne hr (ih h)

omit [DecidableEq α] in
/-- The captured runs are parts of the text. -/
lemma Matches.isInfix (h : Matches parts s runs) : ∀ r ∈ runs, r <:+: s := by
  induction h with
  | nil s => simp
  | word h ih => exact fun r hr => (ih r hr).trans (List.suffix_append _ _).isInfix
  | run hne hr h ih => exact fun r hr => (ih r hr).trans (List.suffix_append _ _).isInfix
  | group hne hr h ih =>
      intro r hr
      rcases List.mem_cons.mp hr with rfl | hr
      · exact (List.prefix_append _ _).isInfix
      · exact (ih r hr).trans (List.suffix_append _ _).isInfix

/-- The length that a part takes besides the captured runs. -/
def Part.size : Part α → ℕ
  | .word w => w.length
  | .run _ => 1
  | .group _ => 0

omit [DecidableEq α] in
/-- A text is no shorter than the words and the captured runs. -/
lemma Matches.length_le (h : Matches parts s runs) :
    (parts.map Part.size).sum + (runs.map List.length).sum ≤ s.length := by
  induction h with
  | nil s => simp
  | word h ih =>
      simp only [List.map_cons, List.sum_cons, Part.size, List.length_append]
      omega
  | run hne hr h ih =>
      have := List.length_pos_iff.mpr hne
      simp only [List.map_cons, List.sum_cons, Part.size, List.length_append]
      omega
  | group hne hr h ih =>
      simp only [List.map_cons, List.sum_cons, Part.size, List.length_append]
      omega

/-- If there is a match, one is found. -/
lemma firstMatch_eq_none_iff : firstMatch parts s = none ↔ ∀ runs, ¬ Matches parts s runs := by
  constructor
  · intro hnone runs h
    induction h with
    | nil s => cases hnone
    | word h ih =>
        rw [firstMatch_word] at hnone
        exact ih hnone
    | run hne hr h ih =>
        exact ih ((trials_eq_none_iff (f := fun _ t => firstMatch _ t)).mp hnone _ _ ⟨rfl, hne, hr⟩)
    | group hne hr h ih =>
        have hnone := (trials_eq_none_iff (f := fun r t => (firstMatch _ t).map (r :: ·))).mp hnone
          _ _ ⟨rfl, hne, hr⟩
        exact ih (Option.map_eq_none_iff.mp hnone)
  · intro h
    cases hmatch : firstMatch parts s with
    | none => rfl
    | some runs => exact absurd (matches_of_firstMatch hmatch) (h runs)

/-! ### A run before a word -/

variable {x : α} {u : List α}

/-- A run that is followed by a word ends where the word begins, if the class ends there. -/
lemma run_word_eq (hr : ∀ c ∈ r, p c = true) (hx : p x = false) (hrun : Run p (r ++ x :: u) s t)
    (h : firstMatch (.word (x :: w) :: parts) t = some runs) : s = r ∧ t = x :: u := by
  obtain ⟨v, rfl, -⟩ := firstMatch_word_iff.mp h
  obtain ⟨heq, -, hs⟩ := hrun
  have hwhile := congrArg (List.takeWhile p) heq
  rw [List.cons_append, List.takeWhile_append_of_pos hr, List.takeWhile_append_of_pos hs,
    List.takeWhile_cons_of_neg (by simp [hx]), List.takeWhile_cons_of_neg (by simp [hx]),
    List.append_nil, List.append_nil] at hwhile
  obtain rfl := hwhile
  exact ⟨rfl, (List.append_cancel_left heq).symm⟩

/-- A longer run leaves no place for the word. -/
lemma firstMatch_word_eq_none (hx : p x = false) {r' t' : List α} (hrun : Run p (x :: u) r' t') :
    firstMatch parts t' = none := by
  obtain ⟨heq, hne, hr'⟩ := hrun
  cases r' with
  | nil => exact absurd rfl hne
  | cons c r' =>
      obtain rfl : x = c := (List.cons.inj heq).1
      simp [hr' x List.mem_cons_self] at hx

lemma firstMatch_run_word (hr : ∀ c ∈ r, p c = true) (hne : r ≠ []) (hw : w ≠ [])
    (hx : ∀ x ∈ w.head?, p x = false) :
    firstMatch (.run p :: .word w :: parts) (r ++ (w ++ t)) = firstMatch parts t := by
  obtain ⟨x, w, rfl⟩ := List.exists_cons_of_ne_nil hw
  have hx : p x = false := hx x rfl
  ext runs
  rw [firstMatch_run_iff, List.cons_append, ← firstMatch_word (w := x :: w) (t := t),
    List.cons_append]
  constructor
  · rintro ⟨s, u, hrun, h, -⟩
    obtain ⟨-, rfl⟩ := run_word_eq hr hx hrun h
    exact h
  · exact fun h => ⟨r, x :: (w ++ t), ⟨rfl, hne, hr⟩, h, fun r' t' => firstMatch_word_eq_none hx⟩

lemma firstMatch_group_word (hr : ∀ c ∈ r, p c = true) (hne : r ≠ []) (hw : w ≠ [])
    (hx : ∀ x ∈ w.head?, p x = false) :
    firstMatch (.group p :: .word w :: parts) (r ++ (w ++ t)) =
      (firstMatch parts t).map (r :: ·) := by
  obtain ⟨x, w, rfl⟩ := List.exists_cons_of_ne_nil hw
  have hx : p x = false := hx x rfl
  ext runs
  rw [firstMatch_group_iff, Option.map_eq_some_iff, List.cons_append,
    ← firstMatch_word (w := x :: w) (t := t), List.cons_append]
  constructor
  · rintro ⟨s, u, runs', rfl, hrun, h, -⟩
    obtain ⟨rfl, rfl⟩ := run_word_eq hr hx hrun h
    exact ⟨runs', h, rfl⟩
  · rintro ⟨runs', h, rfl⟩
    exact ⟨r, x :: (w ++ t), runs', rfl, ⟨rfl, hne, hr⟩, h, fun r' t' => firstMatch_word_eq_none hx⟩

/-- The whole run is taken if the rest is matched after it. -/
lemma firstMatch_group_stop (hr : ∀ c ∈ r, p c = true) (hne : r ≠ [])
    (hu : ∀ c ∈ u.head?, p c = false) (h : firstMatch parts u = some runs) :
    firstMatch (.group p :: parts) (r ++ u) = some (r :: runs) := by
  refine firstMatch_group_iff.mpr ⟨r, u, runs, rfl, ⟨rfl, hne, hr⟩, h, fun r' t' hrun => ?_⟩
  cases u with
  | nil => exact absurd (List.append_eq_nil_iff.mp hrun.1.symm).1 hrun.2.1
  | cons c u => exact firstMatch_word_eq_none (hu c rfl) hrun

end FirstMatch

end Pattern

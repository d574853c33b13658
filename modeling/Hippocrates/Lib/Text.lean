import Mathlib.Data.List.DropRight
import Mathlib.Tactic

/-!
Sequences as texts: their ends are stripped, and they are split at a word.

* `strip`: the characters of a class are dropped at both ends.
* `pieces`: the pieces between the occurrences of a word, found from the left, none of which
  overlap. `lastPiece` is the last of them, and stands after an occurrence, if there is one.
* `infix_append_cons_iff`: an occurrence does not go across a character the word does not have.
-/

namespace Text

variable {α : Type*}

/-- Without the characters of the class at the ends. -/
def strip (p : α → Bool) (l : List α) : List α := (l.dropWhile p).rdropWhile p

/-- The pieces of the rest of a text; the current one so far, reversed, and the number of
characters to skip are given. -/
def piecesAux [DecidableEq α] (w : List α) : ℕ → List α → List α → List (List α)
  | _, acc, [] => [acc.reverse]
  | skip + 1, acc, _ :: l => piecesAux w skip acc l
  | 0, acc, c :: l =>
    if w <+: c :: l then acc.reverse :: piecesAux w (w.length - 1) [] l
    else piecesAux w 0 (c :: acc) l

/-- The pieces between the occurrences of a word. -/
def pieces [DecidableEq α] (w l : List α) : List (List α) := piecesAux w 0 [] l

/-- The last piece. -/
def lastPiece [DecidableEq α] (w l : List α) : List α := (pieces w l).getLastD []

/-! ### Stripping -/

section Strip

variable {p : α → Bool} {l m r : List α}

lemma strip_isInfix (l : List α) : strip p l <:+: l :=
  (List.rdropWhile_prefix p _).isInfix.trans (List.dropWhile_suffix p).isInfix

lemma length_strip_le (l : List α) : (strip p l).length ≤ l.length := (strip_isInfix l).length_le

lemma strip_eq_self {l : List α} (h : ∀ c ∈ l, p c = false) : strip p l = l := by
  have hdrop : l.dropWhile p = l := by
    cases l with
    | nil => rfl
    | cons c l => exact List.dropWhile_cons_of_neg (by simp [h c List.mem_cons_self])
  rw [strip, hdrop]
  refine List.rdropWhile_eq_self_iff.mpr fun hne => ?_
  simp [h _ (List.getLast_mem hne)]

/-- A text that neither begins nor ends with the class, between two texts of the class. -/
lemma strip_append (hl : ∀ c ∈ l, p c = true) (hr : ∀ c ∈ r, p c = true) (hm : m ≠ [])
    (hhead : ∀ c ∈ m.head?, p c = false) (hlast : ∀ c ∈ m.getLast?, p c = false) :
    strip p (l ++ m ++ r) = m := by
  obtain ⟨c, m', rfl⟩ := List.exists_cons_of_ne_nil hm
  have hdrop : (l ++ c :: m' ++ r).dropWhile p = c :: m' ++ r := by
    rw [List.append_assoc, List.dropWhile_append_of_pos hl]
    exact List.dropWhile_cons_of_neg (by simp [hhead c rfl])
  rw [strip, hdrop, List.rdropWhile, List.reverse_append,
    List.dropWhile_append_of_pos (by simpa using hr), ← List.rdropWhile]
  refine List.rdropWhile_eq_self_iff.mpr fun hne => ?_
  simp [hlast _ (List.getLast?_eq_some_getLast hne)]

end Strip

/-! ### Splitting -/

section Pieces

variable [DecidableEq α] {w : List α}

lemma piecesAux_ne_nil (skip : ℕ) (acc l : List α) : piecesAux w skip acc l ≠ [] := by
  fun_induction piecesAux w skip acc l <;> simp_all

lemma piecesAux_skip (skip : ℕ) (acc l : List α) (h : skip ≤ l.length) :
    piecesAux w skip acc l = piecesAux w 0 acc (l.drop skip) := by
  induction skip generalizing l with
  | zero => rw [List.drop_zero]
  | succ skip ih =>
      cases l with
      | nil => simp at h
      | cons c l =>
          rw [piecesAux, List.drop_succ_cons]
          exact ih l (by simpa using h)

/-- An occurrence ends the current piece. -/
lemma piecesAux_word (hw : w ≠ []) (acc t : List α) :
    piecesAux w 0 acc (w ++ t) = acc.reverse :: piecesAux w 0 [] t := by
  obtain ⟨c, w', rfl⟩ := List.exists_cons_of_ne_nil hw
  rw [List.cons_append, piecesAux, if_pos ⟨t, rfl⟩, piecesAux_skip _ _ _ (by simp)]
  simp

/-- The last piece is what follows the last occurrence, if there is one. -/
lemma getLast_piecesAux (hw : w ≠ []) (acc l : List α) :
    (¬ w <:+: l ∧ piecesAux w 0 acc l = [acc.reverse ++ l]) ∨
      ∃ y, l = y ++ w ++ (piecesAux w 0 acc l).getLastD [] := by
  induction hn : l.length using Nat.strong_induction_on generalizing acc l with
  | _ n ih =>
    by_cases hpre : w <+: l
    · obtain ⟨t, rfl⟩ := hpre
      right
      have hpos := List.length_pos_iff.mpr hw
      -- the pieces before the word do not change the last one
      have hlast : (piecesAux w 0 acc (w ++ t)).getLastD [] = (piecesAux w 0 [] t).getLastD [] := by
        rw [piecesAux_word hw, List.getLastD_cons]
        obtain ⟨a, l, heq⟩ := List.exists_cons_of_ne_nil (piecesAux_ne_nil (w := w) 0 [] t)
        rw [heq, List.getLastD_cons, List.getLastD_cons]
      rw [hlast]
      rcases ih t.length (by rw [← hn, List.length_append]; omega) [] t rfl with
        ⟨-, heq⟩ | ⟨y, hy⟩
      · exact ⟨[], by simp [heq]⟩
      · refine ⟨w ++ y, ?_⟩
        conv_lhs => rw [hy]
        simp only [List.append_assoc]
    · cases l with
      | nil =>
          refine .inl ⟨fun hin => ?_, by simp [piecesAux]⟩
          exact hw (List.infix_nil.mp hin)
      | cons c l =>
          rw [piecesAux, if_neg hpre]
          rcases ih l.length (by simp [← hn]) (c :: acc) l rfl with ⟨hno, heq⟩ | ⟨y, hy⟩
          · refine .inl ⟨fun hin => ?_, by simp [heq]⟩
            rcases List.infix_cons_iff.mp hin with h | h
            · exact hpre h
            · exact hno h
          · refine .inr ⟨c :: y, ?_⟩
            conv_lhs => rw [hy]
            simp only [List.cons_append]

/-- Without an occurrence there is one piece. -/
lemma lastPiece_of_not_infix (hw : w ≠ []) {l : List α} (h : ¬ w <:+: l) : lastPiece w l = l := by
  rcases getLast_piecesAux hw [] l with ⟨-, heq⟩ | ⟨y, hy⟩
  · rw [lastPiece, pieces, heq]
    rfl
  · exact absurd ⟨y, _, hy.symm⟩ h

/-- With an occurrence the last piece stands after one. -/
lemma exists_lastPiece (hw : w ≠ []) {l : List α} (h : w <:+: l) :
    ∃ y, l = y ++ w ++ lastPiece w l := by
  rcases getLast_piecesAux hw [] l with ⟨hno, -⟩ | hy
  · exact absurd h hno
  · exact hy

/-- The first occurrence ends the first piece. -/
lemma piecesAux_append (hw : w ≠ []) {a : List α} (ha : ¬ w <:+: a ++ w.dropLast)
    (acc t : List α) :
    piecesAux w 0 acc (a ++ (w ++ t)) = (acc.reverse ++ a) :: piecesAux w 0 [] t := by
  induction a generalizing acc with
  | nil => rw [List.nil_append, piecesAux_word hw, List.append_nil]
  | cons c a ih =>
      have hpre : ¬ w <+: c :: (a ++ (w ++ t)) := by
        intro h
        have hshort : c :: a ++ w.dropLast <+: c :: (a ++ (w ++ t)) := by
          refine List.cons_prefix_cons.mpr ⟨rfl, (List.prefix_append_right_inj _).mpr ?_⟩
          exact (List.dropLast_prefix w).trans (List.prefix_append _ _)
        refine ha (List.prefix_of_prefix_length_le h hshort ?_).isInfix
        simp only [List.length_append, List.length_cons, List.length_dropLast]
        omega
      have hrest : ¬ w <:+: a ++ w.dropLast := fun h => ha (h.trans (List.suffix_cons c _).isInfix)
      rw [List.cons_append, piecesAux, if_neg hpre, ih hrest, List.reverse_cons, List.append_assoc,
        List.singleton_append]

/-- The pieces before the first occurrence do not matter to the last. -/
lemma lastPiece_append (hw : w ≠ []) {a : List α} (ha : ¬ w <:+: a ++ w.dropLast) (t : List α) :
    lastPiece w (a ++ (w ++ t)) = lastPiece w t := by
  obtain ⟨b, l, heq⟩ := List.exists_cons_of_ne_nil (piecesAux_ne_nil (w := w) 0 [] t)
  rw [lastPiece, pieces, piecesAux_append hw ha, lastPiece, pieces, heq, List.getLastD_cons,
    List.getLastD_cons, List.getLastD_cons]

/-- The pieces between the occurrences of a separator do not have it. -/
lemma mem_splitOn {x : α} {l m : List α} (h : m ∈ l.splitOn x) : x ∉ m ∧ m <:+: l := by
  induction hn : l.length using Nat.strong_induction_on generalizing l with
  | _ n ih =>
    by_cases hx : x ∈ l
    · obtain ⟨a, b, rfl, ha⟩ := List.eq_append_cons_of_mem hx
      rw [List.splitOn_append_cons_self_of_not_mem ha, List.mem_cons] at h
      rcases h with rfl | h
      · exact ⟨ha, (List.prefix_append _ _).isInfix⟩
      · have hlen : b.length < n := by
          rw [← hn, List.length_append, List.length_cons]
          omega
        obtain ⟨hm, hin⟩ := ih b.length hlen h rfl
        refine ⟨hm, hin.trans ?_⟩
        exact ((List.suffix_cons x b).trans (List.suffix_append _ _)).isInfix
    · rw [List.splitOn_eq_singleton hx, List.mem_singleton] at h
      rw [h]
      exact ⟨hx, List.infix_rfl⟩

end Pieces

/-! ### Occurrences -/

section Infix

variable {w a b q u : List α} {x : α}

/-- A word without `x` stands before or after `x`. -/
lemma append_eq_append_cons (hx : x ∉ w) (h : a ++ x :: b = q ++ w ++ u) :
    (∃ v, a = q ++ w ++ v ∧ u = v ++ x :: b) ∨ ∃ v, b = v ++ w ++ u ∧ q = a ++ x :: v := by
  rcases List.append_eq_append_iff.mp h with ⟨c, hc, hb⟩ | ⟨v, rfl, hu⟩
  · rcases List.append_eq_append_iff.mp hc with ⟨d, rfl, rfl⟩ | ⟨d, rfl, rfl⟩
    · cases c with
      | nil => exact .inl ⟨[], by simp, by simpa using hb.symm⟩
      | cons y c =>
          obtain rfl := (List.cons.inj hb).1
          simp at hx
    · cases d with
      | nil =>
          cases w with
          | nil => exact .inl ⟨[], by simp, by simpa using hb.symm⟩
          | cons y w =>
              obtain rfl := (List.cons.inj hb).1
              simp at hx
      | cons y v =>
          obtain ⟨rfl, rfl⟩ := List.cons.inj hb
          exact .inr ⟨v, by simp, rfl⟩
  · exact .inl ⟨v, rfl, hu⟩

/-- An occurrence does not go across `x`. -/
lemma infix_append_cons_iff (hx : x ∉ w) : w <:+: a ++ x :: b ↔ w <:+: a ∨ w <:+: b := by
  constructor
  · rintro ⟨q, u, h⟩
    rcases append_eq_append_cons hx h.symm with ⟨v, rfl, -⟩ | ⟨v, rfl, -⟩
    · exact .inl ⟨q, v, rfl⟩
    · exact .inr ⟨v, u, rfl⟩
  · rintro (⟨q, v, rfl⟩ | ⟨v, u, rfl⟩)
    · exact ⟨q, v ++ x :: b, by simp⟩
    · exact ⟨a ++ x :: v, u, by simp⟩

/-- A word is no part of a text that ends before its last character, if the one before it occurs
there only. -/
lemma not_infix_of_not_mem {y : α} (hx : x ∉ a ++ w) : ¬ w ++ [x, y] <:+: a ++ (w ++ [x]) := by
  rintro ⟨q, u, h⟩
  have heq : q ++ w ++ x :: y :: u = a ++ w ++ [x] := by
    simpa using h
  rcases List.append_eq_append_iff.mp heq with ⟨c, hc, hu⟩ | ⟨c, -, hu⟩
  · cases c with
    | nil => simp at hu
    | cons d c =>
        obtain rfl := (List.cons.inj hu).1
        rw [hc] at hx
        simp at hx
  · have hlen := congrArg List.length hu
    simp at hlen
    omega

/-- Without `x` in it, a word is a prefix up to `x`. -/
lemma prefix_append_cons_iff (hx : x ∉ w) : w <+: a ++ x :: b ↔ w <+: a := by
  constructor
  · rintro ⟨u, h⟩
    rcases List.append_eq_append_iff.mp h with ⟨c, rfl, -⟩ | ⟨c, rfl, hc⟩
    · exact List.prefix_append _ _
    · cases c with
      | nil => simp
      | cons y c =>
          obtain ⟨rfl, -⟩ := List.cons.inj hc
          simp at hx
  · exact fun h => h.trans (List.prefix_append _ _)

/-- A word after `x` stands at the first `x`, or further on. -/
lemma cons_infix_append_cons_iff (hx : x ∉ a) :
    x :: w <:+: a ++ x :: b ↔ w <+: b ∨ x :: w <:+: b := by
  induction a with
  | nil => rw [List.nil_append, List.infix_cons_iff, List.cons_prefix_cons, and_iff_right rfl]
  | cons y a ih =>
      obtain ⟨hne, hx⟩ : x ≠ y ∧ x ∉ a := by simpa using hx
      rw [List.cons_append, List.infix_cons_iff, List.cons_prefix_cons, ← ih hx]
      simp [hne]

end Infix

/-! ### Records -/

section Records

variable {w a : List α} {x y : α} {ts : List (List α)}

/-- The records, each after a separator. -/
def records (x : α) (ts : List (List α)) : List α := ts.flatMap (x :: ·)

@[simp] lemma records_nil : records x [] = [] := rfl

@[simp] lemma records_cons (t : List α) : records x (t :: ts) = x :: (t ++ records x ts) := rfl

/-- A word without the separators is in one of the records, or before them. -/
lemma infix_records_iff (hw : w ≠ []) (hx : x ∉ w) (hy : y ∉ w) :
    w <:+: a ++ (records x ts ++ [y]) ↔ w <:+: a ∨ ∃ t ∈ ts, w <:+: t := by
  induction ts generalizing a with
  | nil => simp [infix_append_cons_iff hy, hw]
  | cons t ts ih =>
      rw [records_cons, List.cons_append, infix_append_cons_iff hx, List.append_assoc, ih,
        List.exists_mem_cons_iff]

/-- A word after a separator begins one of the records. -/
lemma cons_infix_records_iff (ha : x ∉ a) (hts : ∀ t ∈ ts, x ∉ t) (hxy : x ≠ y) (hx : x ∉ w)
    (hy : y ∉ w) : x :: w <:+: a ++ (records x ts ++ [y]) ↔ ∃ t ∈ ts, w <+: t := by
  induction ts generalizing a with
  | nil =>
      simp only [records_nil, List.nil_append, List.not_mem_nil, false_and, exists_false, iff_false]
      intro h
      have hmem : x ∈ a ++ [y] := h.subset List.mem_cons_self
      simp [ha, hxy] at hmem
  | cons t ts ih =>
      obtain ⟨ht, hts⟩ := List.forall_mem_cons.mp hts
      have hprefix : w <+: t ++ (records x ts ++ [y]) ↔ w <+: t := by
        cases ts with
        | nil => exact prefix_append_cons_iff hy
        | cons t' ts => exact prefix_append_cons_iff hx
      rw [records_cons, List.cons_append, cons_infix_append_cons_iff ha, List.append_assoc, hprefix,
        ih ht hts, List.exists_mem_cons_iff]

end Records

end Text

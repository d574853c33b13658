import Mathlib.Order.Defs.LinearOrder
import Mathlib.Tactic

/-!
Finite maps over a linear order of keys, kept as the list of their entries in increasing
order of the keys, and the loop over such a map that tolerates its modification.

* `find`, `insert`, `erase`: the lookup laws `find_insert`, `find_erase`, `find_eq_some_iff`.
* `after`: the first entry past a cursor. A loop that holds a cursor into the map and asks
  for the next entry each time sees the entries inserted ahead of it.
-/

/-- A finite map with its entries in increasing order of the keys. -/
structure OrderedMap (K V : Type*) [LinearOrder K] where
  entries : List (K × V)
  sorted : entries.Pairwise fun a b => a.1 < b.1

namespace OrderedMap

variable {K V : Type*} [LinearOrder K]

/-- The map without entries. -/
def empty : OrderedMap K V := ⟨[], List.Pairwise.nil⟩

/-- The value of a key. -/
def find (m : OrderedMap K V) (k : K) : Option V :=
  (m.entries.find? fun e => e.1 == k).map Prod.snd

/-- Set the value of a key in a list of entries. -/
def insertEntry (k : K) (v : V) : List (K × V) → List (K × V)
  | [] => [(k, v)]
  | e :: l =>
    if k < e.1 then (k, v) :: e :: l
    else if e.1 < k then e :: insertEntry k v l
    else (k, v) :: l

lemma mem_insertEntry {k : K} {v : V} {l : List (K × V)} {e : K × V}
    (h : e ∈ insertEntry k v l) : e = (k, v) ∨ e ∈ l := by
  induction l with
  | nil => exact .inl (List.mem_singleton.mp h)
  | cons a l ih =>
      rw [insertEntry] at h
      split_ifs at h
      · exact List.mem_cons.mp h
      · rcases List.mem_cons.mp h with rfl | h
        · exact .inr List.mem_cons_self
        · exact (ih h).imp_right (List.mem_cons_of_mem a)
      · rcases List.mem_cons.mp h with rfl | h
        · exact .inl rfl
        · exact .inr (List.mem_cons_of_mem a h)

lemma sorted_insertEntry {k : K} {v : V} {l : List (K × V)}
    (h : l.Pairwise fun a b => a.1 < b.1) :
    (insertEntry k v l).Pairwise fun a b => a.1 < b.1 := by
  induction l with
  | nil => simp [insertEntry]
  | cons a l ih =>
      rw [List.pairwise_cons] at h
      rw [insertEntry]
      split_ifs with h1 h2
      · refine List.pairwise_cons.mpr ⟨?_, List.pairwise_cons.mpr h⟩
        intro e he
        rcases List.mem_cons.mp he with rfl | he
        · exact h1
        · exact h1.trans (h.1 e he)
      · refine List.pairwise_cons.mpr ⟨?_, ih h.2⟩
        intro e he
        rcases mem_insertEntry he with rfl | he
        · exact h2
        · exact h.1 e he
      · have hk : k = a.1 := le_antisymm (not_lt.mp h2) (not_lt.mp h1)
        exact List.pairwise_cons.mpr ⟨fun e he => hk ▸ h.1 e he, h.2⟩

/-- Set the value of a key. -/
def insert (m : OrderedMap K V) (k : K) (v : V) : OrderedMap K V :=
  ⟨insertEntry k v m.entries, sorted_insertEntry m.sorted⟩

/-- Remove a key. -/
def erase (m : OrderedMap K V) (k : K) : OrderedMap K V :=
  ⟨m.entries.filter fun e => e.1 ≠ k, m.sorted.sublist List.filter_sublist⟩

/-- The first entry, or the first entry past the cursor. -/
def after (m : OrderedMap K V) (cursor : Option K) : Option (K × V) :=
  match cursor with
  | none => m.entries.head?
  | some c => m.entries.find? fun e => c < e.1

@[simp] lemma find_empty (k : K) : (empty : OrderedMap K V).find k = none := rfl

lemma find_eq_some_iff {m : OrderedMap K V} {k : K} {v : V} :
    m.find k = some v ↔ (k, v) ∈ m.entries := by
  rw [find, Option.map_eq_some_iff]
  constructor
  · rintro ⟨⟨k', v'⟩, hfind, rfl⟩
    have hk : k' = k := by simpa using List.find?_some hfind
    exact hk ▸ List.mem_of_find?_eq_some hfind
  · intro hmem
    obtain ⟨l₁, l₂, hl⟩ := List.append_of_mem hmem
    refine ⟨(k, v), ?_, rfl⟩
    rw [List.find?_eq_some_iff_append]
    refine ⟨by simp, l₁, l₂, hl, fun e he => ?_⟩
    have hlt : e.1 < k := by
      have hs := m.sorted
      rw [hl, List.pairwise_append] at hs
      exact hs.2.2 e he (k, v) List.mem_cons_self
    simpa using hlt.ne

lemma ext_find {m m' : OrderedMap K V} (h : ∀ k, m.find k = m'.find k) : m = m' := by
  have hmem : ∀ e, e ∈ m.entries ↔ e ∈ m'.entries := fun e => by
    rw [← find_eq_some_iff, ← find_eq_some_iff, h]
  have hperm : m.entries.Perm m'.entries := by
    have hnodup : ∀ {l : List (K × V)}, (l.Pairwise fun a b => a.1 < b.1) → l.Nodup :=
      fun hl => hl.imp fun hab heq => absurd (heq ▸ hab) (lt_irrefl _)
    exact (List.perm_ext_iff_of_nodup (hnodup m.sorted) (hnodup m'.sorted)).mpr hmem
  have heq : m.entries = m'.entries :=
    hperm.eq_of_pairwise (fun a b _ _ hab hba => absurd (hab.trans hba) (lt_irrefl _))
      m.sorted m'.sorted
  cases m
  cases m'
  simpa using heq

lemma find_insert (m : OrderedMap K V) (k : K) (v : V) (k' : K) :
    (m.insert k v).find k' = if k' = k then some v else m.find k' := by
  have hlist : ∀ l : List (K × V), (l.Pairwise fun a b => a.1 < b.1) →
      ((insertEntry k v l).find? fun e => e.1 == k').map Prod.snd =
        if k' = k then some v else (l.find? fun e => e.1 == k').map Prod.snd := by
    intro l hl
    induction l with
    | nil =>
        by_cases h : k' = k
        · simp [insertEntry, h]
        · simp [insertEntry, h, Ne.symm h]
    | cons a l ih =>
        rw [List.pairwise_cons] at hl
        rw [insertEntry]
        split_ifs with h1 h2 h3 h4 h5
        · simp [h2]
        · simp [List.find?_cons, Ne.symm h2]
        -- the new entry comes after `a`, so `a` is not the one looked up
        · have ha : a.1 ≠ k' := by
            rw [h4]
            exact h3.ne
          rw [List.find?_cons_of_neg (by simpa using ha), ih hl.2, if_pos h4]
        · by_cases ha : a.1 = k'
          · simp [ha]
          · rw [List.find?_cons_of_neg (by simpa using ha),
              List.find?_cons_of_neg (by simpa using ha), ih hl.2, if_neg h4]
        · simp [h5]
        · have hk : k = a.1 := le_antisymm (not_lt.mp h3) (not_lt.mp h1)
          simp [← hk, Ne.symm h5]
  exact hlist m.entries m.sorted

lemma find_erase (m : OrderedMap K V) (k k' : K) :
    (m.erase k).find k' = if k' = k then none else m.find k' := by
  rcases eq_or_ne k' k with rfl | h
  · rw [if_pos rfl, Option.eq_none_iff_forall_ne_some]
    intro v hv
    have hmem := find_eq_some_iff.mp hv
    simp [erase] at hmem
  · rw [if_neg h]
    refine Option.ext fun v => ?_
    rw [find_eq_some_iff, find_eq_some_iff, erase, List.mem_filter]
    simp [h]

/-- Reinserting a value changes nothing. -/
lemma insert_eq_self {m : OrderedMap K V} {k : K} {v : V} (h : m.find k = some v) :
    m.insert k v = m := by
  refine ext_find fun k' => ?_
  rw [find_insert]
  split_ifs with hk
  · rw [hk, h]
  · rfl

/-- The entry past the cursor is an entry of the map, past the cursor. -/
lemma find_of_after {m : OrderedMap K V} {cursor : Option K} {k : K} {v : V}
    (h : m.after cursor = some (k, v)) : m.find k = some v ∧ ∀ c ∈ cursor, c < k := by
  rw [find_eq_some_iff]
  cases cursor with
  | none => exact ⟨List.mem_of_mem_head? h, by simp⟩
  | some c =>
      refine ⟨List.mem_of_find?_eq_some h, ?_⟩
      rintro _ ⟨⟩
      simpa using List.find?_some h

/-- No entry lies between the cursor and the entry past it. -/
lemma le_of_after {m : OrderedMap K V} {cursor : Option K} {k k' : K} {v v' : V}
    (h : m.after cursor = some (k, v)) (hk' : m.find k' = some v')
    (hc : ∀ c ∈ cursor, c < k') : k ≤ k' := by
  rw [find_eq_some_iff] at hk'
  have hsorted := m.sorted
  cases cursor with
  | none =>
      obtain ⟨l, hl⟩ := List.head?_eq_some_iff.mp h
      rw [hl] at hk' hsorted
      rcases List.mem_cons.mp hk' with heq | hmem
      · exact (congrArg Prod.fst heq).ge
      · exact ((List.pairwise_cons.mp hsorted).1 _ hmem).le
  | some c =>
      obtain ⟨-, l₁, l₂, hl, hbefore⟩ := List.find?_eq_some_iff_append.mp h
      rw [hl] at hk' hsorted
      rcases List.mem_append.mp hk' with hmem | hmem
      · have := hbefore _ hmem
        simp [hc c rfl] at this
      · rcases List.mem_cons.mp hmem with heq | hmem
        · exact (congrArg Prod.fst heq).ge
        · have htail := (List.pairwise_append.mp hsorted).2.1
          exact ((List.pairwise_cons.mp htail).1 _ hmem).le

/-- Past the last entry there is none. -/
lemma find_ne_some_of_after {m : OrderedMap K V} {cursor : Option K} {k : K} {v : V}
    (h : m.after cursor = none) (hc : ∀ c ∈ cursor, c < k) : m.find k ≠ some v := by
  intro hk
  rw [find_eq_some_iff] at hk
  cases cursor with
  | none =>
      rw [after, List.head?_eq_none_iff] at h
      simp [h] at hk
  | some c =>
      have hle := List.find?_eq_none.mp h (k, v) hk
      simp [hc c rfl] at hle

/-- The map of a list of entries. -/
def ofList (l : List (K × V)) : OrderedMap K V :=
  l.foldr (fun e m => m.insert e.1 e.2) empty

lemma find_ofList_iff {l : List (K × V)} (h : (l.map Prod.fst).Nodup) {k : K} {v : V} :
    (ofList l).find k = some v ↔ (k, v) ∈ l := by
  induction l with
  | nil => simp [ofList]
  | cons e l ih =>
      rw [List.map_cons, List.nodup_cons] at h
      have hcons : ofList (e :: l) = (ofList l).insert e.1 e.2 := rfl
      rw [hcons, find_insert, List.mem_cons]
      split_ifs with hk
      · subst hk
        have hnot : (e.1, v) ∉ l := fun hmem => h.1 (List.mem_map.mpr ⟨_, hmem, rfl⟩)
        rw [or_iff_left hnot, Option.some.injEq]
        exact ⟨fun hv => hv ▸ rfl, fun he => (congrArg Prod.snd he).symm⟩
      · have hne : (k, v) ≠ e := fun he => hk (congrArg Prod.fst he)
        rw [ih h.2, or_iff_right hne]

/-! ### Counting entries -/

/-- The number of entries before a key. -/
def rank (m : OrderedMap K V) (k : K) : ℕ := m.entries.countP fun e => decide (e.1 < k)

/-- The keys of the map are ordered as their ranks. -/
lemma rank_lt_rank {m : OrderedMap K V} {k k' : K} (h : m.find k ≠ none) (hlt : k < k') :
    m.rank k < m.rank k' := by
  obtain ⟨v, hv⟩ := Option.ne_none_iff_exists'.mp h
  obtain ⟨l₁, l₂, hl⟩ := List.append_of_mem (find_eq_some_iff.mp hv)
  have hmono : ∀ l : List (K × V), (l.countP fun e => decide (e.1 < k)) ≤
      l.countP fun e => decide (e.1 < k') := fun l =>
    List.countP_mono_left fun e _ he => by
      simp only [decide_eq_true_eq] at he ⊢
      exact he.trans hlt
  have h1 := hmono l₁
  have h2 := hmono l₂
  simp only [rank, hl, List.countP_append, List.countP_cons, lt_irrefl, hlt, decide_false,
    decide_true, Bool.false_eq_true, if_false, if_true]
  omega

/-- A property of a key of the map has a first key. -/
lemma exists_first {m : OrderedMap K V} {p : K → Prop} {k : K} (hk : m.find k ≠ none)
    (hp : p k) : ∃ k₀ ≤ k, p k₀ ∧ ∀ k' < k₀, m.find k' ≠ none → ¬ p k' := by
  induction hn : m.rank k using Nat.strong_induction_on generalizing k with
  | _ n ih =>
      by_cases hfirst : ∀ k' < k, m.find k' ≠ none → ¬ p k'
      · exact ⟨k, le_rfl, hp, hfirst⟩
      · push Not at hfirst
        obtain ⟨k', hlt, hk', hp'⟩ := hfirst
        obtain ⟨k₀, hle, h₀⟩ := ih (m.rank k') (hn ▸ rank_lt_rank hk' hlt) hk' hp' rfl
        exact ⟨k₀, hle.trans hlt.le, h₀⟩

lemma countP_insertEntry_le (p : K × V → Bool) (k : K) (v : V) (l : List (K × V)) :
    (insertEntry k v l).countP p ≤ l.countP p + if p (k, v) then 1 else 0 := by
  have hnew : ∀ l : List (K × V),
      ((k, v) :: l).countP p = l.countP p + if p (k, v) then 1 else 0 := fun l =>
    List.countP_cons
  generalize (if p (k, v) then 1 else 0) = c at hnew ⊢
  induction l with
  | nil => rw [insertEntry, hnew]
  | cons a l ih =>
      rw [insertEntry]
      split_ifs with h1 h2
      · rw [hnew]
      · rw [List.countP_cons, List.countP_cons]
        omega
      · rw [hnew, List.countP_cons]
        omega

/-- Past an entry there is one entry fewer of its kind. -/
lemma countP_after_succ_le {m : OrderedMap K V} {cursor : Option K} {k : K} {v : V}
    (h : m.after cursor = some (k, v)) (p : V → Bool) :
    (m.entries.countP fun e => decide (k < e.1) && p e.2) + (if p v then 1 else 0) ≤
      m.entries.countP fun e => (cursor.all fun c => decide (c < e.1)) && p e.2 := by
  obtain ⟨hfind, hc⟩ := find_of_after h
  obtain ⟨l₁, l₂, hl⟩ := List.append_of_mem (find_eq_some_iff.mp hfind)
  have hk : (cursor.all fun c => decide (c < k)) = true := by
    cases cursor with
    | none => rfl
    | some c => simpa using hc c rfl
  -- the cursor only moves on, so no entry comes to be counted
  have hmono : ∀ l : List (K × V), (l.countP fun e => decide (k < e.1) && p e.2) ≤
      l.countP fun e => (cursor.all fun c => decide (c < e.1)) && p e.2 := by
    intro l
    refine List.countP_mono_left fun e _ he => ?_
    simp only [Bool.and_eq_true, decide_eq_true_eq] at he ⊢
    refine ⟨?_, he.2⟩
    cases cursor with
    | none => rfl
    | some c => simpa using (hc c rfl).trans he.1
  have h1 := hmono l₁
  have h2 := hmono l₂
  rw [hl, List.countP_append, List.countP_append, List.countP_cons, List.countP_cons]
  simp only [lt_irrefl, decide_false, Bool.false_and, Bool.false_eq_true, if_false, hk,
    Bool.true_and]
  omega

end OrderedMap

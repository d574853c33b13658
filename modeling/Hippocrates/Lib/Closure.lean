import Mathlib.Tactic

/-!
Loops that close a finite set under the successors of its elements.

* `Reached`: what is reached from a set. A closed set that contains the set contains all of it.
* `explore`: a queue of elements that are marked when they enter it.
* `saturate`: rounds that add the successors of all elements, until nothing is new.
* `collect`: the recursion on the successors, which does not remember what has been there. It ends
  exactly when no cycle is reached (`exists_collect_iff`).

The queue and the rounds end on a finite set of elements that is closed under the successors.
-/

namespace Closure

open Relation

variable {α : Type*} [DecidableEq α]

/-- `b` is a successor of `a`. -/
def Step (next : α → Finset α) (a b : α) : Prop := b ∈ next a

/-- What is reached from a set. -/
def Reached (next : α → Finset α) (s : Finset α) (b : α) : Prop :=
  ∃ a ∈ s, ReflTransGen (Step next) a b

section Reached

variable {next : α → Finset α} {s t : Finset α} {a b : α}

omit [DecidableEq α] in
lemma reached_of_mem (h : b ∈ s) : Reached next s b := ⟨b, h, .refl⟩

omit [DecidableEq α] in
lemma Reached.step (h : Reached next s a) (hb : b ∈ next a) : Reached next s b := by
  obtain ⟨c, hc, hca⟩ := h
  exact ⟨c, hc, hca.tail hb⟩

omit [DecidableEq α] in
/-- What holds of the start, and of the successors of what it holds of, holds of what is reached. -/
lemma Reached.induction {P : α → Prop} (h : Reached next s b) (hs : ∀ a ∈ s, P a)
    (hclosed : ∀ a, P a → ∀ b ∈ next a, P b) : P b := by
  obtain ⟨a, ha, hab⟩ := h
  induction hab with
  | refl => exact hs a ha
  | tail _ hstep ih => exact hclosed _ ih _ hstep

/-- The start is reached, and what is reached from its successors. -/
lemma reached_iff_biUnion :
    Reached next s b ↔ b ∈ s ∨ Reached next (s.biUnion next) b := by
  constructor
  · rintro ⟨a, ha, hab⟩
    rcases hab.cases_head with rfl | ⟨c, hac, hcb⟩
    · exact .inl ha
    · exact .inr ⟨c, Finset.mem_biUnion.mpr ⟨a, ha, hac⟩, hcb⟩
  · rintro (hb | ⟨c, hc, hcb⟩)
    · exact reached_of_mem hb
    · obtain ⟨a, ha, hac⟩ := Finset.mem_biUnion.mp hc
      exact ⟨a, ha, ReflTransGen.head hac hcb⟩

end Reached

/-! ### A queue of marked elements -/

/-- The successors of one element: those that are not marked enter the queue, and are marked. -/
def enqueue (queue : List α) (seen : Finset α) : List α → List α × Finset α
  | [] => (queue, seen)
  | b :: bs =>
    if b ∈ seen then enqueue queue seen bs else enqueue (queue ++ [b]) (insert b seen) bs

/-- The rounds, with a bound for their number. -/
def explore (next : α → List α) : ℕ → List α → Finset α → Option (Finset α)
  | _, [], seen => some seen
  | 0, _ :: _, _ => none
  | n + 1, a :: queue, seen =>
    let r := enqueue queue seen (next a)
    explore next n r.1 r.2

section Explore

variable {next : α → List α} {nodes seen : Finset α} {queue bs : List α} {a b : α} {n : ℕ}

lemma mem_enqueue_fst (h : a ∈ queue) : a ∈ (enqueue queue seen bs).1 := by
  induction bs generalizing queue seen with
  | nil => exact h
  | cons b bs ih =>
      rw [enqueue]
      split_ifs
      · exact ih h
      · exact ih (List.mem_append_left _ h)

lemma mem_enqueue_snd : a ∈ (enqueue queue seen bs).2 ↔ a ∈ seen ∨ a ∈ bs := by
  induction bs generalizing queue seen with
  | nil => simp [enqueue]
  | cons b bs ih =>
      rw [enqueue]
      split_ifs with hb
      · rw [ih, List.mem_cons]
        constructor
        · exact fun h => h.imp_right Or.inr
        · rintro (h | rfl | h)
          · exact .inl h
          · exact .inl hb
          · exact .inr h
      · rw [ih, Finset.mem_insert, List.mem_cons]
        tauto

/-- What is newly marked is in the queue. -/
lemma mem_fst_of_mem_snd (h : a ∈ (enqueue queue seen bs).2) (ha : a ∉ seen) :
    a ∈ (enqueue queue seen bs).1 := by
  induction bs generalizing queue seen with
  | nil => exact absurd h ha
  | cons b bs ih =>
      rw [enqueue] at h ⊢
      split_ifs at h ⊢ with hb
      · exact ih h ha
      · by_cases hab : a = b
        · exact mem_enqueue_fst (by simp [hab])
        · exact ih h (by simp [hab, ha])

/-- What enters the queue is marked. -/
lemma mem_snd_of_mem_fst (hqueue : ∀ a ∈ queue, a ∈ seen) (h : a ∈ (enqueue queue seen bs).1) :
    a ∈ (enqueue queue seen bs).2 := by
  induction bs generalizing queue seen with
  | nil => exact hqueue a h
  | cons b bs ih =>
      rw [enqueue] at h ⊢
      split_ifs at h ⊢ with hb
      · exact ih hqueue h
      · refine ih (fun a ha => ?_) h
        rcases List.mem_append.mp ha with ha | ha
        · exact Finset.mem_insert_of_mem (hqueue a ha)
        · rw [List.mem_singleton.mp ha]
          exact Finset.mem_insert_self b seen

/-- What enters the queue is taken from the elements that are not marked. -/
lemma enqueue_measure (hseen : seen ⊆ nodes) (hbs : ∀ b ∈ bs, b ∈ nodes) :
    (enqueue queue seen bs).1.length + (nodes \ (enqueue queue seen bs).2).card =
      queue.length + (nodes \ seen).card := by
  induction bs generalizing queue seen with
  | nil => rfl
  | cons b bs ih =>
      obtain ⟨hb, hbs⟩ := List.forall_mem_cons.mp hbs
      rw [enqueue]
      split_ifs with hmem
      · exact ih hseen hbs
      · rw [ih (Finset.insert_subset hb hseen) hbs, List.length_append, List.length_singleton,
          Finset.sdiff_insert, Finset.card_erase_of_mem (Finset.mem_sdiff.mpr ⟨hb, hmem⟩)]
        have hpos : 0 < (nodes \ seen).card :=
          Finset.card_pos.mpr ⟨b, Finset.mem_sdiff.mpr ⟨hb, hmem⟩⟩
        omega

/-- The queue is marked, and the successors of what is marked and not in the queue are marked. -/
structure Marked (next : α → List α) (nodes : Finset α) (queue : List α) (seen : Finset α) :
    Prop where
  sub : seen ⊆ nodes
  mark : ∀ a ∈ queue, a ∈ seen
  done : ∀ a ∈ seen, a ∉ queue → ∀ b ∈ next a, b ∈ seen

/-- One round. -/
lemma Marked.step (h : Marked next nodes (a :: queue) seen)
    (hnodes : ∀ a ∈ nodes, ∀ b ∈ next a, b ∈ nodes) :
    Marked next nodes (enqueue queue seen (next a)).1 (enqueue queue seen (next a)).2 := by
  obtain ⟨ha, hqueue⟩ := List.forall_mem_cons.mp h.mark
  refine ⟨fun b hb => ?_, fun b => mem_snd_of_mem_fst hqueue, fun b hb hb' c hc => ?_⟩
  · exact (mem_enqueue_snd.mp hb).elim (fun hb => h.sub hb) (hnodes a (h.sub ha) b)
  · by_cases hba : b = a
    · exact mem_enqueue_snd.mpr (.inr (hba ▸ hc))
    · by_cases hold : b ∈ seen
      · refine mem_enqueue_snd.mpr (.inl (h.done b hold (fun hmem => ?_) c hc))
        exact hb' (mem_enqueue_fst ((List.mem_cons.mp hmem).resolve_left hba))
      · exact absurd (mem_fst_of_mem_snd hb hold) hb'

/-- A round reaches nothing else. -/
lemma Marked.reached_iff (h : Marked next nodes (a :: queue) seen) :
    Reached (fun a => (next a).toFinset) (enqueue queue seen (next a)).2 b ↔
      Reached (fun a => (next a).toFinset) seen b := by
  constructor
  · intro hb
    refine hb.induction (fun b hb => ?_) fun b hb c hc => hb.step hc
    rcases mem_enqueue_snd.mp hb with hb | hb
    · exact reached_of_mem hb
    · exact (reached_of_mem (h.mark a List.mem_cons_self)).step (List.mem_toFinset.mpr hb)
  · intro hb
    exact hb.induction (fun b hb => reached_of_mem (mem_enqueue_snd.mpr (.inl hb)))
      fun b hb c hc => hb.step hc

/-- When the queue is empty, what is reached is marked. -/
lemma Marked.mem_iff (h : Marked next nodes [] seen) :
    b ∈ seen ↔ Reached (fun a => (next a).toFinset) seen b := by
  refine ⟨reached_of_mem, fun hb => ?_⟩
  exact hb.induction (fun a ha => ha) fun a ha b hb =>
    h.done a ha List.not_mem_nil b (List.mem_toFinset.mp hb)

/-- **The queue becomes empty**, and then what is reached is marked. -/
lemma exists_explore (hnodes : ∀ a ∈ nodes, ∀ b ∈ next a, b ∈ nodes)
    (h : Marked next nodes queue seen) (hn : queue.length + (nodes \ seen).card ≤ n) :
    ∃ t, explore next n queue seen = some t ∧
      ∀ b, b ∈ t ↔ Reached (fun a => (next a).toFinset) seen b := by
  induction n generalizing queue seen with
  | zero =>
      obtain rfl : queue = [] := List.length_eq_zero_iff.mp (by omega)
      exact ⟨seen, by rw [explore], fun b => h.mem_iff⟩
  | succ n ih =>
      cases queue with
      | nil => exact ⟨seen, by rw [explore], fun b => h.mem_iff⟩
      | cons a queue =>
          have hmeasure := @enqueue_measure _ _ nodes seen queue (next a) h.sub
            (hnodes a (h.sub (h.mark a List.mem_cons_self)))
          simp only [List.length_cons] at hn
          obtain ⟨t, ht, hmem⟩ := ih (h.step hnodes) (by omega)
          exact ⟨t, ht, fun b => (hmem b).trans h.reached_iff⟩

end Explore

/-! ### Rounds over all elements -/

/-- The rounds, with a bound for their number: the successors that are new are added. -/
def saturate (next : α → Finset α) : ℕ → Finset α → Option (Finset α)
  | 0, _ => none
  | n + 1, s =>
    let new := s.biUnion next \ s
    if new = ∅ then some s else saturate next n (s ∪ new)

section Saturate

variable {next : α → Finset α} {nodes s : Finset α} {b : α} {n : ℕ}

/-- **The rounds end** with what is reached. -/
lemma exists_saturate (hnodes : ∀ a ∈ nodes, next a ⊆ nodes) (hs : s ⊆ nodes)
    (hn : (nodes \ s).card < n) :
    ∃ t, saturate next n s = some t ∧ ∀ b, b ∈ t ↔ Reached next s b := by
  induction n generalizing s with
  | zero => omega
  | succ n ih =>
      rw [saturate]
      split_ifs with hnew
      · refine ⟨s, rfl, fun b => ⟨reached_of_mem, fun h => ?_⟩⟩
        refine h.induction (fun a ha => ha) fun a ha b hb => ?_
        exact Finset.sdiff_eq_empty_iff_subset.mp hnew (Finset.mem_biUnion.mpr ⟨a, ha, hb⟩)
      · have hsub : s.biUnion next ⊆ nodes := fun b hb => by
          obtain ⟨a, ha, hab⟩ := Finset.mem_biUnion.mp hb
          exact hnodes a (hs ha) hab
        -- a new element is taken from those that are missing
        obtain ⟨c, hc⟩ := Finset.nonempty_iff_ne_empty.mpr hnew
        obtain ⟨hc, hcs⟩ := Finset.mem_sdiff.mp hc
        have hlt : (nodes \ (s ∪ (s.biUnion next \ s))).card < (nodes \ s).card := by
          refine Finset.card_lt_card (Finset.ssubset_iff_of_subset (fun b hb => ?_) |>.mpr
            ⟨c, by simp [hsub hc, hcs], by simp [hc]⟩)
          simp only [Finset.mem_sdiff, Finset.mem_union, not_or] at hb ⊢
          exact ⟨hb.1, hb.2.1⟩
        have hsub' : s ∪ (s.biUnion next \ s) ⊆ nodes :=
          Finset.union_subset hs (Finset.sdiff_subset.trans hsub)
        obtain ⟨t, ht, hmem⟩ := ih hsub' (by omega)
        refine ⟨t, ht, fun b => (hmem b).trans ⟨fun h => ?_, fun h => ?_⟩⟩
        · refine h.induction (fun b hb => ?_) fun b hb c hc => hb.step hc
          rw [Finset.union_sdiff_self_eq_union, Finset.mem_union] at hb
          rw [reached_iff_biUnion]
          exact hb.imp_right reached_of_mem
        · exact h.induction (fun b hb => reached_of_mem (Finset.mem_union_left _ hb))
            fun b hb c hc => hb.step hc

end Saturate

/-! ### A recursion on the successors only -/

/-- The recursion, with a bound for its depth: the set, and what is collected from the
successors. -/
def collect (next : α → Finset α) : ℕ → Finset α → Option (Finset α)
  | 0, _ => none
  | n + 1, s =>
    if s = ∅ then some s else (collect next n (s.biUnion next)).map fun der => s ∪ der

section Collect

variable {next : α → Finset α} {s t : Finset α} {a b : α} {n : ℕ}

/-- What is collected is what is reached. -/
lemma mem_collect_iff (h : collect next n s = some t) : b ∈ t ↔ Reached next s b := by
  induction n generalizing s t with
  | zero => cases h
  | succ n ih =>
      rw [collect] at h
      split_ifs at h with hs
      · obtain rfl := Option.some.inj h
        subst hs
        refine iff_of_false (Finset.notMem_empty b) ?_
        rintro ⟨a, ha, -⟩
        exact Finset.notMem_empty a ha
      · obtain ⟨der, hder, rfl⟩ := Option.map_eq_some_iff.mp h
        rw [Finset.mem_union, ih hder, ← reached_iff_biUnion]

/-- The recursion ends when the successors of successors end. -/
lemma collect_isSome_iff :
    (collect next n s).isSome ↔ ∃ k < n, (fun s : Finset α => s.biUnion next)^[k] s = ∅ := by
  induction n generalizing s with
  | zero => simp [collect]
  | succ n ih =>
      rw [collect]
      split_ifs with hs
      · exact iff_of_true rfl ⟨0, n.succ_pos, hs⟩
      · rw [Option.isSome_map, ih]
        constructor
        · rintro ⟨k, hk, hempty⟩
          exact ⟨k + 1, by omega, hempty⟩
        · rintro ⟨k, hk, hempty⟩
          cases k with
          | zero => exact absurd hempty hs
          | succ k => exact ⟨k, by omega, hempty⟩

/-- A successor of order `k` is reached over a chain of `k` steps, which is written backwards. -/
lemma exists_chain {k : ℕ} (h : b ∈ (fun s : Finset α => s.biUnion next)^[k] s) :
    ∃ l : List α, l.length = k ∧ (b :: l).IsChain (fun x y => Step next y x) ∧
      ∀ a ∈ b :: l, Reached next s a := by
  induction k generalizing b with
  | zero =>
      refine ⟨[], rfl, .singleton b, fun a ha => ?_⟩
      rw [List.mem_singleton.mp ha]
      exact reached_of_mem h
  | succ k ih =>
      rw [Function.iterate_succ_apply'] at h
      obtain ⟨a, ha, hab⟩ := Finset.mem_biUnion.mp h
      obtain ⟨l, hlen, hchain, hreached⟩ := ih ha
      refine ⟨a :: l, by rw [List.length_cons, hlen], hchain.cons_cons hab, fun c hc => ?_⟩
      rcases List.mem_cons.mp hc with rfl | hc
      · exact (hreached a List.mem_cons_self).step hab
      · exact hreached c hc

/-- Without cycles the chains have no repetition, so they are not longer than the type. -/
lemma collect_isSome_of_acyclic [Fintype α]
    (h : ∀ a, Reached next s a → ¬ TransGen (Step next) a a) :
    (collect next (Fintype.card α + 1) s).isSome := by
  refine collect_isSome_iff.mpr ⟨Fintype.card α, Nat.lt_succ_self _, ?_⟩
  refine Finset.eq_empty_of_forall_notMem fun b hb => ?_
  obtain ⟨l, hlen, hchain, hreached⟩ := exists_chain hb
  have hpw : (b :: l).Pairwise (TransGen (Function.swap (Step next))) :=
    (hchain.imp fun x y hxy => TransGen.single hxy).pairwise
  have hnodup : (b :: l).Nodup := by
    refine List.Pairwise.imp_of_mem (fun {x y} hx _ hxy heq => ?_) hpw
    rw [← heq] at hxy
    exact h x (hreached x hx) (transGen_swap.mp hxy)
  have hcard := hnodup.length_le_card
  rw [List.length_cons, hlen] at hcard
  omega

/-- A set with an element that reaches a cycle has a successor that reaches a cycle. -/
lemma iterate_ne_empty (h : Reached next s a) (hcycle : TransGen (Step next) a a) (k : ℕ) :
    ∃ b ∈ (fun s : Finset α => s.biUnion next)^[k] s, ReflTransGen (Step next) b a := by
  induction k with
  | zero => exact h
  | succ k ih =>
      obtain ⟨b, hb, hba⟩ := ih
      have hpos : TransGen (Step next) b a := hcycle.trans_right hba
      obtain ⟨c, hbc, hca⟩ := TransGen.head'_iff.mp hpos
      rw [Function.iterate_succ_apply']
      exact ⟨c, Finset.mem_biUnion.mpr ⟨b, hb, hbc⟩, hca⟩

/-- **The recursion ends** exactly when no cycle is reached. -/
lemma exists_collect_iff [Fintype α] : (∃ n t, collect next n s = some t) ↔
    ∀ a, Reached next s a → ¬ TransGen (Step next) a a := by
  constructor
  · rintro ⟨n, t, ht⟩ a ha hcycle
    obtain ⟨k, -, hempty⟩ := collect_isSome_iff.mp (Option.isSome_iff_exists.mpr ⟨t, ht⟩)
    obtain ⟨b, hb, -⟩ := iterate_ne_empty ha hcycle k
    rw [hempty] at hb
    exact Finset.notMem_empty b hb
  · exact fun h => ⟨_, Option.isSome_iff_exists.mp (collect_isSome_of_acyclic h)⟩

end Collect

end Closure

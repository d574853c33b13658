import Mathlib.Tactic
import Hippocrates.Lib.Weave

/-!
Persistency of single locations under stores, cache-line flushes and fences.

A location is `clean` until it is stored to, a store makes it `dirty`, a flush of a dirty
location starts its write-back (`flushed`), and the next fence completes it (`persisted`).
The ranges the operations act on are of an arbitrary type `ρ` with a membership relation.

* `run`, `replay`: the state of one location after a list of operations, from a given state
  and from `clean`.
* `Durable`: the same notion read off the list itself, after the last store of the location
  a flush of it and, later, a fence. `durable_iff_replay` identifies the two.
* `StoresSettled`: each store of the list is the last of its locations and flushed afterwards.
* The `run_*` lemmas say what a list that does not store to the location (`Quiet`) does to
  each state, which is how the state of a long list is computed from its last store on.
* `Durable.weave`: a durable location stays so where more flushes and fences are woven in.
-/

namespace Persistency

/-- A list with an element of some kind splits at the last of them. -/
lemma exists_last {α : Type*} {P : α → Prop} {l : List α} (h : ∃ a ∈ l, P a) :
    ∃ p a q, l = p ++ a :: q ∧ P a ∧ ∀ b ∈ q, ¬ P b := by
  induction l with
  | nil => simp at h
  | cons c l ih =>
      by_cases hl : ∃ a ∈ l, P a
      · obtain ⟨p, a, q, rfl, ha, hq⟩ := ih hl
        exact ⟨c :: p, a, q, rfl, ha, hq⟩
      · obtain ⟨a, hmem, ha⟩ := h
        rcases List.mem_cons.mp hmem with rfl | hmem
        · exact ⟨[], a, l, rfl, ha, fun b hb hPb => hl ⟨b, hb, hPb⟩⟩
        · exact absurd ⟨a, hmem, ha⟩ hl

/-- A final part of a list that misses an element of the list comes after it. -/
lemma suffix_of_notMem {α : Type*} {l m p q : List α} {d : α} (h : l ++ d :: m = p ++ q)
    (hd : d ∉ q) : q <:+ m := by
  rcases List.append_eq_append_iff.mp h with ⟨r, rfl, hr⟩ | ⟨r, rfl, rfl⟩
  · cases r with
    | nil =>
        rw [List.nil_append] at hr
        exact absurd (hr ▸ List.mem_cons_self) hd
    | cons c r =>
        simp only [List.cons_append, List.cons.injEq] at hr
        exact ⟨r, hr.2.symm⟩
  · exact absurd (List.mem_append_right r List.mem_cons_self) hd

/-- An operation on persistent memory; `ρ` is the type of the ranges. -/
inductive Op (ρ : Type*) where
  | store (r : ρ)
  | flush (r : ρ)
  | fence
deriving DecidableEq

/-- The persistency state of one location. -/
inductive State where
  | clean
  | dirty
  | flushed
  | persisted
deriving DecidableEq

section Replay

variable {α ρ : Type*} [Membership α ρ]

/-- The operation is a store that covers `x`. -/
def Op.Stores (x : α) : Op ρ → Prop
  | .store r => x ∈ r
  | _ => False

/-- The operation is a flush that covers `x`. -/
def Op.Flushes (x : α) : Op ρ → Prop
  | .flush r => x ∈ r
  | _ => False

@[simp] lemma stores_store (x : α) (r : ρ) : (Op.store r).Stores x ↔ x ∈ r := Iff.rfl

@[simp] lemma stores_flush (x : α) (r : ρ) : ¬ (Op.flush r).Stores x := id

@[simp] lemma stores_fence (x : α) : ¬ (Op.fence : Op ρ).Stores x := id

@[simp] lemma flushes_store (x : α) (r : ρ) : ¬ (Op.store r).Flushes x := id

@[simp] lemma flushes_flush (x : α) (r : ρ) : (Op.flush r).Flushes x ↔ x ∈ r := Iff.rfl

@[simp] lemma flushes_fence (x : α) : ¬ (Op.fence : Op ρ).Flushes x := id

/-- Some operation of the list stores to `x`. -/
def Written (x : α) (ops : List (Op ρ)) : Prop := ∃ o ∈ ops, o.Stores x

/-- No operation of the list stores to `x`. -/
def Quiet (x : α) (ops : List (Op ρ)) : Prop := ∀ o ∈ ops, ¬ o.Stores x

/-- The list flushes `x`. -/
def Flushed (x : α) (ops : List (Op ρ)) : Prop := ∃ o ∈ ops, o.Flushes x

/-- The list flushes `x` and fences later. -/
def FlushFenced (x : α) (ops : List (Op ρ)) : Prop :=
  ∃ p o q, ops = p ++ o :: q ∧ o.Flushes x ∧ Op.fence ∈ q

/-- `q` is what follows the last store of `x` in `ops`. -/
def SinceStore (x : α) (ops q : List (Op ρ)) : Prop :=
  ∃ p o, ops = p ++ o :: q ∧ o.Stores x ∧ Quiet x q

/-- **Durability**: after the last store of `x` there is a flush of `x` and, later, a fence. -/
def Durable (x : α) (ops : List (Op ρ)) : Prop := ∃ q, SinceStore x ops q ∧ FlushFenced x q

lemma quiet_cons {x : α} {o : Op ρ} {ops : List (Op ρ)} :
    Quiet x (o :: ops) ↔ ¬ o.Stores x ∧ Quiet x ops := by
  simp [Quiet]

lemma quiet_append {x : α} {p q : List (Op ρ)} :
    Quiet x (p ++ q) ↔ Quiet x p ∧ Quiet x q := by
  simp [Quiet, or_imp, forall_and]

lemma flushed_append {x : α} {p q : List (Op ρ)} :
    Flushed x (p ++ q) ↔ Flushed x p ∨ Flushed x q := by
  simp [Flushed, or_and_right, exists_or]

lemma not_written_iff {x : α} {ops : List (Op ρ)} : ¬ Written x ops ↔ Quiet x ops := by
  simp [Written, Quiet]

lemma flushFenced_cons {x : α} {o : Op ρ} {ops : List (Op ρ)} :
    FlushFenced x (o :: ops) ↔ (o.Flushes x ∧ Op.fence ∈ ops) ∨ FlushFenced x ops := by
  constructor
  · rintro ⟨p, o', q, heq, ho', hq⟩
    cases p with
    | nil =>
        simp only [List.nil_append, List.cons.injEq] at heq
        obtain ⟨rfl, rfl⟩ := heq
        exact .inl ⟨ho', hq⟩
    | cons a p =>
        simp only [List.cons_append, List.cons.injEq] at heq
        exact .inr ⟨p, o', q, heq.2, ho', hq⟩
  · rintro (⟨ho, hf⟩ | ⟨p, o', q, rfl, ho', hq⟩)
    · exact ⟨[], o, ops, rfl, ho, hf⟩
    · exact ⟨o :: p, o', q, rfl, ho', hq⟩

lemma FlushFenced.flushed {x : α} {ops : List (Op ρ)} (h : FlushFenced x ops) :
    Flushed x ops := by
  obtain ⟨p, o, q, rfl, ho, -⟩ := h
  exact ⟨o, by simp, ho⟩

lemma FlushFenced.fence_mem {x : α} {ops : List (Op ρ)} (h : FlushFenced x ops) :
    Op.fence ∈ ops := by
  obtain ⟨p, o, q, rfl, -, hq⟩ := h
  simp [hq]

/-- A flush in the first part is fenced by a fence in the second. -/
lemma flushFenced_append {x : α} {p q : List (Op ρ)} (hp : Flushed x p) (hq : Op.fence ∈ q) :
    FlushFenced x (p ++ q) := by
  obtain ⟨o, ho, hx⟩ := hp
  obtain ⟨p₁, p₂, rfl⟩ := List.append_of_mem ho
  exact ⟨p₁, o, p₂ ++ q, by simp, hx, by simp [hq]⟩

/-- A written location has a last store. -/
lemma exists_sinceStore {x : α} {ops : List (Op ρ)} (h : Written x ops) :
    ∃ q, SinceStore x ops q := by
  obtain ⟨p, o, q, rfl, ho, hq⟩ := exists_last h
  exact ⟨q, p, o, rfl, ho, hq⟩

lemma SinceStore.written {x : α} {ops q : List (Op ρ)} (h : SinceStore x ops q) :
    Written x ops := by
  obtain ⟨p, o, rfl, ho, -⟩ := h
  exact ⟨o, by simp, ho⟩

/-- The list after the last store is determined. -/
lemma SinceStore.unique {x : α} {ops q q' : List (Op ρ)} (h : SinceStore x ops q)
    (h' : SinceStore x ops q') : q = q' := by
  obtain ⟨p, o, rfl, ho, hq⟩ := h
  obtain ⟨p', o', heq, ho', hq'⟩ := h'
  rcases List.append_eq_append_iff.mp heq with ⟨r, rfl, hr⟩ | ⟨r, rfl, hr⟩
  · cases r with
    | nil => simpa using congrArg List.tail hr
    | cons a r =>
        simp only [List.cons_append, List.cons.injEq] at hr
        exact absurd ho' (hq o' (by simp [hr.2]))
  · cases r with
    | nil => simpa using (congrArg List.tail hr).symm
    | cons a r =>
        simp only [List.cons_append, List.cons.injEq] at hr
        exact absurd ho (hq' o (by simp [hr.2]))

/-- Durability is decided by what follows the last store. -/
lemma SinceStore.durable_iff {x : α} {ops q : List (Op ρ)} (h : SinceStore x ops q) :
    Durable x ops ↔ FlushFenced x q :=
  ⟨fun ⟨_, hq', hff⟩ => h.unique hq' ▸ hff, fun hff => ⟨q, h, hff⟩⟩

/-- After each store of a location comes a flush of it, with a fence later if `fenced`, and no
other store of it. -/
def StoresSettled (fenced : Bool) (ops : List (Op ρ)) : Prop :=
  ∀ (p : List (Op ρ)) o q (x : α), ops = p ++ o :: q → o.Stores x →
    Quiet x q ∧ Flushed x q ∧ (fenced = true → FlushFenced x q)

lemma storesSettled_nil (fenced : Bool) : @StoresSettled α ρ _ fenced ([] : List (Op ρ)) :=
  fun p o q x heq _ => absurd heq (by simp)

lemma FlushFenced.append {x : α} {p q : List (Op ρ)} (h : FlushFenced x p) :
    FlushFenced x (p ++ q) := by
  obtain ⟨p₁, o, p₂, rfl, ho, hf⟩ := h
  exact ⟨p₁, o, p₂ ++ q, by simp, ho, List.mem_append_left q hf⟩

/-- A store of new locations and their flush keep the stores settled. -/
lemma StoresSettled.append {fenced : Bool} {ops q : List (Op ρ)} {r : ρ}
    (h : @StoresSettled α ρ _ fenced ops) (hnew : ∀ x ∈ r, Quiet (x : α) ops)
    (hq : ∀ x ∈ r, Flushed (x : α) q ∧ (fenced = true → FlushFenced x q))
    (hquiet : ∀ x : α, Quiet x q) : @StoresSettled α ρ _ fenced (ops ++ Op.store r :: q) := by
  intro p o s x heq hx
  rcases List.append_eq_append_iff.mp heq with ⟨t, rfl, ht⟩ | ⟨t, rfl, ht⟩
  · cases t with
    | nil =>
        rw [List.nil_append, List.cons.injEq] at ht
        obtain ⟨rfl, rfl⟩ := ht
        exact ⟨hquiet x, hq x hx⟩
    | cons a t =>
        -- the rest stores nothing
        rw [List.cons_append, List.cons.injEq] at ht
        exact absurd hx (hquiet x o (by simp [ht.2]))
  · cases t with
    | nil =>
        rw [List.nil_append, List.cons.injEq] at ht
        obtain ⟨rfl, rfl⟩ := ht
        exact ⟨hquiet x, hq x hx⟩
    | cons a t =>
        rw [List.cons_append, List.cons.injEq] at ht
        obtain ⟨rfl, rfl⟩ := ht
        obtain ⟨hqx, hfx, hffx⟩ := h p o t x rfl hx
        have hxr : x ∉ r := fun hxr => hnew x hxr o (by simp) hx
        refine ⟨quiet_append.mpr ⟨hqx, quiet_cons.mpr ⟨hxr, hquiet x⟩⟩,
          flushed_append.mpr (.inl hfx), fun hf => (hffx hf).append⟩

variable [∀ (x : α) (r : ρ), Decidable (x ∈ r)]

/-- One operation's effect on the state of `x`. -/
def step (x : α) (s : State) : Op ρ → State
  | .store r => if x ∈ r then .dirty else s
  | .flush r => if x ∈ r ∧ s = .dirty then .flushed else s
  | .fence => if s = .flushed then .persisted else s

/-- The state of `x` after the operations, from the state `s`. -/
def run (x : α) (s : State) (ops : List (Op ρ)) : State := ops.foldl (step x) s

/-- The state of `x` after the operations, from a location never written. -/
def replay (x : α) (ops : List (Op ρ)) : State := run x .clean ops

@[simp] lemma run_nil (x : α) (s : State) : run x s ([] : List (Op ρ)) = s := rfl

@[simp] lemma run_cons (x : α) (s : State) (o : Op ρ) (ops : List (Op ρ)) :
    run x s (o :: ops) = run x (step x s o) ops := rfl

lemma run_append (x : α) (s : State) (p q : List (Op ρ)) :
    run x s (p ++ q) = run x (run x s p) q := by
  rw [run, run, run, List.foldl_append]

lemma replay_append (x : α) (p q : List (Op ρ)) :
    replay x (p ++ q) = run x (replay x p) q := run_append x _ p q

/-- A store that covers the location makes it dirty. -/
lemma step_of_stores {x : α} {o : Op ρ} (h : o.Stores x) (s : State) : step x s o = .dirty := by
  cases o with
  | store r =>
      have hx : x ∈ r := h
      simp [step, hx]
  | flush r => exact absurd h (stores_flush x r)
  | fence => exact absurd h (stores_fence x)

/-- A flush that covers a dirty location starts its write-back. -/
lemma step_dirty_of_flushes {x : α} {o : Op ρ} (h : o.Flushes x) :
    step x .dirty o = .flushed := by
  cases o with
  | store r => exact absurd h (flushes_store x r)
  | flush r =>
      have hx : x ∈ r := h
      simp [step, hx]
  | fence => exact absurd h (flushes_fence x)

/-- Nothing but a covering flush takes a location out of `dirty`. -/
lemma step_dirty_of_not_flushes {x : α} {o : Op ρ} (hs : ¬ o.Stores x) (hf : ¬ o.Flushes x) :
    step x .dirty o = .dirty := by
  cases o with
  | store r => simp [step]
  | flush r =>
      have hx : x ∉ r := hf
      simp [step, hx]
  | fence => simp [step]

/-- Nothing but a fence takes a location out of `flushed`. -/
lemma step_flushed_of_ne {x : α} {o : Op ρ} (hs : ¬ o.Stores x) (hf : o ≠ .fence) :
    step x .flushed o = .flushed := by
  cases o with
  | store r =>
      have hx : x ∉ r := hs
      simp [step, hx]
  | flush r => simp [step]
  | fence => exact absurd rfl hf

/-! ### Lists that do not store to the location -/

lemma run_quiet_clean {x : α} {ops : List (Op ρ)} (h : Quiet x ops) :
    run x .clean ops = .clean := by
  induction ops with
  | nil => rfl
  | cons o ops ih =>
      rw [quiet_cons] at h
      have hstep : step x .clean o = .clean := by
        cases o with
        | store r => simpa [step] using h.1
        | flush r => simp [step]
        | fence => simp [step]
      rw [run_cons, hstep, ih h.2]

lemma run_quiet_persisted {x : α} {ops : List (Op ρ)} (h : Quiet x ops) :
    run x .persisted ops = .persisted := by
  induction ops with
  | nil => rfl
  | cons o ops ih =>
      rw [quiet_cons] at h
      have hstep : step x .persisted o = .persisted := by
        cases o with
        | store r => simpa [step] using h.1
        | flush r => simp [step]
        | fence => simp [step]
      rw [run_cons, hstep, ih h.2]

lemma run_quiet_flushed_of_fence {x : α} {ops : List (Op ρ)} (h : Quiet x ops)
    (hf : Op.fence ∈ ops) : run x .flushed ops = .persisted := by
  induction ops with
  | nil => simp at hf
  | cons o ops ih =>
      rw [quiet_cons] at h
      by_cases ho : o = .fence
      · subst ho
        exact run_quiet_persisted h.2
      · rw [run_cons, step_flushed_of_ne h.1 ho]
        exact ih h.2 ((List.mem_cons.mp hf).resolve_left (Ne.symm ho))

lemma run_quiet_flushed_of_not_fence {x : α} {ops : List (Op ρ)} (h : Quiet x ops)
    (hf : Op.fence ∉ ops) : run x .flushed ops = .flushed := by
  induction ops with
  | nil => rfl
  | cons o ops ih =>
      rw [quiet_cons] at h
      simp only [List.mem_cons, not_or] at hf
      rw [run_cons, step_flushed_of_ne h.1 (Ne.symm hf.1), ih h.2 hf.2]

lemma run_quiet_dirty {x : α} {ops : List (Op ρ)} (h : Quiet x ops) (hf : ¬ Flushed x ops) :
    run x .dirty ops = .dirty := by
  induction ops with
  | nil => rfl
  | cons o ops ih =>
      rw [quiet_cons] at h
      have ho : ¬ o.Flushes x := fun ho => hf ⟨o, List.mem_cons_self, ho⟩
      rw [run_cons, step_dirty_of_not_flushes h.1 ho]
      exact ih h.2 fun ⟨o', ho', hx⟩ => hf ⟨o', List.mem_cons_of_mem o ho', hx⟩

lemma run_quiet_ne_dirty {x : α} {ops : List (Op ρ)} {s : State} (h : Quiet x ops)
    (hs : s ≠ .dirty) : run x s ops ≠ .dirty := by
  induction ops generalizing s with
  | nil => exact hs
  | cons o ops ih =>
      rw [quiet_cons] at h
      refine ih h.2 ?_
      cases o with
      | store r =>
          have hx : x ∉ r := h.1
          simpa [step, hx] using hs
      | flush r => simp [step, hs]
      | fence =>
          rw [step]
          split_ifs
          · simp
          · exact hs

/-- From `dirty`, a list that does not store to the location leaves it so exactly when it does
not flush it. -/
lemma run_quiet_dirty_eq_dirty {x : α} {ops : List (Op ρ)} (h : Quiet x ops) :
    run x .dirty ops = .dirty ↔ ¬ Flushed x ops := by
  refine ⟨fun hd hf => ?_, run_quiet_dirty h⟩
  obtain ⟨o, ho, hx⟩ := hf
  obtain ⟨p, q, rfl⟩ := List.append_of_mem ho
  rw [quiet_append, quiet_cons] at h
  rw [run_append, run_cons] at hd
  refine run_quiet_ne_dirty h.2.2 ?_ hd
  cases o with
  | store r => exact absurd hx (flushes_store x r)
  | flush r =>
      have hr : x ∈ r := hx
      generalize run x .dirty p = s
      cases s <;> simp [step, hr]
  | fence => exact absurd hx (flushes_fence x)

/-- From `dirty`, a list that does not store to the location persists it exactly when it
flushes it and fences later. -/
lemma run_quiet_dirty_eq_persisted {x : α} {ops : List (Op ρ)} (h : Quiet x ops) :
    run x .dirty ops = .persisted ↔ FlushFenced x ops := by
  induction ops with
  | nil => simp [FlushFenced]
  | cons o ops ih =>
      rw [quiet_cons] at h
      rw [flushFenced_cons]
      by_cases ho : o.Flushes x
      · rw [run_cons, step_dirty_of_flushes ho]
        constructor
        · intro hp
          refine .inl ⟨ho, ?_⟩
          by_contra hn
          rw [run_quiet_flushed_of_not_fence h.2 hn] at hp
          cases hp
        · rintro (⟨-, hf⟩ | hff)
          · exact run_quiet_flushed_of_fence h.2 hf
          · exact run_quiet_flushed_of_fence h.2 hff.fence_mem
      · rw [run_cons, step_dirty_of_not_flushes h.1 ho, ih h.2]
        simp [ho]

/-! ### The last store -/

/-- The state is decided by what follows the last store. -/
lemma SinceStore.replay_eq {x : α} {ops q : List (Op ρ)} (h : SinceStore x ops q) :
    replay x ops = run x .dirty q := by
  obtain ⟨p, o, rfl, ho, -⟩ := h
  rw [replay_append, run_cons, step_of_stores ho]

/-- The location is dirty as long as it is not flushed after its last store. -/
lemma SinceStore.replay_eq_dirty_iff {x : α} {ops q : List (Op ρ)} (h : SinceStore x ops q) :
    replay x ops = .dirty ↔ ¬ Flushed x q := by
  obtain ⟨-, -, -, -, hquiet⟩ := id h
  rw [h.replay_eq, run_quiet_dirty_eq_dirty hquiet]

lemma replay_eq_clean_iff {x : α} {ops : List (Op ρ)} :
    replay x ops = .clean ↔ ¬ Written x ops := by
  classical
  constructor
  · intro h hw
    obtain ⟨q, hq⟩ := exists_sinceStore hw
    obtain ⟨-, -, -, -, hquiet⟩ := id hq
    have hne : ∀ (ops : List (Op ρ)) (s : State), s ≠ .clean → run x s ops ≠ .clean := by
      intro ops
      induction ops with
      | nil => exact fun s hs => hs
      | cons o ops ih =>
          intro s hs
          refine ih _ ?_
          cases o <;> simp only [step] <;> split_ifs <;> simp [hs]
    rw [hq.replay_eq] at h
    exact hne q .dirty (by simp) h
  · intro h
    exact run_quiet_clean (not_written_iff.mp h)

/-- **Durability is the state `persisted`.** -/
theorem durable_iff_replay {x : α} {ops : List (Op ρ)} :
    Durable x ops ↔ replay x ops = .persisted := by
  constructor
  · rintro ⟨q, hq, hff⟩
    obtain ⟨-, -, -, -, hquiet⟩ := id hq
    rw [hq.replay_eq]
    exact (run_quiet_dirty_eq_persisted hquiet).mpr hff
  · intro h
    have hw : Written x ops := by
      by_contra hn
      rw [replay_eq_clean_iff.mpr hn] at h
      cases h
    obtain ⟨q, hq⟩ := exists_sinceStore hw
    obtain ⟨-, -, -, -, hquiet⟩ := id hq
    rw [hq.replay_eq] at h
    exact ⟨q, hq, (run_quiet_dirty_eq_persisted hquiet).mp h⟩

end Replay

section Woven

variable {α ρ : Type*} [Membership α ρ] {x : α} {ops ops' : List (Op ρ)}

/-- Operations that do not store leave a quiet list quiet. -/
lemma Quiet.weave (h : Quiet x ops) (hw : Weave Eq (fun o => ¬ o.Stores x) ops ops') :
    Quiet x ops' := by
  induction hw with
  | nil => exact h
  | new ho _ ih => exact quiet_cons.mpr ⟨ho, ih h⟩
  | keep heq _ ih =>
      subst heq
      rw [quiet_cons] at h ⊢
      exact ⟨h.1, ih h.2⟩

/-- **More flushes and fences** keep a location durable. -/
lemma Durable.weave (h : Durable x ops) (hw : Weave Eq (fun o => ¬ o.Stores x) ops ops') :
    Durable x ops' := by
  obtain ⟨q, ⟨p, o, rfl, ho, hquiet⟩, p₁, f, q₁, rfl, hf, hfence⟩ := h
  obtain ⟨p', _, q', rfl, rfl, -, hq⟩ := hw.split
  have hquiet' := hquiet.weave hq
  obtain ⟨p₁', _, q₁', rfl, rfl, -, hq₁⟩ := hq.split
  obtain ⟨a, b, rfl⟩ := List.append_of_mem hfence
  obtain ⟨a', _, b', rfl, rfl, -, -⟩ := hq₁.split
  exact ⟨_, ⟨p', o, rfl, ho, hquiet'⟩, p₁', f, _, rfl, hf,
    List.mem_append_right a' List.mem_cons_self⟩

end Woven
end Persistency

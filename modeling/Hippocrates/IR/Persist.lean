import Mathlib.Data.List.Forall2
import Mathlib.Tactic
import Hippocrates.IR.Patch

/-!
`makeAllStoresPersistent`: the stores of a clone that point to persistent memory are flushed.

* `FlushedBlock`: the block of a clone, with flushes after the copies of some instructions.
* `makeAllStoresPersistent_spec`: the clone of a function in a patched module, with flushes after
  the copies of its flush points.
-/

namespace Hippocrates

/-- The second block is the `k`-th copy of the first, with a flush after the copy of each
instruction in `P`. -/
inductive FlushedBlock (k : ℕ) (P : InstId → Prop) : Block → Block → Prop
  | nil : FlushedBlock k P [] []
  | copy {i : Instr} {b b' : Block} (hi : ¬ P i.id) (h : FlushedBlock k P b b') :
      FlushedBlock k P (i :: b) (i.copy k :: b')
  | flush {i : Instr} {p : Value} {b b' : Block} (hi : P i.id) (hp : i.pointerOperand = some p)
      (n : ℕ) (h : FlushedBlock k P b b') :
      FlushedBlock k P (i :: b) (i.copy k :: (flushInstrs n (p.copy k) ++ b'))

lemma Instr.pointerOperand_copy (k : ℕ) (i : Instr) :
    (i.copy k).pointerOperand = i.pointerOperand.map (Value.copy k) := by
  obtain ⟨id, op⟩ := i
  cases op <;> rfl

lemma copy_notMem_flushInstrs (x : InstId) (k n : ℕ) (v : Value) :
    x.copy k ∉ (flushInstrs n v).map Instr.id := by
  have hne : ∀ n, x.copy k ≠ InstId.ins n := by simp [InstId.copy, InstId.ins]
  rw [flushInstrs]
  split
  · simpa [clwbCall] using hne n
  · split <;> simp [clwbCall, hne]

section Flushed

variable {k : ℕ} {P : InstId → Prop} {b b' : Block} {i : Instr}

lemma FlushedBlock.of_copy (b : Block) :
    FlushedBlock k (fun _ => False) b (b.map (Instr.copy k)) := by
  induction b with
  | nil => exact .nil
  | cons i b ih => exact .copy not_false ih

lemma FlushedBlock.congr {Q : InstId → Prop} (h : FlushedBlock k P b b')
    (hPQ : ∀ i ∈ b, P i.id ↔ Q i.id) : FlushedBlock k Q b b' := by
  induction h with
  | nil => exact .nil
  | @copy i b b' hi h ih =>
      rw [List.forall_mem_cons] at hPQ
      exact .copy (fun hQ => hi (hPQ.1.mpr hQ)) (ih hPQ.2)
  | @flush i p b b' hi hp n h ih =>
      rw [List.forall_mem_cons] at hPQ
      exact .flush (hPQ.1.mp hi) hp n (ih hPQ.2)

lemma FlushedBlock.mem (h : FlushedBlock k P b b') (hi : i ∈ b) : i.copy k ∈ b' := by
  induction h with
  | nil => exact absurd hi List.not_mem_nil
  | copy _ _ ih =>
      rcases List.mem_cons.mp hi with rfl | hi
      · exact List.mem_cons_self
      · exact List.mem_cons_of_mem _ (ih hi)
  | flush _ _ n _ ih =>
      rcases List.mem_cons.mp hi with rfl | hi
      · exact List.mem_cons_self
      · exact List.mem_cons_of_mem _ (List.mem_append_right _ (ih hi))

/-- A flush point is followed by its flush. -/
lemma FlushedBlock.flushed (h : FlushedBlock k P b b') {p : Value} (hi : i ∈ b) (hP : P i.id)
    (hp : i.pointerOperand = some p) :
    ∃ pre n post, b' = pre ++ i.copy k :: (flushInstrs n (p.copy k) ++ post) := by
  induction h with
  | nil => exact absurd hi List.not_mem_nil
  | @copy j b b' hj _ ih =>
      rcases List.mem_cons.mp hi with rfl | hi
      · exact absurd hP hj
      · obtain ⟨pre, n, post, rfl⟩ := ih hi
        exact ⟨j.copy k :: pre, n, post, rfl⟩
  | @flush j q b b' _ hq n _ ih =>
      rcases List.mem_cons.mp hi with rfl | hi
      · obtain rfl := Option.some.inj (hp.symm.trans hq)
        exact ⟨[], n, b', rfl⟩
      · obtain ⟨pre, n', post, rfl⟩ := ih hi
        exact ⟨j.copy k :: (flushInstrs n (q.copy k) ++ pre), n', post, by simp⟩

/-- One more flush. -/
lemma FlushedBlock.insert (h : FlushedBlock k P b b') {x : InstId} {p : Value} {n : ℕ}
    (hx : ¬ P x) (hp : ∀ i ∈ b, i.id = x → i.pointerOperand = some p) :
    FlushedBlock k (fun y => P y ∨ y = x) b
      (b'.flatMap (insertedAfter (x.copy k) (flushInstrs n (p.copy k)))) := by
  induction h with
  | nil => exact .nil
  | @copy i b b' hi _ ih =>
      rw [List.forall_mem_cons] at hp
      rw [List.flatMap_cons, insertedAfter]
      have hcopy : (i.copy k).id = x.copy k ↔ i.id = x := (InstId.copy_injective k).eq_iff
      by_cases heq : i.id = x
      · rw [if_pos (hcopy.mpr heq), List.cons_append]
        exact .flush (.inr heq) (hp.1 heq) n (ih hp.2)
      · rw [if_neg (hcopy.not.mpr heq)]
        exact .copy (fun h => h.elim hi heq) (ih hp.2)
  | @flush i q b b' hi hq n' _ ih =>
      rw [List.forall_mem_cons] at hp
      have hne : (i.copy k).id ≠ x.copy k := fun h => hx (InstId.copy_injective k h ▸ hi)
      rw [List.flatMap_cons, List.flatMap_append, insertedAfter, if_neg hne,
        flatMap_insertedAfter_of_notMem (copy_notMem_flushInstrs x k n' _)]
      exact .flush (.inl hi) hq n' (ih hp.2)

end Flushed

lemma exists_of_forall₂ {α β : Type*} {R : α → β → Prop} {l : List α} {l' : List β}
    (h : List.Forall₂ R l l') {a : α} (ha : a ∈ l) : ∃ b ∈ l', R a b := by
  induction h with
  | nil => exact absurd ha List.not_mem_nil
  | @cons x y l l' hxy _ ih =>
      rcases List.mem_cons.mp ha with rfl | ha
      · exact ⟨y, List.mem_cons_self, hxy⟩
      · obtain ⟨b, hb, hab⟩ := ih ha
        exact ⟨b, List.mem_cons_of_mem y hb, hab⟩

section Persistent

variable {m m₁ m₂ : Module} {ρ : InstId → Option FnId} {extra : List (FnId × Function)}
  {g : FnId} {k : ℕ} {P : InstId → Prop} {bs B : List Block}

lemma persistStore_eq (hwf : m.WF) {i : Instr} {p : Value} (hi : i.copy k ∈ m.insts)
    (hp : i.pointerOperand = some p) (h : persistStore k m i = some m₁) :
    m₁ = m.insertAfter (i.copy k).id (flushInstrs m.next (p.copy k)) := by
  have hfl : (FixLoc.single (i.id.copy k)).insts m = some [i.copy k] := hwf.insts_single hi
  have hpoint : (i.copy k).pointerOperand = some (p.copy k) := by
    rw [Instr.pointerOperand_copy, hp]
    rfl
  rw [persistStore, insertFlush, hfl] at h
  dsimp only at h
  rw [List.foldlM_cons, insertFlushAt, hpoint] at h
  dsimp only at h
  cases hnext : m.nextOf (i.copy k).id with
  | none =>
      rw [hnext] at h
      cases h
  | some _ =>
      rw [hnext] at h
      simp only [Option.bind_eq_bind, Option.bind_some, List.foldlM_nil, Option.pure_def] at h
      split at h
      · rename_i heq
        simp only [Option.some.injEq, Prod.mk.injEq] at heq
        exact (Option.some.inj h).symm.trans heq.1.symm
      · cases h

/-- The flush of one flush point. -/
lemma persistStore_spec (h : Patched m ρ (extra ++ [(g, ⟨B⟩)]) m₁)
    (hB : List.Forall₂ (FlushedBlock k P) bs B) (hids : (bs.flatten.map Instr.id).Nodup)
    {i : Instr} (hi : i ∈ bs.flatten) (hP : ¬ P i.id) (hp : i.pointerOperand.isSome = true)
    (hstep : persistStore k m₁ i = some m₂) :
    ∃ B', Patched m ρ (extra ++ [(g, ⟨B'⟩)]) m₂ ∧
      List.Forall₂ (FlushedBlock k fun y => P y ∨ y = i.id) bs B' := by
  obtain ⟨p, hp⟩ := Option.isSome_iff_exists.mp hp
  obtain ⟨b, hb, hib⟩ := List.mem_flatten.mp hi
  have hcopy : i.copy k ∈ (Function.mk B).insts := by
    obtain ⟨b', hb', hflushed⟩ := exists_of_forall₂ hB hb
    exact List.mem_flatten.mpr ⟨b', hb', hflushed.mem hib⟩
  have hmem : i.copy k ∈ m₁.insts := by
    rw [h.insts]
    refine List.mem_append_right _ (List.mem_flatMap.mpr ⟨(g, ⟨B⟩), ?_, hcopy⟩)
    exact List.mem_append_right _ List.mem_cons_self
  obtain rfl := persistStore_eq h.wf hmem hp hstep
  refine ⟨_, h.insertAfter hcopy (flushInstrs_spec m₁ _).1, ?_⟩
  -- the flush point is the only instruction with its name
  have hpoint : ∀ b ∈ bs, ∀ j ∈ b, j.id = i.id → j.pointerOperand = some p := by
    intro b hb j hj hid
    have hj' : j ∈ bs.flatten := List.mem_flatten.mpr ⟨b, hb, hj⟩
    rw [List.inj_on_of_nodup_map hids hj' hi hid, hp]
  have hboth : List.Forall₂ (fun b b' => b ∈ bs ∧ FlushedBlock k P b b') bs B :=
    (List.forall₂_and_left bs B).mpr ⟨fun b hb => hb, hB⟩
  rw [List.forall₂_map_right_iff]
  exact hboth.imp fun b b' hbb' => hbb'.2.insert hP (hpoint b hbb'.1)

/-- The flushes of all flush points. -/
lemma persistStores_spec {points : List Instr} (h : Patched m ρ (extra ++ [(g, ⟨B⟩)]) m₁)
    (hB : List.Forall₂ (FlushedBlock k P) bs B) (hids : (bs.flatten.map Instr.id).Nodup)
    (hsub : points.Sublist bs.flatten) (hP : ∀ i ∈ points, ¬ P i.id)
    (hp : ∀ i ∈ points, i.pointerOperand.isSome = true)
    (hrun : points.foldlM (persistStore k) m₁ = some m₂) :
    ∃ B', Patched m ρ (extra ++ [(g, ⟨B'⟩)]) m₂ ∧
      List.Forall₂ (FlushedBlock k fun y => P y ∨ y ∈ points.map Instr.id) bs B' := by
  induction points generalizing P B m₁ with
  | nil =>
      obtain rfl := Option.some.inj hrun
      exact ⟨B, h, by simpa using hB⟩
  | cons i points ih =>
      rw [List.foldlM_cons, Option.bind_eq_bind, Option.bind_eq_some_iff] at hrun
      obtain ⟨m₃, hstep, hrest⟩ := hrun
      rw [List.forall_mem_cons] at hP hp
      have hnodup : ((i :: points).map Instr.id).Nodup := hids.sublist (hsub.map _)
      rw [List.map_cons, List.nodup_cons] at hnodup
      obtain ⟨B₁, h₁, hB₁⟩ := persistStore_spec h hB hids (hsub.subset List.mem_cons_self) hP.1
        hp.1 hstep
      -- the next point is not the one that has been flushed
      have hP₁ : ∀ j ∈ points, ¬ (P j.id ∨ j.id = i.id) := by
        intro j hj hor
        refine hor.elim (hP.2 j hj) fun heq => hnodup.1 ?_
        exact heq ▸ List.mem_map_of_mem hj
      obtain ⟨B₂, h₂, hB₂⟩ := ih h₁ hB₁ ((List.sublist_cons_self i points).trans hsub) hP₁ hp.2
        hrest
      refine ⟨B₂, h₂, hB₂.imp fun b b' hflushed => hflushed.congr fun j _ => ?_⟩
      rw [List.map_cons, List.mem_cons, or_assoc]

/-- The flush points of a function. -/
def FlushPoint (G : GenEnv) (body : Function) (x : InstId) : Prop :=
  ∃ i ∈ body.insts, isFlushPoint G i = true ∧ i.id = x

/-- **The clone with its stores made persistent**: a flush follows the copy of each flush
point. -/
theorem makeAllStoresPersistent_spec {G : GenEnv} {fn : FnId} {body : Function}
    (h : Patched m ρ (extra ++ [(g, body.rewrite fun i => [i.copy k])]) m₁)
    (hfn : m₁.lookup fn = some body) (hmake : makeAllStoresPersistent G m₁ fn k = some m₂) :
    ∃ B, Patched m ρ (extra ++ [(g, ⟨B⟩)]) m₂ ∧
      List.Forall₂ (FlushedBlock k (FlushPoint G body)) body.blocks B := by
  rw [makeAllStoresPersistent, hfn] at hmake
  have hids : (body.blocks.flatten.map Instr.id).Nodup := by
    refine h.wf.ids.sublist (List.Sublist.map _ ?_)
    exact List.sublist_flatten_of_mem (List.mem_map_of_mem (Module.mem_of_lookup hfn))
  have hcopies : List.Forall₂ (FlushedBlock k fun _ => False) body.blocks
      (body.rewrite fun i => [i.copy k]).blocks := by
    rw [Function.rewrite_map, List.forall₂_map_right_iff]
    exact List.forall₂_same.mpr fun b _ => FlushedBlock.of_copy b
  -- a flush point has a pointer
  have hpoint : ∀ i ∈ body.insts.filter (isFlushPoint G), i.pointerOperand.isSome = true := by
    intro i hi
    have hflush := (List.mem_filter.mp hi).2
    rw [isFlushPoint] at hflush
    cases hp : i.pointerOperand with
    | none =>
        rw [hp] at hflush
        cases hflush
    | some p => rfl
  obtain ⟨B, hB, hflushed⟩ := persistStores_spec h hcopies hids List.filter_sublist
    (fun _ _ => not_false) hpoint hmake
  refine ⟨B, hB, hflushed.imp fun b b' hbb' => hbb'.congr fun i _ => ?_⟩
  simp only [FlushPoint, Function.insts, false_or, List.mem_map, List.mem_filter, and_assoc]

end Persistent

end Hippocrates

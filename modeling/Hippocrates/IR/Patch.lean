import Mathlib.Tactic
import Hippocrates.IR.Edit

/-!
Modules with redirected calls and added functions, as the rounds of
`insertPersistentSubProgram` leave them.

* `walk`: the instructions of a location in its block, and what a change of the instructions
  does to them (`walk_map`).
* `Patched`: the module is the given one with some calls redirected, and with more functions.
  Locations of the given module are what they were, up to the redirected calls
  (`Patched.fixLoc_insts`).
* `Patched.duplicateFunction`, `Patched.insertAfter`, `Patched.setCalledFunction`: the steps of
  a round.
-/

namespace Hippocrates

/-! ### Walks over locations -/

/-- The instructions of the location `fl` in its block. -/
def walk (b : Block) (fl : FixLoc) : Option (List Instr) :=
  match b.dropWhile fun j => j.id ≠ fl.first with
  | [] => some []
  | first :: rest =>
    let walk := first :: rest.filter fun j => !j.isDebug
    match nextNonDebug b fl.last with
    | none => some walk
    | some stop =>
      if walk.any fun j => j.id == stop.id then
        some (walk.takeWhile fun j => j.id ≠ stop.id)
      else none

section Walk

variable {m : Module} {fl : FixLoc} {f : FnId} {b : Block}

lemma FixLoc.insts_eq_walk (hvalid : fl.isValid m = true) (hpar : m.parent fl.first = some (f, b)) :
    fl.insts m = walk b fl := by
  rw [FixLoc.insts, if_neg (by simp [hvalid]), hpar]
  rfl

/-- A change of the instructions that keeps their names, and which of them are debug
instructions, changes the walk accordingly. -/
lemma walk_map {r : Instr → Instr} (hid : ∀ j, (r j).id = j.id)
    (hdebug : ∀ j ∈ b, (r j).isDebug = j.isDebug) :
    walk (b.map r) fl = (walk b fl).map (List.map r) := by
  have hdrop : ∀ x : InstId, (b.map r).dropWhile (fun j => decide (j.id ≠ x)) =
      (b.dropWhile fun j => decide (j.id ≠ x)).map r := by
    intro x
    rw [List.dropWhile_map]
    congr 2
    funext j
    simp [hid]
  have hsub : ∀ x : InstId, ∀ j ∈ b.dropWhile (fun j => decide (j.id ≠ x)), j ∈ b :=
    fun x j hj => (List.dropWhile_sublist _).subset hj
  -- a filter and a cut look at names only
  have hfilter : ∀ l : List Instr, (∀ j ∈ l, j ∈ b) →
      (l.map r).filter (fun j => !j.isDebug) = (l.filter fun j => !j.isDebug).map r := by
    intro l hl
    rw [List.filter_map]
    congr 1
    refine List.filter_congr fun j hj => ?_
    simp [hdebug j (hl j hj)]
  have hnext : nextNonDebug (b.map r) fl.last = (nextNonDebug b fl.last).map r := by
    rw [nextNonDebug, nextNonDebug, afterInst, afterInst, hdrop, ← List.map_tail,
      ← List.head?_filter, ← List.head?_filter, hfilter, List.head?_map]
    exact fun j hj => hsub fl.last j (List.mem_of_mem_tail hj)
  rw [walk, walk, hdrop, hnext]
  have hsub' := hsub fl.first
  cases hd : b.dropWhile fun j => decide (j.id ≠ fl.first) with
  | nil => rfl
  | cons first rest =>
      rw [hd, List.forall_mem_cons] at hsub'
      rw [List.map_cons]
      dsimp only
      rw [hfilter rest hsub'.2, ← List.map_cons]
      cases nextNonDebug b fl.last with
      | none => rfl
      | some stop =>
          dsimp only [Option.map_some]
          rw [List.any_map, List.takeWhile_map]
          simp only [Function.comp_def, hid]
          split_ifs <;> rfl

/-- The location of a single instruction. -/
lemma Module.WF.insts_single (hwf : m.WF) {j : Instr} (hj : j ∈ m.insts) :
    (FixLoc.single j.id).insts m = some [j] := by
  obtain ⟨⟨f, body⟩, hp, hjb⟩ := List.mem_flatMap.mp hj
  obtain ⟨b, hb, hjb⟩ := List.mem_flatten.mp hjb
  have hpar := hwf.parent_eq hp hb hjb
  have hvalid : (FixLoc.single j.id).isValid m = true := by
    rw [FixLoc.isValid, show (FixLoc.single j.id).first = j.id from rfl, hpar]
    exact List.any_eq_true.mpr ⟨j, hjb, beq_self_eq_true _⟩
  rw [FixLoc.insts_eq_walk hvalid hpar, walk]
  obtain ⟨pre, post, rfl⟩ := List.append_of_mem hjb
  have hnodup : ((pre ++ j :: post).map Instr.id).Nodup := by
    refine hwf.ids.sublist (List.Sublist.map _ ?_)
    have hsub : (pre ++ j :: post).Sublist body.insts := List.sublist_flatten_of_mem hb
    exact hsub.trans (List.sublist_flatten_of_mem (List.mem_map_of_mem hp))
  rw [List.map_append, List.map_cons, List.nodup_append, List.nodup_cons] at hnodup
  -- the names are apart, so the walk starts at the instruction and stops right after it
  have hpre : ∀ k ∈ pre, k.id ≠ j.id := fun k hk =>
    hnodup.2.2 k.id (List.mem_map_of_mem hk) j.id List.mem_cons_self
  have hdrop : (pre ++ j :: post).dropWhile (fun k => decide (k.id ≠ j.id)) = j :: post := by
    rw [List.dropWhile_append_of_pos (by simpa using hpre)]
    simp
  have hnext : nextNonDebug (pre ++ j :: post) j.id =
      (post.filter fun k => !k.isDebug).head? := by
    rw [nextNonDebug, afterInst, hdrop, List.tail_cons, List.head?_filter]
  rw [show (FixLoc.single j.id).first = j.id from rfl,
    show (FixLoc.single j.id).last = j.id from rfl, hdrop, hnext]
  dsimp only
  cases hrest : post.filter fun k => !k.isDebug with
  | nil => rfl
  | cons stop rest =>
      have hstop : stop ∈ post := (List.mem_filter.mp (hrest ▸ List.mem_cons_self)).1
      have hne : j.id ≠ stop.id := fun heq => hnodup.2.1.1 (heq ▸ List.mem_map_of_mem hstop)
      simp [hne]

end Walk

/-! ### Rewritings that change nothing -/

section Unchanged

variable {F : Instr → List Instr} {m : Module} {f : FnId}

lemma Function.rewrite_map (g : Instr → Instr) (body : Function) :
    (body.rewrite fun j => [g j]).blocks = body.blocks.map (List.map g) := by
  rw [Function.rewrite]
  exact List.map_congr_left fun b _ => List.map_eq_flatMap.symm

/-- A rewriting at one instruction changes only the function it is in. -/
lemma Module.WF.rewrite_last (hwf : m.WF) {A : List (FnId × Function)} {body : Function}
    (hm : m.funs = A ++ [(f, body)]) {x : Instr} (hx : x ∈ body.insts)
    (hF : ∀ j, j.id ≠ x.id → F j = [j]) :
    (m.rewrite F).funs = A ++ [(f, body.rewrite F)] := by
  have hinsts : m.insts = A.flatMap (fun p => p.2.insts) ++ body.insts := by
    simp [Module.insts, hm]
  have hnodup := hwf.ids
  rw [hinsts, List.map_append, List.nodup_append] at hnodup
  have hA : A.map (fun p => (p.1, p.2.rewrite F)) = A := by
    calc A.map (fun p => (p.1, p.2.rewrite F)) = A.map id := by
          refine List.map_congr_left fun p hp => Prod.ext rfl (Function.rewrite_eq_self ?_)
          intro j hj
          refine hF j (hnodup.2.2 _ (List.mem_map_of_mem ?_) _ (List.mem_map_of_mem hx))
          exact List.mem_flatMap.mpr ⟨p, hp, hj⟩
      _ = A := List.map_id A
  rw [Module.rewrite, hm, List.map_append, hA]
  rfl

end Unchanged

/-! ### Patched modules -/

/-- The module `m` with its calls redirected as `ρ` says, to functions that are debug intrinsics
if the former callees are, and with the functions `extra` added. -/
structure Patched (m : Module) (ρ : InstId → Option FnId) (extra : List (FnId × Function))
    (m' : Module) : Prop where
  funs : m'.funs = (m.rewrite fun j => [redirect ρ j]).funs ++ extra
  wf : m'.WF
  next : m.next ≤ m'.next
  callee : ∀ j ∈ m.insts, ∀ g, ρ j.id = some g →
    ∃ f, j.getCalledFunction = some f ∧ g.getIntrinsicID = f.getIntrinsicID

section Patched

variable {m m' : Module} {ρ : InstId → Option FnId} {extra : List (FnId × Function)}
  {f : FnId} {j : Instr}

lemma Instr.getCalledFunction_setCalledFunction {f g : FnId} (h : j.getCalledFunction = some f) :
    (j.setCalledFunction g).getCalledFunction = some g := by
  obtain ⟨id, op⟩ := j
  cases op with
  | call callee args => rfl
  | _ => cases h

/-- The callee of a redirected instruction. -/
lemma getCalledFunction_redirect (hcallee : ∀ g, ρ j.id = some g →
    ∃ f, j.getCalledFunction = some f ∧ g.getIntrinsicID = f.getIntrinsicID) :
    (redirect ρ j).getCalledFunction = (ρ j.id).or j.getCalledFunction := by
  rw [redirect]
  cases hρ : ρ j.id with
  | none => rfl
  | some g =>
      obtain ⟨f, hf, -⟩ := hcallee g hρ
      exact Instr.getCalledFunction_setCalledFunction hf

lemma isDebug_redirect (hcallee : ∀ g, ρ j.id = some g →
    ∃ f, j.getCalledFunction = some f ∧ g.getIntrinsicID = f.getIntrinsicID) :
    (redirect ρ j).isDebug = j.isDebug := by
  rw [Instr.isDebug, Instr.isDebug, getCalledFunction_redirect hcallee]
  cases hρ : ρ j.id with
  | none => rfl
  | some g =>
      obtain ⟨f, hf, hid⟩ := hcallee g hρ
      rw [hf]
      simp [hid]

lemma redirect_pointerOperand : (redirect ρ j).pointerOperand = j.pointerOperand := by
  obtain ⟨id, op⟩ := j
  rw [redirect]
  cases ρ id with
  | none => rfl
  | some g => cases op <;> rfl

/-- Nothing is redirected yet. -/
lemma Patched.refl (hwf : m.WF) : Patched m (fun _ => none) [] m := by
  refine ⟨?_, hwf, le_rfl, fun _ _ _ h => by cases h⟩
  rw [List.append_nil]
  exact congrArg Module.funs (Module.rewrite_eq_self fun _ _ => rfl).symm

namespace Patched

variable (h : Patched m ρ extra m')
include h

lemma mem_funs {body : Function} (hf : (f, body) ∈ m.funs) :
    (f, body.rewrite fun j => [redirect ρ j]) ∈ m'.funs := by
  rw [h.funs]
  exact List.mem_append_left _ (List.mem_map_of_mem hf)

lemma lookup {body : Function} (hf : m.lookup f = some body) :
    m'.lookup f = some (body.rewrite fun j => [redirect ρ j]) :=
  h.wf.lookup_eq (h.mem_funs (Module.mem_of_lookup hf))

lemma insts : m'.insts = m.insts.map (redirect ρ) ++ extra.flatMap fun p => p.2.insts := by
  have hrewrite := Module.insts_rewrite (m := m) (F := fun j => [redirect ρ j])
  rw [Module.insts] at hrewrite
  rw [Module.insts, h.funs, List.flatMap_append, hrewrite, List.map_eq_flatMap]

lemma mem_insts (hj : j ∈ m.insts) : redirect ρ j ∈ m'.insts := by
  rw [h.insts]
  exact List.mem_append_left _ (List.mem_map_of_mem hj)

lemma findInst (hj : j ∈ m.insts) : m'.findInst j.id = some (redirect ρ j) := by
  rw [← redirect_id ρ j]
  exact h.wf.findInst_eq (h.mem_insts hj)

lemma parent {i : InstId} {b : Block} (hpar : m.parent i = some (f, b)) :
    m'.parent i = some (f, b.map (redirect ρ)) := by
  obtain ⟨body, hp, hb, j, hj, rfl⟩ := Module.parent_spec hpar
  have hb' : b.map (redirect ρ) ∈ (body.rewrite fun j => [redirect ρ j]).blocks := by
    rw [Function.rewrite_map]
    exact List.mem_map_of_mem hb
  rw [← redirect_id ρ j]
  exact h.wf.parent_eq (h.mem_funs hp) hb' (List.mem_map_of_mem hj)

lemma getFunction {i : InstId} (hi : m.getFunction i = some f) : m'.getFunction i = some f := by
  obtain ⟨⟨g, b⟩, hpar, rfl⟩ := Option.map_eq_some_iff.mp hi
  rw [Module.getFunction, h.parent hpar]
  rfl

/-- A location holds the same instructions, up to the redirected calls. -/
lemma fixLoc_insts {fl : FixLoc} (hvalid : fl.isValid m = true) :
    fl.insts m' = (fl.insts m).map (List.map (redirect ρ)) := by
  have hvalid' := hvalid
  rw [FixLoc.isValid] at hvalid
  split at hvalid
  · cases hvalid
  · rename_i f b hpar
    obtain ⟨body, hp, hb, -⟩ := Module.parent_spec hpar
    have hlast : fl.isValid m' = true := by
      rw [FixLoc.isValid, h.parent hpar]
      simpa [redirect_id] using hvalid
    rw [FixLoc.insts_eq_walk hvalid' hpar, FixLoc.insts_eq_walk hlast (h.parent hpar)]
    exact walk_map (redirect_id ρ) fun j hj =>
      isDebug_redirect (h.callee j (Module.mem_insts_of_block hp hb hj))

end Patched

/-- A clone is added. -/
lemma Patched.duplicateFunction (h : Patched m ρ extra m') {body : Function} {m₁ : Module}
    {pmFn : FnId} (hf : m.lookup f = some body)
    (hdup : duplicateFunction m' f = some (m₁, pmFn)) :
    pmFn = f.clone m'.next ∧ Patched m ρ (extra ++ [(f.clone m'.next,
      (body.rewrite fun j => [redirect ρ j]).rewrite fun j => [j.copy m'.next])]) m₁ := by
  obtain ⟨m₂, hclone, heq⟩ := Option.map_eq_some_iff.mp hdup
  simp only [Prod.mk.injEq] at heq
  obtain ⟨rfl, rfl⟩ := heq
  have hwf := h.wf.clone hclone
  rw [Module.clone, h.lookup hf] at hclone
  obtain rfl := Option.some.inj hclone
  refine ⟨rfl, ?_, hwf, h.next.trans (Nat.le_succ _), h.callee⟩
  show m'.funs ++ _ = _
  rw [h.funs, List.append_assoc]

/-- Instructions are inserted into the function added last. -/
lemma Patched.insertAfter {g : FnId} {body : Function} (h : Patched m ρ (extra ++ [(g, body)]) m')
    {x : Instr} (hx : x ∈ body.insts) {new : List Instr} (hnew : FreshNames m' new) :
    Patched m ρ (extra ++ [(g, body.rewrite (insertedAfter x.id new))])
      (m'.insertAfter x.id new) := by
  refine ⟨?_, h.wf.insertAfter hnew, h.next.trans (Nat.le_add_right _ _), h.callee⟩
  have hfuns : m'.funs = ((m.rewrite fun j => [redirect ρ j]).funs ++ extra) ++ [(g, body)] := by
    rw [h.funs, List.append_assoc]
  rw [← List.append_assoc]
  exact h.wf.rewrite_last hfuns hx fun j hj => if_neg hj

lemma redirect_redirect {ρ : InstId → Option FnId} {i : InstId} {g : FnId} (hi : ρ i = none)
    (j : Instr) : redirect (fun k => if k = i then some g else none) (redirect ρ j) =
      redirect (fun k => (ρ k).or (if k = i then some g else none)) j := by
  rw [redirect, redirect_id]
  by_cases hj : j.id = i
  · have hρ : redirect ρ j = j := by rw [redirect, hj, hi]
    rw [if_pos hj, hρ, redirect]
    simp [hj, hi]
  · rw [if_neg hj, redirect, redirect]
    simp [hj]

lemma Function.rewrite_redirect {i : InstId} {g : FnId} (hi : ρ i = none) (body : Function) :
    (body.rewrite fun j => [redirect ρ j]).rewrite
        (fun j => [redirect (fun k => if k = i then some g else none) j]) =
      body.rewrite fun j => [redirect (fun k => (ρ k).or (if k = i then some g else none)) j] := by
  rw [rewrite_rewrite]
  congr 1
  funext j
  simp [redirect_redirect hi]

/-- One more call is redirected. -/
lemma Patched.setCalledFunction (hwf : m.WF) (h : Patched m ρ extra m') {g : FnId}
    (hj : j ∈ m.insts)
    (hρ : ρ j.id = none) (hcall : j.getCalledFunction = some f)
    (hg : g.getIntrinsicID = f.getIntrinsicID) :
    Patched m (fun k => (ρ k).or (if k = j.id then some g else none)) extra
      (m'.setCalledFunction j.id g) := by
  -- the copies in the clones have names of their own
  have hextra : ∀ p ∈ extra, ∀ k ∈ p.2.insts, k.id ≠ j.id := by
    intro p hp k hk heq
    have hnodup := h.wf.ids
    rw [h.insts, List.map_append, List.nodup_append] at hnodup
    refine hnodup.2.2 j.id ?_ k.id (List.mem_map_of_mem (List.mem_flatMap.mpr ⟨p, hp, hk⟩)) heq.symm
    exact redirect_id ρ j ▸ List.mem_map_of_mem (List.mem_map_of_mem hj)
  refine ⟨?_, h.wf.setCalledFunction _ _, h.next, fun i hi g' hg' => ?_⟩
  · have hfirst : (m.rewrite fun j => [redirect ρ j]).funs.map (fun p => (p.1, p.2.rewrite
        fun k => [redirect (fun k => if k = j.id then some g else none) k])) =
        (m.rewrite fun i =>
          [redirect (fun k => (ρ k).or (if k = j.id then some g else none)) i]).funs := by
      rw [Module.rewrite, Module.rewrite, List.map_map]
      refine List.map_congr_left fun p _ => ?_
      show (p.1, _) = (p.1, _)
      rw [Function.rewrite_redirect hρ]
    have hsecond : extra.map (fun p => (p.1, p.2.rewrite
        fun k => [redirect (fun k => if k = j.id then some g else none) k])) = extra := by
      calc extra.map _ = extra.map id := by
            refine List.map_congr_left fun p hp => Prod.ext rfl (Function.rewrite_eq_self ?_)
            intro k hk
            rw [redirect, if_neg (hextra p hp k hk)]
        _ = extra := List.map_id extra
    show m'.funs.map _ = _
    rw [h.funs, List.map_append, hfirst, hsecond]
  · rcases Option.or_eq_some_iff.mp hg' with hsome | ⟨-, hif⟩
    · exact h.callee i hi g' hsome
    · split_ifs at hif with hij
      obtain rfl := Option.some.inj hif
      obtain rfl := hwf.eq_of_id hi hj hij
      exact ⟨f, hcall, hg⟩

end Patched

end Hippocrates

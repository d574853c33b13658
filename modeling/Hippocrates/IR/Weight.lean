import Mathlib.Algebra.Order.BigOperators.Group.List
import Mathlib.Tactic
import Hippocrates.IR.Footprint
import Hippocrates.Lib.ChangeFlag

/-!
Whether a fix has changed a function of the given module, and that no later fix undoes it.

* `Function.weight`: the number of instructions, and what has been redirected. A call of a function
  without a body weighs nothing, one of a function with a body or of a clone the more the more often
  that has been cloned.
* `Module.Continues`: what the edits keep of the given module.
* `Tells`: the functions of the given module stay or get heavier, and the flag says whether one did.

`fixBug_tells`: the result of `fixBug` says whether it has changed a function of the given module.
The `return nullptr` for an unmapped frame above the first is never reached.
-/

namespace Hippocrates

open FixType

/-! ### Weights -/

/-- The function has no body, or there is none of the name. -/
def Module.declares (m : Module) (f : FnId) : Bool := (m.lookup f).all Function.isDeclaration

/-- How often calls have been redirected to come to the function, at most. -/
def Module.level (m₀ : Module) (f : FnId) : ℕ :=
  if m₀.declares f.stripped then 0 else f.copies.length + 1

def Instr.weight (m₀ : Module) (i : Instr) : ℕ := 1 + i.getCalledFunction.elim 0 m₀.level

def Function.weight (m₀ : Module) (body : Function) : ℕ := (body.insts.map (Instr.weight m₀)).sum

/-- The functions of the module `m₀` stay or get heavier, and the flag says whether one did. -/
abbrev Tells (m₀ : Module) : Module → Module → Bool → Prop :=
  ChangeFlag.Tells Module.lookup (fun body => body.elim 0 (Function.weight m₀))
    {f | (m₀.lookup f).isSome = true}

/-- The instruction is in a function of the module `m₀`. -/
def Module.Owns (m₀ m : Module) (i : InstId) : Prop :=
  ∃ f, (m₀.lookup f).isSome = true ∧ m.Has f i

section Weight

variable {m₀ m m' : Module} {i : InstId}

/-- A rewriting adds weight if it does so at one instruction. -/
lemma Function.weight_rewrite_lt {F : Instr → List Instr} {body : Function}
    (hle : ∀ j ∈ body.insts, j.weight m₀ ≤ ((F j).map (Instr.weight m₀)).sum) {j : Instr}
    (hj : j ∈ body.insts) (hlt : j.weight m₀ < ((F j).map (Instr.weight m₀)).sum) :
    body.weight m₀ < (body.rewrite F).weight m₀ := by
  have hsum : (body.rewrite F).weight m₀ =
      (body.insts.map fun j => ((F j).map (Instr.weight m₀)).sum).sum := by
    rw [Function.weight, Function.insts_rewrite, List.map_flatMap, List.flatMap_def,
      List.sum_flatten, List.map_map]
    rfl
  rw [hsum, Function.weight]
  exact List.sum_lt_sum _ _ hle ⟨j, hj, hlt⟩

lemma Instr.weight_pos (m₀ : Module) (j : Instr) : 0 < j.weight m₀ := by
  rw [Instr.weight]
  omega

/-- What is inserted in a function of the given module is told. -/
lemma tells_insertAfter {new : List Instr} (hnew : new ≠ []) (hi : m₀.Owns m i) :
    Tells m₀ m (m.insertAfter i new) true := by
  have hgrows : ∀ f, m.Has f i → (m.lookup f).elim 0 (Function.weight m₀) <
      ((m.insertAfter i new).lookup f).elim 0 (Function.weight m₀) := by
    rintro f ⟨body, hbody, hmem⟩
    obtain ⟨j, hj, hid⟩ := List.mem_map.mp hmem
    rw [Module.lookup_insertAfter, hbody, Option.map_some, Option.elim_some, Option.elim_some]
    refine Function.weight_rewrite_lt (fun k _ => ?_) hj ?_
    · rw [insertedAfter]
      split_ifs <;> simp
    · obtain ⟨k, new', rfl⟩ := List.exists_cons_of_ne_nil hnew
      have hpos := Instr.weight_pos m₀ k
      rw [insertedAfter, if_pos hid, List.map_cons, List.map_cons, List.sum_cons, List.sum_cons]
      omega
  obtain ⟨f, hf, hhas⟩ := hi
  refine ChangeFlag.Tells.of_lt (fun g _ => ?_) hf (hgrows f hhas)
  by_cases hg : m.Has g i
  · exact .inr (hgrows g hg)
  · exact .inl (Module.lookup_insertAfter_of_not hg new)

lemma exists_tells_insertAfter (m₀ m : Module) (i : InstId) {new : List Instr} (hnew : new ≠ []) :
    ∃ changed, Tells m₀ m (m.insertAfter i new) changed := by
  by_cases hi : m₀.Owns m i
  · exact ⟨true, tells_insertAfter hnew hi⟩
  · exact ⟨false, ChangeFlag.Tells.of_eq fun f hf =>
      Module.lookup_insertAfter_of_not (fun hhas => hi ⟨f, hf, hhas⟩) new⟩

/-- A call that is redirected to a higher level is told. -/
lemma tells_setCalledFunction (hwf : m.WF) {cb : Instr} {f g : FnId}
    (hcb : m.findInst i = some cb) (hcall : cb.getCalledFunction = some g)
    (hlevel : m₀.level g < m₀.level f) (hi : m₀.Owns m i) :
    Tells m₀ m (m.setCalledFunction i f) true := by
  obtain ⟨hmem, rfl⟩ := Module.findInst_spec hcb
  -- the call alone becomes heavier
  have hredirect : ∀ j ∈ m.insts, j.id = cb.id → j.weight m₀ <
      (redirect (fun k => if k = cb.id then some f else none) j).weight m₀ := by
    intro j hj hid
    obtain rfl := hwf.eq_of_id hj hmem hid
    rw [Instr.getCalledFunction] at hcall
    split at hcall
    · rename_i args hop
      obtain rfl := Option.some.inj hcall
      simpa [redirect, Instr.setCalledFunction, Instr.weight, Instr.getCalledFunction, hop]
        using hlevel
    · cases hcall
  have hgrows : ∀ h, m.Has h cb.id → (m.lookup h).elim 0 (Function.weight m₀) <
      ((m.setCalledFunction cb.id f).lookup h).elim 0 (Function.weight m₀) := by
    rintro h ⟨body, hbody, hbodymem⟩
    obtain ⟨j, hj, hid⟩ := List.mem_map.mp hbodymem
    rw [Module.setCalledFunction, Module.lookup_rewrite, hbody, Option.map_some, Option.elim_some,
      Option.elim_some]
    refine Function.weight_rewrite_lt (fun k hk => ?_) hj ?_
    · rw [List.map_singleton, List.sum_singleton]
      by_cases hkid : k.id = cb.id
      · exact (hredirect k (Module.mem_insts_of_lookup hbody hk) hkid).le
      · rw [redirect, if_neg hkid]
    · rw [List.map_singleton, List.sum_singleton]
      exact hredirect j (Module.mem_insts_of_lookup hbody hj) hid
  obtain ⟨h, hh, hhas⟩ := hi
  refine ChangeFlag.Tells.of_lt (fun h' _ => ?_) hh (hgrows h hhas)
  by_cases hh' : m.Has h' cb.id
  · exact .inr (hgrows h' hh')
  · exact .inl (Module.lookup_setCalledFunction_of_not hh' f)

end Weight

/-! ### What the edits keep -/

/-- The module comes from `m₀`: its functions are those of `m₀` and clones of them, with a body if
those have one, and the instructions of `m₀` are where they were. -/
structure Module.Continues (m₀ m : Module) : Prop where
  wf : m.WF
  body : ∀ f body, m.lookup f = some body →
    (m₀.lookup f.stripped).isSome = true ∧ m₀.declares f.stripped = body.isDeclaration
  isSome : ∀ f, (m₀.lookup f).isSome = true → (m.lookup f).isSome = true
  has : ∀ f i, m₀.Has f i → m.Has f i

section Continues

variable {G : GenEnv} {m₀ m m' : Module}

lemma Module.Original.continues (horig : m₀.Original) (hwf : m₀.WF) : m₀.Continues m₀ := by
  refine ⟨hwf, fun f body hbody => ?_, fun _ h => h, fun _ _ h => h⟩
  have hf : f.stripped = f := by
    have hcopies : f.copies = [] := horig.functions _ (Module.mem_of_lookup hbody)
    rw [FnId.stripped, ← hcopies]
  rw [hf, Module.declares, hbody]
  exact ⟨rfl, rfl⟩

lemma Function.isDeclaration_rewrite (F : Instr → List Instr) (body : Function) :
    (body.rewrite F).isDeclaration = body.isDeclaration := by
  rw [isDeclaration, isDeclaration, rewrite, List.isEmpty_map]

/-- A rewriting that keeps the names of the instructions. -/
lemma Module.Has.rewrite {f : FnId} {i : InstId} (h : m.Has f i) {F : Instr → List Instr}
    (hfuns : m'.funs = (m.rewrite F).funs)
    (hF : ∀ j, ∃ j' ∈ F j, j'.id = j.id) : m'.Has f i := by
  obtain ⟨body, hbody, hmem⟩ := h
  obtain ⟨j, hj, rfl⟩ := List.mem_map.mp hmem
  obtain ⟨j', hj', hid⟩ := hF j
  refine ⟨body.rewrite F, by rw [Module.lookup_of_funs hfuns, hbody]; rfl, ?_⟩
  exact hid ▸ List.mem_map_of_mem (Function.mem_insts_rewrite hj hj')

lemma Module.Has.insertAfter {f : FnId} {i k : InstId} (h : m.Has f i) (new : List Instr) :
    (m.insertAfter k new).Has f i :=
  h.rewrite rfl fun j => ⟨j, mem_insertedAfter_self _ _ j, rfl⟩

lemma Module.Has.setCalledFunction {f g : FnId} {i k : InstId} (h : m.Has f i) :
    (m.setCalledFunction k g).Has f i :=
  h.rewrite rfl fun j => ⟨_, List.mem_singleton_self _, redirect_id _ j⟩

lemma Module.Continues.rewrite (h : m₀.Continues m) {F : Instr → List Instr} (hwf : m'.WF)
    (hfuns : m'.funs = (m.rewrite F).funs)
    (hF : ∀ j, ∃ j' ∈ F j, j'.id = j.id) : m₀.Continues m' := by
  refine ⟨hwf, fun f body hbody => ?_, fun f hf => ?_,
    fun f i hi => (h.has f i hi).rewrite hfuns hF⟩
  · rw [Module.lookup_of_funs hfuns] at hbody
    obtain ⟨body', hbody', rfl⟩ := Option.map_eq_some_iff.mp hbody
    rw [Function.isDeclaration_rewrite]
    exact h.body f body' hbody'
  · rw [Module.lookup_of_funs hfuns, Option.isSome_map]
    exact h.isSome f hf

lemma Module.lookup_of_clone {f g : FnId} {body : Function} (h : m.clone f = some m')
    (hg : m'.lookup g = some body) : m.lookup g = some body ∨
      ∃ old, m.lookup f = some old ∧ g = f.clone m.next ∧
        body = old.rewrite fun i => [i.copy m.next] := by
  obtain ⟨old, hold, rfl⟩ := Option.map_eq_some_iff.mp h
  rw [Module.lookup, List.find?_append, Option.map_or, Option.or_eq_some_iff] at hg
  rcases hg with hg | ⟨-, hg⟩
  · exact .inl hg
  · rw [List.find?_singleton] at hg
    split_ifs at hg with heq
    · exact .inr ⟨old, hold, (beq_iff_eq.mp heq).symm, (Option.some.inj hg).symm⟩
    · cases hg

lemma Module.Continues.setCalledFunction (h : m₀.Continues m) (i : InstId) (f : FnId) :
    m₀.Continues (m.setCalledFunction i f) :=
  h.rewrite (h.wf.setCalledFunction i f) rfl fun j =>
    ⟨_, List.mem_singleton_self _, redirect_id _ j⟩

/-- **The edits** continue the given module. -/
lemma Edit.continues (h : Edit G m m') (hm : m₀.Continues m) : m₀.Continues m' := by
  have hwf := h.wf hm.wf
  cases h with
  | insert i hnames hnew =>
      exact hm.rewrite hwf rfl fun j => ⟨j, mem_insertedAfter_self _ _ j, rfl⟩
  | retarget => exact hm.setCalledFunction _ _
  | clone hclone =>
      refine ⟨hwf, fun f body hbody => ?_, fun f hf => ?_, fun f i hi => ?_⟩
      · rcases Module.lookup_of_clone hclone hbody with hold | ⟨old, hold, rfl, rfl⟩
        · exact hm.body f body hold
        · have hkept := hm.body _ old hold
          rw [Function.isDeclaration_rewrite]
          exact hkept
      · rw [Module.lookup_clone hclone (hm.isSome f hf)]
        exact hm.isSome f hf
      · obtain ⟨body, hbody, hmem⟩ := hm.has f i hi
        have hsome : (m.lookup f).isSome = true := by rw [hbody]; rfl
        exact ⟨body, (Module.lookup_clone hclone hsome).trans hbody, hmem⟩

lemma Edits.continues (h : Edits G m m') (hm : m₀.Continues m) : m₀.Continues m' := by
  induction h with
  | refl => exact hm
  | tail _ hstep ih => exact hstep.continues ih

lemma Module.Has.isSome {f : FnId} {i : InstId} (h : m.Has f i) :
    (m.lookup f).isSome = true := by
  obtain ⟨body, hbody, -⟩ := h
  rw [hbody]
  rfl

/-- An instruction of the given module is in its function. -/
lemma Module.Continues.owns (h : m₀.Continues m) {f : FnId} {i : InstId} (hi : m₀.Has f i) :
    m₀.Owns m i := ⟨f, hi.isSome, h.has f i hi⟩

/-- So are the instructions of a location that begins with one. -/
lemma Module.Continues.owns_of_insts (h : m₀.Continues m) {fl : FixLoc} {insts : List Instr}
    (hfl : ∃ f, m₀.Has f fl.first) (hinsts : fl.insts m = some insts) {j : Instr}
    (hj : j ∈ insts) : m₀.Owns m j.id := by
  obtain ⟨f, hf⟩ := hfl
  obtain ⟨g, b, hpar, hjb⟩ := FixLoc.mem_of_insts hinsts hj
  have hfirst := h.wf.has_iff.mp (h.has f _ hf)
  rw [Module.getFunction, hpar] at hfirst
  obtain rfl : g = f := Option.some.inj hfirst
  obtain ⟨body, hp, hb, -⟩ := Module.parent_spec hpar
  exact ⟨g, hf.isSome, Module.has_of_mem (h.wf.lookup_eq hp) (List.mem_flatten.mpr ⟨b, hb, hjb⟩)⟩

/-- A function with an instruction is redirected to its clone. -/
lemma Module.Continues.level_clone (h : m₀.Continues m) {i : InstId} {f : FnId} (k : ℕ)
    (hf : m.getFunction i = some f) : m₀.level f < m₀.level (f.clone k) := by
  obtain ⟨⟨g, b⟩, hpar, rfl⟩ := Option.map_eq_some_iff.mp hf
  obtain ⟨body, hp, hb, -⟩ := Module.parent_spec hpar
  have hdecl := (h.body g body (h.wf.lookup_eq hp)).2
  have hnot : m₀.declares g.stripped = false := by
    rw [hdecl, Function.isDeclaration, List.isEmpty_eq_false_iff]
    exact List.ne_nil_of_mem hb
  have hclone : (g.clone k).stripped = g.stripped := rfl
  rw [Module.level, Module.level, hclone, hnot]
  simp [FnId.clone]

end Continues

/-! ### What is given -/

/-- What a run is given: the persistent versions of the primitives are linked into the module, and
the locations of the mapper begin with instructions of it. -/
structure Given (G : GenEnv) (m₀ : Module) : Prop where
  wf : m₀.WF
  original : m₀.Original
  linked : ∀ name body, m₀.lookup (FnId.named ("PMFIXER_" ++ name)) = some body →
    body.isDeclaration = false
  placed : ∀ li locs, G.mapper li = some locs → ∀ fl ∈ locs, ∃ f, m₀.Has f fl.first

section Given

variable {G : GenEnv} {m₀ m m' : Module}

/-- A primitive is replaced by something of a higher level. -/
lemma Given.level_lt (h : Given G m₀) (hm : m₀.Continues m) {f newFn : FnId}
    (hprim : persistentPrimitive G m f = some (some newFn)) : m₀.level f < m₀.level newFn := by
  -- a routine that is linked has a body, so its level is higher
  have hnew : ∀ name, (getPersistentIntrinsic m ("PMFIXER_" ++ name)).map some =
      some (some newFn) → m₀.level newFn = 1 := by
    intro name hname
    obtain ⟨g, hg, heq⟩ := Option.map_eq_some_iff.mp hname
    obtain rfl := Option.some.inj heq
    rw [getPersistentIntrinsic] at hg
    split_ifs at hg with hsome
    obtain rfl := Option.some.inj hg
    obtain ⟨body, hbody⟩ := Option.isSome_iff_exists.mp hsome
    obtain ⟨hgiven, -⟩ := hm.body _ body hbody
    obtain ⟨body₀, hbody₀⟩ := Option.isSome_iff_exists.mp hgiven
    have hstripped : (FnId.named ("PMFIXER_" ++ name)).stripped =
        FnId.named ("PMFIXER_" ++ name) := rfl
    rw [hstripped] at hbody₀
    rw [Module.level, hstripped, Module.declares, hbody₀, Option.all_some,
      h.linked name body₀ hbody₀]
    rfl
  have hold : m₀.declares f.stripped = true → m₀.level f = 0 := fun hdecl => by
    rw [Module.level, if_pos hdecl]
  rw [persistentPrimitive] at hprim
  split at hprim
  · rename_i hid
    have hdecl : m₀.declares f.stripped = true := by
      rw [Module.declares]
      cases hbody : m₀.lookup f.stripped with
      | none => rfl
      | some body =>
          have hnil := h.wf.intrinsics _ (Module.mem_of_lookup hbody) hid
          rw [Option.all_some, Function.isDeclaration, hnil]
          rfl
    rw [hold hdecl]
    split at hprim
    · rw [hnew "memcpy" hprim]
      exact Nat.one_pos
    · rw [hnew "memset" hprim]
      exact Nat.one_pos
    · rw [hnew "memmove" hprim]
      exact Nat.one_pos
    · cases hprim
  · split at hprim
    · cases hprim
    · rename_i body hbody
      split_ifs at hprim with hdeclaration
      · rw [hold ((hm.body f body hbody).2.trans hdeclaration), hnew _ hprim]
        exact Nat.one_pos
      · cases hprim

end Given

/-! ### The loops -/

/-- From one state of a loop to the next, the instruction that is returned says whether a function
of the module `m₀` has changed. -/
def Marks (m₀ : Module) (s s' : GenState) : Prop :=
  ∃ changed, Tells m₀ s.1 s'.1 changed ∧ s'.2.isSome = (s.2.isSome || changed)

section Marks

variable {G : GenEnv} {m₀ m m' : Module} {s s' s'' : GenState}

lemma Marks.refl (s : GenState) : Marks m₀ s s := ⟨false, .refl _, (Bool.or_false _).symm⟩

lemma Marks.trans (h : Marks m₀ s s') (h' : Marks m₀ s' s'') : Marks m₀ s s'' := by
  obtain ⟨changed, htells, hret⟩ := h
  obtain ⟨changed', htells', hret'⟩ := h'
  exact ⟨_, htells.trans htells', by rw [hret', hret, Bool.or_assoc]⟩

/-- From the start of a loop on, the instruction that is returned is the flag. -/
lemma Marks.tells {r : Option InstId} (h : Marks m₀ (m, none) (m', r)) :
    Tells m₀ m m' r.isSome := by
  obtain ⟨changed, htells, hret⟩ := h
  rw [Option.isSome_none, Bool.false_or] at hret
  exact hret ▸ htells

lemma insertFlushAt_marks {i : Instr} (hi : m₀.Owns s.1 i.id)
    (h : insertFlushAt s i = some s') : Marks m₀ s s' := by
  rw [insertFlushAt] at h
  split at h
  · exact Option.some.inj h ▸ .refl s
  · split at h
    · cases h
    · obtain rfl := Option.some.inj h
      have hnew : ∀ v, flushInstrs s.1.next v ≠ [] := fun v => by
        rw [flushInstrs]
        split_ifs
        · exact List.cons_ne_nil _ _
        · split <;> exact List.cons_ne_nil _ _
      refine ⟨true, tells_insertAfter (hnew _) hi, ?_⟩
      rw [Bool.or_true, Option.isSome_map, List.getLast?_eq_some_getLast (hnew _)]
      rfl

lemma insertFlushAt_owns {i : Instr} {k : InstId} (hk : m₀.Owns s.1 k)
    (h : insertFlushAt s i = some s') : m₀.Owns s'.1 k := by
  rw [insertFlushAt] at h
  split at h
  · exact Option.some.inj h ▸ hk
  · split at h
    · cases h
    · obtain rfl := Option.some.inj h
      exact hk.imp fun f hf => ⟨hf.1, hf.2.insertAfter _⟩

/-- The flushes of a location of the given module. -/
lemma insertFlush_tells (hm : m₀.Continues m) {fl : FixLoc} (hfl : ∃ f, m₀.Has f fl.first)
    {n : Option InstId} (h : insertFlush m fl = some (m', n)) : Tells m₀ m m' n.isSome := by
  rw [insertFlush] at h
  split at h
  · cases h
  · rename_i insts hinsts
    refine (ForLoop.foldlM_inv (b := (m, (none : Option InstId)))
      (I := fun acc => (∀ i ∈ insts, m₀.Owns acc.1 i.id) ∧ Marks m₀ (m, none) acc)
      ⟨fun i hi => hm.owns_of_insts hfl hinsts hi, .refl _⟩
      (fun i hi acc acc' hstep hacc => ⟨fun j hj => ?_, ?_⟩) h).2.tells
    · exact insertFlushAt_owns (hacc.1 j hj) hstep
    · exact hacc.2.trans (insertFlushAt_marks (hacc.1 i hi) hstep)

lemma insertFence_tells (hm : m₀.Continues m) {fl : FixLoc} (hfl : ∃ f, m₀.Has f fl.last)
    {n : InstId} (h : insertFence m fl = some (m', n)) : Tells m₀ m m' true := by
  obtain ⟨f, hf⟩ := hfl
  rw [insertFence] at h
  split at h
  · cases h
  · obtain ⟨rfl, -⟩ := Prod.mk.inj (Option.some.inj h)
    exact tells_insertAfter (List.cons_ne_nil _ _) (hm.owns hf)

/-- A fence behind what has been told already. -/
lemma insertFence_after {m₁ : Module} {fl : FixLoc} {n : InstId} (htells : Tells m₀ m m₁ true)
    (h : insertFence m₁ fl = some (m', n)) : Tells m₀ m m' true := by
  rw [insertFence] at h
  split at h
  · cases h
  · obtain ⟨rfl, -⟩ := Prod.mk.inj (Option.some.inj h)
    obtain ⟨changed, hfence⟩ := exists_tells_insertAfter m₀ m₁ fl.last
      (List.cons_ne_nil (sfenceCall m₁.next) [])
    exact htells.trans hfence

/-! ### The rounds of a subprogram -/

lemma replacePrimitive_marks (hgiven : Given G m₀) (hm : m₀.Continues s.1) {next : LocationInfo}
    (h : replacePrimitive G next s = some s') : m₀.Continues s'.1 ∧ Marks m₀ s s' := by
  rw [replacePrimitive] at h
  split at h
  · rename_i nextFixLoc hmap
    split at h
    · cases h
    · rename_i insts hinsts
      split at h
      · rename_i cb hcands
        have hcb : cb ∈ insts := by
          have hmem : cb ∈ insts.filter Instr.isCallBase := hcands ▸ List.mem_cons_self
          exact (List.mem_filter.mp hmem).1
        -- the frame that is redirected is a location of the given module
        have hown := hm.owns_of_insts
          (hgiven.placed next _ hmap _ (List.mem_singleton_self _)) hinsts hcb
        have hfind := hm.wf.findInst_eq (FixLoc.mem_insts hinsts hcb)
        split at h
        · cases h
        · rename_i f hcall
          split at h
          · cases h
          · exact Option.some.inj h ▸ ⟨hm, .refl s⟩
          · rename_i newFn hprim
            obtain rfl := Option.some.inj h
            exact ⟨hm.setCalledFunction _ _, true, tells_setCalledFunction hm.wf hfind hcall
              (hgiven.level_lt hm hprim) hown, (Bool.or_true _).symm⟩
      · cases h
  · cases h

lemma redirectCall_marks (hm : m₀.Continues s.1) {fn pmFn : FnId}
    (hlevel : m₀.level fn < m₀.level pmFn) {ni : InstId} (hni : m₀.Owns s.1 ni)
    (h : redirectCall fn pmFn s ni = some s') :
    m₀.Continues s'.1 ∧ Marks m₀ s s' ∧ ∀ k, m₀.Owns s.1 k → m₀.Owns s'.1 k := by
  rw [redirectCall] at h
  split at h
  · cases h
  · rename_i cb hfind
    split at h
    · split at h
      · rename_i cbFn hcall
        split_ifs at h with heq
        · obtain rfl := Option.some.inj h
          subst heq
          exact ⟨hm.setCalledFunction _ _, ⟨true, tells_setCalledFunction hm.wf hfind hcall hlevel
            hni, (Bool.or_true _).symm⟩, fun k hk => hk.imp fun f hf =>
              ⟨hf.1, hf.2.setCalledFunction⟩⟩
        · exact Option.some.inj h ▸ ⟨hm, .refl s, fun _ hk => hk⟩
      · cases h
    · exact Option.some.inj h ▸ ⟨hm, .refl s, fun _ hk => hk⟩

lemma redirectLoc_marks (hm : m₀.Continues s.1) {fn pmFn : FnId}
    (hlevel : m₀.level fn < m₀.level pmFn) {nFix : FixLoc} (hfl : ∃ f, m₀.Has f nFix.first)
    (h : redirectLoc fn pmFn s nFix = some s') : m₀.Continues s'.1 ∧ Marks m₀ s s' := by
  rw [redirectLoc] at h
  split at h
  · cases h
  · rename_i insts hinsts
    have hown : ∀ ni ∈ insts.map Instr.id, m₀.Owns s.1 ni := by
      intro ni hni
      obtain ⟨j, hj, rfl⟩ := List.mem_map.mp hni
      exact hm.owns_of_insts hfl hinsts hj
    have hend := ForLoop.foldlM_inv (I := fun t => m₀.Continues t.1 ∧ Marks m₀ s t ∧
        ∀ ni ∈ insts.map Instr.id, m₀.Owns t.1 ni) ⟨hm, .refl s, hown⟩
      (fun ni hni t t' hstep ht => ?_) h
    · exact ⟨hend.1, hend.2.1⟩
    · obtain ⟨hm', hmarks, hkeep⟩ := redirectCall_marks ht.1 hlevel (ht.2.2 ni hni) hstep
      exact ⟨hm', ht.2.1.trans hmarks, fun k hk => hkeep k (ht.2.2 k hk)⟩

/-- A mapped frame, and the frame above it is mapped as well. -/
lemma cloneFrame_marks (hgiven : Given G m₀) (hm : m₀.Continues s.1) {fixLocList : List FixLoc}
    {next : LocationInfo} (h : cloneFrame G true fixLocList next s = some s') :
    m₀.Continues s'.1 ∧ Marks m₀ s s' ∧ (G.mapper next).isSome = true := by
  unfold cloneFrame at h
  split at h
  · cases h
  · split at h
    · cases h
    · split at h
      · cases h
      · rename_i fn hfn
        dsimp only at h
        split at h
        · cases h
        · rename_i m₁ pmFn hpersist
          -- the clone is new, and the functions that are there keep their bodies
          have hclone : m₀.Continues m₁ ∧ Tells m₀ s.1 m₁ false ∧ pmFn = fn.clone s.1.next := by
            simp only [if_true] at hpersist
            split at hpersist
            · cases hpersist
            · rename_i hdup
              obtain ⟨m₃, hmake, heq⟩ := Option.map_eq_some_iff.mp hpersist
              obtain ⟨rfl, rfl⟩ := Prod.mk.inj heq
              obtain ⟨hedits, hname⟩ := duplicateFunction_edits (G := G) hdup
              have hm₂ := Edits.continues hedits hm
              exact ⟨Edits.continues (makeAllStoresPersistent_edits hmake) hm₂,
                ChangeFlag.Tells.of_eq fun f hf =>
                  (persistentClone_frame hm.wf (hm.isSome f hf) hdup hmake).2, hname⟩
          obtain ⟨hm₁, htells, rfl⟩ := hclone
          split at h
          · cases h
          · rename_i nextFixLoc hmap
            split_ifs at h
            have hstart : m₀.Continues (m₁, s.2).1 ∧ Marks m₀ s (m₁, s.2) :=
              ⟨hm₁, false, htells, (Bool.or_false _).symm⟩
            have hend := ForLoop.foldlM_inv (I := fun t => m₀.Continues t.1 ∧ Marks m₀ s t) hstart
              (fun nFix hnFix t t' hstep ht => ?_) h
            · exact ⟨hend.1, hend.2, by rw [hmap]; rfl⟩
            · obtain ⟨hm', hmarks⟩ := redirectLoc_marks ht.1 (hm.level_clone _ hfn)
                (hgiven.placed next _ hmap nFix hnFix) hstep
              exact ⟨hm', ht.2.trans hmarks⟩

/-- **The rounds** come to an end, at a frame that is mapped; `return nullptr` is not reached. -/
lemma runFrames_marks (hgiven : Given G m₀) (hm : m₀.Continues m) {callstack : List LocationInfo}
    {n : ℕ} {r : Round} (h : runFrames G callstack true m n = some r) :
    ∃ s, r = .next s ∧ m₀.Continues s.1 ∧ Marks m₀ (m, none) s ∧
      (0 < n → ∃ li, callstack[n]? = some li ∧ (G.mapper li).isSome = true) := by
  induction n generalizing r with
  | zero =>
      obtain rfl := Option.some.inj h
      exact ⟨(m, none), rfl, hm, .refl _, fun hpos => absurd hpos (lt_irrefl 0)⟩
  | succ n ih =>
      rw [runFrames] at h
      split at h
      · cases h
      · rename_i m₁ hrun
        obtain ⟨s, hs, -⟩ := ih hrun
        cases hs
      · rename_i t hrun
        obtain ⟨s, hs, hm₁, hmarks, hmapped⟩ := ih hrun
        obtain rfl := Round.next.inj hs
        rw [frameStep] at h
        split at h
        · cases h
        · rename_i li hli
          split at h
          · rename_i hnone
            -- the frame above a mapped one is mapped, so the loop is not left here
            split_ifs at h with hpos
            · obtain ⟨li', hli', hsome⟩ := hmapped hpos
              rw [hli] at hli'
              obtain rfl := Option.some.inj hli'
              rw [hnone] at hsome
              cases hsome
            · split at h
              · cases h
              · rename_i next hnext
                obtain ⟨s', hs', rfl⟩ := Option.map_eq_some_iff.mp h
                obtain ⟨hm', hround⟩ := replacePrimitive_marks hgiven hm₁ hs'
                refine ⟨s', rfl, hm', hmarks.trans hround, fun _ => ⟨next, hnext, ?_⟩⟩
                rw [replacePrimitive] at hs'
                split at hs'
                · rename_i hmap
                  rw [hmap]
                  rfl
                · cases hs'
          · split at h
            · cases h
            · rename_i next hnext
              obtain ⟨s', hs', rfl⟩ := Option.map_eq_some_iff.mp h
              obtain ⟨hm', hround, hsome⟩ := cloneFrame_marks hgiven hm₁ hs'
              exact ⟨s', rfl, hm', hmarks.trans hround, fun _ => ⟨next, hnext, hsome⟩⟩

lemma insertPersistentSubProgram_tells (hgiven : Given G m₀) (hm : m₀.Continues m)
    {callstack : List LocationInfo} {idx : ℕ} {addFence : Bool} {ret : Option InstId}
    (h : insertPersistentSubProgram G m callstack idx true addFence = some (m', ret)) :
    Tells m₀ m m' ret.isSome := by
  rw [insertPersistentSubProgram] at h
  split at h
  · cases h
  · rename_i m₁ hrun
    obtain ⟨s, hs, -⟩ := runFrames_marks hgiven hm hrun
    cases hs
  · rename_i m₁ retInst hrun
    obtain ⟨s, hs, -, hmarks, -⟩ := runFrames_marks hgiven hm hrun
    obtain rfl := Round.next.inj hs
    have htells := hmarks.tells
    split_ifs at h
    · split at h
      · cases h
      · rename_i r
        obtain ⟨⟨m₂, n⟩, hfence, heq⟩ := Option.map_eq_some_iff.mp h
        obtain ⟨rfl, rfl⟩ := Prod.mk.inj heq
        exact insertFence_after htells hfence
    · obtain ⟨rfl, rfl⟩ := Prod.mk.inj (Option.some.inj h)
      exact htells

/-- **A fix** tells whether it has changed a function of the given module. -/
theorem fixBug_tells (hgiven : Given G m₀) (hm : m₀.Continues m) {fl : FixLoc} {desc : FixDesc}
    {res : Bool} (hfl : desc.type.isPrimative = true → ∃ i f, fl = FixLoc.single i ∧ m₀.Has f i)
    (h : fixBug G m fl desc = some (m', res)) : Tells m₀ m m' res := by
  -- a subprogram tells whether a call was redirected
  have hsub : ∀ {addFence m₁ ret}, insertPersistentSubProgram G m desc.dynStack desc.stackIdx true
      addFence = some (m₁, ret) → some (m₁, ret.isSome) = some (m', res) → Tells m₀ m m' res := by
    intro addFence m₁ ret hins heq
    obtain ⟨rfl, rfl⟩ := Prod.mk.inj (Option.some.inj heq)
    exact insertPersistentSubProgram_tells hgiven hm hins
  rw [fixBug] at h
  split at h
  · rename_i htype
    obtain ⟨i, f, rfl, hi⟩ := hfl (by rw [htype]; rfl)
    split at h
    · rename_i n hflush
      obtain ⟨rfl, rfl⟩ := Prod.mk.inj (Option.some.inj h)
      exact insertFlush_tells hm ⟨f, hi⟩ hflush
    · cases h
  · rename_i htype
    obtain ⟨i, f, rfl, hi⟩ := hfl (by rw [htype]; rfl)
    obtain ⟨⟨m₁, n⟩, hfence, heq⟩ := Option.map_eq_some_iff.mp h
    obtain ⟨rfl, rfl⟩ := Prod.mk.inj heq
    exact insertFence_tells hm ⟨f, hi⟩ hfence
  · rename_i htype
    obtain ⟨i, f, rfl, hi⟩ := hfl (by rw [htype]; rfl)
    split at h
    · rename_i m₁ n hflush
      obtain ⟨⟨m₂, n'⟩, hfence, heq⟩ := Option.map_eq_some_iff.mp h
      obtain ⟨rfl, rfl⟩ := Prod.mk.inj heq
      exact insertFence_after (insertFlush_tells hm ⟨f, hi⟩ hflush) hfence
    · cases h
  · split at h
    · cases h
    · rename_i hins
      exact hsub hins h
  · split at h
    · cases h
    · rename_i hins
      exact hsub hins h
  · obtain ⟨rfl, rfl⟩ := Prod.mk.inj (Option.some.inj h)
    exact .refl m
  · obtain ⟨rfl, rfl⟩ := Prod.mk.inj (Option.some.inj h)
    exact .refl m
  · cases h

end Marks

end Hippocrates

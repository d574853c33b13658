import Mathlib.Tactic
import Hippocrates.IR.LocationMapper
import Hippocrates.IR.Primitives

/-!
`TraceInfoBuilder::resolveLocations`: the functions of the frames of a call stack are renamed to
those the module has, from the outermost frame inwards.

* `possibleCallSites`, `resolveCallee`: the calls at the location of the caller that are taken for
  the traced call, and the name of the function they call.
* `resolveFrame`, `resolveStack`, `resolveLocations`: a round, the loop, and the event.
* `NameOf`: what a frame may be renamed to; `Renamed`: what may change in a stack.
-/

namespace Hippocrates

/-- The text after the first occurrence of `sub`. -/
def afterFirst (sub : List Char) : List Char → Option (List Char)
  | [] => if sub = [] then some [] else none
  | c :: cs => if sub <+: c :: cs then some ((c :: cs).drop sub.length) else afterFirst sub cs

/-- What the renaming depends on. `demangle` gives back names that are no mangled names, as those
of the memory primitives. -/
structure ResolveEnv where
  module : Module
  mapper : LocationInfo → Option (List FixLoc)
  demangle : String → String
  demangle_primitive : ∀ f : FnId, primitiveOf f ≠ none → demangle f.fullName = f.fullName

/-- `valid`: the line is known. -/
def LocationInfo.valid (li : LocationInfo) : Bool := decide (0 < li.line)

/-- The name of the function may be that of the traced one, or it may be a memory primitive. -/
def namesCallee (fname traced : String) : Bool :=
  hasSubstring fname traced || hasSubstring fname "memset" || hasSubstring fname "memcpy" ||
    hasSubstring fname "memmove" || hasSubstring fname "strncpy"

section Resolve

variable (E : ResolveEnv)

/-- A call that may be the traced one; calls of pointers always may. -/
def isPossible (traced : String) (inst : Instr) : Bool :=
  inst.isCallBase &&
    match inst.getCalledFunction with
    | some f => f.getIntrinsicID != .dbg_declare && namesCallee (E.demangle f.fullName) traced
    | none => true

/-- `possibleCallSites`. -/
def possibleCallSites (traced : String) : List FixLoc → Option (List Instr)
  | [] => some []
  | fLoc :: fLocs =>
    if !fLoc.isValid E.module then none -- "wat"
    else
      match fLoc.insts E.module with
      | none => none
      | some insts =>
        (possibleCallSites traced fLocs).map fun sites =>
          insts.filter (isPossible E traced) ++ sites

/-- The name has the traced one in it, and a dot after it. -/
def isCandidate (traced : String) (f : FnId) : Bool :=
  match afterFirst traced.toList f.fullName.toList with
  | some ending => ending.head? == some '.'
  | none => false

/-- The function a pointer is taken to point to. -/
def pointedFunction (traced : String) : Option FnId :=
  match (E.module.funs.map Prod.fst).find? fun f => f.fullName == traced with
  | some f => some f
  | none =>
    match (E.module.funs.map Prod.fst).filter (isCandidate traced) with
    | [f] => some f
    | _ => none -- "wat"

/-- The name of the function that is called at the locations of the caller. -/
def resolveCallee (fLocs : List FixLoc) (traced : String) : Option String :=
  match possibleCallSites E traced fLocs with
  | none => none
  | some [] => none -- "don't know how to handle!"
  | some (cb :: sites) =>
    if sites ≠ [] ∧ ¬ ∀ cb' ∈ cb :: sites, cb'.getCalledFunction ≠ none ∧
        cb'.getCalledFunction = cb.getCalledFunction then none
    else
      match cb.getCalledFunction with
      | some f => some f.fullName
      | none => (pointedFunction E traced).map FnId.fullName

/-- A round of the loop. -/
def resolveFrame (caller callee : LocationInfo) : Option LocationInfo :=
  if !caller.valid then some callee
  else
    match E.mapper caller with
    | none => some callee
    | some fLocs =>
      if (E.mapper callee).isSome then some callee
      else
        (resolveCallee E fLocs callee.function).map fun name => { callee with function := name }

/-- The loop, from the outermost frame inwards. -/
def resolveStack : List LocationInfo → Option (List LocationInfo)
  | [] => some []
  | callee :: stack =>
    match resolveStack stack with
    | none => none
    | some [] => some [callee]
    | some (caller :: resolved) =>
      (resolveFrame E caller callee).map fun callee => callee :: caller :: resolved

/-- `resolveLocations`; there has to be a frame. -/
def resolveLocations (te : TraceEvent) : Option TraceEvent :=
  match resolveStack E te.callstack with
  | some (front :: stack) =>
    some { te with
      callstack := front :: stack
      location := if front.eqv te.location then te.location else front }
  | _ => none

/-! ### What may be renamed -/

/-- A demangled name, read from its end, without the group in parentheses it begins with. -/
def dropGroup : ℕ → List Char → List Char
  | _, [] => []
  | depth, c :: cs =>
    if c = ')' then dropGroup (depth + 1) cs
    else if c = '(' then if depth ≤ 1 then cs else dropGroup (depth - 1) cs
    else dropGroup depth cs

/-- A demangled name without the list of its parameters and what follows it. -/
def withoutParams (name : String) : String :=
  if ')' ∈ name.toList then
    String.ofList (dropGroup 0 (name.toList.reverse.dropWhile fun c => c ≠ ')')).reverse
  else name

example : withoutParams "(anonymous namespace)::f(void (*)(int)) const" =
    "(anonymous namespace)::f" := by decide

/-- The function has the traced name, or is a memory primitive. -/
def CalledAs (f : FnId) (traced : String) : Prop :=
  withoutParams (E.demangle f.fullName) = traced ∨ primitiveOf f ≠ none

/-- The name of a function that is called directly at the locations under the traced name, or of
the one with the traced name, up to a suffix, when a pointer is called there. -/
def NameOf (locs : List FixLoc) (traced name : String) : Prop :=
  (∃ inst f, InstOf E.module locs inst ∧ inst.getCalledFunction = some f ∧
    f.getIntrinsicID ≠ .dbg_declare ∧ f.fullName = name ∧ CalledAs E f traced) ∨
  (∃ inst, InstOf E.module locs inst ∧ inst.isCallBase = true ∧ inst.getCalledFunction = none ∧
    ∃ p ∈ E.module.funs, p.1.fullName = name ∧
      (name = traced ∨ traced.toList ++ ['.'] <+: name.toList))

/-- A frame that is renamed at most, to the function that its caller calls. -/
structure FrameRenamed (caller old new : LocationInfo) : Prop where
  file : new.file = old.file
  line : new.line = old.line
  function : new.function ≠ old.function → E.mapper old = none ∧ caller.valid = true ∧
    ∃ locs, E.mapper caller = some locs ∧ NameOf E locs old.function new.function

/-- A stack of which frames are renamed at most, each to a function that the frame above it
calls. -/
structure Renamed (old new : List LocationInfo) : Prop where
  length : new.length = old.length
  place : ∀ (i : ℕ) (a b : LocationInfo), old[i]? = some a → new[i]? = some b →
    b.file = a.file ∧ b.line = a.line
  function : ∀ (i : ℕ) (a b : LocationInfo), old[i]? = some a → new[i]? = some b →
    b.function ≠ a.function → E.mapper a = none ∧ ∃ caller locs, new[i + 1]? = some caller ∧
      caller.valid = true ∧ E.mapper caller = some locs ∧ NameOf E locs a.function b.function

/-- The names at the location of the caller fit: a function called there that has the traced name
somewhere in its own has it as its name, and one the called pointer is taken for begins with it. -/
structure NamesFit (locs : List FixLoc) (traced : String) : Prop where
  direct : ∀ inst f, InstOf E.module locs inst → inst.getCalledFunction = some f →
    isPossible E traced inst = true → f.fullName = traced ∨ CalledAs E f traced
  pointer : ∀ inst, InstOf E.module locs inst → inst.isCallBase = true →
    inst.getCalledFunction = none → (∀ p ∈ E.module.funs, p.1.fullName ≠ traced) →
    ∀ p ∈ E.module.funs, isCandidate traced p.1 = true →
      traced.toList ++ ['.'] <+: p.1.fullName.toList

/-- The names fit, if the round renames at all. -/
def RoundFits (caller callee : LocationInfo) : Prop :=
  caller.valid = true → E.mapper callee = none → ∀ locs, E.mapper caller = some locs →
    NamesFit E locs callee.function

/-- The loop comes to `callee`, whose caller is `caller` by then. -/
def ComesTo (stack : List LocationInfo) (caller callee : LocationInfo) : Prop :=
  ∃ pre rest resolved, stack = pre ++ callee :: rest ∧
    resolveStack E rest = some (caller :: resolved)

end Resolve

/-! ### One round -/

section Round

variable {E : ResolveEnv} {locs : List FixLoc} {traced name : String} {caller callee : LocationInfo}

lemma mem_possibleCallSites {sites : List Instr} {inst : Instr}
    (h : possibleCallSites E traced locs = some sites) :
    inst ∈ sites ↔ InstOf E.module locs inst ∧ isPossible E traced inst = true := by
  induction locs generalizing sites with
  | nil =>
      obtain rfl := Option.some.inj h
      simp [InstOf]
  | cons fLoc fLocs ih =>
      rw [possibleCallSites] at h
      split at h
      · cases h
      · split at h
        · cases h
        · rename_i insts hinsts
          obtain ⟨sites', hsites, rfl⟩ := Option.map_eq_some_iff.mp h
          rw [List.mem_append, List.mem_filter, ih hsites]
          -- the sites are those of the first location and those of the rest
          constructor
          · rintro (⟨hmem, hposs⟩ | ⟨⟨fLoc', hfLoc, hinst⟩, hposs⟩)
            · exact ⟨⟨fLoc, List.mem_cons_self, insts, hinsts, hmem⟩, hposs⟩
            · exact ⟨⟨fLoc', List.mem_cons_of_mem _ hfLoc, hinst⟩, hposs⟩
          · rintro ⟨⟨fLoc', hfLoc, insts', hinsts', hmem⟩, hposs⟩
            rcases List.mem_cons.mp hfLoc with rfl | hfLoc
            · obtain rfl := Option.some.inj (hinsts.symm.trans hinsts')
              exact .inl ⟨hmem, hposs⟩
            · exact .inr ⟨⟨fLoc', hfLoc, insts', hinsts', hmem⟩, hposs⟩

/-- There is a possible call, and all possible calls are of one function, or else the only one is
of a pointer. -/
lemma resolveCallee_cases (h : resolveCallee E locs traced = some name) :
    ∃ inst called, InstOf E.module locs inst ∧ isPossible E traced inst = true ∧
      (∀ inst, InstOf E.module locs inst → isPossible E traced inst = true →
        inst.getCalledFunction = called) ∧
      match called with
      | some f => name = f.fullName
      | none => ∃ f, pointedFunction E traced = some f ∧ name = f.fullName := by
  rw [resolveCallee] at h
  split at h
  · cases h
  · cases h
  · rename_i cb sites hsites
    split at h
    · cases h
    · rename_i hsame
      have hmem : ∀ inst, inst ∈ cb :: sites ↔
          InstOf E.module locs inst ∧ isPossible E traced inst = true := fun inst =>
        mem_possibleCallSites hsites
      obtain ⟨hcb, hposs⟩ := (hmem cb).mp List.mem_cons_self
      refine ⟨cb, cb.getCalledFunction, hcb, hposs, fun inst hinst hposs => ?_, ?_⟩
      · have hinst := (hmem inst).mpr ⟨hinst, hposs⟩
        -- if there is only one site, it may be an indirect call
        by_cases hone : sites = []
        · rw [hone] at hinst
          rw [List.mem_singleton.mp hinst]
        · exact ((not_not.mp fun hne => hsame ⟨hone, hne⟩) inst hinst).2
      · split at h
        · exact (Option.some.inj h).symm
        · obtain ⟨f, hpoint, rfl⟩ := Option.map_eq_some_iff.mp h
          exact ⟨f, hpoint, rfl⟩

lemma dropGroup_suffix (depth : ℕ) (cs : List Char) : dropGroup depth cs <:+ cs := by
  fun_induction dropGroup depth cs with
  | case1 => exact List.suffix_rfl
  | case2 depth cs ih => exact ih.trans (List.suffix_cons _ _)
  | case3 depth cs => exact List.suffix_cons _ _
  | case4 depth cs _ _ ih => exact ih.trans (List.suffix_cons _ _)
  | case5 depth c cs _ _ ih => exact ih.trans (List.suffix_cons _ _)

lemma withoutParams_isPrefix (name : String) : (withoutParams name).toList <+: name.toList := by
  rw [withoutParams]
  split
  · rw [String.toList_ofList, ← List.reverse_suffix, List.reverse_reverse]
    exact (dropGroup_suffix _ _).trans (List.dropWhile_suffix _)
  · exact List.prefix_rfl

/-- The name of a primitive has the name of the primitive in it. -/
lemma hasSubstring_of_primitive {f : FnId} {p : MemPrimitive} (h : primitiveOf f = some p) :
    hasSubstring f.fullName p.name = true := by
  rcases primitiveOf_cases h with hid | ⟨-, rfl⟩
  · have hname : f.fullName = f.getIntrinsicID.name := by
      cases hroot : f.root with
      | named _ =>
          rw [FnId.getIntrinsicID, hroot] at hid
          cases hid
      | intrinsic id => rw [FnId.fullName, FnId.getIntrinsicID, hroot]
    rw [hname]
    cases hintr : f.getIntrinsicID <;> rw [hintr] at hid <;> cases hid <;> decide
  · rw [p.fullName.1, hasSubstring, decide_eq_true_eq]

/-- A call under the traced name is a possible call. -/
lemma CalledAs.isPossible {inst : Instr} {f : FnId} (h : CalledAs E f traced)
    (hf : inst.getCalledFunction = some f) (hid : f.getIntrinsicID ≠ .dbg_declare) :
    isPossible E traced inst = true := by
  have hcall : inst.isCallBase = true := by
    rw [Instr.isCallBase]
    rw [Instr.getCalledFunction] at hf
    split at hf <;> simp_all
  have hnames : namesCallee (E.demangle f.fullName) traced = true := by
    rcases h with rfl | hprim
    · simp [namesCallee, hasSubstring, (withoutParams_isPrefix (E.demangle f.fullName)).isInfix]
    · rw [E.demangle_primitive f hprim]
      obtain ⟨p, hp⟩ := Option.ne_none_iff_exists'.mp hprim
      have hsub := hasSubstring_of_primitive hp
      cases p <;> simp_all [namesCallee, MemPrimitive.name]
  simp [Hippocrates.isPossible, hcall, hf, hid, hnames]

/-- A pointer is always possible. -/
lemma isPossible_pointer {inst : Instr} (hcall : inst.isCallBase = true)
    (hf : inst.getCalledFunction = none) : isPossible E traced inst = true := by
  simp [isPossible, hcall, hf]

lemma isPossible_direct {inst : Instr} {f : FnId} (h : isPossible E traced inst = true)
    (hf : inst.getCalledFunction = some f) : f.getIntrinsicID ≠ .dbg_declare := by
  simp only [isPossible, hf, Bool.and_eq_true, bne_iff_ne] at h
  exact h.2.1

lemma isPossible_isCallBase {inst : Instr} (h : isPossible E traced inst = true) :
    inst.isCallBase = true := by
  rw [isPossible, Bool.and_eq_true] at h
  exact h.1

/-- What a pointer is taken for: the function of the traced name, or else the one candidate. -/
lemma pointedFunction_cases {f : FnId} (h : pointedFunction E traced = some f) :
    (∃ p ∈ E.module.funs, p.1 = f) ∧
      (f.fullName = traced ∨ (∀ p ∈ E.module.funs, p.1.fullName ≠ traced) ∧
        ∀ p ∈ E.module.funs, isCandidate traced p.1 = true ↔ p.1 = f) := by
  rw [pointedFunction] at h
  split at h
  · rename_i g hg
    obtain rfl := Option.some.inj h
    have hname : (g.fullName == traced) = true :=
      List.find?_some (p := fun f : FnId => f.fullName == traced) hg
    exact ⟨List.mem_map.mp (List.mem_of_find?_eq_some hg), .inl (beq_iff_eq.mp hname)⟩
  · rename_i hnone
    split at h
    · rename_i g hg
      obtain rfl := Option.some.inj h
      have hmem := fun f => congrArg (f ∈ ·) hg
      simp only [List.mem_filter, List.mem_singleton, eq_iff_iff] at hmem
      refine ⟨List.mem_map.mp ((hmem g).mpr rfl).1, .inr ⟨fun p hp hname => ?_, fun p hp => ?_⟩⟩
      · have hne := List.find?_eq_none.mp hnone p.1 (List.mem_map_of_mem hp)
        simp [hname] at hne
      · rw [← hmem p.1, and_iff_right (List.mem_map_of_mem hp)]
    · cases h

section Callee

variable {inst : Instr} {f : FnId} (hinst : InstOf E.module locs inst)
  (hposs : isPossible E traced inst = true)

include hinst hposs

/-- The possible calls are direct, and all of one function. -/
lemma nameOf_iff_of_direct (hall : ∀ inst', InstOf E.module locs inst' →
      isPossible E traced inst' = true → inst'.getCalledFunction = some f) :
    (f.fullName ≠ traced → NameOf E locs traced f.fullName) ↔ NamesFit E locs traced := by
  -- an indirect call is possible wherever it stands, so there is none
  have hpointer : ∀ inst', InstOf E.module locs inst' → inst'.isCallBase = true →
      inst'.getCalledFunction ≠ none := fun inst' hinst' hcall hnone => by
    cases hnone.symm.trans (hall inst' hinst' (isPossible_pointer hcall hnone))
  have hf := hall inst hinst hposs
  constructor
  · intro hname
    refine ⟨fun inst' f' hinst' hf' hposs' => ?_, fun inst' hinst' hcall hnone => ?_⟩
    · obtain rfl : f' = f := Option.some.inj (hf'.symm.trans (hall inst' hinst' hposs'))
      by_cases hsame : f'.fullName = traced
      · exact .inl hsame
      right
      rcases hname hsame with ⟨inst₀, g, hinst₀, hg, hid, -, hcalled⟩ |
        ⟨inst₀, hinst₀, hcall, hnone, -⟩
      · obtain rfl : g = f' := Option.some.inj
          (hg.symm.trans (hall inst₀ hinst₀ (hcalled.isPossible hg hid)))
        exact hcalled
      · exact absurd hnone (hpointer inst₀ hinst₀ hcall)
    · exact absurd hnone (hpointer inst' hinst' hcall)
  · intro hfit hne
    rcases hfit.direct inst f hinst hf hposs with hsame | hcalled
    · exact absurd hsame hne
    · exact .inl ⟨inst, f, hinst, hf, isPossible_direct hposs hf, rfl, hcalled⟩

/-- The possible calls are of pointers. -/
lemma nameOf_iff_of_pointer (hall : ∀ inst', InstOf E.module locs inst' →
      isPossible E traced inst' = true → inst'.getCalledFunction = none)
    (hpoint : pointedFunction E traced = some f) :
    (f.fullName ≠ traced → NameOf E locs traced f.fullName) ↔ NamesFit E locs traced := by
  obtain ⟨⟨p, hp, rfl⟩, hcases⟩ := pointedFunction_cases hpoint
  have hcall := isPossible_isCallBase hposs
  constructor
  · intro hname
    refine ⟨fun inst' g hinst' hg hposs' => ?_, fun inst' hinst' hcall' hnone hno q hq hcand => ?_⟩
    · cases hg.symm.trans (hall inst' hinst' hposs')
    · rcases hcases with hsame | ⟨-, honly⟩
      · exact absurd hsame (hno p hp)
      · rw [(honly q hq).mp hcand]
        rcases hname (hno p hp) with ⟨inst₀, g, hinst₀, hg, hid, -, hcalled⟩ |
          ⟨inst₀, -, -, -, r, -, -, hsame | hprefix⟩
        · cases hg.symm.trans (hall inst₀ hinst₀ (hcalled.isPossible hg hid))
        · exact absurd hsame (hno p hp)
        · exact hprefix
  · intro hfit hne
    refine .inr ⟨inst, hinst, hcall, hall inst hinst hposs, p, hp, rfl, .inr ?_⟩
    rcases hcases with hsame | ⟨hno, honly⟩
    · exact absurd hsame hne
    · exact hfit.pointer inst hinst hcall (hall inst hinst hposs) hno p hp
        ((honly p hp).mpr rfl)

end Callee

/-- The called function is the right one exactly when the names fit. -/
lemma nameOf_iff (h : resolveCallee E locs traced = some name) :
    (name ≠ traced → NameOf E locs traced name) ↔ NamesFit E locs traced := by
  obtain ⟨inst, called, hinst, hposs, hall, hname⟩ := resolveCallee_cases h
  cases called with
  | some f =>
      obtain rfl : name = f.fullName := hname
      exact nameOf_iff_of_direct hinst hposs hall
  | none =>
      obtain ⟨f, hpoint, rfl⟩ := hname
      exact nameOf_iff_of_pointer hinst hposs hall hpoint

/-- A round renames the frame at most, and rightly exactly when the names fit. -/
lemma frameRenamed_iff {callee' : LocationInfo} (h : resolveFrame E caller callee = some callee') :
    FrameRenamed E caller callee callee' ↔ RoundFits E caller callee := by
  rw [resolveFrame] at h
  split at h
  · rename_i hvalid
    obtain rfl := Option.some.inj h
    refine ⟨fun _ hv => ?_, fun _ => ⟨rfl, rfl, fun hne => absurd rfl hne⟩⟩
    simp [hv] at hvalid
  · rename_i hvalid
    rw [Bool.not_eq_true', Bool.not_eq_false] at hvalid
    split at h
    · rename_i hcaller
      obtain rfl := Option.some.inj h
      refine ⟨fun _ _ _ locs hlocs => ?_, fun _ => ⟨rfl, rfl, fun hne => absurd rfl hne⟩⟩
      cases hcaller.symm.trans hlocs
    · rename_i locs hlocs
      split at h
      · rename_i hcallee
        obtain rfl := Option.some.inj h
        refine ⟨fun _ _ hnone => ?_, fun _ => ⟨rfl, rfl, fun hne => absurd rfl hne⟩⟩
        simp [hnone] at hcallee
      · rename_i hcallee
        rw [Option.not_isSome_iff_eq_none] at hcallee
        obtain ⟨name, hname, rfl⟩ := Option.map_eq_some_iff.mp h
        have hiff := nameOf_iff hname
        -- the caller is mapped and the frame is not, so it may be renamed
        constructor
        · intro hren _ _ locs' hlocs'
          obtain rfl := Option.some.inj (hlocs.symm.trans hlocs')
          refine hiff.mp fun hne => ?_
          obtain ⟨-, -, locs', hlocs', hnameOf⟩ := hren.function hne
          obtain rfl := Option.some.inj (hlocs.symm.trans hlocs')
          exact hnameOf
        · intro hfit
          exact ⟨rfl, rfl, fun hne =>
            ⟨hcallee, hvalid, locs, hlocs, hiff.mpr (hfit hvalid hcallee locs hlocs) hne⟩⟩

end Round

/-! ### The whole stack -/

section Stack

variable {E : ResolveEnv} {caller callee callee' : LocationInfo}
  {stack resolved : List LocationInfo}

lemma renamed_cons :
    Renamed E (callee :: stack) (callee' :: caller :: resolved) ↔
      FrameRenamed E caller callee callee' ∧ Renamed E stack (caller :: resolved) := by
  constructor
  · intro h
    refine ⟨⟨(h.place 0 callee callee' rfl rfl).1, (h.place 0 callee callee' rfl rfl).2,
      -- the first frame is renamed by its caller, the others by what the loop did before
      fun hne => ?_⟩, ⟨?_, fun i => h.place (i + 1), fun i => h.function (i + 1)⟩⟩
    · obtain ⟨hnone, caller', locs, hcaller, hvalid, hlocs⟩ :=
        h.function 0 callee callee' rfl rfl hne
      obtain rfl : caller = caller' := by simpa using hcaller
      exact ⟨hnone, hvalid, locs, hlocs⟩
    · simpa using h.length
  · rintro ⟨hframe, h⟩
    refine ⟨by simpa using h.length, fun i => ?_, fun i => ?_⟩
    · cases i with
      | zero =>
          rintro a b ⟨⟩ ⟨⟩
          exact ⟨hframe.file, hframe.line⟩
      | succ i => exact h.place i
    · cases i with
      | zero =>
          rintro a b ⟨⟩ ⟨⟩ hne
          obtain ⟨hnone, hvalid, locs, hlocs, hname⟩ := hframe.function hne
          exact ⟨hnone, caller, locs, rfl, hvalid, hlocs, hname⟩
      | succ i => exact h.function i

lemma comesTo_cons {c x : LocationInfo} (h : resolveStack E stack = some (caller :: resolved)) :
    ComesTo E (callee :: stack) c x ↔ c = caller ∧ x = callee ∨ ComesTo E stack c x := by
  constructor
  · rintro ⟨pre, rest, resolved', hstack, hrest⟩
    cases pre with
    | nil =>
        cases hstack
        cases h.symm.trans hrest
        exact .inl ⟨rfl, rfl⟩
    | cons y pre =>
        cases hstack
        exact .inr ⟨pre, rest, resolved', rfl, hrest⟩
  · rintro (⟨rfl, rfl⟩ | ⟨pre, rest, resolved', rfl, hrest⟩)
    · exact ⟨[], stack, resolved, rfl, h⟩
    · exact ⟨callee :: pre, rest, resolved', rfl, hrest⟩

/-- A round takes no frame away. -/
lemma resolveStack_eq_nil (h : resolveStack E stack = some []) : stack = [] := by
  cases stack with
  | nil => rfl
  | cons callee stack =>
      rw [resolveStack] at h
      split at h <;> simp at h

/-- Over the whole loop: the frames are renamed rightly exactly when every round fits. -/
lemma renamed_iff (h : resolveStack E stack = some resolved) :
    Renamed E stack resolved ↔
      ∀ caller callee, ComesTo E stack caller callee → RoundFits E caller callee := by
  induction stack generalizing resolved with
  | nil =>
      obtain rfl := Option.some.inj h
      refine ⟨fun _ caller callee => ?_, fun _ => ⟨rfl, by simp, by simp⟩⟩
      rintro ⟨pre, rest, resolved', hstack, -⟩
      simp at hstack
  | cons callee stack ih =>
      rw [resolveStack] at h
      split at h
      · cases h
      · rename_i hstack
        obtain rfl := Option.some.inj h
        obtain rfl := resolveStack_eq_nil hstack
        refine ⟨fun _ c x => ?_, fun _ => ⟨rfl, fun i a b ha hb => ?_, fun i a b ha hb hne => ?_⟩⟩
        · rintro ⟨pre, rest, resolved', hpre, hrest⟩
          have hnil : rest = [] := by
            cases pre <;> simp_all
          rw [hnil] at hrest
          cases hrest
        · cases ha.symm.trans hb
          exact ⟨rfl, rfl⟩
        · cases ha.symm.trans hb
          exact absurd rfl hne
      · rename_i caller resolved' hstack
        obtain ⟨callee', hframe, rfl⟩ := Option.map_eq_some_iff.mp h
        -- the round of the first frame comes last
        rw [renamed_cons, frameRenamed_iff hframe, ih hstack]
        simp only [comesTo_cons hstack]
        constructor
        · rintro ⟨hfit, hrest⟩ c x (⟨rfl, rfl⟩ | hcomes)
          · exact hfit
          · exact hrest c x hcomes
        · exact fun hall => ⟨hall caller callee (.inl ⟨rfl, rfl⟩),
            fun c x hcomes => hall c x (.inr hcomes)⟩

end Stack

/-- **Renaming to the traced function**: the event that the resolution leaves has the frames of the
old one, renamed to functions that are called under the traced names, exactly when the names fit in
every round of the loop. -/
theorem resolveLocations_renamed_iff (E : ResolveEnv) {te te' : TraceEvent}
    (h : resolveLocations E te = some te') :
    Renamed E te.callstack te'.callstack ↔
      ∀ caller callee, ComesTo E te.callstack caller callee → RoundFits E caller callee := by
  rw [resolveLocations] at h
  split at h
  · rename_i front stack hstack
    obtain rfl := Option.some.inj h
    exact renamed_iff hstack
  · cases h

/-! ### A primitive under another name

The line of `main` that the trace has under the call of a routine of libc calls `memcpy`. -/

def copyCall : Instr := ⟨InstId.orig 0, .call (.function (FnId.named "memcpy")) []⟩

/-- The module, and the line of `main`; no name is mangled. -/
def copyEnv : ResolveEnv where
  module := ⟨[(FnId.named "main", ⟨[[copyCall, ⟨InstId.orig 1, .other "ret" []⟩]]⟩)], 0⟩
  mapper li := if li = ⟨"main", "main.c", 10⟩ then some [FixLoc.single (InstId.orig 0)] else none
  demangle := id
  demangle_primitive _ _ := rfl

/-- A store whose function is in no debug information. -/
def storeBelowMain (name : String) : TraceEvent :=
  { type := .STORE
    timestamp := 0
    addresses := [⟨4096, 8⟩]
    location := ⟨name, "lib.c", 5⟩
    isBug := false
    callstack := [⟨name, "lib.c", 5⟩, ⟨"main", "main.c", 10⟩]
    state := none }

lemma InstOf.eq_of_single {m : Module} {fl : FixLoc} {c inst : Instr} (h : InstOf m [fl] inst)
    (hfl : fl.insts m = some [c]) : inst = c := by
  obtain ⟨fLoc, hfLoc, insts, hinsts, hmem⟩ := h
  obtain rfl := List.mem_singleton.mp hfLoc
  obtain rfl := Option.some.inj (hfl.symm.trans hinsts)
  exact List.mem_singleton.mp hmem

/-- The frame becomes one of `memcpy`. -/
theorem resolveLocations_renamed_iff_copy :
    ∃ te', resolveLocations copyEnv (storeBelowMain "__memmove_avx_unaligned") = some te' ∧
      te'.callstack = [⟨"memcpy", "lib.c", 5⟩, ⟨"main", "main.c", 10⟩] ∧
      Renamed copyEnv (storeBelowMain "__memmove_avx_unaligned").callstack te'.callstack := by
  have hrun : resolveLocations copyEnv (storeBelowMain "__memmove_avx_unaligned") =
      some { storeBelowMain "__memmove_avx_unaligned" with
        callstack := [⟨"memcpy", "lib.c", 5⟩, ⟨"main", "main.c", 10⟩]
        location := ⟨"memcpy", "lib.c", 5⟩ } := by
    decide
  refine ⟨_, hrun, rfl, (resolveLocations_renamed_iff copyEnv hrun).mpr fun caller callee h => ?_⟩
  have hmain : resolveStack copyEnv [⟨"main", "main.c", 10⟩] = some [⟨"main", "main.c", 10⟩] := rfl
  rcases (comesTo_cons hmain).mp h with ⟨rfl, rfl⟩ | hbelow
  · intro _ _ locs hlocs
    obtain rfl := Option.some.inj hlocs
    refine ⟨fun inst f hinst hf _ => ?_, fun inst hinst _ hnone => ?_⟩
    · obtain rfl := hinst.eq_of_single rfl
      obtain rfl := Option.some.inj hf
      exact .inr (.inr (by decide))
    · obtain rfl := hinst.eq_of_single rfl
      cases hnone
  · -- no frame is above that of `main`
    obtain ⟨pre, rest, resolved, hstack, hrest⟩ := hbelow
    have hlen := congrArg List.length hstack
    simp only [List.length_append, List.length_cons, List.length_nil] at hlen
    obtain rfl : rest = [] := List.length_eq_zero_iff.mp (by omega)
    cases hrest

/-! ### A name within a name

The line of `main` that the trace has under the call of `put` calls `compute`. -/

def computeCall : Instr := ⟨InstId.orig 0, .call (.function (FnId.named "compute")) []⟩

/-- The module, and the line of `main`; no name is mangled. -/
def computeEnv : ResolveEnv where
  module := ⟨[(FnId.named "main", ⟨[[computeCall, ⟨InstId.orig 1, .other "ret" []⟩]]⟩),
    (FnId.named "compute", ⟨[[⟨InstId.orig 2, .other "ret" []⟩]]⟩)], 0⟩
  mapper li := if li = ⟨"main", "main.c", 10⟩ then some [FixLoc.single (InstId.orig 0)] else none
  demangle := id
  demangle_primitive _ _ := rfl

/-- The frame of `put` becomes one of `compute`. -/
theorem computeEnv_not_renamed :
    ∃ te', resolveLocations computeEnv (storeBelowMain "put") = some te' ∧
      te'.callstack = [⟨"compute", "lib.c", 5⟩, ⟨"main", "main.c", 10⟩] ∧
      ¬ Renamed computeEnv (storeBelowMain "put").callstack te'.callstack := by
  refine ⟨{ storeBelowMain "put" with
    callstack := [⟨"compute", "lib.c", 5⟩, ⟨"main", "main.c", 10⟩]
    location := ⟨"compute", "lib.c", 5⟩ }, by decide, rfl, fun h => ?_⟩
  obtain ⟨-, caller, locs, hcaller, -, hlocs, hname⟩ := h.function 0 _ _ rfl rfl (by decide)
  obtain rfl := Option.some.inj hcaller
  obtain rfl := Option.some.inj hlocs
  rcases hname with ⟨inst, f, hinst, hf, -, -, hcalled⟩ | ⟨inst, hinst, -, hnone, -⟩
  · obtain rfl := hinst.eq_of_single rfl
    obtain rfl := Option.some.inj hf
    revert hcalled
    simp only [CalledAs, not_or, imp_false]
    decide
  · obtain rfl := hinst.eq_of_single rfl
    cases hnone

end Hippocrates

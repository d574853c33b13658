import Mathlib.Tactic
import Hippocrates.Lib.Pattern
import Hippocrates.ParseTrace.Numeral
import Hippocrates.Trace.TraceEvent

/-!
`_parse_pmemcheck_stackframe` of `parse-trace`, which reads a stack frame by one of two patterns.

* `Frame`: the frames that pmemcheck prints, with a line of a file or with an object file.
* `parseStackframe_text_iff`: a frame is read back exactly when its names fit (`Frame.Reads`): the
  name of the file has no parenthesis after a blank, from which the pattern would match as well.
-/

namespace Hippocrates.ParseTrace

open Pattern

/-- `.` matches no line break. -/
def isDot (c : Char) : Bool := c != '\n'

section Parse

variable (U : Unicode)

/-- The end of `TRACE_EVENT_RE`, from the name of the function on. -/
def traceEventEnd : Pattern Char :=
  [.group isDot, .word [' ', '('], .group isDot, .word [':'], .group (isDigit U), .word [')']]

/-- `TRACE_EVENT_RE`. -/
def traceEventRe : Pattern Char := .run (isWord U) :: .word [':', ' '] :: traceEventEnd U

/-- `TRACE_IMPRECISE_RE`. -/
def traceImpreciseRe : Pattern Char :=
  [.run (isWord U), .word [':', ' '], .group isDot, .word [' ', '(', 'i', 'n', ' '], .group isDot,
    .word [')']]

/-- `_parse_pmemcheck_stackframe`. -/
def parseStackframe (frame : Text) : Option LocationInfo :=
  match firstMatch (traceEventRe U) frame with
  | some [function, file, line] =>
    (readInt U 10 line).map fun n => ⟨String.ofList function, String.ofList file, n⟩
  | _ =>
    match firstMatch (traceImpreciseRe U) frame with
    | some [function, file] => some ⟨String.ofList function, String.ofList file, -1⟩
    | _ => none

end Parse

/-! ### Frames -/

/-- A nonempty word. -/
structure Word (U : Unicode) where
  text : Text
  ne_nil : text ≠ []
  isWord : ∀ c ∈ text, isWord U c = true

/-- A frame, with its address, the name of the function, and the file and the line or else the
object file. -/
inductive Frame (U : Unicode) where
  | source (addr : Word U) (name file : Text) (line : ℕ)
  | object (addr : Word U) (name obj : Text)

namespace Frame

variable {U : Unicode}

/-- The text after the address. -/
def ending : Frame U → Text
  | source _ name file line =>
    name ++ ' ' :: '(' :: (file ++ ':' :: (Nat.toDigits 10 line ++ [')']))
  | object _ name obj => name ++ ' ' :: '(' :: 'i' :: 'n' :: ' ' :: (obj ++ [')'])

def addr : Frame U → Word U
  | source addr _ _ _ => addr
  | object addr _ _ => addr

/-- The text that pmemcheck prints. -/
def text (f : Frame U) : Text := f.addr.text ++ ':' :: ' ' :: f.ending

/-- The entry of the stack. -/
def entry : Frame U → LocationInfo
  | source _ name file line => ⟨String.ofList name, String.ofList file, line⟩
  | object _ name obj => ⟨String.ofList name, String.ofList obj, -1⟩

/-- The name is not empty and on one line. -/
def NameFits (name : Text) : Prop := name ≠ [] ∧ '\n' ∉ name

/-- The text ends with the word, or does not have it. -/
def OnlyLast (w s : Text) : Prop := ∀ a b, s = a ++ w ++ b → b = []

/-- The names fit the patterns. -/
def Reads : Frame U → Prop
  | source _ name file _ => NameFits name ∧ NameFits file ∧ OnlyLast [' ', '('] file
  | object addr name obj =>
    NameFits name ∧ NameFits obj ∧ OnlyLast [' ', '(', 'i', 'n', ' '] (' ' :: obj) ∧
      ∀ runs, ¬ Matches (traceEventEnd U) (object addr name obj).ending runs

lemma nameFits_iff {name : Text} : NameFits name ↔ name ≠ [] ∧ ∀ c ∈ name, isDot c = true := by
  simp only [NameFits, isDot, bne_iff_ne, ne_eq, and_congr_right_iff]
  exact fun _ => ⟨fun h c hc => by rintro rfl; exact h hc, fun h hc => h _ hc rfl⟩

end Frame

/-! ### Reading a frame -/

section Read

variable {U : Unicode} {name file s : Text} {parts : Pattern Char} {runs : List Text} {line : ℕ}

/-- A name is captured if the rest is matched after it, and nowhere later. -/
lemma firstMatch_name_iff (name : Text) (x : Char) (w s : Text) (parts : Pattern Char)
    (runs : List Text) :
    firstMatch (.group isDot :: .word (x :: w) :: parts) (name ++ x :: (w ++ s)) =
        some (name :: runs) ↔
      Frame.NameFits name ∧ firstMatch parts s = some runs ∧
        ∀ q u, w ++ s = q ++ x :: (w ++ u) → (∀ c ∈ x :: q, isDot c = true) →
          firstMatch parts u = none := by
  rw [firstMatch_group_iff, Frame.nameFits_iff]
  constructor
  · rintro ⟨r, t, runs', hruns, ⟨heq, hne, hr⟩, hmatch, hlong⟩
    obtain ⟨rfl, rfl⟩ := List.cons.inj hruns
    obtain rfl := List.append_cancel_left heq
    rw [← List.cons_append, firstMatch_word] at hmatch
    refine ⟨⟨hne, hr⟩, hmatch, fun q u hq hdot => ?_⟩
    -- a later end of the name is tried first, so the rest must not be matched there
    have hnone := hlong (x :: q) (x :: w ++ u) ⟨by rw [hq]; simp, List.cons_ne_nil x q, hdot⟩
    rwa [firstMatch_word] at hnone
  · rintro ⟨⟨hne, hr⟩, hmatch, hlong⟩
    refine ⟨name, x :: (w ++ s), runs, rfl, ⟨rfl, hne, hr⟩, ?_, ?_⟩
    · rwa [← List.cons_append, firstMatch_word]
    · rintro r t ⟨heq, hne', hr'⟩
      obtain ⟨c, q, rfl⟩ := List.exists_cons_of_ne_nil hne'
      obtain ⟨rfl, hq⟩ := List.cons.inj heq
      rw [Option.eq_none_iff_forall_ne_some]
      intro runs' hmatch'
      obtain ⟨u, rfl, hu⟩ := firstMatch_word_iff.mp hmatch'
      rw [hlong q u hq hr'] at hu
      cases hu

lemma isDigit_of_mem_toDigits {c : Char} (h : c ∈ Nat.toDigits 10 line) : isDigit U c = true :=
  isDigit_of_ascii (Nat.isDigit_of_mem_toDigits (by omega) le_rfl h)

/-- What follows the name of the file has no colon and no blank. -/
lemma not_mem_line {c : Char} (hc : c.isDigit = false) (hne : c ≠ ')') :
    c ∉ Nat.toDigits 10 line ++ [')'] := by
  rw [List.mem_append, List.mem_singleton, not_or]
  refine ⟨fun h => ?_, hne⟩
  simp [Nat.isDigit_of_mem_toDigits (by omega) le_rfl h] at hc

/-- The last colon ends the name of the file. -/
lemma firstMatch_file_iff (U : Unicode) (file : Text) (line : ℕ) (c : Text) :
    firstMatch [.group isDot, .word [':'], .group (isDigit U), .word [')']]
        (file ++ ':' :: (Nat.toDigits 10 line ++ [')'])) = some [file, c] ↔
      Frame.NameFits file ∧ c = Nat.toDigits 10 line := by
  have hdigits : firstMatch [.group (isDigit U), .word [')']] (Nat.toDigits 10 line ++ [')']) =
      some [Nat.toDigits 10 line] := by
    exact firstMatch_group_word (w := [')']) (t := [])
      (fun c hc => isDigit_of_mem_toDigits hc) Nat.toDigits_ne_nil (by simp)
      (by simp [isDigit, decimal])
  have hiff := firstMatch_name_iff file ':' [] (Nat.toDigits 10 line ++ [')'])
    [.group (isDigit U), .word [')']] [c]
  rw [List.nil_append] at hiff
  rw [hiff, hdigits]
  constructor
  · rintro ⟨hfits, hc, -⟩
    exact ⟨hfits, by simpa using hc.symm⟩
  · rintro ⟨hfits, rfl⟩
    refine ⟨hfits, rfl, fun q u heq _ => ?_⟩
    have hmem : ':' ∈ Nat.toDigits 10 line ++ [')'] := by
      rw [heq]
      simp
    exact absurd hmem (not_mem_line (by decide) (by decide))

/-- There is no file without a name. -/
lemma firstMatch_file_nil :
    firstMatch [.group isDot, .word [':'], .group (isDigit U), .word [')']]
      (':' :: (Nat.toDigits 10 line ++ [')'])) = none := by
  rw [Option.eq_none_iff_forall_ne_some]
  intro runs hmatch
  obtain ⟨r, t, runs', -, ⟨heq, hne, -⟩, hword, -⟩ := firstMatch_group_iff.mp hmatch
  obtain ⟨u, rfl, -⟩ := firstMatch_word_iff.mp hword
  obtain ⟨c, r, rfl⟩ := List.exists_cons_of_ne_nil hne
  have hmem : ':' ∈ Nat.toDigits 10 line ++ [')'] := by
    rw [(List.cons.inj heq).2]
    simp
  exact absurd hmem (not_mem_line (by decide) (by decide))

/-- The name of the function ends before the last parenthesis that stands after a blank and can
begin the name of a file. -/
lemma firstMatch_source_iff {c : Text} :
    firstMatch (traceEventEnd U)
        (name ++ ' ' :: '(' :: (file ++ ':' :: (Nat.toDigits 10 line ++ [')']))) =
      some [name, file, c] ↔
      Frame.NameFits name ∧ Frame.NameFits file ∧ Frame.OnlyLast [' ', '('] file ∧
        c = Nat.toDigits 10 line := by
  have hiff := firstMatch_name_iff name ' ' ['('] (file ++ ':' :: (Nat.toDigits 10 line ++ [')']))
    [.group isDot, .word [':'], .group (isDigit U), .word [')']] [file, c]
  rw [List.singleton_append] at hiff
  rw [traceEventEnd, hiff, firstMatch_file_iff]
  constructor
  · rintro ⟨hname, ⟨hfile, rfl⟩, hlong⟩
    refine ⟨hname, hfile, ?_, rfl⟩
    rintro a b rfl
    by_contra hb
    -- behind the later parenthesis the rest is matched as well
    have hdot := (Frame.nameFits_iff.mp hfile).2
    have hnone := hlong ('(' :: a) (b ++ ':' :: (Nat.toDigits 10 line ++ [')'])) (by simp)
      (by simpa [isDot] using fun c hc => hdot c (by simp [hc]))
    have hsome := (firstMatch_file_iff U b line _).mpr
      ⟨Frame.nameFits_iff.mpr ⟨hb, fun c hc => hdot c (by simp [hc])⟩, rfl⟩
    cases hnone.symm.trans hsome
  · rintro ⟨hname, hfile, honly, rfl⟩
    refine ⟨hname, ⟨hfile, rfl⟩, fun q u heq _ => ?_⟩
    -- an end of the name that is tried first lies in the file or in the line
    have hstop : ('(' :: file) ++ ':' :: (Nat.toDigits 10 line ++ [')']) =
        q ++ [' ', '('] ++ u := by
      simpa using heq
    rcases Text.append_eq_append_cons (by decide) hstop with ⟨v, hv, rfl⟩ | ⟨v, hv, -⟩
    · cases q with
      | nil => simp at hv
      | cons d q =>
          obtain rfl := honly q v (List.cons.inj hv).2
          exact firstMatch_file_nil
    · have hmem : ' ' ∈ Nat.toDigits 10 line ++ [')'] := by
        rw [hv]
        simp
      exact absurd hmem (not_mem_line (by decide) (by decide))

/-- The object file is named after the last ` (in ` that stands before a name. -/
lemma firstMatch_object_iff {obj : Text} :
    firstMatch [.group isDot, .word [' ', '(', 'i', 'n', ' '], .group isDot, .word [')']]
        (name ++ ' ' :: '(' :: 'i' :: 'n' :: ' ' :: (obj ++ [')'])) = some [name, obj] ↔
      Frame.NameFits name ∧ Frame.NameFits obj ∧
        Frame.OnlyLast [' ', '(', 'i', 'n', ' '] (' ' :: obj) := by
  have hobj : ∀ s : Text, Frame.NameFits s →
      firstMatch [.group isDot, .word [')']] (s ++ [')']) = some [s] := by
    intro s hs
    refine (firstMatch_name_iff s ')' [] [] [] []).mpr ⟨hs, rfl, fun q u heq _ => ?_⟩
    simp at heq
  have hiff := firstMatch_name_iff name ' ' ['(', 'i', 'n', ' '] (obj ++ [')'])
    [.group isDot, .word [')']] [obj]
  simp only [List.cons_append, List.nil_append] at hiff
  rw [hiff]
  constructor
  · rintro ⟨hname, hmatch, hlong⟩
    have hfits := ((firstMatch_name_iff obj ')' [] [] [] []).mp hmatch).1
    refine ⟨hname, hfits, fun a b hab => ?_⟩
    by_contra hb
    have hdot : ∀ c ∈ ' ' :: obj, isDot c = true := by
      simpa [isDot] using (Frame.nameFits_iff.mp hfits).2
    rw [hab] at hdot
    have hnone := hlong ('(' :: 'i' :: 'n' :: a) (b ++ [')'])
      (by rw [← List.cons_append, hab]; simp)
      (by simpa [isDot] using fun c hc => hdot c (by simp [hc]))
    have hsome := hobj b (Frame.nameFits_iff.mpr ⟨hb, fun c hc => hdot c (by simp [hc])⟩)
    cases hnone.symm.trans hsome
  · rintro ⟨hname, hfits, honly⟩
    refine ⟨hname, hobj obj hfits, fun q u heq _ => ?_⟩
    have hstop : ('(' :: 'i' :: 'n' :: ' ' :: obj) ++ ')' :: [] =
        q ++ [' ', '(', 'i', 'n', ' '] ++ u := by
      simpa using heq
    rcases Text.append_eq_append_cons (by decide) hstop with ⟨v, hv, rfl⟩ | ⟨v, hv, -⟩
    · -- the blank may belong to both occurrences
      match q, hv with
      | _ :: _ :: _ :: a, hv =>
          simp only [List.cons_append, List.cons.injEq] at hv
          obtain rfl := honly a v hv.2.2.2
          rfl
    · simp at hv

/-- The address is passed over. -/
lemma firstMatch_addr (f : Frame U) :
    firstMatch (.run (isWord U) :: .word [':', ' '] :: parts) f.text =
      firstMatch parts f.ending :=
  firstMatch_run_word (w := [':', ' ']) f.addr.isWord f.addr.ne_nil (by simp) (by simp [isWord])

/-- The pattern captures three groups, the last of which are digits. -/
lemma captures_of_traceEventEnd (h : firstMatch (traceEventEnd U) s = some runs) :
    ∃ function file line, runs = [function, file, line] ∧ line ≠ [] ∧
      ∀ c ∈ line, isDigit U c = true := by
  obtain ⟨function, t, runs, rfl, -, h, -⟩ := firstMatch_group_iff.mp h
  obtain ⟨t, rfl, h⟩ := firstMatch_word_iff.mp h
  obtain ⟨file, t, runs, rfl, -, h, -⟩ := firstMatch_group_iff.mp h
  obtain ⟨t, rfl, h⟩ := firstMatch_word_iff.mp h
  obtain ⟨line, t, runs, rfl, ⟨-, hne, hline⟩, h, -⟩ := firstMatch_group_iff.mp h
  obtain ⟨t, rfl, h⟩ := firstMatch_word_iff.mp h
  obtain rfl := Option.some.inj h
  exact ⟨function, file, line, rfl, hne, hline⟩

end Read

/-- **A frame is read back** exactly when its names fit. -/
theorem parseStackframe_text_iff {U : Unicode} (f : Frame U) :
    parseStackframe U f.text = some f.entry ↔ f.Reads := by
  rw [parseStackframe, traceEventRe, traceImpreciseRe, firstMatch_addr, firstMatch_addr]
  cases f with
  | source addr name file line =>
      rw [Frame.ending, Frame.entry, Frame.Reads]
      constructor
      · intro h
        split at h
        · rename_i a b c hmatch
          obtain ⟨n, -, heq⟩ := Option.map_eq_some_iff.mp h
          simp only [LocationInfo.mk.injEq, String.ofList_inj] at heq
          obtain ⟨rfl, rfl, -⟩ := heq
          obtain ⟨hname, hfile, honly, -⟩ := firstMatch_source_iff.mp hmatch
          exact ⟨hname, hfile, honly⟩
        · -- the other pattern gives no line
          split at h
          · have hline := congrArg LocationInfo.line (Option.some.inj h)
            simp at hline
          · cases h
      · rintro ⟨hname, hfile, honly⟩
        rw [firstMatch_source_iff.mpr ⟨hname, hfile, honly, rfl⟩]
        simp [readInt_toDigits]
  | object addr name obj =>
      rw [Frame.entry, Frame.Reads, ← firstMatch_eq_none_iff]
      constructor
      · intro h
        split at h
        · rename_i a b c hmatch
          -- digits make no negative line
          obtain ⟨_, _, _, heq', hne, hdigits⟩ := captures_of_traceEventEnd hmatch
          obtain ⟨rfl, rfl, rfl⟩ : _ ∧ _ ∧ _ := by simpa using heq'
          obtain ⟨n, hn⟩ := exists_readInt hne hdigits
          rw [hn, Option.map_some] at h
          have hneg := congrArg LocationInfo.line (Option.some.inj h)
          simp at hneg
        · rename_i hno
          have hnone : firstMatch (traceEventEnd U) (Frame.object addr name obj).ending = none := by
            rw [Option.eq_none_iff_forall_ne_some]
            intro runs hmatch
            obtain ⟨a, b, c, rfl, -⟩ := captures_of_traceEventEnd hmatch
            exact hno a b c hmatch
          split at h
          · rename_i a b hmatch
            simp only [Option.some.injEq, LocationInfo.mk.injEq, String.ofList_inj] at h
            obtain ⟨rfl, rfl, -⟩ := h
            obtain ⟨hname, hobj, honly⟩ := firstMatch_object_iff.mp hmatch
            exact ⟨hname, hobj, honly, hnone⟩
          · cases h
      · rintro ⟨hname, hobj, honly, hnone⟩
        rw [hnone]
        dsimp only
        rw [Frame.ending, firstMatch_object_iff.mpr ⟨hname, hobj, honly⟩]

/-- The names are parts of the text. -/
lemma infix_of_parseStackframe {U : Unicode} {s : Text} {e : LocationInfo}
    (h : parseStackframe U s = some e) : e.function.toList <:+: s ∧ e.file.toList <:+: s := by
  rw [parseStackframe] at h
  split at h
  · rename_i a b c hmatch
    have hin := (matches_of_firstMatch hmatch).isInfix
    obtain ⟨n, -, rfl⟩ := Option.map_eq_some_iff.mp h
    simp only [String.toList_ofList]
    exact ⟨hin a (by simp), hin b (by simp)⟩
  · split at h
    · rename_i a b hmatch
      have hin := (matches_of_firstMatch hmatch).isInfix
      obtain rfl := Option.some.inj h
      simp only [String.toList_ofList]
      exact ⟨hin a (by simp), hin b (by simp)⟩
    · cases h

end Hippocrates.ParseTrace

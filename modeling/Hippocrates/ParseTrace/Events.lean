import Mathlib.Tactic
import Hippocrates.ParseTrace.StackFrame

/-!
`_parse_pmemcheck_events` of `parse-trace`, which reads the events of one line of a pmemcheck log.

* `events`: the loop over the pieces of the line, `parseEvents` the whole.
* `Operation`: a store, flush or fence as pmemcheck prints it. `decidedByTag_iff`: it is read as
  what its tag says, and the rest of the line after it, exactly when its text fits
  (`Operation.Readable`): the loop looks for the tags in the whole text.
-/

namespace Hippocrates.ParseTrace

open TraceEvent (EventType)

/-- `TraceEvent` of `Reports.py`. The ranges are pairs of an address and a length. -/
structure Event where
  event : EventType
  timestamp : ℕ
  ranges : List (ℤ × ℤ)
  location : LocationInfo
  isBug : Bool
  stack : List LocationInfo
  state : Option Text
deriving DecidableEq

/-- `word in text`. -/
def isIn (word : String) (text : Text) : Bool := decide (word.toList <:+: text)

lemma isIn_iff {word : String} {text : Text} : isIn word text = true ↔ word.toList <:+: text :=
  decide_eq_true_iff

lemma isIn_eq_false_iff {word : String} {text : Text} :
    isIn word text = false ↔ ¬ word.toList <:+: text := decide_eq_false_iff_not

section Parse

variable (U : Unicode)

/-- The frames up to the first that is not read. -/
def readStack : List Text → List LocationInfo
  | [] => []
  | frame :: frames =>
    match parseStackframe U frame with
    | none => []
    | some res => res :: readStack frames

/-- An operation with the ranges given. There has to be a frame. -/
def operationEvent (event : EventType) (timestamp : ℕ) (ranges : List (ℤ × ℤ))
    (frames : List Text) : Option Event :=
  match readStack U frames with
  | [] => none
  | front :: stack => some
    { event, timestamp, ranges, location := front, isBug := false, stack := front :: stack,
      state := none }

/-- The range of a store or a flush. -/
def readRange (address size : Text) : Option (ℤ × ℤ) :=
  (readInt U 16 address).bind fun addr => (readInt U 16 size).map fun sz => (addr, sz)

/-- A fence. -/
def parseFence (event : Text) (timestamp : ℕ) : Option Event :=
  match event.splitOn ';' with
  | [] => none
  | event_type :: frames =>
    if event_type = "FENCE".toList then operationEvent U .FENCE timestamp [] frames
    else none -- 'Error in parsing!'

/-- A store, `[STORE, ADDR, VAL, SZ]`, or a flush, `[FLUSH, ADDR, SZ]`, and the frames. -/
def parseStoreFlush (event : Text) (timestamp : ℕ) : Option Event :=
  match event.splitOn ';' with
  | event_type :: address :: parts =>
    if event_type = "STORE".toList then
      match parts with
      | _ :: size :: frames => (readRange U address size).bind fun range =>
          operationEvent U .STORE timestamp [range] frames
      | _ => none
    else if event_type = "FLUSH".toList then
      match parts with
      | size :: frames => (readRange U address size).bind fun range =>
          operationEvent U .FLUSH timestamp [range] frames
      | _ => none
    else none -- 'Error in parsing!'
  | _ => none

/-- The loop over the events of a line. -/
def events : List Text → ℕ → Option (List Event)
  | [], _ => some []
  | event :: rest, timestamp =>
    if isIn "START" event then events rest timestamp
    else if isIn "STOP" event then some []
    else if isIn "FENCE" event then
      (parseFence U event timestamp).bind fun te =>
        (events rest (timestamp + 1)).map (te :: ·)
    else if isIn "STORE" event || isIn "FLUSH" event then
      (parseStoreFlush U event timestamp).bind fun te =>
        (events rest (timestamp + 1)).map (te :: ·)
    else events rest timestamp -- `'REGISTER_FILE'` passes for true

/-- `_parse_pmemcheck_events`. -/
def parseEvents (line : Text) (timestamp : ℕ) : Option (List Event) :=
  events U ((line.splitOn '|').map strip) timestamp

end Parse

/-! ### Operations as they are printed -/

/-- A text without the separators of events and fields. -/
def Plain (s : Text) : Prop := ';' ∉ s ∧ '|' ∉ s

/-- A field that holds a hexadecimal numeral. -/
structure Numeral (U : Unicode) where
  text : Text
  value : ℤ
  reads : readInt U 16 text = some value
  plain : Plain text

/-- The tag of an event and the fields after it. -/
inductive Head (U : Unicode) where
  | store (address : Numeral U) (value : Text) (plain : Plain value) (size : Numeral U)
  | flush (address size : Numeral U)
  | fence

namespace Head

variable {U : Unicode}

def tag : Head U → String
  | store _ _ _ _ => "STORE"
  | flush _ _ => "FLUSH"
  | fence => "FENCE"

lemma tag_cases (head : Head U) : head.tag = "STORE" ∨ head.tag = "FLUSH" ∨ head.tag = "FENCE" := by
  cases head <;> simp [tag]

def type : Head U → EventType
  | store _ _ _ _ => .STORE
  | flush _ _ => .FLUSH
  | fence => .FENCE

def fields : Head U → List Text
  | store address value _ size => [address.text, value, size.text]
  | flush address size => [address.text, size.text]
  | fence => []

def ranges : Head U → List (ℤ × ℤ)
  | store address _ _ size => [(address.value, size.value)]
  | flush address size => [(address.value, size.value)]
  | fence => []

end Head

/-- A store, flush or fence: its tag, its fields and its frames. -/
structure Operation (U : Unicode) where
  head : Head U
  front : Frame U
  frames : List (Frame U)

namespace Operation

variable {U : Unicode}

def allFrames (op : Operation U) : List (Frame U) := op.front :: op.frames

def parts (op : Operation U) : List Text := op.head.fields ++ op.allFrames.map Frame.text

/-- `TAG;field;...;frame;...;frame`. -/
def text (op : Operation U) : Text := [';'].intercalate (op.head.tag.toList :: op.parts)

/-- The event it stands for. -/
def event (op : Operation U) (timestamp : ℕ) : Event where
  event := op.head.type
  timestamp := timestamp
  ranges := op.head.ranges
  location := op.front.entry
  isBug := false
  stack := op.allFrames.map Frame.entry
  state := none

/-- The operation is read as the event it stands for, and the rest of the line after it. -/
def DecidedByTag (op : Operation U) : Prop :=
  ∀ timestamp, parseEvents U op.text timestamp = some [op.event timestamp] ∧
    ∀ later, parseEvents U (op.text ++ '|' :: later) timestamp =
      (parseEvents U later (timestamp + 1)).map (op.event timestamp :: ·)

/-- The text of the operation fits the loop: it does not have a tag that is tried earlier, its
frames do not have separators, and they are read back. -/
structure Readable (op : Operation U) : Prop where
  start : ¬ "START".toList <:+: op.text
  stop : ¬ "STOP".toList <:+: op.text
  fence : op.head.type ≠ .FENCE → ¬ "FENCE".toList <:+: op.text
  plain : ∀ f ∈ op.allFrames, Plain f.ending
  reads : ∀ f ∈ op.allFrames, f.Reads

end Operation

/-! ### The text of an operation -/

section Text

variable {U : Unicode}

/-- A frame is plain if the names of its entry are. -/
lemma Frame.plain_ending {f : Frame U}
    (h : Plain f.entry.function.toList ∧ Plain f.entry.file.toList) : Plain f.ending := by
  obtain ⟨⟨hname, hname'⟩, hfile, hfile'⟩ := h
  cases f with
  | source addr name file line =>
      simp only [Frame.entry, String.toList_ofList] at hname hname' hfile hfile'
      have hline : ∀ c : Char, c.isDigit = false → c ≠ ')' → c ∉ Nat.toDigits 10 line ++ [')'] :=
        fun c => not_mem_line
      constructor
      · simpa [Frame.ending, hname, hfile] using hline ';' (by decide) (by decide)
      · simpa [Frame.ending, hname', hfile'] using hline '|' (by decide) (by decide)
  | object addr name obj =>
      simp only [Frame.entry, String.toList_ofList] at hname hname' hfile hfile'
      constructor <;> simp [Frame.ending, hname, hname', hfile, hfile']

lemma Frame.plain_text {f : Frame U} (h : Plain f.ending) : Plain f.text := by
  have hword : ∀ c, isWord U c = false → c ∉ f.addr.text := fun c hc hmem => by
    simp [f.addr.isWord c hmem] at hc
  constructor
  · simpa [Frame.text, h.1] using hword ';' (by simp [isWord])
  · simpa [Frame.text, h.2] using hword '|' (by simp [isWord])

/-- A frame ends with its parenthesis. -/
lemma Frame.exists_text (f : Frame U) : ∃ s, f.text = s ++ [')'] := by
  cases f with
  | source addr name file line =>
      exact ⟨addr.text ++ ':' :: ' ' :: (name ++ ' ' :: '(' ::
        (file ++ ':' :: Nat.toDigits 10 line)), by simp [Frame.text, Frame.addr, Frame.ending]⟩
  | object addr name obj =>
      exact ⟨addr.text ++ ':' :: ' ' :: (name ++ ' ' :: '(' :: 'i' :: 'n' :: ' ' :: obj),
        by simp [Frame.text, Frame.addr, Frame.ending]⟩

namespace Operation

variable {op : Operation U}

lemma plain_fields (head : Head U) : ∀ s ∈ head.fields, Plain s := by
  cases head with
  | store address value plain size =>
      simpa [Head.fields] using ⟨address.plain, plain, size.plain⟩
  | flush address size => simpa [Head.fields] using ⟨address.plain, size.plain⟩
  | fence => simp [Head.fields]

lemma plain_tag (head : Head U) : Plain head.tag.toList := by
  rcases head.tag_cases with h | h | h <;> simp [h, Plain]

lemma plain_parts (h : ∀ f ∈ op.allFrames, Plain f.ending) :
    ∀ s ∈ op.head.tag.toList :: op.parts, Plain s := by
  intro s hs
  rcases List.mem_cons.mp hs with rfl | hs
  · exact plain_tag op.head
  rcases List.mem_append.mp hs with hs | hs
  · exact plain_fields op.head s hs
  · obtain ⟨f, hf, rfl⟩ := List.mem_map.mp hs
    exact Frame.plain_text (h f hf)

/-- The fields and frames are split again. -/
lemma splitOn_text (h : ∀ f ∈ op.allFrames, Plain f.ending) :
    op.text.splitOn ';' = op.head.tag.toList :: op.parts :=
  List.splitOn_intercalate ';' (fun s hs => (plain_parts h s hs).1) (List.cons_ne_nil _ _)

lemma parts_ne_nil (op : Operation U) : op.parts ≠ [] := by
  simp [parts, allFrames]

lemma text_eq (op : Operation U) :
    op.text = op.head.tag.toList ++ ';' :: [';'].intercalate op.parts := by
  rw [text, List.intercalate_cons_of_ne_nil (parts_ne_nil op)]
  simp

lemma not_mem_intercalate {c : Char} {l : List Text} (hc : c ≠ ';') (h : ∀ s ∈ l, c ∉ s) :
    c ∉ [';'].intercalate l := by
  induction l with
  | nil => simp
  | cons s l ih =>
      cases l with
      | nil => simpa using h s List.mem_cons_self
      | cons s' l =>
          rw [List.intercalate_cons_cons]
          have hs := h s List.mem_cons_self
          have hl := ih fun s' hs' => h s' (List.mem_cons_of_mem _ hs')
          simp [hs, hl, hc]

lemma bar_not_mem_text (h : ∀ f ∈ op.allFrames, Plain f.ending) : '|' ∉ op.text :=
  not_mem_intercalate (by decide) fun s hs => (plain_parts h s hs).2

/-- The text ends with the parenthesis of the last frame. -/
lemma exists_text (op : Operation U) : ∃ s, op.text = s ++ [')'] := by
  have hlast : ∀ (l : List Text) (s : Text), ∃ t, [';'].intercalate (l ++ [s]) = t ++ s := by
    intro l s
    induction l with
    | nil => exact ⟨[], by simp⟩
    | cons a l ih =>
        obtain ⟨t, ht⟩ := ih
        refine ⟨a ++ ';' :: t, ?_⟩
        rw [List.cons_append, List.intercalate_cons_of_ne_nil (by simp), ht]
        simp
  have hframes := List.dropLast_append_getLast (l := op.allFrames) (List.cons_ne_nil _ _)
  obtain ⟨s, hs⟩ := (op.allFrames.getLast (List.cons_ne_nil _ _)).exists_text
  obtain ⟨t, ht⟩ := hlast
    (op.head.tag.toList :: op.head.fields ++ op.allFrames.dropLast.map Frame.text)
    (op.allFrames.getLast (List.cons_ne_nil _ _)).text
  refine ⟨t ++ s, ?_⟩
  rw [List.append_assoc, ← hs, ← ht, text, parts]
  congr 1
  conv_lhs => rw [← hframes]
  simp

/-- There is no white space at the ends, but for a line break. -/
lemma strip_concat (op : Operation U) {r : Text} (hr : ∀ c ∈ r, isSpace c = true) :
    strip (op.text ++ r) = op.text := by
  obtain ⟨s, hs⟩ := op.exists_text
  have hhead : ∀ c ∈ op.text.head?, isSpace c = false := by
    rw [text_eq]
    rcases op.head.tag_cases with h | h | h <;> simp [h, isSpace]
  exact Text.strip_append (p := isSpace) (l := []) (m := op.text) (by simp) hr (by simp [hs]) hhead
    (by rw [hs]; simp [isSpace])

lemma strip_text (op : Operation U) : strip op.text = op.text := by
  simpa using op.strip_concat (r := []) (by simp)

lemma strip_line (op : Operation U) : strip (op.text ++ ['\n']) = op.text :=
  op.strip_concat (by simp [isSpace])

/-! ### Reading an operation -/

/-- The entries of the frames are read, if each frame is. -/
lemma readStack_map_iff {fs : List (Frame U)} :
    readStack U (fs.map Frame.text) = fs.map Frame.entry ↔ ∀ f ∈ fs, f.Reads := by
  induction fs with
  | nil => simp [readStack]
  | cons f fs ih =>
      rw [List.map_cons, List.map_cons, readStack, List.forall_mem_cons, ← ih,
        ← parseStackframe_text_iff]
      cases parseStackframe U f.text with
      | none => simp
      | some e => simp

/-- Of plain frames, the operation is read if each frame is. -/
lemma operationEvent_eq_iff (timestamp : ℕ) :
    operationEvent U op.head.type timestamp op.head.ranges (op.allFrames.map Frame.text) =
      some (op.event timestamp) ↔ ∀ f ∈ op.allFrames, f.Reads := by
  rw [← readStack_map_iff, operationEvent]
  constructor
  · intro h
    split at h
    · cases h
    · rename_i front stack hstack
      have heq := congrArg Event.stack (Option.some.inj h)
      rw [hstack]
      exact heq
  · intro h
    rw [h]
    rfl

lemma parseFence_text (hf : op.head.type = .FENCE) (h : ∀ f ∈ op.allFrames, Plain f.ending)
    (timestamp : ℕ) : parseFence U op.text timestamp =
      operationEvent U op.head.type timestamp op.head.ranges (op.allFrames.map Frame.text) := by
  rw [parseFence, splitOn_text h, parts]
  cases hhead : op.head with
  | store => simp [hhead, Head.type] at hf
  | flush => simp [hhead, Head.type] at hf
  | fence => simp [Head.tag, Head.type, Head.ranges, Head.fields]

lemma parseStoreFlush_text (hf : op.head.type ≠ .FENCE) (h : ∀ f ∈ op.allFrames, Plain f.ending)
    (timestamp : ℕ) : parseStoreFlush U op.text timestamp =
      operationEvent U op.head.type timestamp op.head.ranges (op.allFrames.map Frame.text) := by
  rw [parseStoreFlush, splitOn_text h, parts]
  cases hhead : op.head with
  | store address value plain size =>
      simp [Head.tag, Head.type, Head.ranges, Head.fields, readRange, address.reads, size.reads]
  | flush address size =>
      simp [Head.tag, Head.type, Head.ranges, Head.fields, readRange, address.reads, size.reads]
  | fence => simp [hhead, Head.type] at hf

lemma tag_isInfix (op : Operation U) : op.head.tag.toList <:+: op.text := by
  rw [text_eq]
  exact (List.prefix_append _ _).isInfix

/-- What the loop does at a piece that has neither start nor stop in it. -/
lemma events_text (hstart : ¬ "START".toList <:+: op.text) (hstop : ¬ "STOP".toList <:+: op.text)
    (rest : List Text) (timestamp : ℕ) :
    events U (op.text :: rest) timestamp =
      ((if op.head.type = .FENCE ∨ "FENCE".toList <:+: op.text then
          parseFence U op.text timestamp
        else parseStoreFlush U op.text timestamp).bind fun te =>
          (events U rest (timestamp + 1)).map (te :: ·)) := by
  have htag := tag_isInfix op
  rw [events, if_neg (mt isIn_iff.mp hstart), if_neg (mt isIn_iff.mp hstop)]
  have hfence : op.head.type = .FENCE → "FENCE".toList <:+: op.text := by
    intro hf
    cases hhead : op.head <;> simp_all [Head.tag, Head.type]
  have hother : op.head.type ≠ .FENCE →
      "STORE".toList <:+: op.text ∨ "FLUSH".toList <:+: op.text := by
    intro hf
    cases hhead : op.head <;> simp_all [Head.tag, Head.type]
  by_cases hf : "FENCE".toList <:+: op.text
  · rw [if_pos (isIn_iff.mpr hf), if_pos (.inr hf)]
  · have hne : op.head.type ≠ .FENCE := fun h => hf (hfence h)
    rw [if_neg (mt isIn_iff.mp hf), if_neg (not_or.mpr ⟨hne, hf⟩),
      if_pos ((Bool.or_eq_true _ _).mpr ((hother hne).imp isIn_iff.mpr isIn_iff.mpr))]

/-- A readable operation is read, and the pieces after it. -/
lemma Readable.events_eq (h : op.Readable) (rest : List Text) (timestamp : ℕ) :
    events U (op.text :: rest) timestamp =
      (events U rest (timestamp + 1)).map (op.event timestamp :: ·) := by
  rw [events_text h.start h.stop]
  by_cases hf : op.head.type = .FENCE
  · rw [if_pos (.inl hf), parseFence_text hf h.plain,
      (operationEvent_eq_iff timestamp).mpr h.reads, Option.bind_some]
  · rw [if_neg (not_or.mpr ⟨hf, h.fence hf⟩), parseStoreFlush_text hf h.plain,
      (operationEvent_eq_iff timestamp).mpr h.reads, Option.bind_some]

/-- The names in the entries of an event stand between two separators. -/
lemma plain_of_operationEvent {type : EventType} {timestamp : ℕ} {ranges : List (ℤ × ℤ)}
    {frames : List Text} {te : Event}
    (h : operationEvent U type timestamp ranges frames = some te) (hplain : ∀ s ∈ frames, Plain s) :
    ∀ e ∈ te.stack, Plain e.function.toList ∧ Plain e.file.toList := by
  -- each entry is read from one of the frames
  have hread : ∀ e ∈ readStack U frames, ∃ s ∈ frames, parseStackframe U s = some e := by
    clear h hplain
    induction frames with
    | nil => simp [readStack]
    | cons s frames ih =>
        intro e he
        rw [readStack] at he
        split at he
        · simp at he
        · rename_i res hres
          rcases List.mem_cons.mp he with rfl | he
          · exact ⟨s, List.mem_cons_self, hres⟩
          · obtain ⟨s', hs', heq⟩ := ih e he
            exact ⟨s', List.mem_cons_of_mem s hs', heq⟩
  have hstack : te.stack = readStack U frames := by
    rw [operationEvent] at h
    split at h
    · cases h
    · rename_i hstack
      obtain rfl := Option.some.inj h
      exact hstack.symm
  intro e he
  rw [hstack] at he
  obtain ⟨s, hs, heq⟩ := hread e he
  obtain ⟨hfun, hfile⟩ := infix_of_parseStackframe heq
  obtain ⟨hsemi, hbar⟩ := hplain s hs
  exact ⟨⟨fun h => hsemi (hfun.subset h), fun h => hbar (hfun.subset h)⟩,
    fun h => hsemi (hfile.subset h), fun h => hbar (hfile.subset h)⟩

/-- The frames of an event are pieces of its text. -/
lemma exists_operationEvent {event : Text} {timestamp : ℕ} {te : Event}
    (h : parseFence U event timestamp = some te ∨ parseStoreFlush U event timestamp = some te) :
    ∃ type ranges frames, operationEvent U type timestamp ranges frames = some te ∧
      ∀ s ∈ frames, s ∈ event.splitOn ';' := by
  rcases h with h | h
  · rw [parseFence] at h
    split at h
    · cases h
    · rename_i event_type frames hsplit
      split at h
      · exact ⟨_, _, frames, h, fun s hs => by rw [hsplit]; exact List.mem_cons_of_mem _ hs⟩
      · cases h
  · rw [parseStoreFlush] at h
    split at h
    · rename_i event_type address parts hsplit
      split at h
      · split at h
        · rename_i size frames
          obtain ⟨range, -, h⟩ := Option.bind_eq_some_iff.mp h
          exact ⟨_, _, frames, h, fun s hs => by rw [hsplit]; simp [hs]⟩
        · cases h
      · split at h
        · split at h
          · rename_i size frames
            obtain ⟨range, -, h⟩ := Option.bind_eq_some_iff.mp h
            exact ⟨_, _, frames, h, fun s hs => by rw [hsplit]; simp [hs]⟩
          · cases h
        · cases h
    · cases h

/-- No event has a separator in a name. -/
lemma plain_of_events {pieces : List Text} {timestamp : ℕ} {tes : List Event}
    (h : events U pieces timestamp = some tes) (hbar : ∀ s ∈ pieces, '|' ∉ s) :
    ∀ te ∈ tes, ∀ e ∈ te.stack, Plain e.function.toList ∧ Plain e.file.toList := by
  induction pieces generalizing timestamp tes with
  | nil =>
      obtain rfl := Option.some.inj h
      simp
  | cons event rest ih =>
      -- an event that is read is one of the pieces, which have no bar in them
      have hrest : ∀ s ∈ rest, '|' ∉ s := fun s hs => hbar s (List.mem_cons_of_mem event hs)
      have hread : ∀ te, (parseFence U event timestamp = some te ∨
          parseStoreFlush U event timestamp = some te) →
          ∀ e ∈ te.stack, Plain e.function.toList ∧ Plain e.file.toList := by
        intro te hte
        obtain ⟨type, ranges, frames, hop, hsplit⟩ := exists_operationEvent hte
        refine plain_of_operationEvent hop fun s hs => ?_
        obtain ⟨hsemi, hin⟩ := Text.mem_splitOn (hsplit s hs)
        exact ⟨hsemi, fun hmem => hbar event List.mem_cons_self (hin.subset hmem)⟩
      rw [events] at h
      split at h
      · exact ih h hrest
      split at h
      · obtain rfl := Option.some.inj h
        simp
      split at h
      · obtain ⟨te, hte, h⟩ := Option.bind_eq_some_iff.mp h
        obtain ⟨tes, htes, rfl⟩ := Option.map_eq_some_iff.mp h
        exact List.forall_mem_cons.mpr ⟨hread te (.inl hte), ih htes hrest⟩
      split at h
      · obtain ⟨te, hte, h⟩ := Option.bind_eq_some_iff.mp h
        obtain ⟨tes, htes, rfl⟩ := Option.map_eq_some_iff.mp h
        exact List.forall_mem_cons.mpr ⟨hread te (.inr hte), ih htes hrest⟩
      · exact ih h hrest

/-- **The tag decides** what an operation is read as exactly when its text fits the loop. -/
theorem decidedByTag_iff (op : Operation U) : op.DecidedByTag ↔ op.Readable := by
  constructor
  · intro h
    have hone := (h 0).1
    -- the entries of the event are plain, so the line is one piece
    have hplain : ∀ f ∈ op.allFrames, Plain f.ending := by
      intro f hf
      refine Frame.plain_ending (plain_of_events hone ?_ _ List.mem_cons_self _
        (List.mem_map_of_mem hf))
      intro s hs
      obtain ⟨piece, hpiece, rfl⟩ := List.mem_map.mp hs
      exact fun hmem => (Text.mem_splitOn hpiece).1 ((Text.strip_isInfix piece).subset hmem)
    have hpieces : (op.text.splitOn '|').map strip = [op.text] := by
      rw [List.splitOn_eq_singleton (bar_not_mem_text hplain), List.map_singleton, strip_text]
    rw [parseEvents, hpieces] at hone
    have hstart : ¬ "START".toList <:+: op.text := by
      intro hin
      rw [events, if_pos (isIn_iff.mpr hin)] at hone
      cases hone
    have hstop : ¬ "STOP".toList <:+: op.text := by
      intro hin
      rw [events, if_neg (mt isIn_iff.mp hstart), if_pos (isIn_iff.mpr hin)] at hone
      cases hone
    rw [events_text hstart hstop] at hone
    have hfence : op.head.type ≠ .FENCE → ¬ "FENCE".toList <:+: op.text := by
      intro hf hin
      rw [if_pos (.inr hin), parseFence, splitOn_text hplain] at hone
      cases hhead : op.head <;> simp_all [Head.tag, Head.type]
    refine ⟨hstart, hstop, hfence, hplain, (operationEvent_eq_iff 0).mp ?_⟩
    obtain ⟨te, hte, hmap⟩ := Option.bind_eq_some_iff.mp hone
    obtain rfl : te = op.event 0 := by simpa [events] using hmap
    by_cases hf : op.head.type = .FENCE
    · rwa [if_pos (.inl hf), parseFence_text hf hplain] at hte
    · rwa [if_neg (not_or.mpr ⟨hf, hfence hf⟩), parseStoreFlush_text hf hplain] at hte
  · intro h timestamp
    have hbar := bar_not_mem_text h.plain
    constructor
    · rw [parseEvents, List.splitOn_eq_singleton hbar, List.map_singleton, strip_text,
        h.events_eq, events, Option.map_some]
    · intro later
      rw [parseEvents, List.splitOn_append_cons_self_of_not_mem hbar, List.map_cons, strip_text,
        h.events_eq, parseEvents]

end Operation

end Text

/-! ### A function that is named like a tag -/

/-- The tables of a program that sees no character beyond ASCII. -/
def asciiOnly : Unicode := ⟨fun _ => false, fun _ => false, fun _ => none⟩

lemma sampleNumeral_reads : readInt asciiOnly 16 "0x1000".toList = some 4096 := by decide

lemma sampleNumeral_plain : Plain "0x1000".toList := by simp [Plain]

lemma sampleAddr_ne_nil : "0x4005BD".toList ≠ [] := by decide

lemma sampleAddr_isWord : ∀ c ∈ "0x4005BD".toList, isWord asciiOnly c = true := by simp [isWord]

/-- A flush in a function of the given name. -/
def flushIn (name : String) : Operation asciiOnly where
  head := .flush ⟨"0x1000".toList, 4096, sampleNumeral_reads, sampleNumeral_plain⟩
    ⟨"0x40".toList, 64, by decide, by simp [Plain]⟩
  front := .source ⟨"0x4005BD".toList, sampleAddr_ne_nil, sampleAddr_isWord⟩ name.toList
    "log.c".toList 12
  frames := []

/-- The flush of `log_RESTART`, and the fence after it, disappear. -/
theorem flushIn_restart_not_decidedByTag :
    parseEvents asciiOnly (flushIn "log_RESTART").text 0 = some [] ∧
      parseEvents asciiOnly
        ((flushIn "NONSTOP").text ++ "|FENCE;0x4005CD: main (log.c:13)".toList) 0 = some [] ∧
      parseEvents asciiOnly (flushIn "DEFENCE").text 0 = none ∧
      ¬ (flushIn "log_RESTART").DecidedByTag := by
  refine ⟨by decide, by decide, by decide, fun h => ?_⟩
  have hone := (h 0).1
  revert hone
  decide

end Hippocrates.ParseTrace

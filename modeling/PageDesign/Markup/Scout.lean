import PageDesign.Markup.Grammar
import PageDesign.Markup.Trail

/-! # Retracing a failed reading

A text that is no markup is gone through a second time, in the order in which
the grammar tries its rules, to find where and why it was refused.  A scout
builds no pieces: it moves a cursor, and it keeps a `Trail` that survives every
attempt, whether it succeeds, fails or is given up.
-/
namespace PageDesign.Markup
open Text

/-- An attempt: it may fail, and either way it leaves the trail it has made. -/
abbrev Scout := OptionT (StateM Trail)

/-- A place in a text: what follows it, and how many characters that is. -/
structure Cursor where
  rest : List Char
  left : Nat

namespace Cursor

/-- The place before a text. -/
def ofText (s : List Char) : Cursor := ⟨s, s.length⟩

/-- A place further on in the text. -/
abbrev Ahead (c : Cursor) := { d : Cursor // d.rest.length < c.rest.length }

/-- A place at the cursor or further on. -/
abbrev From (c : Cursor) := { d : Cursor // d.rest.length ≤ c.rest.length }

/-- The place behind any separators. -/
def skip (c : Cursor) : Cursor :=
  ⟨skipSpace c.rest, c.left - (c.rest.takeWhile isSpace).length⟩

theorem length_skip_le (c : Cursor) : c.skip.rest.length ≤ c.rest.length :=
  length_skipSpace_le c.rest

/-- The place behind `mark`. -/
def mark (c : Cursor) (mark : List Char) (ne : mark ≠ []) : Scout c.Ahead :=
  match h : after? mark c.rest with
  | none => failure
  | some rest => pure ⟨⟨rest, c.left - mark.length⟩, length_lt_of_after? ne h⟩

/-- The place behind a word of characters with the property `p`. -/
def word (c : Cursor) (p : Char → Bool) : Scout c.Ahead :=
  match h : word? p c.rest with
  | none => failure
  | some (word, rest) => pure ⟨⟨rest, c.left - word.length⟩, length_lt_of_word? h⟩

/-- The place behind a quoted value. -/
def value (c : Cursor) : Scout c.Ahead :=
  match h : quoted? c.rest with
  | none => failure
  | some (inner, rest) =>
    have := length_of_quoted? h
    pure ⟨⟨rest, c.left - (inner.length + 2)⟩, by simp only; omega⟩

/-- The place behind a run of text. -/
def run (c : Cursor) : Scout c.Ahead :=
  match h : run? c.rest with
  | none => failure
  | some (text, rest) => pure ⟨⟨rest, c.left - text.length⟩, length_lt_of_run? h⟩

end Cursor

namespace Scout
open Cursor

variable {α : Type}

/-- An attempt at a rule from the place `c`; its failure is marked on the trail. -/
def rule (r : Rule) (c : Cursor) (body : Scout α) : Scout α := do
  let before := (← get).countAt c.left
  body <|> do
    modify fun t => t.refuse r c.left before
    failure

/-- A value behind an equals sign. -/
def assigned (c : Cursor) : Scout c.Ahead := do
  let ⟨d, hd⟩ ← c.mark ['='] (by simp)
  let ⟨e, he⟩ ← rule .quoted d.skip d.skip.value
  pure ⟨e, by have := d.length_skip_le; omega⟩

/-- An attribute: a name, alone or with a quoted value. -/
def attr (c : Cursor) : Scout c.Ahead :=
  rule .attr c do
    let ⟨d, hd⟩ ← rule .attrName c (c.word isNameChar)
    (do let ⟨e, he⟩ ← assigned d.skip
        pure ⟨e, by have := d.length_skip_le; omega⟩) <|>
      pure ⟨d, hd⟩

/-- As many attributes as follow one another. -/
def attributes (c : Cursor) : Scout c.From :=
  have hc := c.length_skip_le
  (do let ⟨d, hd⟩ ← attr c.skip
      let ⟨e, he⟩ ← attributes d
      pure ⟨e, by omega⟩) <|>
    pure ⟨c, Nat.le_refl _⟩
termination_by c.rest.length
decreasing_by omega

/-- A tag that ends in `mark`. -/
def tag (r : Rule) (mark : List Char) (ne : mark ≠ []) (c : Cursor) : Scout c.Ahead :=
  rule r c do
    let ⟨d, hd⟩ ← c.mark ['<'] (by simp)
    let ⟨e, he⟩ ← rule .tagName d.skip (d.skip.word isTagChar)
    let ⟨f, hf⟩ ← attributes e
    let ⟨g, hg⟩ ← f.skip.mark mark ne
    pure ⟨g, by have := d.length_skip_le; have := f.length_skip_le; omega⟩

/-- The tag behind the children. -/
def closing (c : Cursor) : Scout c.Ahead :=
  rule .closeTag c do
    let ⟨d, hd⟩ ← c.mark ['<', '/'] (by simp)
    let ⟨e, he⟩ ← rule .tagName d.skip (d.skip.word isTagChar)
    let ⟨f, hf⟩ ← e.skip.mark ['>'] (by simp)
    pure ⟨f, by have := d.length_skip_le; have := e.length_skip_le; omega⟩

mutual

/-- A tag with all that belongs to it. -/
def element (c : Cursor) : Scout c.Ahead :=
  rule .element c <|
    tag .singleTag ['/', '>'] (by simp) c <|> do
      let ⟨d, hd⟩ ← tag .openTag ['>'] (by simp) c
      let ⟨e, he⟩ ← pieces d
      let ⟨f, hf⟩ ← closing e.skip
      pure ⟨f, by have := e.length_skip_le; omega⟩
termination_by 2 * c.rest.length
decreasing_by omega

/-- As many pieces as follow one another. -/
def pieces (c : Cursor) : Scout c.From :=
  have hc := c.length_skip_le
  (do let ⟨d, hd⟩ ← element c.skip <|> rule .text c.skip c.skip.run
      let ⟨e, he⟩ ← pieces d
      pure ⟨e, by omega⟩) <|>
    pure ⟨c, Nat.le_refl _⟩
termination_by 2 * c.rest.length + 1
decreasing_by all_goals omega

end

/-- Pieces and separators up to the end of the text. -/
def document (c : Cursor) : Scout Unit :=
  rule .document c do
    let ⟨d, _⟩ ← pieces c
    rule .endOfInput d.skip (if d.skip.rest.isEmpty then pure () else failure)

/-- The trail that a reading of the whole text leaves. -/
def retrace (s : List Char) : Trail :=
  ((document (ofText s)).run.run { left := s.length }).2

end Scout
end PageDesign.Markup

/-! # Printing styles

A style says how markup is laid out: on one line without any space between
tags, or with each tag on a line of its own, indented by one unit per level.
-/
namespace PageDesign

/-- How markup is laid out. -/
structure Style where
  /-- What one level of nesting is indented by; two spaces if empty. -/
  indent : String := "  "
  /-- Whether tags stand on lines of their own. -/
  multiline : Bool := true
  deriving Repr, DecidableEq

namespace Style

/-- All on one line. -/
def compact : Style := { multiline := false }

/-- The style that is really followed: an empty unit of indentation gives way
to two spaces. -/
def effective (style : Style) : Style :=
  if style.indent.isEmpty then { style with indent := "  " } else style

@[simp] theorem multiline_effective (style : Style) :
    style.effective.multiline = style.multiline := by
  unfold effective
  split <;> rfl

/-- What a line at nesting depth `depth` begins with. -/
def margin (style : Style) (depth : Nat) : String :=
  if style.multiline then String.join (List.replicate depth style.indent) else ""

/-- What stands between two lines. -/
def lineBreak (style : Style) : String := if style.multiline then "\n" else ""

end Style
end PageDesign

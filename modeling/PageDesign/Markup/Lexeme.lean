import PageDesign.Text.Blank
import PageDesign.Text.Lead

/-! # The words of markup

Four kinds of words make up a markup text: names of tags, names of attributes,
quoted values and runs of plain text.  Each reader here takes the longest word of
its kind from the front of a text and gives the word and what follows; every one
of them moves forward (`length_lt_of_…`).

A `<` ends a run of text only where a tag may begin, that is, before `/` or
before a character of a tag name.  Any other `<` belongs to the run.
-/
namespace PageDesign.Markup
open Text

/-- Whether a character may stand in the name of a tag. -/
def isTagChar (c : Char) : Bool :=
  c.isAlphanum || c == '-' || c == '_' || c == ':' || c == '.'

/-- Whether a character may stand in the name of an attribute. -/
def isNameChar (c : Char) : Bool :=
  !(isSpace c || c == '=' || c == '>' || c == '/' || c == '<' || c == '"' || c == '\'')

/-- The longest word of characters with the property `p`, which must not be
empty, and what follows it. -/
def word? (p : Char → Bool) (s : List Char) : Option (List Char × List Char) :=
  if (s.takeWhile p).isEmpty then none else some (s.takeWhile p, s.dropWhile p)

theorem eq_append_of_word? {p : Char → Bool} {s word rest : List Char}
    (h : word? p s = some (word, rest)) : s = word ++ rest := by
  simp only [word?, Option.ite_none_left_eq_some, Option.some.injEq, Prod.mk.injEq] at h
  obtain ⟨-, rfl, rfl⟩ := h
  exact List.takeWhile_append_dropWhile.symm

theorem ne_nil_of_word? {p : Char → Bool} {s word rest : List Char}
    (h : word? p s = some (word, rest)) : word ≠ [] := by
  simp only [word?, Option.ite_none_left_eq_some, Option.some.injEq, Prod.mk.injEq] at h
  obtain ⟨hne, rfl, -⟩ := h
  simpa using hne

theorem length_lt_of_word? {p : Char → Bool} {s word rest : List Char}
    (h : word? p s = some (word, rest)) : rest.length < s.length := by
  have hne := List.length_pos_iff.mpr (ne_nil_of_word? h)
  rw [eq_append_of_word? h, List.length_append]
  omega

/-- What stands before the next `mark`, and what follows that mark. -/
def upTo? (mark : Char) (s : List Char) : Option (List Char × List Char) :=
  match s.dropWhile (· != mark) with
  | [] => none
  | _ :: rest => some (s.takeWhile (· != mark), rest)

theorem eq_append_of_upTo? {mark : Char} {s inner rest : List Char}
    (h : upTo? mark s = some (inner, rest)) : s = inner ++ mark :: rest := by
  unfold upTo? at h
  split at h
  · simp at h
  · next c r hd =>
    simp only [Option.some.injEq, Prod.mk.injEq] at h
    obtain ⟨rfl, rfl⟩ := h
    have hc : (c != mark) = false := by
      have := List.head?_dropWhile_not (· != mark) s
      simpa [hd] using this
    have hm : c = mark := by simpa using hc
    rw [← hm, ← hd, hm, List.takeWhile_append_dropWhile]

/-- The text between two double or two single quotes, and what follows them. -/
def quoted? : List Char → Option (List Char × List Char)
  | '"' :: s => upTo? '"' s
  | '\'' :: s => upTo? '\'' s
  | _ => none

theorem length_of_quoted? {s inner rest : List Char} (h : quoted? s = some (inner, rest)) :
    s.length = inner.length + rest.length + 2 := by
  unfold quoted? at h
  split at h
  · rw [eq_append_of_upTo? h]; simp; omega
  · rw [eq_append_of_upTo? h]; simp; omega
  · simp at h

/-- Whether a text begins as a tag does. -/
def startsTag : List Char → Bool
  | '<' :: c :: _ => c == '/' || isTagChar c
  | _ => false

/-- The longest run of plain text, and what follows it. -/
def splitRun : List Char → List Char × List Char
  | [] => ([], [])
  | c :: s =>
    if startsTag (c :: s) then ([], c :: s)
    else
      let (run, rest) := splitRun s
      (c :: run, rest)

theorem splitRun_append (s : List Char) : (splitRun s).1 ++ (splitRun s).2 = s := by
  induction s with
  | nil => rfl
  | cons c s ih => by_cases h : startsTag (c :: s) <;> simp [splitRun, h, ih]

/-- A run of plain text, which must not be empty, and what follows it. -/
def run? (s : List Char) : Option (List Char × List Char) :=
  if (splitRun s).1.isEmpty then none else some (splitRun s)

theorem eq_append_of_run? {s run rest : List Char} (h : run? s = some (run, rest)) :
    s = run ++ rest := by
  simp only [run?, Option.ite_none_left_eq_some, Option.some.injEq] at h
  rw [← splitRun_append s, h.2]

theorem length_lt_of_run? {s run rest : List Char} (h : run? s = some (run, rest)) :
    rest.length < s.length := by
  have hs := eq_append_of_run? h
  simp only [run?, Option.ite_none_left_eq_some, Option.some.injEq] at h
  rw [h.2] at h
  have hne := List.length_pos_iff.mpr (by simpa using h.1 : run ≠ [])
  rw [hs, List.length_append]
  omega

/-- What follows a mark is shorter than the text that began with it. -/
theorem length_lt_of_after? {lead s rest : List Char} (hl : lead ≠ [])
    (h : after? lead s = some rest) : rest.length < s.length := by
  have hne := List.length_pos_iff.mpr hl
  rw [after?_eq_some_iff.mp h, List.length_append]
  omega

end PageDesign.Markup

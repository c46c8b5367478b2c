import PageDesign.Markup.Lexeme
import PageDesign.Markup.Piece
import PageDesign.Text.Entity

/-! # Taking markup apart

Separators may stand before every token, and nowhere inside one: `/>` and `</`
are single tokens.  At each place a tag is tried first, then a run of text; a
pair of tags that is never closed is no pair, and the same place is then read as
text if it can be.  Reading is greedy and never goes back over a piece that was
read in full.

`document?` succeeds when the pieces and the separators behind them use up the
whole text.
-/
namespace PageDesign.Markup
open Text

/-- The quoted value behind an equals sign. -/
def assigned? : List Char → Option (List Char × List Char)
  | '=' :: s => quoted? (skipSpace s)
  | _ => none

theorem length_lt_of_assigned? {s inner rest : List Char}
    (h : assigned? s = some (inner, rest)) : rest.length < s.length := by
  unfold assigned? at h
  split at h
  · next s =>
    have hq := length_of_quoted? h
    have hs := length_skipSpace_le s
    simp only [List.length_cons]
    omega
  · simp at h

/-- An attribute: a name, alone or with a quoted value. -/
def attribute? (s : List Char) : Option (Attribute × List Char) :=
  match word? isNameChar s with
  | none => none
  | some (name, rest) =>
    match assigned? (skipSpace rest) with
    | some (raw, rest) =>
      some (⟨String.ofList name, .text (String.ofList (unescape raw))⟩, rest)
    | none => some (⟨String.ofList name, .flag true⟩, rest)

theorem length_lt_of_attribute? {s rest : List Char} {a : Attribute}
    (h : attribute? s = some (a, rest)) : rest.length < s.length := by
  unfold attribute? at h
  split at h
  · simp at h
  · next name r hw =>
    have hl := length_lt_of_word? hw
    split at h
    · next raw r' ha =>
      have hq := length_lt_of_assigned? ha
      have hs := length_skipSpace_le r
      simp only [Option.some.injEq, Prod.mk.injEq] at h
      rw [← h.2]
      omega
    · simp only [Option.some.injEq, Prod.mk.injEq] at h
      rw [← h.2]
      exact hl

/-- As many attributes as follow one another, each behind any separators. -/
def attributes (s : List Char) : List Attribute × List Char :=
  match _h : attribute? (skipSpace s) with
  | none => ([], s)
  | some (a, rest) =>
    let (more, rest) := attributes rest
    (a :: more, rest)
termination_by s.length
decreasing_by exact Nat.lt_of_lt_of_le (length_lt_of_attribute? _h) (length_skipSpace_le s)

theorem attributes_eq (s : List Char) :
    attributes s =
      match attribute? (skipSpace s) with
      | none => ([], s)
      | some (a, rest) => (a :: (attributes rest).1, (attributes rest).2) := by
  rw [attributes]
  split
  · next h => simp [h]
  · next h => simp [h]

theorem length_attributes_le (s : List Char) : (attributes s).2.length ≤ s.length := by
  fun_induction attributes s with
  | case1 => exact Nat.le_refl _
  | case2 s a rest h _ _ hm ih =>
    have hlt := Nat.lt_of_lt_of_le (length_lt_of_attribute? h) (length_skipSpace_le s)
    simp only [hm] at ih ⊢
    omega

/-- The name and the attributes of a tag, with the text behind the separators
that follow them. -/
def heading? : List Char → Option (String × List Attribute × List Char)
  | '<' :: s =>
    match word? isTagChar (skipSpace s) with
    | none => none
    | some (name, rest) =>
      let (attrs, rest) := attributes rest
      some (String.ofList name, attrs, skipSpace rest)
  | _ => none

theorem length_lt_of_heading? {s rest : List Char} {name : String} {attrs : List Attribute}
    (h : heading? s = some (name, attrs, rest)) : rest.length < s.length := by
  unfold heading? at h
  split at h
  · next s =>
    split at h
    · simp at h
    · next w r hw =>
      have h1 := length_lt_of_word? hw
      have h2 := length_skipSpace_le s
      have h3 := length_attributes_le r
      have h4 := length_skipSpace_le (attributes r).2
      simp only [Option.some.injEq, Prod.mk.injEq] at h
      rw [← h.2.2]
      simp only [List.length_cons]
      omega
  · simp at h

/-- A tag that ends in `mark`. -/
def tagUpTo? (mark : List Char) (s : List Char) :
    Option (String × List Attribute × List Char) :=
  match heading? s with
  | none => none
  | some (name, attrs, rest) => (after? mark rest).map fun rest => (name, attrs, rest)

theorem length_lt_of_tagUpTo? {mark s rest : List Char} {name : String} {attrs : List Attribute}
    (h : tagUpTo? mark s = some (name, attrs, rest)) : rest.length < s.length := by
  unfold tagUpTo? at h
  split at h
  · simp at h
  · next n as r hh =>
    have hlt := length_lt_of_heading? hh
    simp only [Option.map_eq_some_iff, Prod.mk.injEq] at h
    obtain ⟨r', ha, -, -, rfl⟩ := h
    rw [after?_eq_some_iff.mp ha, List.length_append] at hlt
    omega

/-- A tag without children. -/
def single? (s : List Char) : Option (String × List Attribute × List Char) :=
  tagUpTo? ['/', '>'] s

/-- The tag before the children. -/
def opening? (s : List Char) : Option (String × List Attribute × List Char) :=
  tagUpTo? ['>'] s

/-- The tag behind the children: its name, and what follows. -/
def closing? (s : List Char) : Option (String × List Char) :=
  match after? ['<', '/'] s with
  | none => none
  | some rest =>
    match word? isTagChar (skipSpace rest) with
    | none => none
    | some (name, rest) =>
      (after? ['>'] (skipSpace rest)).map fun rest => (String.ofList name, rest)

theorem length_lt_of_closing? {s rest : List Char} {name : String}
    (h : closing? s = some (name, rest)) : rest.length < s.length := by
  unfold closing? at h
  split at h
  · simp at h
  · next r ha =>
    have h1 := length_lt_of_after? (by simp) ha
    split at h
    · simp at h
    · next w r' hw =>
      have h2 := length_lt_of_word? hw
      have h3 := length_skipSpace_le r
      have h4 := length_skipSpace_le r'
      simp only [Option.map_eq_some_iff, Prod.mk.injEq] at h
      obtain ⟨r'', hb, -, rfl⟩ := h
      have h5 := length_lt_of_after? (by simp) hb
      omega

mutual

/-- A tag with all that belongs to it, and what follows. -/
def element? (s : List Char) : Option { out : Piece × List Char // out.2.length < s.length } :=
  match h : single? s with
  | some (tag, attrs, rest) => some ⟨(.single tag attrs, rest), length_lt_of_tagUpTo? h⟩
  | none =>
    match ho : opening? s with
    | none => none
    | some (tag, attrs, rest) =>
      have hlt := length_lt_of_tagUpTo? ho
      let ⟨(inner, rest'), hle⟩ := pieces rest
      match hc : closing? (skipSpace rest') with
      | none => none
      | some (closing, rest'') =>
        have h1 := length_lt_of_closing? hc
        have h2 := length_skipSpace_le rest'
        some ⟨(.pair tag attrs inner closing, rest''), by simp only at hle ⊢; omega⟩
termination_by 2 * s.length
decreasing_by omega

/-- As many pieces as follow one another, each behind any separators, and what
follows the last of them. -/
def pieces (s : List Char) : { out : List Piece × List Char // out.2.length ≤ s.length } :=
  have hs := length_skipSpace_le s
  match element? (skipSpace s) with
  | some ⟨(piece, rest), hlt⟩ =>
    have : rest.length < s.length := Nat.lt_of_lt_of_le hlt hs
    let ⟨(more, rest'), hle⟩ := pieces rest
    ⟨(piece :: more, rest'), by simp only at hle ⊢; omega⟩
  | none =>
    match h : run? (skipSpace s) with
    | none => ⟨([], s), Nat.le_refl _⟩
    | some (text, rest) =>
      have : rest.length < s.length := Nat.lt_of_lt_of_le (length_lt_of_run? h) hs
      let ⟨(more, rest'), hle⟩ := pieces rest
      ⟨(.run (String.ofList text) :: more, rest'), by simp only at hle ⊢; omega⟩
termination_by 2 * s.length + 1
decreasing_by all_goals omega

end

/-- One step of `element?`: a single tag, or a pair of tags with pieces between them. -/
theorem element?_eq (s : List Char) :
    (element? s).map Subtype.val =
      match single? s with
      | some (tag, attrs, rest) => some (.single tag attrs, rest)
      | none =>
        match opening? s with
        | none => none
        | some (tag, attrs, rest) =>
          match closing? (skipSpace (pieces rest).1.2) with
          | none => none
          | some (closing, rest') =>
            some (.pair tag attrs (pieces rest).1.1 closing, rest') := by
  rw [element?]
  split
  · next h => simp [h]
  · next h =>
    simp only [h]
    split
    · next h => simp [h]
    · next tag attrs rest ho =>
      simp only [ho]
      split
      · next h => simp [h]
      · next h => simp [h]

/-- One step of `pieces`: a tag with all that belongs to it, else a run of text, else the
end. -/
theorem pieces_eq (s : List Char) :
    (pieces s).1 =
      match (element? (skipSpace s)).map Subtype.val with
      | some (piece, rest) => (piece :: (pieces rest).1.1, (pieces rest).1.2)
      | none =>
        match run? (skipSpace s) with
        | none => ([], s)
        | some (text, rest) =>
          (.run (String.ofList text) :: (pieces rest).1.1, (pieces rest).1.2) := by
  rw [pieces]
  split
  · next h => simp [h]
  · next h =>
    simp only [h, Option.map_none]
    split
    · next h => simp [h]
    · next h => simp [h]

/-- The pieces of a text that consists of nothing else. -/
def document? (s : List Char) : Option (List Piece) :=
  let ⟨(found, rest), _⟩ := pieces s
  if (skipSpace rest).isEmpty then some found else none

end PageDesign.Markup

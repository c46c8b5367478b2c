import PageDesign.Markup.Reader
import PageDesign.Proofs.Markup.Word

/-! # What a reading makes of a text

Reading a text takes as many pieces from its front as there are.  Three things about
the result matter: the nodes that the pieces stand for, the pairs of tags among them,
and what is left behind them (`Reading`).  `Step` lists the ways in which a reading can
go on, each with what it contributes to the three; everything about readings is proved
from it, by induction on the length of the text.

Only what stands behind the leading separators matters, and a blank gap before a tag
or the end leaves no trace (`reading_gap`).
-/
namespace PageDesign.Markup
open Text

/-- What the reading of a text amounts to. -/
structure Reading where
  nodes : List Node
  pairs : List Tags
  /-- What follows the last piece and the separators behind it. -/
  left : List Char

/-- The reading of a text. -/
def reading (s : List Char) : Reading where
  nodes := Piece.nodesOf (pieces s).1.1
  pairs := Piece.pairsOf (pieces s).1.1
  left := skipSpace (pieces s).1.2

/-- The reading with more nodes in front, from pieces without pairs of tags. -/
def Reading.prepend (r : Reading) (nodes : List Node) : Reading :=
  { r with nodes := nodes ++ r.nodes }

/-- The reading with a pair of tags in front, between which `inner` was read. -/
def Reading.pair (r : Reading) (tags : Tags) (attributes : List Attribute) (inner : Reading) :
    Reading where
  nodes := .element { tag := tags.opening, attributes } inner.nodes :: r.nodes
  pairs := inner.pairs ++ tags :: r.pairs
  left := r.left

/-- How the reading of a text goes on. -/
inductive Step (s : List Char) : Prop where
  | stop (he : element? (skipSpace s) = none) (hr : run? (skipSpace s) = none)
      (h : reading s = ⟨[], [], skipSpace s⟩)
  | run (text rest : List Char) (he : element? (skipSpace s) = none)
      (hr : run? (skipSpace s) = some (text, rest)) (hl : rest.length < s.length)
      (h : reading s = (reading rest).prepend (textNodes (String.ofList text)))
  | single (tag : String) (attributes : List Attribute) (rest : List Char)
      (hs : single? (skipSpace s) = some (tag, attributes, rest)) (hl : rest.length < s.length)
      (h : reading s =
        (reading rest).prepend [.element { tag, attributes, selfClosing := true } []])
  | pair (tags : Tags) (attributes : List Attribute) (inner rest : List Char)
      (hs : single? (skipSpace s) = none)
      (ho : opening? (skipSpace s) = some (tags.opening, attributes, inner))
      (hc : closing? (reading inner).left = some (tags.closing, rest))
      (hi : inner.length < s.length) (hl : rest.length < s.length)
      (h : reading s = (reading rest).pair tags attributes (reading inner))

theorem pieces_of_element? {s rest : List Char} {piece : Piece}
    (h : (element? (skipSpace s)).map Subtype.val = some (piece, rest)) :
    (pieces s).1 = (piece :: (pieces rest).1.1, (pieces rest).1.2) := by
  rw [pieces_eq, h]

theorem length_left_le (s : List Char) : (reading s).left.length ≤ s.length :=
  Nat.le_trans (length_skipSpace_le _) (pieces s).2

theorem reading_single {s rest : List Char} {tag : String} {attributes : List Attribute}
    (h : single? (skipSpace s) = some (tag, attributes, rest)) :
    reading s =
      (reading rest).prepend [.element { tag, attributes, selfClosing := true } []] := by
  have he : (element? (skipSpace s)).map Subtype.val = some (.single tag attributes, rest) := by
    rw [element?_eq, h]
  unfold reading
  rw [pieces_of_element? he]
  rfl

theorem reading_pair {s inner rest : List Char} (tags : Tags) {attributes : List Attribute}
    (hs : single? (skipSpace s) = none)
    (ho : opening? (skipSpace s) = some (tags.opening, attributes, inner))
    (hc : closing? (reading inner).left = some (tags.closing, rest)) :
    reading s = (reading rest).pair tags attributes (reading inner) := by
  have he : (element? (skipSpace s)).map Subtype.val =
      some (.pair tags.opening attributes (pieces inner).1.1 tags.closing, rest) := by
    rw [element?_eq, hs, ho]
    simp only
    rw [show closing? (skipSpace (pieces inner).1.2) = some (tags.closing, rest) from hc]
  unfold reading
  rw [pieces_of_element? he]
  simp [Piece.nodesOf, Piece.nodes, Piece.pairsOf, Piece.pairs, Reading.pair]

theorem reading_run {s text rest : List Char} (he : element? (skipSpace s) = none)
    (hr : run? (skipSpace s) = some (text, rest)) :
    reading s = (reading rest).prepend (textNodes (String.ofList text)) := by
  have hp : (pieces s).1 =
      (.run (String.ofList text) :: (pieces rest).1.1, (pieces rest).1.2) := by
    rw [pieces_eq, he, hr]
    rfl
  unfold reading
  rw [hp]
  rfl

theorem reading_stop {s : List Char} (he : element? (skipSpace s) = none)
    (hr : run? (skipSpace s) = none) : reading s = ⟨[], [], skipSpace s⟩ := by
  have hp : (pieces s).1 = ([], s) := by
    rw [pieces_eq, he, hr]
    rfl
  unfold reading
  rw [hp]
  rfl

/-- **Every reading goes on in one of the four ways.** -/
theorem step (s : List Char) : Step s := by
  have hs := length_skipSpace_le s
  -- where no tag can be read with all that belongs to it, a run is tried
  have run_or_stop (he : element? (skipSpace s) = none) : Step s := by
    cases hr : run? (skipSpace s) with
    | none => exact .stop he hr (reading_stop he hr)
    | some out =>
      have hl := length_lt_of_run? hr
      exact .run _ _ he hr (by omega) (reading_run he hr)
  cases h1 : single? (skipSpace s) with
  | some out =>
    have hl := length_lt_of_tagUpTo? h1
    exact .single _ _ _ h1 (by omega) (reading_single h1)
  | none =>
    cases h2 : opening? (skipSpace s) with
    | none => exact run_or_stop (by simpa [h1, h2] using element?_eq (skipSpace s))
    | some out =>
      obtain ⟨tag, attributes, inner⟩ := out
      have hl := length_lt_of_tagUpTo? h2
      have hi := length_left_le inner
      cases h3 : closing? (reading inner).left with
      | none =>
        refine run_or_stop ?_
        have he := element?_eq (skipSpace s)
        rw [h1, h2] at he
        simp only at he
        rw [show closing? (skipSpace (pieces inner).1.2) = none from h3] at he
        simpa using he
      | some out =>
        have hr := length_lt_of_closing? h3
        exact .pair ⟨tag, out.1⟩ attributes inner out.2 h1 h2 h3 (by omega) (by omega)
          (reading_pair ⟨tag, out.1⟩ h1 h2 h3)

/-! ## Gaps -/

/-- A reading begins behind the separators. -/
theorem reading_congr {s t : List Char} (h : skipSpace s = skipSpace t) :
    reading s = reading t := by
  cases step s with
  | stop he hr hs => rw [hs, h, reading_stop (h ▸ he) (h ▸ hr)]
  | run text rest he hr _ hs => exact hs.trans (reading_run (h ▸ he) (h ▸ hr)).symm
  | single tag attributes rest h1 _ hs => exact hs.trans (reading_single (h ▸ h1)).symm
  | pair tags attributes inner rest h1 ho hc _ _ hs =>
    exact hs.trans (reading_pair tags (h ▸ h1) (h ▸ ho) hc).symm

/-- Without the beginning of a tag there is no element. -/
theorem element?_eq_none {s : List Char} (h : heading? s = none) : element? s = none := by
  have he := element?_eq s
  simpa [single?, opening?, tagUpTo?, h] using he

theorem heading?_eq_none_of_ne {c : Char} (h : c ≠ '<') (s : List Char) :
    heading? (c :: s) = none := by
  unfold heading?
  split
  · next he => exact absurd (List.cons.inj he).1 h
  · rfl

/-- A blank character does not begin a tag. -/
theorem heading?_blank {c : Char} {lead : List Char} (h : Blanks (c :: lead)) (s : List Char) :
    heading? (c :: lead ++ s) = none := by
  refine heading?_eq_none_of_ne ?_ _
  rintro rfl
  exact absurd (h '<' (by simp)) (by decide)

/-- **A blank gap before a tag or the end leaves no trace**: separators are skipped,
and what else there is becomes a run without content. -/
theorem reading_gap {gap s : List Char} (hg : Blanks gap) (hs : AtTag s) :
    reading (gap ++ s) = reading s := by
  have hskip := skipSpace_atTag hs
  obtain ⟨lead, hb, h⟩ := skipSpace_gap hg hskip
  -- separators alone are skipped; what else is blank is read as a run
  cases lead with
  | nil => exact reading_congr (h.trans hskip.symm)
  | cons c lead =>
    have he : element? (skipSpace (gap ++ s)) = none := by
      rw [h]
      exact element?_eq_none (heading?_blank hb s)
    have hr : run? (skipSpace (gap ++ s)) = some (c :: lead, s) := by
      rw [h]
      exact run?_append (by simp) (by simpa using noTag_nil.blanks_append hb) hs
    rw [reading_run he hr]
    simp [textNodes, trim_blanks hb, Reading.prepend]

/-! ## Accepted texts -/

/-- What reading a text gives, by what is left over and the first pair of tags that differ. -/
theorem ofMarkup_eq (source : String) : Node.ofMarkup source =
    if (reading source.toList).left = [] then
      match (reading source.toList).pairs.find? fun tags => tags.closing ≠ tags.opening with
      | some tags => .error (.mismatch tags)
      | none => .ok (.root (reading source.toList).nodes)
    else .error (.unreadable (.ofTrail source.toList (Scout.retrace source.toList))) := by
  unfold Node.ofMarkup document?
  by_cases hl : (reading source.toList).left = []
  · have he : (skipSpace (pieces source.toList).1.2).isEmpty = true := by
      rw [List.isEmpty_iff]
      exact hl
    simp only [he, if_true, if_pos hl]
    rfl
  · have he : ¬ (skipSpace (pieces source.toList).1.2).isEmpty = true := by
      rw [List.isEmpty_iff]
      exact hl
    simp [he, hl]

/-- A text is accepted if its reading leaves nothing over and the names in all pairs of
tags agree; the page then holds the nodes that were read. -/
theorem ofMarkup_eq_ok_iff {source : String} {page : Node} :
    Node.ofMarkup source = .ok page ↔
      (reading source.toList).left = [] ∧
        (∀ tags ∈ (reading source.toList).pairs, tags.closing = tags.opening) ∧
        page = .root (reading source.toList).nodes := by
  rw [ofMarkup_eq]
  by_cases hl : (reading source.toList).left = []
  · have hagree : (reading source.toList).pairs.find?
        (fun tags => tags.closing ≠ tags.opening) = none ↔
        ∀ tags ∈ (reading source.toList).pairs, tags.closing = tags.opening := by
      simp [List.find?_eq_none]
    rw [if_pos hl, and_iff_right hl, ← hagree]
    generalize List.find? _ _ = found
    cases found <;> simp [eq_comm]
  · rw [if_neg hl]
    simp [hl]

end PageDesign.Markup

import PageDesign.Proofs.Markup.Reformat
import PageDesign.Proofs.Markup.Spelling

/-! # Brackets in texts

A `<` belongs to the text around it unless a tag begins there.  A run of text goes by the
character behind the `<`, but where a run could begin a tag is tried first, and the name of a
tag may stand apart from its bracket.  So a text that no run would end in (`RunText`) can be
read as something else only by what it begins with: a `<`, separators and a character of a
name (`loose`).

By itself, such a text is lost just where a single tag can be read at its front
(`element?_eq_none_iff`), because there is nothing in it that could close a pair.  Between two
tags it may also begin a pair, which then takes the closing tag away from the pair around it.
Apart from this it is read as it is (`ofMarkup_run_iff`).
-/
namespace PageDesign.Markup
open Text Node

/-- A text between two tags. -/
def between (tag content : String) : String := "<" ++ tag ++ ">" ++ content ++ "</" ++ tag ++ ">"

/-! ## What a reading leaves over -/

theorem AttributeLaid.suffix {a : Attribute} {s rest : List Char} (h : AttributeLaid a s rest) :
    rest <:+ s := by
  cases h with
  | flag name => exact List.suffix_append name.toList rest
  | @text name content quote before behind raw =>
    exact ⟨name.toList ++ (before ++ '=' :: (behind ++ quote :: (raw ++ [quote]))), by simp⟩

theorem AttributesSpelled.suffix {attributes : List Attribute} {s rest : List Char}
    (h : AttributesSpelled attributes s rest) : rest <:+ s := by
  induction h with
  | nil rest => exact List.suffix_rfl
  | cons _ _ ha _ _ ih => exact (ih.trans ha.suffix).trans (List.suffix_append _ _)

theorem TagSpelled.suffix {mark s rest : List Char} {tag : String} {attributes : List Attribute}
    (h : TagSpelled mark tag attributes s rest) : rest <:+ s := by
  cases h with
  | @mk before behind s rest _ _ _ ha =>
    have hrest : rest <:+ s :=
      ((List.suffix_append _ _).trans (List.suffix_append _ _)).trans ha.suffix
    exact ((hrest.trans (List.suffix_append _ _)).trans (List.suffix_append _ _)).trans
      (List.suffix_cons _ _)

theorem ClosingLaid.suffix {tag : String} {s rest : List Char} (h : ClosingLaid tag s rest) :
    rest <:+ s := by
  cases h with
  | @mk before behind =>
    exact ⟨'<' :: '/' :: (before ++ (tag.toList ++ (behind ++ ['>']))), by simp⟩

/-- A reading leaves over what stands at the end of the text, where no run goes on. -/
theorem left_suffix (s : List Char) : (reading s).left <:+ s ∧ AtTag (reading s).left := by
  induction hn : s.length using Nat.strongRecOn generalizing s with
  | ind n ih =>
    have hskip : skipSpace s <:+ s := List.dropWhile_suffix _
    cases step s with
    | stop he hr h =>
      rw [h]
      exact ⟨hskip, atTag_of_run? hr⟩
    | run text rest he hr hl h =>
      rw [h]
      have hrest : rest <:+ skipSpace s := ⟨text, (eq_append_of_run? hr).symm⟩
      obtain ⟨hleft, hat⟩ := ih rest.length (by omega) rest rfl
      exact ⟨(hleft.trans hrest).trans hskip, hat⟩
    | single tag attributes rest hs hl h =>
      rw [h]
      have hrest := (tag_spelled hs).suffix
      obtain ⟨hleft, hat⟩ := ih rest.length (by omega) rest rfl
      exact ⟨(hleft.trans hrest).trans hskip, hat⟩
    | pair tags attributes inner rest hs ho hc hi hl h =>
      rw [h]
      have hinner := (ih inner.length (by omega) inner rfl).1.trans (tag_spelled ho).suffix
      have hrest := (closing_laid hc).suffix.trans hinner
      obtain ⟨hleft, hat⟩ := ih rest.length (by omega) rest rfl
      exact ⟨(hleft.trans hrest).trans hskip, hat⟩

/-- A text in which no tag may begin is used up by its reading. -/
theorem left_eq_nil {s : List Char} (h : NoTag s) : (reading s).left = [] := by
  obtain ⟨⟨front, hfront⟩, hat⟩ := left_suffix s
  rw [← hfront] at h
  cases hl : (reading s).left with
  | nil => rfl
  | cons c rest =>
    rw [hl] at h hat
    have hstarts := hat.resolve_left (List.cons_ne_nil c rest)
    rw [(noTag_cons.mp h.of_append_right).1] at hstarts
    cases hstarts

theorem element?_eq_none_of_tags {s : List Char} (hs : single? s = none)
    (ho : opening? s = none) : element? s = none := by
  have he := element?_eq s
  rw [hs, ho] at he
  exact Option.map_eq_none_iff.mp he

/-- **Where no tag may begin behind the first character, only a single tag can be read.** -/
theorem element?_eq_none_iff {s : List Char} (h : NoTag s) :
    element? s = none ↔ single? s = none := by
  have he := element?_eq s
  cases hs : single? s with
  | some out =>
    rw [hs] at he
    constructor
    · intro hnone
      rw [hnone] at he
      cases he
    · rintro ⟨⟩
  | none =>
    refine iff_of_true ?_ rfl
    rw [hs] at he
    cases ho : opening? s with
    | none => exact element?_eq_none_of_tags hs ho
    | some out =>
      obtain ⟨tag, attributes, inner⟩ := out
      have hinner : NoTag inner := by
        obtain ⟨front, hfront⟩ := (tag_spelled ho).suffix
        rw [← hfront] at h
        exact h.of_append_right
      have hclose : closing? (skipSpace (pieces inner).1.2) = none := by
        rw [show skipSpace (pieces inner).1.2 = [] from left_eq_nil hinner]
        rfl
      simpa [ho, hclose] using he

/-! ## Texts that are read as they are -/

theorem stands_of_reading_text {s : List Char} {content : String} {nodes : List Node}
    (h : (reading s).nodes = .text content :: nodes) : Stands s :=
  stands_of_visible_text (congrArg visibleAll h)

theorem closing_laid_alone (tag : String) : ClosingLaid tag ("</" ++ tag ++ ">").toList [] := by
  simpa [Element.closeTag] using closeTag_laid { tag } []

section Run
variable {content : String} (h : RunText content)
include h

theorem ofMarkup_alone_iff :
    Node.ofMarkup content = .ok (.root [.text content]) ↔ Stands content.toList := by
  constructor
  · intro hread
    obtain ⟨-, -, hpage⟩ := ofMarkup_eq_ok_iff.mp hread
    exact stands_of_reading_text (Node.root.inj hpage).symm
  · intro hs
    have hl : NodesLaid Blanks Stands [.text content] ([] ++ (content.toList ++ [])) [] :=
      .text Blanks.nil (by simpa using hs) (.nil Blanks.nil [])
    exact ofMarkup_of_laid (fun _ => id) (by simpa using hl) ⟨h, by simp, trivial⟩

theorem ofMarkup_between_iff {tag : String} (ht : TagName tag) :
    Node.ofMarkup (between tag content) = .ok (.root [.element { tag } [.text content]]) ↔
      Stands (content ++ "</" ++ tag ++ ">").toList := by
  have hclose := closing_laid_alone tag
  have hopen : TagLaid ['>'] tag [] (between tag content).toList
      (content.toList ++ ("</" ++ tag ++ ">").toList) := by
    have hl : TagLaid ['>'] tag [] _ (content.toList ++ ("</" ++ tag ++ ">").toList) :=
      .mk Spaces.nil (.nil _)
    simpa [between] using hl
  have hplace : (content ++ "</" ++ tag ++ ">").toList =
      content.toList ++ ("</" ++ tag ++ ">").toList := by simp
  rw [hplace]
  constructor
  · intro hread
    obtain ⟨-, -, hpage⟩ := ofMarkup_eq_ok_iff.mp hread
    have hnodes := Node.root.inj hpage
    obtain ⟨closing, rest, -, hpair⟩ := hopen.reading_opening ht (by simp) (by simp [← hnodes])
    rw [hpair] at hnodes
    obtain ⟨hfirst, -⟩ := List.cons.inj hnodes
    exact stands_of_reading_text (Node.element.inj hfirst).2.symm
  · intro hs
    have hinner : NodesLaid Blanks Stands [.text content]
        ([] ++ (content.toList ++ ([] ++ ("</" ++ tag ++ ">").toList)))
        ("</" ++ tag ++ ">").toList := .text Blanks.nil hs (.nil Blanks.nil _)
    have hl := NodesLaid.pair Blanks.nil hopen hinner hclose (.nil Blanks.nil [])
    exact ofMarkup_of_laid (fun _ => id) hl
      ⟨⟨ht, by simp, h, by simp, trivial⟩, by simp, trivial⟩

/-- **A `<` that does not start a tag belongs to the text**, but for the first character of
a text.  By itself, a text in which no `<` stands before `/` or a character of a name is read as
it is if and only if no single tag can be read at its front; between two tags, if and only if
no tag can be read there with all that belongs to it.  Both are so if it does not begin
with a `<`, separators and a character of a name. -/
theorem ofMarkup_run_iff :
    (Node.ofMarkup content = .ok (.root [.text content]) ↔ single? content.toList = none) ∧
    (∀ tag, TagName tag →
      (Node.ofMarkup (between tag content) = .ok (.root [.element { tag } [.text content]]) ↔
        Stands (content ++ "</" ++ tag ++ ">").toList)) ∧
    (loose content.toList = false → Node.ofMarkup content = .ok (.root [.text content]) ∧
      ∀ tag, TagName tag →
        Node.ofMarkup (between tag content) = .ok (.root [.element { tag } [.text content]])) := by
  have hskip : skipSpace content.toList = content.toList := by
    simpa using skipSpace_of_trim_eq h.trimmed h.ne_nil []
  have halone := ofMarkup_alone_iff h
  refine ⟨?_, fun tag ht => ofMarkup_between_iff h ht, fun hloose => ?_⟩
  · rw [halone, Stands, hskip, element?_eq_none_iff h.noTag]
  · have hsafe : SafeText content := ⟨h, hloose⟩
    constructor
    · have hpause : Pause [] := ⟨[], [], Blanks.nil, .inl rfl, rfl⟩
      exact halone.mpr (by simpa using hsafe.stands Blanks.nil hpause)
    · intro tag ht
      have hpause : Pause ("</" ++ tag ++ ">").toList :=
        ⟨[], _, Blanks.nil, .inr (closing_laid_alone tag).startsTag, rfl⟩
      exact (ofMarkup_between_iff h ht).mpr (by simpa using hsafe.stands Blanks.nil hpause)

end Run

/-- A text that begins as a tag does whose name stands apart, but not as a whole one. -/
theorem ofMarkup_run_iff_unclosed :
    RunText "a < b" ∧ RunText "< b" ∧ loose "< b".toList = true ∧
      Node.ofMarkup "a < b" = .ok (.root [.text "a < b"]) ∧
      Node.ofMarkup "< b" = .ok (.root [.text "< b"]) ∧
      Node.ofMarkup "<p>< b</p>" = .ok (.root [.element { tag := "p" } [.text "< b"]]) := by
  have hrun : RunText "< b" := by decide
  have hstands : Stands ("< b" ++ "</" ++ "p" ++ ">").toList := by
    have hs : single? "< b</p>".toList = none := by decide +kernel
    have ho : opening? "< b</p>".toList = none := by decide +kernel
    exact element?_eq_none_of_tags hs ho
  obtain ⟨halone, hbetween, -⟩ := ofMarkup_run_iff hrun
  obtain ⟨-, -, hsafe⟩ := ofMarkup_run_iff (by decide : RunText "a < b")
  exact ⟨by decide, hrun, by decide, (hsafe (by decide)).1, halone.mpr (by decide +kernel),
    (hbetween "p" (by decide)).mpr hstands⟩

/-- **A `<` that does not start a tag does not always belong to the text.** -/
theorem not_ofMarkup_run_loose :
    ¬ ∀ content, RunText content →
      Node.ofMarkup content = .ok (.root [.text content]) ∧
      ∀ tag, TagName tag →
        Node.ofMarkup (between tag content) = .ok (.root [.element { tag } [.text content]]) := by
  intro h
  have hread := (h "< b />" (by decide)).1
  rw [ofMarkup_loose_again] at hread
  cases hread

end PageDesign.Markup

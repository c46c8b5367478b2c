import PageDesign.Proofs.Markup.Proper
import PageDesign.Proofs.Markup.Reading
import PageDesign.Proofs.Markup.Tag

/-! # Layouts of a page

A page has many layouts: its nodes are written in order, any gap may stand before,
between and behind them, and the tags are laid out with any separators.  `NodesLaid`
says of a text that it begins with a layout of some nodes, and of another what follows;
what counts as a gap, and what is asked of the place where a text stands, are left open.

The grammar tries a tag at every place before it tries a run of text, never goes back
over what it has read, and takes as much as it can.  None of this cuts a layout short:
where every text `Stands`, that is, where no tag can be read in its place, a reading gives
back the nodes that were laid out and stops behind them (`reading_of_laid`).  A text that
does not begin as a tag does stands everywhere (`NodesLaid.stands`), so hand-written
templates are read as the pages that they lay out (`ofMarkup_of_layout`).
-/
namespace PageDesign.Markup
open Text Node

/-- Nodes laid out at the front of a text, and what follows them.  Each node stands
behind a gap, and one more gap may stand behind the last. -/
inductive NodesLaid (gap place : List Char → Prop) :
    List Node → List Char → List Char → Prop
  | nil {before : List Char} (hb : gap before) (rest : List Char) :
      NodesLaid gap place [] (before ++ rest) rest
  | text {content : String} {nodes : List Node} {before s rest : List Char} (hb : gap before)
      (ht : place (before ++ (content.toList ++ s))) (hn : NodesLaid gap place nodes s rest) :
      NodesLaid gap place (.text content :: nodes) (before ++ (content.toList ++ s)) rest
  | single {tag : String} {attributes : List Attribute} {nodes : List Node}
      {before s t rest : List Char} (hb : gap before) (ht : TagLaid ['/', '>'] tag attributes s t)
      (hn : NodesLaid gap place nodes t rest) :
      NodesLaid gap place (.element { tag, attributes, selfClosing := true } [] :: nodes)
        (before ++ s) rest
  | pair {tag : String} {attributes : List Attribute} {children nodes : List Node}
      {before s inner behind t rest : List Char} (hb : gap before)
      (ho : TagLaid ['>'] tag attributes s inner)
      (hi : NodesLaid gap place children inner behind) (hc : ClosingLaid tag behind t)
      (hn : NodesLaid gap place nodes t rest) :
      NodesLaid gap place (.element { tag, attributes } children :: nodes) (before ++ s) rest

/-- A layout of a list of nodes: separators are all that stands between them. -/
def Layout (nodes : List Node) (s : List Char) : Prop :=
  NodesLaid Spaces (fun _ => True) nodes s []

/-- A place where no tag can be read, with or without all that belongs to it. -/
def Stands (s : List Char) : Prop := element? (skipSpace s) = none

/-- A place where the nodes of a list can end: the end of the text, or the tag behind
them. -/
def Ends (s : List Char) : Prop := s = [] ∨ ∃ tag rest, ClosingLaid tag s rest

theorem Ends.atTag {s : List Char} (h : Ends s) : AtTag s := by
  rcases h with h | ⟨tag, rest, h⟩
  · exact .inl h
  · exact .inr h.startsTag

/-- Where nodes end, no element begins. -/
theorem Ends.heading? {s : List Char} (h : Ends s) : Markup.heading? s = none := by
  rcases h with rfl | ⟨tag, rest, h⟩
  · rfl
  · exact h.heading?

theorem Ends.reading {s : List Char} (h : Ends s) : Markup.reading s = ⟨[], [], s⟩ := by
  have hs := skipSpace_atTag h.atTag
  have he := element?_eq_none h.heading?
  rw [reading_stop (hs.symm ▸ he) (hs.symm ▸ run?_eq_none h.atTag), hs]

/-- **Where an opening tag was laid out, nothing is read but an element with this tag**, and
what is between its tags is read from behind the tag on. -/
theorem TagLaid.reading_opening {s inner : List Char} {tag : String}
    {attributes : List Attribute} (ho : TagLaid ['>'] tag attributes s inner)
    (htag : TagName tag) (ha : ∀ a ∈ attributes, AttributeName a.name)
    (hne : (Markup.reading s).nodes ≠ []) :
    ∃ closing rest, closing? (Markup.reading inner).left = some (closing, rest) ∧
      Markup.reading s =
        (Markup.reading rest).pair ⟨tag, closing⟩ attributes (Markup.reading inner) := by
  have hat : AtTag s := .inr (ho.startsTag htag)
  obtain ⟨h1, h2⟩ := opening?_of_laid ho htag ha
  rw [← skipSpace_atTag hat] at h1 h2
  cases step s with
  | stop he hr h =>
    rw [h] at hne
    exact absurd rfl hne
  | run text rest he hr hl h =>
    rw [skipSpace_atTag hat, run?_eq_none hat] at hr
    cases hr
  | single tag' attributes' rest hs hl h =>
    rw [h1] at hs
    cases hs
  | pair tags attributes' inner' rest hs ho' hc hi hl h =>
    obtain ⟨rfl, rfl, rfl⟩ : tag = tags.opening ∧ attributes = attributes' ∧ inner = inner' := by
      simpa [h2] using ho'
    exact ⟨tags.closing, rest, hc, h⟩

/-! ## What stands behind a text -/

/-- A place behind a text: a blank gap, and then a tag or the end. -/
def Pause (s : List Char) : Prop := ∃ gap rest, Blanks gap ∧ AtTag rest ∧ s = gap ++ rest

variable {gap place : List Char → Prop}

theorem NodesLaid.pause (hgap : ∀ g, gap g → Blanks g) {p : String → Prop} {nodes : List Node}
    {s rest : List Char} (h : NodesLaid gap place nodes s rest) (hp : ProperAll p nodes)
    (hn : ∀ m ∈ nodes.head?, m.isText = false) (hr : AtTag rest) : Pause s := by
  cases h with
  | nil hb => exact ⟨_, _, hgap _ hb, hr, rfl⟩
  | text => exact absurd (hn _ rfl) (by simp [isText, text?])
  | single hb ht => exact ⟨_, _, hgap _ hb, .inr (ht.startsTag hp.1.1), rfl⟩
  | pair hb ho => exact ⟨_, _, hgap _ hb, .inr (ho.startsTag hp.1.1), rfl⟩

/-- Behind a `<` at the end of a text, no tag goes on. -/
theorem Pause.not_isTagChar {s : List Char} (h : Pause s) :
    ∀ c ∈ (skipSpace s).head?, isTagChar c = false := by
  obtain ⟨gap, rest, hb, hr, rfl⟩ := h
  obtain ⟨lead, hlead, hs⟩ := skipSpace_gap hb (skipSpace_atTag hr)
  intro c hc
  rw [hs] at hc
  cases lead with
  | cons d lead =>
    obtain rfl : d = c := by simpa using hc
    exact isTagChar_of_isBlank (hlead d (by simp))
  | nil =>
    rcases hr with rfl | hr
    · cases hc
    · obtain ⟨d, rest, rfl, -⟩ := startsTag_iff.mp hr
      obtain rfl : '<' = c := by simpa using hc
      decide

/-- Separators at the front of a text that a safe text goes on with are not all of it. -/
theorem exists_skipSpace {text : List Char} (htrim : trim ('<' :: text) = '<' :: text)
    (hne : text ≠ []) : ∃ c rest, skipSpace text = c :: rest := by
  by_contra hnone
  have hnil : skipSpace text = [] := by
    cases h : skipSpace text with
    | nil => rfl
    | cons c rest => exact absurd ⟨c, rest, h⟩ hnone
  have hb : Blanks text := Spaces.blanks (List.dropWhile_eq_nil_iff.mp hnil)
  exact hne (eq_nil_of_trim_eq (s := ['<']) htrim hb)

/-- Behind the `<` that a safe text begins with, the name of a tag does not follow. -/
theorem SafeText.not_isTagChar {content : String} (h : SafeText content) {text : List Char}
    (hc : content.toList = '<' :: text) {s : List Char} (hs : Pause s) :
    ∀ c ∈ (skipSpace (text ++ s)).head?, isTagChar c = false := by
  obtain ⟨⟨-, htrim, hno⟩, hloose⟩ := h
  rw [hc] at htrim hno hloose
  cases text with
  | nil => exact hs.not_isTagChar
  | cons d text =>
    by_cases hd : isSpace d = true
    · -- separators follow, and the text goes on behind them
      obtain ⟨e, rest, he⟩ := exists_skipSpace htrim (List.cons_ne_nil d text)
      have hdrop : (d :: text).dropWhile isSpace = e :: rest := he
      have hskip : skipSpace (d :: text ++ s) = e :: (rest ++ s) := by
        rw [skipSpace, List.dropWhile_append, hdrop]
        rfl
      have hnext : skipSpace text = e :: rest := by
        rwa [skipSpace, List.dropWhile_cons_of_pos hd] at he
      rw [hskip]
      simpa [loose, hd, hnext] using hloose
    · have hn := (noTag_cons.mp hno).1
      rw [startsTag_cons_cons, beq_self_eq_true, Bool.true_and, Bool.or_eq_false_iff] at hn
      rw [List.cons_append, skipSpace_cons (by simpa using hd)]
      simpa using hn.2

/-- A safe text is not the beginning of a tag, whatever pause it stands before. -/
theorem SafeText.heading? {content : String} (h : SafeText content) {s : List Char}
    (hs : Pause s) : Markup.heading? (content.toList ++ s) = none := by
  cases hc : content.toList with
  | nil => exact absurd hc h.ne_nil
  | cons c text =>
    by_cases hlt : c = '<'
    · subst c
      have hhead := h.not_isTagChar hc hs
      unfold Markup.heading?
      simp only [List.cons_append, word?_eq_none hhead]
    · exact heading?_eq_none_of_ne hlt _

theorem SafeText.stands {content : String} (h : SafeText content) {before s : List Char}
    (hb : Blanks before) (hs : Pause s) : Stands (before ++ (content.toList ++ s)) := by
  obtain ⟨lead, hlead, hskip⟩ :=
    skipSpace_gap hb (skipSpace_of_trim_eq h.trimmed h.ne_nil s)
  rw [Stands, hskip]
  refine element?_eq_none ?_
  cases lead with
  | nil => exact h.heading? hs
  | cons c lead => exact heading?_blank hlead _

/-- **In a layout, a safe text stands everywhere.** -/
theorem NodesLaid.stands (hgap : ∀ g, gap g → Blanks g) {nodes : List Node} {s rest : List Char}
    (h : NodesLaid gap place nodes s rest) (hp : ProperAll SafeText nodes) (hr : AtTag rest) :
    NodesLaid gap Stands nodes s rest := by
  induction h with
  | nil hb rest => exact .nil hb rest
  | text hb _ hn ih =>
    obtain ⟨ht, hnext, hp⟩ := hp
    have hpause := hn.pause hgap hp (hnext rfl) hr
    exact .text hb (SafeText.stands ht (hgap _ hb) hpause) (ih hp hr)
  | single hb ht _ ih => exact .single hb ht (ih hp.2.2 hr)
  | pair hb ho _ hc _ ihi ihn =>
    exact .pair hb ho (ihi hp.1.2.2 (.inr hc.startsTag)) hc (ihn hp.2.2 hr)

/-! ## Reading a layout -/

/-- The reading of some nodes, with names that agree in all pairs of tags. -/
def Reads (s : List Char) (nodes : List Node) (rest : List Char) : Prop :=
  ∃ pairs, reading s = ⟨nodes, pairs, rest⟩ ∧ ∀ tags ∈ pairs, tags.closing = tags.opening

/-- A run becomes its text, without the margins. -/
theorem textNodes_pad {content : String} (h : RunText content) {before behind : List Char}
    (hb : Blanks before) (he : Blanks behind) :
    textNodes (String.ofList (before ++ (content.toList ++ behind))) = [.text content] := by
  unfold textNodes
  rw [String.toList_ofList, trim_pad hb h.trimmed h.ne_nil he]
  split
  · next hnil => exact absurd hnil h.ne_nil
  · rw [String.ofList_toList]

/-- The run that a text is read as takes in the blanks on both sides of it. -/
theorem run?_text {content : String} (h : RunText content) {lead gap rest : List Char}
    (hl : Blanks lead) (hg : Blanks gap) (hr : AtTag rest) :
    run? (lead ++ (content.toList ++ (gap ++ rest))) =
      some (lead ++ (content.toList ++ gap), rest) := by
  rw [← List.append_assoc content.toList, ← List.append_assoc]
  exact run?_append (by simp [h.ne_nil]) (.blanks_append hl (h.noTag.append_blanks hg)) hr

theorem reading_text {content : String} (h : RunText content) {before s : List Char}
    (hb : Blanks before) (hs : Pause s) (ht : Stands (before ++ (content.toList ++ s))) :
    reading (before ++ (content.toList ++ s)) = (reading s).prepend [.text content] := by
  obtain ⟨lead, hlead, hskip⟩ :=
    skipSpace_gap hb (skipSpace_of_trim_eq h.trimmed h.ne_nil s)
  obtain ⟨gap, rest, hgap, hrest, rfl⟩ := hs
  have hr := run?_text h hlead hgap hrest
  rw [← hskip] at hr
  rw [reading_run ht hr, reading_gap hgap hrest, textNodes_pad h hlead hgap]

/-- **A layout is read as what it lays out**, provided that no tag can be read where one
of its texts stands. -/
theorem reading_of_laid (hgap : ∀ g, gap g → Blanks g) {nodes : List Node} {s rest : List Char}
    (h : NodesLaid gap Stands nodes s rest) (hp : ProperAll RunText nodes) (hr : Ends rest) :
    Reads s nodes rest := by
  -- by induction on the layout: what comes first is what the reading begins with
  induction h with
  | nil hb rest => exact ⟨[], by rw [reading_gap (hgap _ hb) hr.atTag, hr.reading], by simp⟩
  | text hb ht hn ih =>
    obtain ⟨hc, hnext, hp⟩ := hp
    obtain ⟨pairs, hs, hm⟩ := ih hp hr
    have hpause := hn.pause hgap hp (hnext rfl) hr.atTag
    exact ⟨pairs, by rw [reading_text hc (hgap _ hb) hpause ht, hs]; rfl, hm⟩
  | @single tag attributes nodes before s t rest hb ht hn ih =>
    obtain ⟨⟨htag, ha, -⟩, -, hp⟩ := hp
    obtain ⟨pairs, hs, hm⟩ := ih hp hr
    have hat : AtTag s := .inr (ht.startsTag htag)
    have h1 := single?_of_laid ht htag ha
    rw [← skipSpace_atTag hat] at h1
    exact ⟨pairs, by rw [reading_gap (hgap _ hb) hat, reading_single h1, hs]; rfl, hm⟩
  | @pair tag attributes children nodes before s inner behind t rest hb ho hi hc hn ihi ihn =>
    obtain ⟨⟨htag, ha, hchildren⟩, -, hp⟩ := hp
    obtain ⟨inside, hins, hmi⟩ := ihi hchildren (.inr ⟨tag, t, hc⟩)
    obtain ⟨pairs, hs, hm⟩ := ihn hp hr
    have hat : AtTag s := .inr (ho.startsTag htag)
    obtain ⟨h1, h2⟩ := opening?_of_laid ho htag ha
    rw [← skipSpace_atTag hat] at h1 h2
    have h3 : closing? (reading inner).left = some (tag, t) := by
      rw [hins]
      exact closing?_of_laid hc htag
    refine ⟨inside ++ ⟨tag, tag⟩ :: pairs, ?_, ?_⟩
    · rw [reading_gap (hgap _ hb) hat, reading_pair ⟨tag, tag⟩ h1 h2 h3, hs, hins]
      rfl
    · intro tags htags
      rcases List.mem_append.mp htags with htags | htags
      · exact hmi tags htags
      · rcases List.mem_cons.mp htags with rfl | htags
        · rfl
        · exact hm tags htags

/-! ## Accepted texts -/

/-- A text that is laid out from end to end is accepted, and read as the page that it
lays out. -/
theorem ofMarkup_of_laid (hgap : ∀ g, gap g → Blanks g) {nodes : List Node} {source : String}
    (hl : NodesLaid gap Stands nodes source.toList []) (hp : ProperAll RunText nodes) :
    Node.ofMarkup source = .ok (.root nodes) := by
  obtain ⟨pairs, hr, hpairs⟩ := reading_of_laid hgap hl hp (.inl rfl)
  rw [ofMarkup_eq_ok_iff, hr]
  exact ⟨rfl, hpairs, rfl⟩

/-- **A hand-written template is read as the page that it lays out**, whatever gaps,
quotes and spellings of entities it is written with. -/
theorem ofMarkup_of_layout {nodes : List Node} {source : String} (hp : ProperAll SafeText nodes)
    (hl : Layout nodes source.toList) : Node.ofMarkup source = .ok (.root nodes) := by
  have hgap : ∀ g, Spaces g → Blanks g := fun _ => Spaces.blanks
  have hs := hl.stands hgap hp (.inl rfl)
  exact ofMarkup_of_laid hgap hs (ProperAll.mono (fun _ h => h.toRunText) hp)

/-- A row with both kinds of attributes, separators wherever they may stand, a text and a
single tag. -/
theorem ofMarkup_of_layout_row :
    let row : Element :=
      { tag := "row", attributes := [⟨"a", .text "<\""⟩, ⟨"b", .flag true⟩] }
    let hr : Node := .element { tag := "hr", selfClosing := true } []
    let nodes : List Node := [.element row [.text "a < b", hr]]
    (ProperAll SafeText nodes ∧
        Layout nodes "<row a = '&lt;\"' b\t> a < b <hr/></ row >\n".toList) ∧
      Node.ofMarkup "<row a = '&lt;\"' b\t> a < b <hr/></ row >\n" = .ok (.root nodes) := by
  intro row hr nodes
  have nothing : Spaces [] := by decide
  have space : Spaces [' '] := by decide
  have tab : Spaces ['\t'] := by decide
  have newline : Spaces ['\n'] := by decide
  have hp : ProperAll SafeText nodes :=
    ⟨⟨by decide, by decide, (by decide : SafeText "a < b"), by simp [hr, isText, text?],
      ⟨by decide, by decide, trivial⟩, by simp, trivial⟩, by simp, trivial⟩
  have hclosing : ClosingLaid "row" "</ row >\n".toList "\n".toList := .mk space space _
  have hhr : TagLaid ['/', '>'] "hr" [] "<hr/></ row >\n".toList "</ row >\n".toList :=
    .mk nothing (.nil _)
  have htext : NodesLaid Spaces (fun _ => True) [.text "a < b", hr]
      " a < b <hr/></ row >\n".toList "</ row >\n".toList :=
    .text space trivial (.single space hhr (.nil nothing _))
  have hb : AttributesLaid [⟨"b", .flag true⟩] " b\t> a < b <hr/></ row >\n".toList
      "\t> a < b <hr/></ row >\n".toList :=
    .cons (by decide) space (.flag "b" _) (.nil _)
  have hraw : '\'' ∉ "&lt;\"".toList := by decide
  have hvalue : unescape "&lt;\"".toList = "<\"".toList := by
    simp [unescape, Entity.resolve, Entity.code, Entity.char, after?]
  have hab : AttributesLaid row.attributes " a = '&lt;\"' b\t> a < b <hr/></ row >\n".toList
      "\t> a < b <hr/></ row >\n".toList :=
    .cons (by decide) space (.text space space (.inr rfl) hraw hvalue _) hb
  have hrow : TagLaid ['>'] "row" row.attributes
      "<row a = '&lt;\"' b\t> a < b <hr/></ row >\n".toList
      " a < b <hr/></ row >\n".toList := .mk tab hab
  have hl : Layout nodes "<row a = '&lt;\"' b\t> a < b <hr/></ row >\n".toList :=
    .pair nothing hrow htext hclosing (.nil newline [])
  exact ⟨⟨hp, hl⟩, ofMarkup_of_layout hp hl⟩

end PageDesign.Markup

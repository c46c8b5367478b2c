import PageDesign.Proofs.Markup.Layout

/-! # What a text lays out

A text is a layout of no more than one list of nodes (`NodesLaid.unique`), whether or not
a reading would give these nodes back.  Behind the blank gap in front of a layout (`Front`)
stands what tells the four cases apart: the end, a run of text, a single tag, or the first
tag of a pair; and the readers of runs and tags take from there just what was laid out.
-/
namespace PageDesign.Markup
open Text Node

/-- Nodes laid out without a gap in front of the first. -/
inductive Front (gap place : List Char → Prop) (s rest : List Char) : List Node → Prop
  | stop (hs : s = rest) : Front gap place s rest []
  | text {content : String} {nodes : List Node} {t : List Char} (hs : s = content.toList ++ t)
      (hn : NodesLaid gap place nodes t rest) : Front gap place s rest (.text content :: nodes)
  | single {tag : String} {attributes : List Attribute} {nodes : List Node} {t : List Char}
      (ht : TagLaid ['/', '>'] tag attributes s t) (hn : NodesLaid gap place nodes t rest) :
      Front gap place s rest (.element { tag, attributes, selfClosing := true } [] :: nodes)
  | pair {tag : String} {attributes : List Attribute} {children nodes : List Node}
      {inner behind t : List Char} (ho : TagLaid ['>'] tag attributes s inner)
      (hi : NodesLaid gap place children inner behind) (hc : ClosingLaid tag behind t)
      (hn : NodesLaid gap place nodes t rest) :
      Front gap place s rest (.element { tag, attributes } children :: nodes)

theorem dropBlanks_gap {gap s : List Char} (hg : Blanks gap) (hs : s.dropWhile isBlank = s) :
    (gap ++ s).dropWhile isBlank = s := by
  rw [List.dropWhile_append_of_pos hg, hs]

theorem dropBlanks_atTag {s : List Char} (h : AtTag s) : s.dropWhile isBlank = s := by
  rcases h with rfl | h
  · rfl
  · obtain ⟨c, rest, rfl, -⟩ := startsTag_iff.mp h
    exact List.dropWhile_cons_of_neg (by decide)

theorem RunText.dropBlanks {content : String} (h : RunText content) (s : List Char) :
    (content.toList ++ s).dropWhile isBlank = content.toList ++ s := by
  rw [List.dropWhile_append, dropWhile_of_trim_eq h.trimmed, if_neg (by simpa using h.ne_nil)]

variable {gap place : List Char → Prop} {nodes : List Node} {s rest : List Char}

/-- A layout behind the blanks that it begins with. -/
theorem NodesLaid.front (hgap : ∀ g, gap g → Blanks g) (h : NodesLaid gap place nodes s rest)
    (hp : ProperAll RunText nodes) (hr : Ends rest) :
    Front gap place (s.dropWhile isBlank) rest nodes := by
  cases h with
  | nil hb =>
    rw [dropBlanks_gap (hgap _ hb) (dropBlanks_atTag hr.atTag)]
    exact .stop rfl
  | text hb _ hn =>
    rw [dropBlanks_gap (hgap _ hb) (hp.1.dropBlanks _)]
    exact .text rfl hn
  | single hb ht hn =>
    rw [dropBlanks_gap (hgap _ hb) (dropBlanks_atTag (.inr (ht.startsTag hp.1.1)))]
    exact .single ht hn
  | pair hb ho hi hc hn =>
    rw [dropBlanks_gap (hgap _ hb) (dropBlanks_atTag (.inr (ho.startsTag hp.1.1)))]
    exact .pair ho hi hc hn

/-! ## One case at a time -/

/-- A text and what follows it are known from the run that is read there. -/
theorem text_unique {c d : String} (hc : RunText c) (hd : RunText d) {s t : List Char}
    (hs : Pause s) (ht : Pause t) (h : c.toList ++ s = d.toList ++ t) : c = d ∧ s = t := by
  obtain ⟨gap, rest, hg, hr, rfl⟩ := hs
  obtain ⟨gap', rest', hg', hr', rfl⟩ := ht
  have h1 := run?_text hc Blanks.nil hg hr
  have h2 := run?_text hd Blanks.nil hg' hr'
  simp only [List.nil_append] at h1 h2
  rw [h, h2, Option.some.injEq, Prod.mk.injEq] at h1
  have htrim : trim (c.toList ++ gap) = c.toList := trim_pad Blanks.nil hc.trimmed hc.ne_nil hg
  have htrim' : trim (d.toList ++ gap') = d.toList := trim_pad Blanks.nil hd.trimmed hd.ne_nil hg'
  have hcd : c.toList = d.toList := by rw [← htrim, ← htrim', h1.1]
  rw [hcd] at h
  exact ⟨String.toList_injective hcd, List.append_cancel_left h⟩

/-- Where a text stands, no tag begins and nothing ends. -/
theorem NodesLaid.not_atTag (hgap : ∀ g, gap g → Blanks g) {content : String}
    (h : NodesLaid gap place nodes s rest) (hp : ProperAll RunText (.text content :: nodes))
    (hr : Ends rest) : ¬ AtTag (content.toList ++ s) := by
  obtain ⟨hc, hnext, hp⟩ := hp
  obtain ⟨gap, rest, hg, hr, rfl⟩ := h.pause hgap hp (hnext rfl) hr.atTag
  have hrun := run?_text hc Blanks.nil hg hr
  intro ha
  rw [List.nil_append, run?_eq_none ha] at hrun
  cases hrun

section Tags
variable {mark mark' : List Char} {tag tag' : String} {attributes attributes' : List Attribute}
variable {t t' : List Char} (hm : EndsTag mark) (h : TagLaid mark tag attributes s t)
variable (ht : TagName tag) (ha : ∀ a ∈ attributes, AttributeName a.name)
include hm h ht ha

/-- A tag is known from the name and the attributes that are read there. -/
theorem TagLaid.unique (hm' : EndsTag mark') (h' : TagLaid mark' tag' attributes' s t')
    (ht' : TagName tag') (ha' : ∀ a ∈ attributes', AttributeName a.name) :
    tag = tag' ∧ attributes = attributes' ∧ mark ++ t = mark' ++ t' := by
  have h1 := heading?_of_laid hm h ht ha
  rw [heading?_of_laid hm' h' ht' ha'] at h1
  simpa [eq_comm] using h1

/-- Where a tag begins, nothing ends. -/
theorem TagLaid.not_ends : ¬ Ends s := by
  intro he
  have h1 := heading?_of_laid hm h ht ha
  rw [he.heading?] at h1
  cases h1

end Tags

theorem closing_unique {tag : String} (ht : TagName tag) {s t t' : List Char}
    (h : ClosingLaid tag s t) (h' : ClosingLaid tag s t') : t = t' := by
  have h1 := closing?_of_laid h ht
  rw [closing?_of_laid h' ht] at h1
  simpa [eq_comm] using h1

/-! ## All cases -/

theorem endsTag_single : EndsTag ['/', '>'] := ⟨_, _, rfl, .inr rfl⟩

theorem endsTag_opening : EndsTag ['>'] := ⟨_, _, rfl, .inl rfl⟩

/-- **A text is a layout of no more than one list of nodes.** -/
theorem NodesLaid.unique (hgap : ∀ g, gap g → Blanks g) (h : NodesLaid gap place nodes s rest)
    (hp : ProperAll RunText nodes) (hr : Ends rest) {nodes' : List Node} {rest' : List Char}
    (h' : NodesLaid gap place nodes' s rest') (hp' : ProperAll RunText nodes') (hr' : Ends rest') :
    nodes = nodes' ∧ rest = rest' := by
  -- by induction on one layout; what stands behind the first gap rules out three of the four
  -- ways in which the other can go on there
  induction h generalizing nodes' rest' with
  | nil hb rest =>
    have hf := h'.front hgap hp' hr'
    rw [dropBlanks_gap (hgap _ hb) (dropBlanks_atTag hr.atTag)] at hf
    cases hf with
    | stop hs => exact ⟨rfl, hs⟩
    | text hs hn => exact absurd (hs ▸ hr.atTag) (hn.not_atTag hgap hp' hr')
    | single ht => exact absurd hr (ht.not_ends endsTag_single hp'.1.1 hp'.1.2.1)
    | pair ho => exact absurd hr (ho.not_ends endsTag_opening hp'.1.1 hp'.1.2.1)
  | text hb _ hn ih =>
    have hno := hn.not_atTag hgap hp hr
    obtain ⟨hc, hnext, hp⟩ := hp
    have hpause := hn.pause hgap hp (hnext rfl) hr.atTag
    have hf := h'.front hgap hp' hr'
    rw [dropBlanks_gap (hgap _ hb) (hc.dropBlanks _)] at hf
    cases hf with
    | stop hs => exact absurd (hs ▸ hr'.atTag) hno
    | text hs hn' =>
      obtain ⟨hc', hnext', hp'⟩ := hp'
      have hpause' := hn'.pause hgap hp' (hnext' rfl) hr'.atTag
      obtain ⟨rfl, rfl⟩ := text_unique hc hc' hpause hpause' hs
      obtain ⟨rfl, rfl⟩ := ih hp hr hn' hp' hr'
      exact ⟨rfl, rfl⟩
    | single ht => exact absurd (.inr (ht.startsTag hp'.1.1)) hno
    | pair ho => exact absurd (.inr (ho.startsTag hp'.1.1)) hno
  | single hb ht hn ih =>
    obtain ⟨⟨htag, ha, -⟩, -, hp⟩ := hp
    have hat : AtTag _ := .inr (ht.startsTag htag)
    have hf := h'.front hgap hp' hr'
    rw [dropBlanks_gap (hgap _ hb) (dropBlanks_atTag hat)] at hf
    cases hf with
    | stop hs => exact absurd (hs ▸ hr') (ht.not_ends endsTag_single htag ha)
    | text hs hn' => exact absurd (hs ▸ hat) (hn'.not_atTag hgap hp' hr')
    | single ht' hn' =>
      obtain ⟨⟨htag', ha', -⟩, -, hp'⟩ := hp'
      obtain ⟨rfl, rfl, he⟩ := ht.unique endsTag_single htag ha endsTag_single ht' htag' ha'
      obtain rfl := List.append_cancel_left he
      obtain ⟨rfl, rfl⟩ := ih hp hr hn' hp' hr'
      exact ⟨rfl, rfl⟩
    | pair ho' =>
      obtain ⟨⟨htag', ha', -⟩, -, -⟩ := hp'
      obtain ⟨-, -, he⟩ := ht.unique endsTag_single htag ha endsTag_opening ho' htag' ha'
      simp at he
  | pair hb ho hi hc hn ihi ihn =>
    obtain ⟨⟨htag, ha, hchildren⟩, -, hp⟩ := hp
    have hat : AtTag _ := .inr (ho.startsTag htag)
    have hf := h'.front hgap hp' hr'
    rw [dropBlanks_gap (hgap _ hb) (dropBlanks_atTag hat)] at hf
    cases hf with
    | stop hs => exact absurd (hs ▸ hr') (ho.not_ends endsTag_opening htag ha)
    | text hs hn' => exact absurd (hs ▸ hat) (hn'.not_atTag hgap hp' hr')
    | single ht' =>
      obtain ⟨⟨htag', ha', -⟩, -, -⟩ := hp'
      obtain ⟨-, -, he⟩ := ho.unique endsTag_opening htag ha endsTag_single ht' htag' ha'
      simp at he
    | pair ho' hi' hc' hn' =>
      obtain ⟨⟨htag', ha', hchildren'⟩, -, hp'⟩ := hp'
      obtain ⟨rfl, rfl, he⟩ := ho.unique endsTag_opening htag ha endsTag_opening ho' htag' ha'
      obtain rfl := List.append_cancel_left he
      obtain ⟨rfl, rfl⟩ := ihi hchildren (.inr ⟨_, _, hc⟩) hi' hchildren' (.inr ⟨_, _, hc'⟩)
      obtain rfl := closing_unique htag hc hc'
      obtain ⟨rfl, rfl⟩ := ihn hp hr hn' hp' hr'
      exact ⟨rfl, rfl⟩

end PageDesign.Markup

import PageDesign.Markup.Grammar
import PageDesign.Proofs.Markup.Word

/-! # How a tag may be written

A tag is laid out with any separators between its parts.  The relations below say of
a text that it begins with a layout of something and of another what follows it:
`AttributeLaid` and `AttributesLaid` for attributes, each of a list behind at least one
separator; `TagLaid mark` for a tag that ends in `mark`; `ClosingLaid` for the tag behind
the children.  A value may stand in either kind of quotes, and any spelling of it is
fine that `unescape` resolves to the value.

Reading takes such a tag apart again, whatever the layout (`heading?_of_laid`,
`closing?_of_laid`).
-/
namespace PageDesign.Markup
open Text

/-- An attribute laid out at the front of a text, and what follows it. -/
inductive AttributeLaid : Attribute → List Char → List Char → Prop
  | flag (name : String) (rest : List Char) :
      AttributeLaid ⟨name, .flag true⟩ (name.toList ++ rest) rest
  | text {name content : String} {quote : Char} {before behind raw : List Char}
      (hb : Spaces before) (he : Spaces behind) (hq : quote = '"' ∨ quote = '\'')
      (hr : quote ∉ raw) (hv : unescape raw = content.toList) (rest : List Char) :
      AttributeLaid ⟨name, .text content⟩
        (name.toList ++ (before ++ '=' :: (behind ++ quote :: (raw ++ quote :: rest)))) rest

/-- Attributes laid out at the front of a text, and what follows them. -/
inductive AttributesLaid : List Attribute → List Char → List Char → Prop
  | nil (rest : List Char) : AttributesLaid [] rest rest
  | cons {a : Attribute} {more : List Attribute} {gap s t rest : List Char} (hne : gap ≠ [])
      (hg : Spaces gap) (ha : AttributeLaid a s t) (hm : AttributesLaid more t rest) :
      AttributesLaid (a :: more) (gap ++ s) rest

/-- A tag that ends in `mark` at the front of a text, and what follows it. -/
inductive TagLaid (mark : List Char) (tag : String) (attributes : List Attribute) :
    List Char → List Char → Prop
  | mk {s gap rest : List Char} (hg : Spaces gap)
      (ha : AttributesLaid attributes s (gap ++ (mark ++ rest))) :
      TagLaid mark tag attributes ('<' :: (tag.toList ++ s)) rest

/-- The tag behind the children at the front of a text, and what follows it. -/
inductive ClosingLaid (tag : String) : List Char → List Char → Prop
  | mk {before behind : List Char} (hb : Spaces before) (he : Spaces behind)
      (rest : List Char) :
      ClosingLaid tag ('<' :: '/' :: (before ++ (tag.toList ++ (behind ++ '>' :: rest)))) rest

/-! ## Characters of names -/

theorem isSpace_of_isNameChar {c : Char} (h : isNameChar c = true) : isSpace c = false := by
  simp only [isNameChar, Bool.not_eq_true', Bool.or_eq_false_iff] at h
  exact h.1.1.1.1.1.1

theorem isNameChar_of_isTagChar {c : Char} (h : isTagChar c = true) : isNameChar c = true := by
  by_contra hn
  simp only [isNameChar, Bool.not_eq_true', Bool.not_eq_false, Bool.or_eq_true, beq_iff_eq] at hn
  rcases hn with (((((hn | rfl) | rfl) | rfl) | rfl) | rfl) | rfl
  · rw [isTagChar_of_isBlank (isBlank_of_isSpace hn)] at h
    cases h
  all_goals exact absurd h (by decide)

/-- The first character of a name, which is no separator. -/
theorem AttributeName.cons {name : String} (h : AttributeName name) :
    ∃ c word, name.toList = c :: word ∧ isNameChar c = true ∧ isSpace c = false := by
  obtain ⟨hne, hc⟩ := h
  cases hn : name.toList with
  | nil => exact absurd hn hne
  | cons c word =>
    have hc := hc c (by simp [hn])
    exact ⟨c, word, rfl, hc, isSpace_of_isNameChar hc⟩

theorem TagName.attributeName {tag : String} (h : TagName tag) : AttributeName tag :=
  ⟨h.1, fun c hc => isNameChar_of_isTagChar (h.2 c hc)⟩

/-! ## Attributes -/

/-- A place behind a word of a tag: no name goes on there, and no value follows. -/
def BehindWord (s : List Char) : Prop :=
  (∀ c ∈ s.head?, isNameChar c = false) ∧ ∀ c ∈ (skipSpace s).head?, c ≠ '='

theorem isNameChar_head_gap {gap rest : List Char} {c : Char} (hg : Spaces gap)
    (hc : gap ≠ [] ∨ isNameChar c = false) :
    ∀ d ∈ (gap ++ c :: rest).head?, isNameChar d = false := by
  intro d hd
  cases gap with
  | nil =>
    obtain rfl : c = d := by simpa using hd
    exact hc.resolve_left (by simp)
  | cons e gap =>
    obtain rfl : e = d := by simpa using hd
    have hsp := hg e (by simp)
    by_contra hn
    rw [isSpace_of_isNameChar (by simpa using hn)] at hsp
    cases hsp

theorem behindWord_gap {gap rest : List Char} {c : Char} (hg : Spaces gap)
    (hs : isSpace c = false) (he : c ≠ '=') (hc : gap ≠ [] ∨ isNameChar c = false) :
    BehindWord (gap ++ c :: rest) := by
  refine ⟨isNameChar_head_gap hg hc, ?_⟩
  rw [skipSpace_append hg, skipSpace_cons hs]
  simpa using he

theorem assigned?_eq_none {s : List Char} (h : ∀ c ∈ s.head?, c ≠ '=') : assigned? s = none := by
  unfold assigned?
  split
  · next s => exact absurd rfl (h '=' rfl)
  · rfl

/-- A laid out attribute begins with its name. -/
theorem AttributeLaid.exists_name {a : Attribute} {s rest : List Char}
    (h : AttributeLaid a s rest) : ∃ t, s = a.name.toList ++ t := by
  cases h with
  | flag name => exact ⟨_, rfl⟩
  | text => exact ⟨_, rfl⟩

theorem attribute?_of_laid {a : Attribute} {s rest : List Char} (h : AttributeLaid a s rest)
    (hn : AttributeName a.name) (hr : BehindWord rest) : attribute? s = some (a, rest) := by
  cases h with
  | flag name =>
    unfold attribute?
    rw [word?_append hn.1 hn.2 hr.1]
    simp only [assigned?_eq_none hr.2, String.ofList_toList]
  | @text name content quote before behind raw hb he hq hraw hv =>
    have hquote : isSpace quote = false := by rcases hq with rfl | rfl <;> decide
    unfold attribute?
    rw [word?_append hn.1 hn.2 (isNameChar_head_gap hb (.inr (by decide)))]
    simp only [skipSpace_append hb, skipSpace_cons (show isSpace '=' = false by decide), assigned?,
      skipSpace_append he, skipSpace_cons hquote, quoted?_append hq hraw, hv, String.ofList_toList]

/-- Where attributes are laid out, a word has ended. -/
theorem AttributesLaid.behindWord {attributes : List Attribute} {s rest : List Char}
    (h : AttributesLaid attributes s rest) (hn : ∀ a ∈ attributes, AttributeName a.name)
    (hr : BehindWord rest) : BehindWord s := by
  cases h with
  | nil => exact hr
  | @cons a more gap s t rest hne hg ha hm =>
    obtain ⟨c, word, hname, hc, hs⟩ := (hn a (by simp)).cons
    obtain ⟨t, rfl⟩ := ha.exists_name
    rw [hname, List.cons_append]
    exact behindWord_gap hg hs (by rintro rfl; exact absurd hc (by decide)) (.inl hne)

theorem attributes_of_laid {attributes : List Attribute} {s rest : List Char}
    (h : AttributesLaid attributes s rest) (hn : ∀ a ∈ attributes, AttributeName a.name)
    (hr : BehindWord rest) (hend : attribute? (skipSpace rest) = none) :
    Markup.attributes s = (attributes, rest) := by
  induction h with
  | nil rest => rw [attributes_eq, hend]
  | @cons a more gap s t rest hne hg ha hm ih =>
    have hmore : ∀ b ∈ more, AttributeName b.name := fun b hb => hn b (List.mem_cons_of_mem _ hb)
    have hskip : skipSpace (gap ++ s) = s := by
      obtain ⟨c, word, hname, -, hs⟩ := (hn a (by simp)).cons
      obtain ⟨t, rfl⟩ := ha.exists_name
      rw [skipSpace_append hg, hname, List.cons_append, skipSpace_cons hs]
    rw [attributes_eq, hskip, attribute?_of_laid ha (hn a (by simp)) (hm.behindWord hmore hr)]
    simp only [ih hmore hr hend]

/-! ## Tags -/

/-- Whether a mark begins as the end of a tag does. -/
def EndsTag (mark : List Char) : Prop := ∃ c more, mark = c :: more ∧ (c = '>' ∨ c = '/')

/-- The name of a tag is read behind any separators, to its end. -/
theorem word?_tagName {before rest : List Char} {tag : String} (hb : Spaces before)
    (ht : TagName tag) (hr : ∀ c ∈ rest.head?, isNameChar c = false) :
    word? isTagChar (skipSpace (before ++ (tag.toList ++ rest))) = some (tag.toList, rest) := by
  obtain ⟨c, word, hname, -, hs⟩ := ht.attributeName.cons
  have hskip : skipSpace (tag.toList ++ rest) = tag.toList ++ rest := by
    rw [hname, List.cons_append, skipSpace_cons hs]
  rw [skipSpace_append hb, hskip]
  refine word?_append ht.1 ht.2 fun d hd => ?_
  by_contra hc
  have hn := hr d hd
  rw [isNameChar_of_isTagChar (by simpa using hc)] at hn
  cases hn

theorem heading?_of_laid {mark s rest : List Char} {tag : String} {attributes : List Attribute}
    (hm : EndsTag mark) (h : TagLaid mark tag attributes s rest) (ht : TagName tag)
    (hn : ∀ a ∈ attributes, AttributeName a.name) :
    heading? s = some (tag, attributes, mark ++ rest) := by
  obtain ⟨hg, ha⟩ := h
  obtain ⟨c, more, rfl, hc⟩ := hm
  have hs : isSpace c = false := by rcases hc with rfl | rfl <;> decide
  have hnc : isNameChar c = false := by rcases hc with rfl | rfl <;> decide
  have he : c ≠ '=' := by rcases hc with rfl | rfl <;> decide
  rw [List.cons_append] at ha ⊢
  have hend := @behindWord_gap _ (more ++ rest) _ hg hs he (.inr hnc)
  have hskip := (skipSpace_append hg _).trans (skipSpace_cons hs (more ++ rest))
  have hnone : attribute? (c :: (more ++ rest)) = none := by
    rw [attribute?, word?_eq_none (by simpa using hnc)]
  have hword := word?_tagName Spaces.nil ht (ha.behindWord hn hend).1
  rw [List.nil_append] at hword
  unfold heading?
  simp only [hword, attributes_of_laid ha hn hend (hskip.symm ▸ hnone), hskip,
    String.ofList_toList]

/-- A tag without children is read, whatever its layout. -/
theorem single?_of_laid {s rest : List Char} {tag : String} {attributes : List Attribute}
    (h : TagLaid ['/', '>'] tag attributes s rest) (ht : TagName tag)
    (hn : ∀ a ∈ attributes, AttributeName a.name) :
    single? s = some (tag, attributes, rest) := by
  rw [single?, tagUpTo?, heading?_of_laid ⟨_, _, rfl, .inr rfl⟩ h ht hn]
  rfl

/-- A tag before children is read, whatever its layout, and not as one without. -/
theorem opening?_of_laid {s rest : List Char} {tag : String} {attributes : List Attribute}
    (h : TagLaid ['>'] tag attributes s rest) (ht : TagName tag)
    (hn : ∀ a ∈ attributes, AttributeName a.name) :
    single? s = none ∧ opening? s = some (tag, attributes, rest) := by
  have hh := heading?_of_laid ⟨_, _, rfl, .inl rfl⟩ h ht hn
  constructor
  · rw [single?, tagUpTo?, hh]
    rfl
  · rw [opening?, tagUpTo?, hh]
    rfl

/-- The tag behind the children is read, whatever its layout. -/
theorem closing?_of_laid {s rest : List Char} {tag : String} (h : ClosingLaid tag s rest)
    (ht : TagName tag) : closing? s = some (tag, rest) := by
  obtain ⟨hb, he, rest⟩ := h
  have hnc : isNameChar '>' = false := by decide
  have hword := word?_tagName hb ht (@isNameChar_head_gap _ rest _ he (.inr hnc))
  have hmark := (skipSpace_append he _).trans
    (skipSpace_cons (show isSpace '>' = false by decide) rest)
  unfold closing?
  simp only [after?, if_true, hword, hmark, Option.map_some, String.ofList_toList]

theorem TagLaid.startsTag {mark s rest : List Char} {tag : String} {attributes : List Attribute}
    (h : TagLaid mark tag attributes s rest) (ht : TagName tag) : startsTag s = true := by
  obtain ⟨-, -⟩ := h
  cases hn : tag.toList with
  | nil => exact absurd hn ht.1
  | cons c word =>
    exact startsTag_iff.mpr ⟨c, _, rfl, .inr (ht.2 c (by simp [hn]))⟩

theorem ClosingLaid.startsTag {s rest : List Char} {tag : String} (h : ClosingLaid tag s rest) :
    Markup.startsTag s = true := by
  obtain ⟨-, -, rest⟩ := h
  exact startsTag_iff.mpr ⟨'/', _, rfl, .inl rfl⟩

/-- The tag behind the children is not the beginning of an element. -/
theorem ClosingLaid.heading? {s rest : List Char} {tag : String} (h : ClosingLaid tag s rest) :
    Markup.heading? s = none := by
  obtain ⟨-, -, rest⟩ := h
  unfold Markup.heading?
  simp only [skipSpace_cons (show isSpace '/' = false by decide)]
  rw [word?_eq_none (by simp; decide)]

end PageDesign.Markup

import PageDesign.Markup.Lexeme
import PageDesign.Proofs.Text.Trim

/-! # Reading one word

Each reader of a word takes exactly the word that was put in front, provided that
what follows cannot extend it: a name ends at the first character that is none of
its kind, a quoted value at the next quote, and a run of text where a tag begins or
the text ends (`AtTag`).  A run holds no such place itself (`NoTag`), and blank
characters around a text do not make one.
-/
namespace PageDesign.Markup
open Text

/-- A name that can stand in a tag. -/
def TagName (name : String) : Prop := name.toList ≠ [] ∧ ∀ c ∈ name.toList, isTagChar c = true

/-- A name that an attribute can have. -/
def AttributeName (name : String) : Prop :=
  name.toList ≠ [] ∧ ∀ c ∈ name.toList, isNameChar c = true

/-- A text with no place in it where a tag may begin. -/
def NoTag (s : List Char) : Prop := ∀ rest ∈ s.tails, startsTag rest = false

/-- A place where no run of text goes on: the end, or one where a tag may begin. -/
def AtTag (s : List Char) : Prop := s = [] ∨ startsTag s = true

instance (name : String) : Decidable (TagName name) :=
  have := List.decidableBAll (isTagChar · = true) name.toList
  inferInstanceAs (Decidable (_ ∧ _))

instance (name : String) : Decidable (AttributeName name) :=
  have := List.decidableBAll (isNameChar · = true) name.toList
  inferInstanceAs (Decidable (_ ∧ _))

instance (s : List Char) : Decidable (NoTag s) :=
  List.decidableBAll (startsTag · = false) s.tails

/-! ## Names and quoted values -/

theorem word?_append {p : Char → Bool} {word rest : List Char} (hne : word ≠ [])
    (hw : ∀ c ∈ word, p c = true) (hr : ∀ c ∈ rest.head?, p c = false) :
    word? p (word ++ rest) = some (word, rest) := by
  have ht : rest.takeWhile p = [] := by
    cases rest with
    | nil => rfl
    | cons c rest => exact List.takeWhile_cons_of_neg (by simpa using hr c rfl)
  have hd : rest.dropWhile p = rest := by
    cases rest with
    | nil => rfl
    | cons c rest => exact List.dropWhile_cons_of_neg (by simpa using hr c rfl)
  rw [word?, List.takeWhile_append_of_pos hw, List.dropWhile_append_of_pos hw, ht, hd,
    List.append_nil, if_neg (by simpa using hne)]

theorem word?_eq_none {p : Char → Bool} {s : List Char} (h : ∀ c ∈ s.head?, p c = false) :
    word? p s = none := by
  cases s with
  | nil => rfl
  | cons c s =>
    have hc : ¬ p c = true := by simpa using h c rfl
    rw [word?, List.takeWhile_cons_of_neg hc]
    rfl

theorem upTo?_append {mark : Char} {inner : List Char} (h : mark ∉ inner) (rest : List Char) :
    upTo? mark (inner ++ mark :: rest) = some (inner, rest) := by
  have hne : ∀ c ∈ inner, (c != mark) = true := by
    intro c hc
    simpa using fun he : c = mark => h (he ▸ hc)
  rw [upTo?, List.dropWhile_append_of_pos hne, List.takeWhile_append_of_pos hne]
  simp

theorem quoted?_append {quote : Char} (hq : quote = '"' ∨ quote = '\'') {raw : List Char}
    (h : quote ∉ raw) (rest : List Char) :
    quoted? (quote :: (raw ++ quote :: rest)) = some (raw, rest) := by
  rcases hq with rfl | rfl
  · exact upTo?_append h rest
  · exact upTo?_append h rest

/-! ## Where a tag may begin -/

theorem startsTag_iff {s : List Char} :
    startsTag s = true ↔ ∃ c rest, s = '<' :: c :: rest ∧ (c = '/' ∨ isTagChar c = true) := by
  unfold startsTag
  split
  · next c rest => simp
  · next h =>
    simp only [Bool.false_eq_true, false_iff]
    rintro ⟨c, rest, rfl, -⟩
    exact h c rest rfl

theorem startsTag_cons_cons (c d : Char) (s : List Char) :
    startsTag (c :: d :: s) = (c == '<' && (d == '/' || isTagChar d)) := by
  by_cases h : c = '<'
  · subst c
    rfl
  · simp [startsTag, h]

theorem startsTag_append {s : List Char} (h : startsTag s = true) (t : List Char) :
    startsTag (s ++ t) = true := by
  obtain ⟨c, rest, rfl, hc⟩ := startsTag_iff.mp h
  exact startsTag_iff.mpr ⟨c, rest ++ t, rfl, hc⟩

theorem startsTag_cons_of_ne {c : Char} (h : c ≠ '<') (s : List Char) :
    startsTag (c :: s) = false := by
  by_contra hs
  obtain ⟨d, rest, he, -⟩ := startsTag_iff.mp (Bool.not_eq_false _ ▸ hs)
  exact h (List.cons.inj he).1

theorem isTagChar_of_isBlank {c : Char} (h : isBlank c = true) : isTagChar c = false := by
  by_contra ht
  simp only [isBlank, blankRanges, List.any_cons, List.any_nil, Bool.or_false, Bool.or_eq_true,
    Bool.and_eq_true, decide_eq_true_eq, Char.toNat] at h
  simp only [isTagChar, Bool.not_eq_false, Bool.or_eq_true, beq_iff_eq] at ht
  -- letters and digits lie between the blank ranges
  rcases ht with (((ht | rfl) | rfl) | rfl) | rfl
  · change ((decide ('A'.val ≤ c.val ∧ c.val ≤ 'Z'.val) ||
      (decide ('a'.val ≤ c.val) && decide (c.val ≤ 'z'.val))) ||
        (decide ('0'.val ≤ c.val) && decide (c.val ≤ '9'.val))) = true at ht
    simp only [Bool.or_eq_true, Bool.and_eq_true, decide_eq_true_eq,
      UInt32.le_iff_toNat_le] at ht
    change ((65 ≤ c.val.toNat ∧ c.val.toNat ≤ 90) ∨ (97 ≤ c.val.toNat ∧ c.val.toNat ≤ 122)) ∨
      (48 ≤ c.val.toNat ∧ c.val.toNat ≤ 57) at ht
    omega
  all_goals exact absurd h (by decide)

/-- What follows a text can only make its last character begin a tag, and where a run
ends there is none that could. -/
theorem startsTag_append_atTag {s rest : List Char} (hs : s ≠ []) (hr : AtTag rest) :
    startsTag (s ++ rest) = startsTag s := by
  match s, hs with
  | c :: d :: s, _ => simp only [List.cons_append, startsTag_cons_cons]
  | [c], _ =>
    rcases hr with rfl | hr
    · rfl
    · obtain ⟨d, rest, rfl, -⟩ := startsTag_iff.mp hr
      by_cases hc : c = '<'
      · subst c
        rfl
      · rw [startsTag_cons_of_ne hc, List.singleton_append, startsTag_cons_of_ne hc]

theorem skipSpace_atTag {s : List Char} (h : AtTag s) : skipSpace s = s := by
  rcases h with rfl | h
  · rfl
  · obtain ⟨c, rest, rfl, -⟩ := startsTag_iff.mp h
    exact skipSpace_cons (by decide) _

/-! ## Texts without tags -/

theorem noTag_nil : NoTag [] := by simp [NoTag, startsTag]

theorem noTag_cons {c : Char} {s : List Char} :
    NoTag (c :: s) ↔ startsTag (c :: s) = false ∧ NoTag s := by
  simp [NoTag]

theorem NoTag.blanks_append {before s : List Char} (hb : Blanks before) (hs : NoTag s) :
    NoTag (before ++ s) := by
  induction before with
  | nil => exact hs
  | cons c before ih =>
    have hc : c ≠ '<' := by
      rintro rfl
      exact absurd (hb '<' (by simp)) (by decide)
    exact noTag_cons.mpr
      ⟨startsTag_cons_of_ne hc _, ih fun d hd => hb d (List.mem_cons_of_mem _ hd)⟩

theorem NoTag.append_blanks {s behind : List Char} (hs : NoTag s) (hb : Blanks behind) :
    NoTag (s ++ behind) := by
  induction s with
  | nil => simpa using noTag_nil.blanks_append hb
  | cons c s ih =>
    obtain ⟨hc, hs⟩ := noTag_cons.mp hs
    refine noTag_cons.mpr ⟨?_, ih hs⟩
    match s, behind with
    | d :: s, behind =>
      rw [startsTag_cons_cons] at hc
      rw [List.append_eq, List.cons_append, startsTag_cons_cons]
      exact hc
    | [], [] => exact hc
    | [], d :: behind =>
      have hd := hb d (by simp)
      by_contra ht
      obtain ⟨d', rest, he, hd'⟩ := startsTag_iff.mp (Bool.not_eq_false _ ▸ ht)
      obtain ⟨-, rfl, -⟩ : c = '<' ∧ d = d' ∧ behind = rest := by simpa using he
      rcases hd' with rfl | hd'
      · exact absurd hd (by decide)
      · rw [isTagChar_of_isBlank hd] at hd'
        cases hd'

theorem NoTag.of_append_left {s t : List Char} (h : NoTag (s ++ t)) : NoTag s := by
  induction s with
  | nil => exact noTag_nil
  | cons c s ih =>
    rw [List.cons_append] at h
    obtain ⟨hc, hs⟩ := noTag_cons.mp h
    refine noTag_cons.mpr ⟨?_, ih hs⟩
    by_contra ht
    have := startsTag_append (Bool.not_eq_false _ ▸ ht) t
    rw [List.cons_append, hc] at this
    cases this

theorem NoTag.of_append_right {s t : List Char} (h : NoTag (s ++ t)) : NoTag t := by
  induction s with
  | nil => exact h
  | cons c s ih => exact ih (noTag_cons.mp h).2

/-! ## Runs of text -/

theorem splitRun_of_atTag {s : List Char} (h : AtTag s) : splitRun s = ([], s) := by
  rcases h with rfl | h
  · rfl
  · obtain ⟨c, rest, rfl, -⟩ := startsTag_iff.mp h
    rw [splitRun, if_pos h]

/-- A run goes on to the next place where a tag may begin. -/
theorem splitRun_append_atTag {text rest : List Char} (ht : NoTag text) (hr : AtTag rest) :
    splitRun (text ++ rest) = (text, rest) := by
  induction text with
  | nil => exact splitRun_of_atTag hr
  | cons c text ih =>
    obtain ⟨hc, ht⟩ := noTag_cons.mp ht
    rw [← startsTag_append_atTag (by simp) hr, List.cons_append] at hc
    rw [List.cons_append, splitRun, if_neg (by simp [hc]), ih ht]

theorem run?_append {text rest : List Char} (hne : text ≠ []) (ht : NoTag text)
    (hr : AtTag rest) : run? (text ++ rest) = some (text, rest) := by
  rw [run?, splitRun_append_atTag ht hr, if_neg (by simpa using hne)]

theorem run?_eq_none {s : List Char} (h : AtTag s) : run? s = none := by
  rw [run?, splitRun_of_atTag h]
  rfl

/-- What a run takes holds no tag, and what it leaves begins with one. -/
theorem noTag_splitRun (s : List Char) : NoTag (splitRun s).1 ∧ AtTag (splitRun s).2 := by
  induction s with
  | nil => exact ⟨noTag_nil, .inl rfl⟩
  | cons c s ih =>
    rw [splitRun]
    split
    · next h => exact ⟨noTag_nil, .inr h⟩
    · next h =>
      refine ⟨noTag_cons.mpr ⟨?_, ih.1⟩, ih.2⟩
      by_contra ht
      have := startsTag_append (Bool.not_eq_false _ ▸ ht) (splitRun s).2
      rw [List.cons_append, splitRun_append] at this
      exact h this

theorem noTag_of_run? {s text rest : List Char} (h : run? s = some (text, rest)) :
    text ≠ [] ∧ NoTag text ∧ AtTag rest := by
  simp only [run?, Option.ite_none_left_eq_some, Option.some.injEq] at h
  obtain ⟨hne, h⟩ := h
  have hs := noTag_splitRun s
  rw [h] at hs hne
  exact ⟨by simpa using hne, hs⟩

/-- There is no run only where none goes on. -/
theorem atTag_of_run? {s : List Char} (h : run? s = none) : AtTag s := by
  have hnil : (splitRun s).1 = [] := by simpa [run?] using h
  have happend := splitRun_append s
  rw [hnil, List.nil_append] at happend
  exact happend ▸ (noTag_splitRun s).2

end PageDesign.Markup

import Mathlib.Data.List.DropRight
import PageDesign.Text.Blank

/-! # Margins of a text

A text is *trimmed* when neither of its ends is blank.  Putting blank characters
around a trimmed text and trimming the result gives the text back (`trim_pad`), so
margins are lost without a trace; what `trim` leaves is always trimmed (`trim_trim`)
and stands between two blank margins (`exists_pad_trim`).
-/
namespace PageDesign.Text

/-- A text of separators only. -/
def Spaces (s : List Char) : Prop := ∀ c ∈ s, isSpace c = true

/-- A text of blank characters only. -/
def Blanks (s : List Char) : Prop := ∀ c ∈ s, isBlank c = true

instance (s : List Char) : Decidable (Spaces s) := List.decidableBAll _ s

instance (s : List Char) : Decidable (Blanks s) := List.decidableBAll _ s

theorem Spaces.nil : Spaces [] := by simp [Spaces]

theorem Blanks.nil : Blanks [] := by simp [Blanks]

theorem Blanks.append {s t : List Char} (hs : Blanks s) (ht : Blanks t) : Blanks (s ++ t) := by
  intro c hc
  rcases List.mem_append.mp hc with hc | hc
  · exact hs c hc
  · exact ht c hc

theorem Spaces.blanks {s : List Char} (h : Spaces s) : Blanks s :=
  fun c hc => isBlank_of_isSpace (h c hc)

/-! ## Separators in front -/

theorem skipSpace_append {gap : List Char} (h : Spaces gap) (s : List Char) :
    skipSpace (gap ++ s) = skipSpace s :=
  List.dropWhile_append_of_pos h

/-- A text is what skipping leaves of it, behind separators. -/
theorem exists_gap (s : List Char) : ∃ gap, Spaces gap ∧ s = gap ++ skipSpace s :=
  ⟨s.takeWhile isSpace, fun _ hc => List.mem_takeWhile_imp hc,
    List.takeWhile_append_dropWhile.symm⟩

theorem skipSpace_cons {c : Char} (h : isSpace c = false) (s : List Char) :
    skipSpace (c :: s) = c :: s := by
  simp [skipSpace, h]

/-- Of a blank gap, skipping leaves another blank gap. -/
theorem skipSpace_gap {gap s : List Char} (h : Blanks gap) (hs : skipSpace s = s) :
    ∃ lead, Blanks lead ∧ skipSpace (gap ++ s) = lead ++ s := by
  cases hg : skipSpace gap with
  | nil => exact ⟨[], Blanks.nil, by rw [skipSpace_append (List.dropWhile_eq_nil_iff.mp hg), hs,
      List.nil_append]⟩
  | cons c rest =>
    refine ⟨c :: rest, ?_, ?_⟩
    · intro d hd
      exact h d ((List.dropWhile_sublist isSpace).subset (hg ▸ hd : d ∈ skipSpace gap))
    · rw [skipSpace, List.dropWhile_append, show gap.dropWhile isSpace = c :: rest from hg]
      rfl

/-! ## Trimming -/

theorem trim_eq_rdropWhile (s : List Char) :
    trim s = (s.dropWhile isBlank).rdropWhile isBlank := rfl

theorem trim_blanks {s : List Char} (h : Blanks s) : trim s = [] := by
  rw [trim_eq_rdropWhile, List.dropWhile_eq_nil_iff.mpr h, List.rdropWhile_nil]

/-- A trimmed text keeps its first character. -/
theorem dropWhile_of_trim_eq {s : List Char} (h : trim s = s) : s.dropWhile isBlank = s := by
  refine (List.dropWhile_sublist _).eq_of_length_le ?_
  have hle := (List.rdropWhile_prefix isBlank (s.dropWhile isBlank)).length_le
  rwa [← trim_eq_rdropWhile, h] at hle

/-- A trimmed text keeps its last character. -/
theorem rdropWhile_of_trim_eq {s : List Char} (h : trim s = s) : s.rdropWhile isBlank = s := by
  rw [trim_eq_rdropWhile, dropWhile_of_trim_eq h] at h
  exact h

/-- The first character of a trimmed text is not blank. -/
theorem isBlank_of_trim_eq {c : Char} {s : List Char} (h : trim (c :: s) = c :: s) :
    isBlank c = false := by
  have hd := dropWhile_of_trim_eq h
  by_contra hc
  rw [List.dropWhile_cons_of_pos (by simpa using hc)] at hd
  have hle := (List.dropWhile_sublist (p := isBlank) (l := s)).length_le
  rw [hd] at hle
  exact absurd hle (by simp)

/-- A trimmed text does not end in blank characters. -/
theorem eq_nil_of_trim_eq {s behind : List Char} (h : trim (s ++ behind) = s ++ behind)
    (hb : Blanks behind) : behind = [] := by
  have hr := rdropWhile_of_trim_eq h
  rw [List.rdropWhile, List.reverse_append,
    List.dropWhile_append_of_pos (fun c hc => hb c (List.mem_reverse.mp hc))] at hr
  have hle : (s.rdropWhile isBlank).length ≤ s.length :=
    (List.rdropWhile_prefix isBlank s).length_le
  rw [List.rdropWhile, hr, List.length_append] at hle
  exact List.eq_nil_of_length_eq_zero (by omega)

theorem skipSpace_of_trim_eq {s : List Char} (h : trim s = s) (hne : s ≠ []) (rest : List Char) :
    skipSpace (s ++ rest) = s ++ rest := by
  cases s with
  | nil => exact absurd rfl hne
  | cons c s =>
    refine skipSpace_cons ?_ _
    by_contra hc
    have hb := isBlank_of_isSpace (by simpa using hc)
    rw [isBlank_of_trim_eq h] at hb
    cases hb

/-- **Margins are lost without a trace.** -/
theorem trim_pad {before s behind : List Char} (hb : Blanks before) (hs : trim s = s)
    (hne : s ≠ []) (he : Blanks behind) : trim (before ++ (s ++ behind)) = s := by
  have hfront : (s ++ behind).dropWhile isBlank = s ++ behind := by
    rw [List.dropWhile_append, dropWhile_of_trim_eq hs, if_neg (by simpa using hne)]
  have hback : (s ++ behind).rdropWhile isBlank = s.rdropWhile isBlank := by
    rw [List.rdropWhile, List.reverse_append,
      List.dropWhile_append_of_pos (fun c hc => he c (List.mem_reverse.mp hc))]
    rfl
  rw [trim_eq_rdropWhile, List.dropWhile_append_of_pos hb, hfront, hback,
    rdropWhile_of_trim_eq hs]

/-- A text is what `trim` leaves of it, between two blank margins. -/
theorem exists_pad_trim (s : List Char) :
    ∃ before behind, Blanks before ∧ Blanks behind ∧ s = before ++ (trim s ++ behind) := by
  refine ⟨s.takeWhile isBlank, (s.dropWhile isBlank).rtakeWhile isBlank, ?_, ?_, ?_⟩
  · exact fun c hc => List.mem_takeWhile_imp hc
  · exact fun c hc => List.mem_rtakeWhile_imp hc
  · rw [trim_eq_rdropWhile, List.rdropWhile_append_rtakeWhile, List.takeWhile_append_dropWhile]

theorem trim_trim (s : List Char) : trim (trim s) = trim s := by
  have hfront : (trim s).dropWhile isBlank = trim s := by
    cases h : trim s with
    | nil => rfl
    | cons c rest =>
      obtain ⟨more, hm⟩ := List.rdropWhile_prefix isBlank (s.dropWhile isBlank)
      rw [← trim_eq_rdropWhile, h, List.cons_append] at hm
      have hc := List.head?_dropWhile_not isBlank s
      rw [← hm, List.head?_cons] at hc
      exact List.dropWhile_cons_of_neg (by simpa using hc)
  rw [trim_eq_rdropWhile (trim s), hfront, trim_eq_rdropWhile, List.rdropWhile_idempotent]

end PageDesign.Text

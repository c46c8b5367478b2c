import PageDesign.Files.Disk

/-! # A disk gives back what is written

A path is followed through directories, and a file is never written over one.  So a write
does not change where any path leads (`follow_put`), and the path that a text was written to
leads to that text (`read_of_write`).
-/
namespace PageDesign.Disk

/-- A path leads where it led before, whatever is put in the place of no directory. -/
theorem follow_put {d : Disk} {place : Location} (e : Entry)
    (hplace : ∀ other, d.entry other = some .directory → other ≠ place) {here target : Location}
    {names : List String} (h : d.follow here names = .ok target) :
    (d.put place e).follow here names = .ok target := by
  induction names generalizing here with
  | nil => exact h
  | cons name rest ih =>
    unfold follow at h ⊢
    split at h
    · cases h
    · cases h
    · next hdir =>
      have hsame : (d.put place e).entry here = some .directory :=
        (if_neg (hplace here hdir)).trans hdir
      rw [hsame]
      split at h
      · cases h
      · next hlong =>
        simp only [if_neg hlong]
        exact ih h

theorem locate_put {d : Disk} {place target : Location} (e : Entry)
    (hplace : ∀ other, d.entry other = some .directory → other ≠ place) {p : Path}
    (h : d.locate p = .ok target) : (d.put place e).locate p = .ok target := by
  unfold locate at h ⊢
  split at h
  · cases h
  · exact follow_put e hplace h

/-- A write puts the text where the path leads, and never in the place of a directory. -/
theorem put_of_write {d d' : Disk} {p : Path} {text : String} (h : d.write p text = .ok d') :
    ∃ place, d.locate p = .ok place ∧ d' = d.put place (.file text.toUTF8) ∧
      ∀ other, d.entry other = some .directory → other ≠ place := by
  unfold write at h
  split at h
  · split at h <;> cases h
  · split at h
    · cases h
    · next place hlocate =>
      split at h
      · cases h
      · next hentry =>
        cases h
        refine ⟨place, hlocate, rfl, ?_⟩
        rintro other hdir rfl
        exact hentry hdir

/-- **What is written is read back** under the same path. -/
theorem read_of_write {d d' : Disk} {p : Path} {text : String} (h : d.write p text = .ok d') :
    d'.read p = .ok text := by
  obtain ⟨place, hlocate, rfl, hplace⟩ := put_of_write h
  have htext : String.fromUTF8? text.toUTF8 = some text := dif_pos text.isValidUTF8
  have hfile : (d.put place (.file text.toUTF8)).entry place = some (.file text.toUTF8) :=
    if_pos rfl
  unfold read
  simp only [locate_put _ hplace hlocate, hfile, htext]

end PageDesign.Disk

import Mathlib.Data.List.DropRight
import PageDesign.Proofs.Files.Disk

/-! # What can be relied on of a store of files

What a command does to files is said through a `FileStore.View`: it tells from the state of a
store what files there are, what they hold, and where paths lead.  A view is *lawful* if the
operations do no more than they are for.  Reading changes nothing; making directories touches
no file, and where it succeeds the whole way is there; a write replaces the file that its path
leads to, or else changes nothing.  Nothing is said of when an operation succeeds, so any
obstacle may be met at any time.

A disk has a lawful view (`Disk.lawful_view`).  There a path can only be followed through
directories, so the directories above a path that leads anywhere are there
(`Disk.isDirectory_of_above`).
-/
namespace PageDesign

/-! ## Above a path -/

/-- Whether a path is that of a directory above another: it is the other one without its last
component, or without its last two, and so on. -/
inductive Path.Above (dir : Path) : Path → Prop
  | parent {p : Path} (h : p.parent? = some dir) : Above dir p
  | further {p q : Path} (h : p.parent? = some q) (hq : Above dir q) : Above dir p

namespace Path
variable {p q dir : Path}

/-- The components of a path stand in front of its names. -/
theorem components_prefix_names (p : Path) : p.components <+: p.names := by
  unfold components
  simp only
  split
  · cases p.names with
    | nil => exact List.nil_prefix
    | cons name rest =>
      by_cases h : name = "."
      · exact ⟨rest, by simp [h]⟩
      · exact ⟨name :: rest, by simp [h]⟩
  · exact List.rdropWhile_prefix _ p.names

/-- A path is its parent with some more names. -/
theorem names_of_parent? (h : p.parent? = some q) :
    q.absolute = p.absolute ∧ ∃ rest, rest ≠ [] ∧ p.names = q.names ++ rest := by
  have hlt := length_names_lt_of_parent? h
  unfold parent? at h
  split at h
  · cases h
  · obtain rfl := Option.some.inj h
    have hlast : p.components.dropLast <+: p.components := List.dropLast_prefix p.components
    obtain ⟨rest, hrest⟩ :=
      (components_prefix_names { p with names := p.components.dropLast }).trans
        (hlast.trans (components_prefix_names p))
    refine ⟨rfl, rest, ?_, hrest.symm⟩
    rintro rfl
    rw [List.append_nil] at hrest
    rw [← hrest] at hlt
    exact absurd hlt (Nat.lt_irrefl _)

/-- What is above a path is its parent, or above it. -/
theorem eq_or_above_of_parent? (hp : p.parent? = some q) (h : dir.Above p) :
    dir = q ∨ dir.Above q := by
  cases h with
  | parent hdir => exact .inl (Option.some.inj (hdir.symm.trans hp))
  | further hr habove => exact .inr (Option.some.inj (hr.symm.trans hp) ▸ habove)

theorem Above.exists_parent? (h : dir.Above p) : ∃ q, p.parent? = some q := by
  cases h with
  | parent h => exact ⟨_, h⟩
  | further h _ => exact ⟨_, h⟩

/-- There is nothing above a path that leads nowhere. -/
theorem isEmpty_of_above (h : dir.Above p) : p.isEmpty = false := by
  obtain ⟨q, hq⟩ := h.exists_parent?
  obtain ⟨-, rest, hne, hnames⟩ := names_of_parent? hq
  have hlist : p.names.isEmpty = false := by
    rw [hnames, List.isEmpty_eq_false_iff]
    exact List.append_ne_nil_of_right_ne_nil _ hne
  rw [isEmpty, hlist, Bool.and_false]

/-- Fewer names are written in no more bytes. -/
theorem size_intercalate_le (separator : String) (names rest : List String) :
    (separator.intercalate names).utf8ByteSize ≤
      (separator.intercalate (names ++ rest)).utf8ByteSize := by
  induction names with
  | nil => simp
  | cons name names ih =>
    cases names with
    | nil =>
      cases rest with
      | nil => exact Nat.le_refl _
      | cons next rest =>
        rw [List.singleton_append, String.intercalate_cons_cons, String.utf8ByteSize_append,
          String.utf8ByteSize_append, String.intercalate_singleton]
        omega
    | cons next names =>
      simp only [List.cons_append] at ih ⊢
      simp only [String.intercalate_cons_cons, String.utf8ByteSize_append] at ih ⊢
      omega

end Path

/-! ## Views of a store -/

/-- How the files of a store are told from its state. -/
structure FileStore.View (σ : Type) where
  /-- Where files can be. -/
  Place : Type
  /-- The bytes of the file at a place, if there is one. -/
  content : σ → Place → Option ByteArray
  /-- The place that a path leads to. -/
  placeOf : σ → Path → Option Place
  /-- Whether a path leads to a directory. -/
  hasDirectory : σ → Path → Bool

/-- Whether the operations of a store do to its files what they are for, and nothing else. -/
structure FileStore.View.Lawful {σ : Type} [FileStore (StateM σ)] (v : FileStore.View σ) :
    Prop where
  /-- Reading changes nothing. -/
  read : ∀ p s, ((FileStore.read p : StateM σ (Except Obstacle String)).run s).2 = s
  /-- Making directories touches no file, whether it succeeds or not. -/
  makeDirectories : ∀ p s s' r,
    (FileStore.makeDirectories p : StateM σ (Except Obstacle Unit)).run s = (r, s') →
      v.content s' = v.content s
  /-- If it succeeds, the directory is there, and all those above it. -/
  made : ∀ p s s',
    (FileStore.makeDirectories p : StateM σ (Except Obstacle Unit)).run s = (.ok (), s') →
      ∀ dir : Path, dir = p ∨ dir.Above p → dir.isEmpty = false → v.hasDirectory s' dir = true
  /-- A write that meets an obstacle changes nothing. -/
  write_error : ∀ p text s s' obstacle,
    (FileStore.write p text : StateM σ (Except Obstacle Unit)).run s = (.error obstacle, s') →
      s' = s
  /-- Any other write gives the text to the file at one place, the one that the path then leads
  to, and to no other. -/
  write_ok : ∀ p text s s',
    (FileStore.write p text : StateM σ (Except Obstacle Unit)).run s = (.ok (), s') →
      ∃ place, v.placeOf s' p = some place ∧ v.content s' place = some text.toUTF8 ∧
        ∀ other, other ≠ place → v.content s' other = v.content s other
  /-- No write takes a directory away. -/
  write_keeps : ∀ p text s s' r,
    (FileStore.write p text : StateM σ (Except Obstacle Unit)).run s = (r, s') →
      ∀ dir, v.hasDirectory s dir = true → v.hasDirectory s' dir = true

/-! ## The view of a disk -/

namespace Disk
variable {d d' : Disk} {p q dir : Path}

/-- The bytes of the file at a location, if there is one. -/
def content (d : Disk) (place : Location) : Option ByteArray :=
  match d.entry place with
  | some (.file bytes) => some bytes
  | _ => none

/-- The files of a disk are at locations. -/
def view : FileStore.View Disk where
  Place := Location
  content := content
  placeOf d p := (d.locate p).toOption
  hasDirectory := isDirectory

theorem isDirectory_iff :
    d.isDirectory p = true ↔
      ∃ place, d.locate p = .ok place ∧ d.entry place = some .directory := by
  unfold isDirectory
  cases hl : d.locate p with
  | error obstacle => simp
  | ok place =>
    cases he : d.entry place with
    | none => simp [he]
    | some e => cases e <;> simp [he]

/-! ### Directories -/

/-- Names are followed only from a directory. -/
theorem follow_of_append {here target : Location} {names rest : List String} (hrest : rest ≠ [])
    (h : d.follow here (names ++ rest) = .ok target) :
    ∃ between, d.follow here names = .ok between ∧ d.entry between = some .directory := by
  induction names generalizing here with
  | nil =>
    cases rest with
    | nil => exact absurd rfl hrest
    | cons name rest =>
      rw [List.nil_append] at h
      unfold follow at h
      split at h
      · cases h
      · cases h
      · next hdir => exact ⟨here, rfl, hdir⟩
  | cons name names ih =>
    rw [List.cons_append] at h
    unfold follow at h ⊢
    split at h
    · cases h
    · cases h
    · next hdir =>
      split at h
      · cases h
      · next hlong =>
        simp only [if_neg hlong]
        exact ih h

/-- The way of a path starts where that of its parent does. -/
theorem start_of_parent? {place : Location} (hp : p.parent? = some q) (hq : q.isEmpty = false)
    (h : start p = .ok place) : start q = .ok place := by
  obtain ⟨habsolute, rest, -, hnames⟩ := Path.names_of_parent? hp
  unfold start at h ⊢
  split at h
  · cases h
  · next hnull =>
    split at h
    · cases h
    · split at h
      · cases h
      · next hlong =>
        have hnull' : ¬ q.hasNull = true := by
          unfold Path.hasNull at hnull ⊢
          rw [hnames, List.any_append] at hnull
          exact fun hany => hnull (by rw [hany, Bool.true_or])
        have hlong' : ¬ longestPath < q.text.utf8ByteSize := by
          have hle := Path.size_intercalate_le "/" q.names rest
          unfold Path.text at hlong ⊢
          rw [hnames, String.utf8ByteSize_append] at hlong
          rw [habsolute, String.utf8ByteSize_append]
          omega
        rw [if_neg hnull', if_neg (by rw [hq]; exact Bool.false_ne_true), if_neg hlong', habsolute]
        exact h

/-- What a path leads to stands in a directory, the one its parent leads to. -/
theorem isDirectory_of_parent? {place : Location} (hp : p.parent? = some q)
    (hq : q.isEmpty = false) (h : d.locate p = .ok place) : d.isDirectory q = true := by
  obtain ⟨-, rest, hrest, hnames⟩ := Path.names_of_parent? hp
  unfold locate at h
  split at h
  · cases h
  · next here hstart =>
    rw [hnames] at h
    obtain ⟨between, hfollow, hdir⟩ := follow_of_append hrest h
    refine isDirectory_iff.mpr ⟨between, ?_, hdir⟩
    unfold locate
    rw [start_of_parent? hp hq hstart]
    exact hfollow

/-- **The directories above a path that leads anywhere are there.** -/
theorem isDirectory_of_above {place : Location} (h : d.locate p = .ok place)
    (habove : dir.Above p) (hdir : dir.isEmpty = false) : d.isDirectory dir = true := by
  induction habove generalizing place with
  | parent hp => exact isDirectory_of_parent? hp hdir h
  | @further p q hp hq ih =>
    have hparent := isDirectory_of_parent? hp (Path.isEmpty_of_above hq) h
    obtain ⟨between, hbetween, -⟩ := isDirectory_iff.mp hparent
    exact ih hbetween

theorem content_put_self (d : Disk) (place : Location) (bytes : ByteArray) :
    (d.put place (.file bytes)).content place = some bytes := by
  simp [content, put]

theorem content_put_of_ne (d : Disk) {place other : Location} (h : other ≠ place) (e : Entry) :
    (d.put place e).content other = d.content other := by
  simp [content, put, h]

/-- A directory that could be made is there, and no file is touched. -/
theorem makeDirectory_ok (h : d.makeDirectory p = .ok d') :
    d'.content = d.content ∧ d'.isDirectory p = true := by
  unfold makeDirectory at h
  split at h
  · cases h
  · next place hlocate =>
    split at h
    · cases h
    · next hentry =>
      cases h
      have hplace : ∀ other, d.entry other = some .directory → other ≠ place := by
        rintro other hdir rfl
        rw [hentry] at hdir
        cases hdir
      refine ⟨?_, isDirectory_iff.mpr ⟨place, locate_put _ hplace hlocate, if_pos rfl⟩⟩
      funext other
      by_cases ho : other = place
      · subst other
        simp [content, put, hentry]
      · exact content_put_of_ne d ho .directory

/-- Making sure of a directory touches no file. -/
theorem content_ensureDirectory (d : Disk) (p : Path) :
    (d.ensureDirectory p).2.content = d.content := by
  unfold ensureDirectory
  split
  · next made => exact (makeDirectory_ok made).1
  · rfl

theorem isDirectory_of_ensureDirectory (h : d.ensureDirectory p = (.ok (), d')) :
    d'.isDirectory p = true := by
  unfold ensureDirectory at h
  split at h
  · next made =>
    cases h
    exact (makeDirectory_ok made).2
  · by_cases hdir : d.isDirectory p = true
    · rw [if_pos hdir] at h
      cases h
      exact hdir
    · rw [if_neg hdir] at h
      cases h

/-- Making directories touches no file. -/
theorem content_makeDirectories (d : Disk) (p : Path) :
    (d.makeDirectories p).2.content = d.content := by
  fun_induction makeDirectories d p with
  | case1 => rfl
  | case2 => rfl
  | case3 p _ _ parent _ between hparent ih =>
    rw [hparent] at ih
    exact (content_ensureDirectory between p).trans ih
  | case4 p _ _ parent _ obstacle between hparent ih =>
    rw [hparent] at ih
    exact ih
  | case5 p => exact content_ensureDirectory d p

/-- Directories that could be made are there. -/
theorem isDirectory_of_makeDirectories (hp : p.isEmpty = false)
    (h : d.makeDirectories p = (.ok (), d')) : d'.isDirectory p = true := by
  unfold makeDirectories at h
  rw [if_neg (by rw [hp]; exact Bool.false_ne_true)] at h
  split at h
  · split at h
    · cases h
    · split at h
      · exact isDirectory_of_ensureDirectory h
      · cases h
  · exact isDirectory_of_ensureDirectory h

/-- What a write comes to, if it succeeds and if it meets an obstacle. -/
theorem run_write {r : Except Obstacle Unit} {text : String}
    (h : (FileStore.write p text : StateM Disk _).run d = (r, d')) :
    (r = .ok () ∧ d.write p text = .ok d') ∨ (r ≠ .ok () ∧ d' = d) := by
  simp only [FileStore.write, StateT.run_modifyGet] at h
  cases hwrite : d.write p text with
  | ok written =>
    rw [hwrite] at h
    cases h
    exact .inl ⟨rfl, rfl⟩
  | error obstacle =>
    rw [hwrite] at h
    cases h
    exact .inr ⟨(fun he => nomatch he), rfl⟩

theorem isDirectory_of_write {text : String} (h : d.write p text = .ok d')
    (hdir : d.isDirectory dir = true) : d'.isDirectory dir = true := by
  obtain ⟨place, -, rfl, hplace⟩ := put_of_write h
  obtain ⟨there, hlocate, hentry⟩ := isDirectory_iff.mp hdir
  refine isDirectory_iff.mpr ⟨there, locate_put _ hplace hlocate, ?_⟩
  exact (if_neg (hplace there hentry)).trans hentry

/-- **A disk can be relied on.** -/
theorem lawful_view : view.Lawful where
  read _ _ := rfl
  makeDirectories p d d' r h := by
    have hd : (d.makeDirectories p).2 = d' := congrArg Prod.snd h
    exact hd ▸ content_makeDirectories d p
  made p d d' h dir habove hdir := by
    rcases habove with rfl | habove
    · exact isDirectory_of_makeDirectories hdir h
    · have hp := Path.isEmpty_of_above habove
      obtain ⟨place, hlocate, -⟩ := isDirectory_iff.mp (isDirectory_of_makeDirectories hp h)
      exact isDirectory_of_above hlocate habove hdir
  write_error p text d d' obstacle h := by
    rcases run_write h with ⟨he, -⟩ | ⟨-, rfl⟩
    · cases he
    · rfl
  write_ok p text d d' h := by
    rcases run_write h with ⟨-, hwrite⟩ | ⟨hne, -⟩
    · obtain ⟨place, hlocate, rfl, hplace⟩ := put_of_write hwrite
      refine ⟨place, ?_, content_put_self d place _, fun other ho => content_put_of_ne d ho _⟩
      exact congrArg Except.toOption (locate_put _ hplace hlocate)
    · exact absurd rfl hne
  write_keeps p text d d' r h dir hdir := by
    rcases run_write h with ⟨-, hwrite⟩ | ⟨-, rfl⟩
    · exact isDirectory_of_write hwrite hdir
    · exact hdir

end Disk
end PageDesign

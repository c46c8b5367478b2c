import PageDesign.Proofs.Command.Task
import PageDesign.Proofs.Component.Stored
import PageDesign.Proofs.Files.Lawful

/-! # A build changes one file or none

A build reads a design, makes the directories of the file it is to write, and writes that file.
Any of these steps may fail, and then the next is not tried.  Reading leaves the store as it is
(`loading`), making directories touches no file, and a write is the last step there is
(`saving`); so a build that fails has changed no file, and one that succeeds has changed one
(`build_changes_one_file`).  What it has written is the markup that is given when nothing is to
be written: the design was read before anything was changed, also where the file to write is
the one that was read.

This holds on any store that can be relied on to do what it is asked, or else to say that it
did not.
-/
namespace PageDesign
open FileStore Json

/-- Whether a file, and no other, was given a text: the one that a path leads to, and all
directories above it are there. -/
structure FileStore.View.Wrote {σ : Type} (v : View σ) (s s' : σ) (p : Path) (text : String)
    (place : v.Place) : Prop where
  leads : v.placeOf s' p = some place
  holds : v.content s' place = some text.toUTF8
  others : ∀ other, other ≠ place → v.content s' other = v.content s other
  directories : ∀ dir : Path, dir.Above p → dir.isEmpty = false → v.hasDirectory s' dir = true

namespace Command

/-- Whether a failure is about the input: it could not be read, or does not hold what it
should. -/
def Failure.OfInput : Failure → Prop
  | makeDirectories _ _ => False
  | write _ _ => False
  | _ => True

section
variable {σ : Type} [FileStore (StateM σ)] {v : View σ}

/-! ## Steps of a build -/

/-- Loading a design changes nothing, and it can fail only because of the input. -/
theorem loading (hv : v.Lawful) (input : String) (s : σ) :
    (∃ page, runIn (load input) s = (.ok page, s)) ∨
      ∃ failure : Failure, failure.OfInput ∧ runIn (load input) s = (.error failure, s) := by
  have hs := hv.read (.ofText input) s
  rcases hread : (FileStore.read (.ofText input) : StateM σ _).run s with ⟨r, between⟩
  rw [hread] at hs
  obtain rfl : between = s := hs
  cases r with
  | error obstacle =>
    refine .inr ⟨.read input obstacle, trivial, ?_⟩
    exact runIn_bind_of_error (runIn_overcome_of_error hread)
  | ok source =>
    cases hdesign : Design.read source with
    | ok design => exact .inl ⟨design.page, runIn_load hread hdesign⟩
    | error error =>
      refine .inr ⟨.design input source error, trivial, ?_⟩
      unfold load
      rw [runIn_bind_of_ok (runIn_overcome_of_ok hread), hdesign]
      rfl

/-- Before a save writes, all directories above its file are there and no file is touched;
where they cannot be made, it fails with no file touched. -/
theorem preparing (hv : v.Lawful) (out text : String) (s : σ) :
    (∃ failure s', ¬ Failure.OfInput failure ∧ v.content s' = v.content s ∧
      runIn (save out text) s = (.error failure, s')) ∨
    ∃ between, v.content between = v.content s ∧
      (∀ dir : Path, dir.Above (.ofText out) → dir.isEmpty = false →
        v.hasDirectory between dir = true) ∧
      runIn (save out text) s =
        runIn (overcome (.write out) (FileStore.write (.ofText out) text)) between := by
  unfold save
  cases hparent : (Path.ofText out).parent? with
  | none =>
    refine .inr ⟨s, rfl, fun dir habove => ?_, rfl⟩
    obtain ⟨q, hq⟩ := habove.exists_parent?
    rw [hparent] at hq
    cases hq
  | some dir =>
    cases hdir : dir.isEmpty with
    | true =>
      refine .inr ⟨s, rfl, fun other habove hother => ?_, by simp only [hdir]; rfl⟩
      rcases Path.eq_or_above_of_parent? hparent habove with rfl | habove
      · rw [hdir] at hother
        cases hother
      · rw [Path.isEmpty_of_above habove] at hdir
        cases hdir
    | false =>
      simp only [hdir, Bool.not_false, if_true]
      rcases hmake : (FileStore.makeDirectories dir : StateM σ _).run s with ⟨r, between⟩
      have hcontent := hv.makeDirectories _ _ _ _ hmake
      cases r with
      | error obstacle =>
        refine .inl ⟨.makeDirectories dir.text obstacle, between, id, hcontent, ?_⟩
        exact runIn_bind_of_error (runIn_overcome_of_error hmake)
      | ok =>
        refine .inr ⟨between, hcontent, fun other habove hother => ?_,
          runIn_bind_of_ok (runIn_overcome_of_ok hmake)⟩
        exact hv.made _ _ _ hmake other (Path.eq_or_above_of_parent? hparent habove) hother

/-- A save gives the text to one file, or it touches none. -/
theorem saving (hv : v.Lawful) (out text : String) (s : σ) :
    (∃ failure s', ¬ Failure.OfInput failure ∧ v.content s' = v.content s ∧
      runIn (save out text) s = (.error failure, s')) ∨
    ∃ s' place, v.Wrote s s' (.ofText out) text place ∧
      runIn (save out text) s = (.ok (), s') := by
  rcases preparing hv out text s with hstuck | ⟨between, hcontent, hdirs, hrun⟩
  · exact .inl hstuck
  · rw [hrun]
    rcases hwrite : (FileStore.write (.ofText out) text : StateM σ _).run between with ⟨r, s'⟩
    cases r with
    | error obstacle =>
      obtain rfl := hv.write_error _ _ _ _ _ hwrite
      exact .inl ⟨.write out obstacle, s', id, hcontent, runIn_overcome_of_error hwrite⟩
    | ok =>
      obtain ⟨place, hleads, hholds, hothers⟩ := hv.write_ok _ _ _ _ hwrite
      refine .inr ⟨s', place, ⟨hleads, hholds, ?_, ?_⟩, runIn_overcome_of_ok hwrite⟩
      · intro other hother
        rw [hothers other hother, hcontent]
      · exact fun dir habove hdir => hv.write_keeps _ _ _ _ _ hwrite dir (hdirs dir habove hdir)

/-! ## Builds -/

/-- **A build changes one file or none.**  If it fails, no file has changed, and if it fails
because of its input, nothing has.  If it succeeds, its markup is the one that is given when
nothing is to be written.  If nothing was to be written, nothing has changed; otherwise the file
that was to be written holds the markup and a line break, the directories above it are there,
and every other file is as it was. -/
theorem build_changes_one_file (hv : v.Lawful) (input : String) (out : Option String)
    (style : Style) (s : σ) :
    (∀ failure s', runIn (build input out style) s = (.error failure, s') →
      v.content s' = v.content s ∧ (failure.OfInput → s' = s)) ∧
    ∀ markup s', runIn (build input out style) s = (.ok markup, s') →
      runIn (build input none style) s = (.ok markup, s) ∧
      (out = none → s' = s) ∧
      ∀ path, out = some path →
        ∃ place, v.Wrote s s' (.ofText path) (markup ++ "\n") place := by
  rcases loading hv input s with ⟨page, hload⟩ | ⟨failure, hf, hload⟩
  · have hshown : runIn (build input none style) s = (.ok (page.markup style), s) :=
      runIn_bind_of_ok hload
    cases out with
    | none =>
      rw [hshown]
      refine ⟨fun _ _ h => (nomatch h), fun markup s' h => ?_⟩
      cases h
      exact ⟨rfl, fun _ => rfl, fun _ h => (nomatch h)⟩
    | some path =>
      rw [runIn_build hload]
      rcases saving hv path (page.markup style ++ "\n") s with
        ⟨failure, after, hf, hcontent, hsave⟩ | ⟨after, place, hwrote, hsave⟩
      · rw [hsave]
        refine ⟨fun _ _ h => ?_, fun _ _ h => (nomatch h)⟩
        cases h
        exact ⟨hcontent, fun h => absurd h hf⟩
      · rw [hsave]
        refine ⟨fun _ _ h => (nomatch h), fun markup s' h => ?_⟩
        cases h
        refine ⟨hshown, fun h => (nomatch h), fun other hpath => ?_⟩
        cases hpath
        exact ⟨place, hwrote⟩
  · have hbuild : runIn (build input out style) s = (.error failure, s) :=
      runIn_bind_of_error hload
    rw [hbuild]
    refine ⟨fun _ _ h => ?_, fun _ _ h => (nomatch h)⟩
    cases h
    exact ⟨rfl, fun _ => rfl⟩

end

/-- A paragraph is built into a file of a new directory. -/
theorem build_changes_one_file_site :
    let design : Design := .one { info := { tag := "p" }, children := [.text "hello"] }
    let d : Disk := Disk.empty.put ⟨.above 0, ["page.json"]⟩ (.file design.toJson.compact.toUTF8)
    let markup := "<p>hello</p>"
    let d' : Disk := (d.put ⟨.above 0, ["site"]⟩ .directory).put ⟨.above 0, ["site", "index.html"]⟩
      (.file (markup ++ "\n").toUTF8)
    Disk.view.Lawful ∧
      runIn (build "page.json" (some "site/index.html") {}) d = (.ok markup, d') ∧
      runIn (build "page.json" none {}) d = (.ok markup, d) ∧
      ∃ place, Disk.view.Wrote d d' (.ofText "site/index.html") (markup ++ "\n") place := by
  intro design d markup d'
  have hexact : Exact design.toJson :=
    Design.exact_toJson (List.forall_mem_singleton.mpr ⟨List.forall_mem_nil _, trivial, trivial⟩)
  have hdesign : Design.read design.toJson.compact = .ok design :=
    Design.read_written .compact hexact (by decide)
  have hload : runIn (load "page.json") d = (.ok design.page, d) :=
    runIn_load (congrArg (·, d) (@Disk.read_of_write Disk.empty d _ _ rfl)) hdesign
  have hmarkup : design.page.markup {} = markup := by decide +kernel
  have hmake : (FileStore.makeDirectories (.ofText "site") : StateM Disk _).run d =
      (.ok (), d.put ⟨.above 0, ["site"]⟩ .directory) := by
    show d.makeDirectories (.ofText "site") = _
    rw [Disk.makeDirectories]
    rfl
  have hsave : runIn (save "site/index.html" (markup ++ "\n")) d = (.ok (), d') :=
    (runIn_bind_of_ok (runIn_overcome_of_ok hmake)).trans rfl
  have hbuild : runIn (build "page.json" (some "site/index.html") {}) d = (.ok markup, d') := by
    rw [runIn_build hload, hmarkup, hsave]
    rfl
  obtain ⟨hshown, -, hwrote⟩ :=
    (build_changes_one_file Disk.lawful_view "page.json" (some "site/index.html") {} d).2 _ _ hbuild
  exact ⟨Disk.lawful_view, hbuild, hshown, hwrote _ rfl⟩

end Command
end PageDesign

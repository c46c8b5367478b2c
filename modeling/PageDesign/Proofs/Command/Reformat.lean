import PageDesign.Proofs.Command.Build
import PageDesign.Proofs.Markup.Reformat

/-! # What was built is formatted already

A build saves the markup of a design with a line break behind it, and formatting the saved
file gives the same markup again (`reformat_build`).  Three things come together: the disk
gives back what was written, the line break is passed over when the markup is read, and what
is read is all of the page that its markup shows.

The page has to be one that markup can hold.  That is a matter of the names and texts of the
design (`Design.Writable`); whatever its props are set to, their values can be written.
-/
namespace PageDesign
open Text Markup Node Json

/-! ## Designs that markup can hold -/

/-- Whether a component has names that tags can carry. -/
structure Component.Writable (c : Component) : Prop where
  tag : TagName c.tag
  props : ∀ entry ∈ c.props.entries, AttributeName entry.1

theorem Component.Writable.attributeName {c : Component} (h : c.Writable) :
    ∀ a ∈ c.toElement.attributes, AttributeName a.name := by
  intro a ha
  obtain ⟨entry, hentry, rfl⟩ := List.mem_map.mp ha
  exact h.props entry hentry

namespace Child

/-- Whether a child is a text. -/
def isText : Child → Bool
  | text _ => true
  | component _ _ => false

mutual

/-- Whether markup can hold a child, with all below it. -/
def Writable : Child → Prop
  | text content => SafeText content
  | component info children => info.Writable ∧ WritableAll children

/-- Whether markup can hold children side by side. -/
def WritableAll : List Child → Prop
  | [] => True
  | c :: rest =>
    Writable c ∧ (c.isText = true → ∀ d ∈ rest.head?, d.isText = false) ∧ WritableAll rest

end

theorem isText_toNode (c : Child) : c.toNode.isText = c.isText := by
  cases c <;> simp [toNode, isText, Node.isText, Node.text?]

mutual

theorem proper_toNode : ∀ {c : Child}, c.Writable → Proper SafeText c.toNode
  | text content, h => by
    rw [toNode]
    exact h
  | component info children, ⟨hinfo, hchildren⟩ => by
    rw [toNode]
    exact ⟨hinfo.tag, hinfo.attributeName, proper_toNodes hchildren⟩

theorem proper_toNodes : ∀ {children : List Child}, WritableAll children →
    ProperAll SafeText (toNodes children)
  | [], _ => trivial
  | c :: rest, ⟨hc, hnext, hrest⟩ => by
    refine ⟨proper_toNode hc, ?_, proper_toNodes hrest⟩
    rw [isText_toNode]
    intro htext m hm
    cases rest with
    | nil => cases hm
    | cons next rest =>
      obtain rfl : next.toNode = m := by simpa [toNodes] using hm
      rw [isText_toNode]
      exact hnext htext next rfl

end

end Child

/-- Whether markup can hold a design. -/
def Design.Writable : Design → Prop
  | one config => config.toChild.Writable
  | many configs => ∀ config ∈ configs, config.toChild.Writable

/-- The page of such a design has children that markup can hold side by side. -/
theorem Design.Writable.exists_children {design : Design} (h : design.Writable) :
    ∃ children, design.page = .root children ∧ ProperAll SafeText children := by
  cases design with
  | one config =>
    refine ⟨_, rfl, Child.proper_toNode h, ?_, trivial⟩
    simp
  | many configs =>
    refine ⟨_, rfl, ?_⟩
    induction configs with
    | nil => trivial
    | cons config rest ih =>
      obtain ⟨hfirst, hrest⟩ := List.forall_mem_cons.mp h
      refine ⟨Child.proper_toNode hfirst, fun htext => ?_, ih hrest⟩
      cases Child.isText_toNode config.toChild ▸ htext

/-! ## Files -/

namespace Command

/-- What a task makes of a disk: what it comes to, and the disk it leaves. -/
abbrev runOn {α : Type} (task : ExceptT Failure (StateM Disk) α) (d : Disk) :
    Except Failure α × Disk := task.run.run d

section Runs
variable {d d' : Disk}

/-- What is saved is written last, on the disk as it is by then. -/
theorem write_of_save {out text : String} {u : Unit} (h : runOn (save out text) d = (.ok u, d')) :
    ∃ between : Disk, between.write (.ofText out) text = .ok d' := by
  rcases preparing Disk.lawful_view out text d with
    ⟨failure, after, -, -, hstuck⟩ | ⟨between, -, -, hrun⟩
  · cases hstuck.symm.trans h
  · rcases Disk.run_write (runIn_overcome_ok (hrun.symm.trans h)) with ⟨-, hwrite⟩ | ⟨hne, -⟩
    · exact ⟨between, hwrite⟩
    · exact absurd rfl hne

/-- What a build reads, what it comes to, and what it leaves in its file. -/
theorem saved_of_build {input out markup : String} {style : Style}
    (h : runOn (build input (some out) style) d = (.ok markup, d')) :
    ∃ source design, d.read (.ofText input) = .ok source ∧ Design.read source = .ok design ∧
      markup = design.page.markup style ∧ d'.read (.ofText out) = .ok (markup ++ "\n") := by
  obtain ⟨page, between, hload, h⟩ := runIn_bind_ok h
  obtain ⟨source, _, hsource, hload⟩ := runIn_bind_ok hload
  have hrun : (d.read (.ofText input), d) = (.ok source, _) := runIn_overcome_ok hsource
  obtain ⟨hread, rfl⟩ := Prod.mk.inj hrun
  split at hload
  · next design hdesign =>
    cases hload
    obtain ⟨u, after, hsave, hreturn⟩ := runIn_bind_ok h
    obtain ⟨before, hwrite⟩ := write_of_save hsave
    cases hreturn
    exact ⟨source, design, hread, hdesign, rfl, Disk.read_of_write hwrite⟩
  · cases hload

/-- A build whose design can be read and whose markup can be saved succeeds. -/
theorem runOn_build {input out source : String} {style : Style} {design : Design}
    (hread : d.read (.ofText input) = .ok source) (hdesign : Design.read source = .ok design)
    (hsave : runOn (save out (design.page.markup style ++ "\n")) d = (.ok (), d')) :
    runOn (build input (some out) style) d = (.ok (design.page.markup style), d') := by
  have hload : runIn (load input) d = (.ok design.page, d) :=
    runIn_load (congrArg (·, d) hread) hdesign
  have hsaved : runIn (save out (design.page.markup style ++ "\n")) d = (.ok (), d') := hsave
  refine (runIn_build hload out style).trans ?_
  rw [hsaved]
  rfl

/-- Markup in a file is laid out anew on any disk that holds the file. -/
theorem runOn_reformat {input source : String} {page : Node} {style : Style}
    (hr : d.read (.ofText input) = .ok source) (hp : Node.ofMarkup source = .ok page) :
    runOn (reformat input style) d = (.ok (page.markup style), d) := by
  have hread : (FileStore.read (.ofText input) : StateM Disk _).run d = (.ok source, d) :=
    congrArg (·, d) hr
  refine (runIn_bind_of_ok (runIn_overcome_of_ok hread)).trans ?_
  rw [hp]
  rfl

end Runs

/-- **What was built and saved is formatted already**: formatting the file in the same style
succeeds and gives the markup that the build gave, the file holding it with a line break
behind. -/
theorem reformat_build {input out source markup : String} {style : Style} {design : Design}
    {d d' : Disk} (hs : style.Blank) (hw : design.Writable)
    (hread : d.read (.ofText input) = .ok source) (hdesign : Design.read source = .ok design)
    (hbuild : runOn (build input (some out) style) d = (.ok markup, d')) :
    runOn (reformat out style) d' = (.ok markup, d') ∧
      d'.read (.ofText out) = .ok (markup ++ "\n") := by
  obtain ⟨source', design', hread', hdesign', hmarkup, hsaved⟩ := saved_of_build hbuild
  obtain rfl : source = source' := Except.ok.inj (hread.symm.trans hread')
  obtain rfl : design = design' := Except.ok.inj (hdesign.symm.trans hdesign')
  obtain ⟨children, hpage, hp⟩ := hw.exists_children
  rw [hpage] at hmarkup
  have hback := ofMarkup_append hs hp (by decide : Blanks "\n".toList)
  rw [← hmarkup] at hback
  refine ⟨?_, hsaved⟩
  rw [runOn_reformat hsaved hback, Node.visible, markup_visibleAll, ← hmarkup]

/-- A paragraph with a number for its id is built into `page.html`, and formatted there. -/
theorem reformat_build_paragraph :
    let design : Design := .one
      { info := { tag := "p", props := .ofList [("id", .number (.int 7)), ("hidden", .null)] }
        children := [.text "a < b"] }
    let d : Disk := Disk.empty.put ⟨.above 0, ["page.json"]⟩ (.file design.toJson.compact.toUTF8)
    let markup := "<p id=\"7\">a < b</p>"
    let d' : Disk := d.put ⟨.above 0, ["page.html"]⟩ (.file (markup ++ "\n").toUTF8)
    runOn (build "page.json" (some "page.html") {}) d = (.ok markup, d') ∧
      runOn (reformat "page.html" {}) d' = (.ok markup, d') ∧
      d'.read (.ofText "page.html") = .ok (markup ++ "\n") := by
  intro design d markup d'
  have hs : Style.Blank {} := by decide
  have hw : design.Writable := by
    refine ⟨⟨by decide, by decide⟩, (by decide : SafeText "a < b"), by simp, trivial⟩
  have hread : d.read (.ofText "page.json") = .ok design.toJson.compact :=
    @Disk.read_of_write Disk.empty d _ _ rfl
  have hexact : Exact design.toJson :=
    ⟨trivial, ⟨⟨by decide, by decide⟩, trivial, trivial⟩, ⟨trivial, trivial⟩, trivial⟩
  have hdesign : Design.read design.toJson.compact = .ok design :=
    Design.read_written .compact hexact (by decide)
  have hmarkup : design.page.markup {} = markup := by decide +kernel
  have hsave : ∀ source text : String, runOn (save "page.html" text)
      (Disk.empty.put ⟨.above 0, ["page.json"]⟩ (.file source.toUTF8)) =
        (.ok (), (Disk.empty.put ⟨.above 0, ["page.json"]⟩ (.file source.toUTF8)).put
          ⟨.above 0, ["page.html"]⟩ (.file text.toUTF8)) := fun _ _ => rfl
  have hbuild : runOn (build "page.json" (some "page.html") {}) d = (.ok markup, d') := by
    rw [← hmarkup]
    refine runOn_build hread hdesign ?_
    rw [hmarkup]
    exact hsave _ _
  exact ⟨hbuild, reformat_build hs hw hread hdesign hbuild⟩

end Command
end PageDesign

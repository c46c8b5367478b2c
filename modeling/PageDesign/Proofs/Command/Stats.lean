import PageDesign.Proofs.Command.Task
import PageDesign.Proofs.Component.Size
import PageDesign.Proofs.Files.Disk

/-! # What the numbers of `stats` count

The three numbers that `stats` gives are found by three searches of the page, but they can be
read off the design in the file: how many components and texts it has at all depths, and how
high it is.  `find` gives the markup of each element with a tag, and a component is the element
of one tag only, so the findings for all tags of the design are as many as its components
(`stats_exact`).
-/
namespace PageDesign.Command
open Json

section
variable {σ : Type} [FileStore (StateM σ)] {s s' : σ} {input source : String} {design : Design}

theorem ofPage_page (design : Design) :
    Stats.ofPage design.page =
      { nodes := 1 + design.components.length + design.texts.length
        depth := 1 + design.height
        elements := design.components.length } := by
  rw [Stats.ofPage, design.count_page, design.depth_page, design.elementCount_page]

/-- **`stats` counts the design.**  If the text of a file holds a design, its page has as many
nodes as the design has components and texts at all depths, and one more; as many elements as
the design has components, and these are as many as `find` gives for all the different tags of
the components together; and one level more than the highest configuration of the design. -/
theorem stats_exact
    (hread : (FileStore.read (.ofText input) : StateM σ _).run s = (.ok source, s'))
    (hdesign : Design.read source = .ok design) :
    runIn (stats input) s =
        (.ok
          { nodes := 1 + design.components.length + design.texts.length
            depth := 1 + design.height
            elements := design.components.length }, s') ∧
      ∀ style, ∃ hits : String → List String,
        (∀ tag, runIn (find input tag style) s = (.ok (hits tag), s')) ∧
        design.components.length =
          ((design.components.map (·.tag)).dedup.map fun tag => (hits tag).length).sum := by
  have hload := runIn_load hread hdesign
  constructor
  · rw [← ofPage_page]
    exact runIn_bind_of_ok hload
  · intro style
    refine ⟨fun tag => (design.page.findAll (Node.hasTag tag)).map (Node.markup style),
      fun tag => runIn_bind_of_ok hload, ?_⟩
    simp only [List.length_map]
    exact design.sum_findAll_hasTag.symm

end

/-- Of two configurations, one closes itself and still has a button with a text, another text
and a second button below it: four components and two texts, on four levels with the root. -/
theorem stats_exact_toolbar :
    let button (children : List Child) : Child := .component { tag := "button" } children
    let design : Design := .many
      [{ info := { tag := "toolbar", selfClosing := some true }
         children := [button [.text "save"], .text "or", button []] },
       Config.new "hr"]
    let d : Disk := Disk.empty.put ⟨.above 0, ["page.json"]⟩ (.file design.toJson.compact.toUTF8)
    Design.read design.toJson.compact = .ok design ∧
      runIn (stats "page.json") d = (.ok { nodes := 7, depth := 4, elements := 4 }, d) ∧
      ∀ style, ∃ hits : String → List String,
        (∀ tag, runIn (find "page.json" tag style) d = (.ok (hits tag), d)) ∧
        4 = (["toolbar", "button", "button", "hr"].dedup.map fun tag => (hits tag).length).sum := by
  intro button design d
  have hexact : Exact design.toJson := by
    refine Design.exact_toJson (List.forall_mem_cons.mpr ⟨?_, List.forall_mem_singleton.mpr ?_⟩)
    · exact ⟨List.forall_mem_nil _, ⟨List.forall_mem_nil _, trivial, trivial⟩, trivial,
        ⟨List.forall_mem_nil _, trivial⟩, trivial⟩
    · exact ⟨List.forall_mem_nil _, trivial⟩
  have hdesign : Design.read design.toJson.compact = .ok design :=
    Design.read_written .compact hexact (by decide)
  have hread : (FileStore.read (.ofText "page.json") : StateM Disk _).run d =
      (.ok design.toJson.compact, d) :=
    congrArg (·, d) (@Disk.read_of_write Disk.empty d _ _ rfl)
  exact ⟨hdesign, stats_exact hread hdesign⟩

end PageDesign.Command

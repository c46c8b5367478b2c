import PageDesign.Proofs.Markup.Fragment

/-! # The lines of markup

A page is *unbroken* if it consists of elements and texts and there is no line break in any of
its names, values and texts.  Then no fragment of its markup has a line break in it either
(`newline_notMem_fragments`), so that with a unit of indentation that has none, the lines of
the formatted markup are just its fragments behind their margins (`lines_markup`).

All fragments of such a node move together: nested deeper, it has the same fragments, each as
many levels deeper (`fragments_add`).  So the lines that it has for itself are also the lines
that it has inside of a page, but for one more margin (`margin_lines_markup`).
-/
namespace PageDesign

namespace Text

/-- The lines of a text: what stands between its line breaks. -/
def lines (s : String) : List String := (s.toList.splitOn '\n').map String.ofList

/-- Whether there is no line break in a text. -/
def Unbroken (s : String) : Prop := '\n' ∉ s.toList

instance : DecidablePred Unbroken := fun s => inferInstanceAs (Decidable ('\n' ∉ s.toList))

theorem unbroken_append {s t : String} : Unbroken (s ++ t) ↔ Unbroken s ∧ Unbroken t := by
  simp [Unbroken]

theorem unbroken_join {texts : List String} (h : ∀ t ∈ texts, Unbroken t) :
    Unbroken (String.join texts) := by
  simpa [Unbroken] using h

/-- Lines that are joined by line breaks are the lines of what comes out. -/
theorem lines_intercalate {texts : List String} (hne : texts ≠ []) (h : ∀ t ∈ texts, Unbroken t) :
    lines ("\n".intercalate texts) = texts := by
  have hbreak : ∀ l ∈ texts.map String.toList, '\n' ∉ l := by simpa [Unbroken] using h
  rw [lines, String.toList_intercalate, show "\n".toList = ['\n'] from rfl,
    List.splitOn_intercalate '\n' hbreak (mt List.map_eq_nil_iff.mp hne), List.map_map]
  simp [Function.comp_def]

/-- Escaping a text makes no line breaks. -/
theorem newline_notMem_escape {s : List Char} (h : '\n' ∉ s) : '\n' ∉ escape s := by
  intro hmem
  obtain ⟨c, hc, hcode⟩ := List.mem_flatMap.mp hmem
  unfold escapeChar at hcode
  split at hcode
  · next e _ => cases e <;> simp [Entity.code] at hcode
  · rw [List.mem_singleton] at hcode
    exact h (hcode ▸ hc)

end Text

open Text

/-! ## Unbroken pages -/

/-- Whether there is no line break in a value. -/
def Value.Unbroken : Value → Prop
  | flag _ => True
  | text content => Text.Unbroken content

instance : DecidablePred Value.Unbroken
  | .flag _ => .isTrue trivial
  | .text content => inferInstanceAs (Decidable (Text.Unbroken content))

/-- Whether there is no line break in a tag and its attributes. -/
structure Element.Unbroken (info : Element) : Prop where
  tag : Text.Unbroken info.tag
  attributes : ∀ a ∈ info.attributes, Text.Unbroken a.name ∧ a.value.Unbroken

instance : DecidablePred Element.Unbroken := fun info =>
  decidable_of_iff (Text.Unbroken info.tag ∧
      ∀ a ∈ info.attributes, Text.Unbroken a.name ∧ a.value.Unbroken)
    ⟨fun ⟨ht, ha⟩ => ⟨ht, ha⟩, fun ⟨ht, ha⟩ => ⟨ht, ha⟩⟩

/-- Whether a node is an element or a text without a line break, the nodes below it apart. -/
def Node.Unbroken : Node → Prop
  | .element info _ => info.Unbroken
  | .text content => Text.Unbroken content
  | .root _ => False
  | .attr _ => False

instance : DecidablePred Node.Unbroken
  | .element info _ => inferInstanceAs (Decidable info.Unbroken)
  | .text content => inferInstanceAs (Decidable (Text.Unbroken content))
  | .root _ => .isFalse id
  | .attr _ => .isFalse id

theorem Attribute.unbroken_markup {a : Attribute} (hn : Text.Unbroken a.name)
    (hv : a.value.Unbroken) : Text.Unbroken a.markup := by
  obtain ⟨name, value⟩ := a
  match value, hv with
  | .flag true, _ => exact hn
  | .flag false, _ => exact (by decide : Text.Unbroken "")
  | .text content, hv =>
    have hescape : Text.Unbroken (String.ofList (escape content.toList)) := by
      rw [Text.Unbroken, String.toList_ofList]
      exact newline_notMem_escape hv
    exact unbroken_append.mpr ⟨unbroken_append.mpr ⟨unbroken_append.mpr ⟨hn, by decide⟩, hescape⟩,
      by decide⟩

namespace Element
variable {info : Element}

theorem Unbroken.heading (h : info.Unbroken) : Text.Unbroken info.heading := by
  refine unbroken_append.mpr ⟨h.tag, unbroken_join fun t ht => ?_⟩
  obtain ⟨s, hs, rfl⟩ := List.mem_map.mp ht
  obtain ⟨a, ha, rfl⟩ := List.mem_map.mp (List.mem_filter.mp hs).1
  obtain ⟨hn, hv⟩ := h.attributes a ha
  exact unbroken_append.mpr ⟨by decide, Attribute.unbroken_markup hn hv⟩

theorem Unbroken.openTag (h : info.Unbroken) : Text.Unbroken info.openTag :=
  unbroken_append.mpr ⟨unbroken_append.mpr ⟨by decide, h.heading⟩, by decide⟩

theorem Unbroken.closeTag (h : info.Unbroken) : Text.Unbroken info.closeTag :=
  unbroken_append.mpr ⟨unbroken_append.mpr ⟨by decide, h.tag⟩, by decide⟩

theorem Unbroken.singleTag (h : info.Unbroken) : Text.Unbroken info.singleTag :=
  unbroken_append.mpr ⟨unbroken_append.mpr ⟨by decide, h.heading⟩, by decide⟩

end Element

namespace Fragment

/-- The fragment nested `levels` deeper. -/
def deepen (levels : Nat) (f : Fragment) : Fragment := { f with depth := f.depth + levels }

end Fragment

theorem Style.margin_add (style : Style) (levels depth : Nat) :
    style.margin (depth + levels) = style.margin levels ++ style.margin depth := by
  unfold Style.margin
  split
  · rw [Nat.add_comm, List.replicate_add, String.join_append]
  · simp

theorem Style.unbroken_margin {style : Style} (h : Text.Unbroken style.indent) (depth : Nat) :
    Text.Unbroken (style.margin depth) := by
  unfold Style.margin
  split
  · exact unbroken_join fun t ht => (List.eq_of_mem_replicate ht) ▸ h
  · exact (by decide : Text.Unbroken "")

namespace Node

/-! ## Fragments of unbroken nodes -/

/-- What holds of all nodes of a tree holds of the node itself, and of all nodes of the trees of
its children. -/
theorem forall_mem_preorder {p : Node → Prop} {n : Node} : (∀ m ∈ n.preorder, p m) ↔
    p n ∧ ∀ c ∈ n.children, ∀ m ∈ c.preorder, p m := by
  rw [preorder_eq, List.forall_mem_cons]
  simp only [List.mem_flatMap, forall_exists_index, and_imp]
  exact and_congr_right fun _ => ⟨fun h c hc m hm => h m c hc hm, fun h m c hc hm => h c hc m hm⟩

theorem forall_mem_preorderAll {p : Node → Prop} {nodes : List Node} :
    (∀ m ∈ preorderAll nodes, p m) ↔ ∀ c ∈ nodes, ∀ m ∈ c.preorder, p m := by
  rw [preorderAll_eq_flatMap]
  simp only [List.mem_flatMap, forall_exists_index, and_imp]
  exact ⟨fun h c hc m hm => h m c hc hm, fun h m c hc hm => h c hc m hm⟩

/-- **No fragment of an unbroken page has a line break in it.** -/
theorem newline_notMem_fragments (n : Node) (h : ∀ m ∈ n.preorder, m.Unbroken) (depth : Nat) :
    ∀ f ∈ n.fragments depth, Text.Unbroken f.text := by
  induction n using childInduction generalizing depth with
  | step n ih =>
    obtain ⟨hn, hc⟩ := forall_mem_preorder.mp h
    cases n with
    | root children => exact hn.elim
    | element info children =>
      by_cases hs : Single info children
      · simpa [fragments_single depth hs] using hn.singleTag
      · rcases lone_or_block hs with ⟨content, hf, rfl⟩ | hl
        · have ht : Text.Unbroken content := (forall_mem_preorder.mp (hc _ List.mem_cons_self)).1
          simpa [fragments_lone depth hf, unbroken_append] using ⟨⟨hn.openTag, ht⟩, hn.closeTag⟩
        · rw [fragments_block depth hs hl]
          intro f hf
          rcases List.mem_cons.mp hf with rfl | hf
          · exact hn.openTag
          · rcases List.mem_append.mp hf with hf | hf
            · obtain ⟨c, hmem, hf⟩ := List.mem_flatMap.mp hf
              exact ih c hmem (hc c hmem) (depth + 1) f hf
            · obtain rfl := List.mem_singleton.mp hf
              exact hn.closeTag
    | text content => simpa [fragments, Node.Unbroken] using hn
    | attr item => exact hn.elim

/-- No fragment of a root above unbroken pages has a line break in it either. -/
theorem newline_notMem_fragments_root {children : List Node}
    (h : ∀ m ∈ preorderAll children, m.Unbroken) (depth : Nat) :
    ∀ f ∈ (root children).fragments depth, Text.Unbroken f.text := by
  by_cases hne : children = []
  · subst hne
    simp [fragments, Text.Unbroken]
  · intro f hf
    rw [fragments_root depth hne] at hf
    obtain ⟨c, hc, hf⟩ := List.mem_flatMap.mp hf
    exact newline_notMem_fragments c (forall_mem_preorderAll.mp h c hc) depth f hf

/-- **Nested deeper, an unbroken node has the same fragments, all deeper.** -/
theorem fragments_add (n : Node) (h : ∀ m ∈ n.preorder, m.Unbroken) (levels depth : Nat) :
    n.fragments (depth + levels) = (n.fragments depth).map (·.deepen levels) := by
  induction n using childInduction generalizing depth with
  | step n ih =>
    obtain ⟨hn, hc⟩ := forall_mem_preorder.mp h
    cases n with
    | root children => exact hn.elim
    | element info children =>
      by_cases hs : Single info children
      · rw [fragments_single _ hs, fragments_single _ hs]
        rfl
      · rcases lone_or_block hs with ⟨content, hf, rfl⟩ | hl
        · rw [fragments_lone _ hf, fragments_lone _ hf]
          rfl
        · have hinner : children.flatMap (fragments (depth + levels + 1)) =
              (children.flatMap (fragments (depth + 1))).map (·.deepen levels) := by
            rw [List.map_flatMap, Nat.add_right_comm]
            exact List.flatMap_congr fun c hmem => ih c hmem (hc c hmem) (depth + 1)
          rw [fragments_block _ hs hl, fragments_block _ hs hl, hinner, List.map_cons,
            List.map_append]
          rfl
    | text content => rfl
    | attr item => exact hn.elim

/-! ## Lines of formatted markup -/

/-- The lines of formatted markup are its fragments, each behind its margin. -/
theorem lines_markup {n : Node} {style : Style} (hm : style.multiline = true)
    (hi : Text.Unbroken style.effective.indent) (hf : ∀ f ∈ n.fragments 0, Text.Unbroken f.text) :
    Text.lines (n.markup style) = (n.fragments 0).map (·.print style.effective) := by
  have hbreak : style.effective.lineBreak = "\n" := by
    rw [Style.lineBreak, Style.multiline_effective, if_pos hm]
  rw [markup, print_eq_fragments, hbreak, lines_intercalate]
  · exact mt List.map_eq_nil_iff.mp (fragments_ne_nil 0 n)
  · intro line hline
    obtain ⟨f, hmem, rfl⟩ := List.mem_map.mp hline
    exact unbroken_append.mpr ⟨Style.unbroken_margin hi f.depth, hf f hmem⟩

/-- **The lines of a node behind one more margin are the lines that it has inside of a
page.** -/
theorem margin_lines_markup {n : Node} {style : Style} (hm : style.multiline = true)
    (hi : Text.Unbroken style.effective.indent) (h : ∀ m ∈ n.preorder, m.Unbroken) (levels : Nat) :
    (Text.lines (n.markup style)).map (style.effective.margin levels ++ ·) =
      (n.fragments levels).map (·.print style.effective) := by
  have hdeepen := fragments_add n h levels 0
  rw [Nat.zero_add] at hdeepen
  rw [lines_markup hm hi (newline_notMem_fragments n h 0), hdeepen, List.map_map, List.map_map]
  refine List.map_congr_left fun f _ => ?_
  simp only [Function.comp_apply, Fragment.print, Fragment.deepen, Style.margin_add,
    String.append_assoc]

end Node
end PageDesign

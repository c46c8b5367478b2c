import PageDesign.Proofs.Node.Preorder
import PageDesign.Proofs.Node.Visible

/-! # Markup as a list of fragments

In every style the markup of a page consists of the same fragments in the same order: tags,
texts, and elements that never take more than one line.  A page gives the list by itself, each
fragment with the depth at which it is nested (`fragments`).  All that a style decides is how
the list is written down: with each fragment on a line of its own, behind its margin, or with
one fragment right behind the other (`markup_eq_fragments`).

The nodes of a list are printed apart and joined, and what comes out is joined again one
level up.  No node is without fragments (`fragments_ne_nil`), so a join of joins is one join.
-/
namespace PageDesign

/-- A part of the markup that no style breaks, and how deep it is nested. -/
structure Fragment where
  depth : Nat
  text : String
  deriving Repr, DecidableEq

namespace Fragment

/-- The fragment behind one unit of indentation for each level. -/
def indented (unit : String) (f : Fragment) : String :=
  String.join (List.replicate f.depth unit) ++ f.text

/-- The fragment as it stands in the given style. -/
def print (style : Style) (f : Fragment) : String := style.margin f.depth ++ f.text

end Fragment

namespace Node

mutual

/-- The fragments of a node at nesting depth `depth`.  An attribute node and a root without
children stay where they are, whatever the depth. -/
def fragments (depth : Nat) : Node → List Fragment
  | root children =>
    match children with
    | [] => [⟨0, ""⟩]
    | children => fragmentsAll depth children
  | text content => [⟨depth, content⟩]
  | attr item => [⟨0, item.markup⟩]
  | element info children =>
    if info.selfClosing then [⟨depth, info.singleTag⟩] else
    match children with
    | [] => [⟨depth, info.singleTag⟩]
    | [text content] => [⟨depth, info.openTag ++ content ++ info.closeTag⟩]
    | children =>
      ⟨depth, info.openTag⟩ :: (fragmentsAll (depth + 1) children ++ [⟨depth, info.closeTag⟩])

/-- The fragments of the nodes of a list. -/
def fragmentsAll (depth : Nat) : List Node → List Fragment
  | [] => []
  | n :: rest => fragments depth n ++ fragmentsAll depth rest

end

section Fragments
variable (depth : Nat)

theorem fragmentsAll_eq_flatMap (nodes : List Node) :
    fragmentsAll depth nodes = nodes.flatMap (fragments depth) := by
  induction nodes with
  | nil => rfl
  | cons n rest ih => rw [fragmentsAll, List.flatMap_cons, ih]

theorem fragments_root {children : List Node} (h : children ≠ []) :
    fragments depth (root children) = children.flatMap (fragments depth) := by
  rw [← fragmentsAll_eq_flatMap]
  unfold fragments
  split
  · exact absurd rfl h
  · rfl

theorem fragments_single {info : Element} {children : List Node} (h : Single info children) :
    fragments depth (element info children) = [⟨depth, info.singleTag⟩] := by
  unfold fragments
  by_cases hs : info.selfClosing = true
  · rw [if_pos hs]
  · obtain rfl := h.resolve_left hs
    rw [if_neg hs]

theorem fragments_lone {info : Element} (h : info.selfClosing = false) (content : String) :
    fragments depth (element info [text content]) =
      [⟨depth, info.openTag ++ content ++ info.closeTag⟩] := by
  unfold fragments
  rw [h, if_neg Bool.false_ne_true]

theorem fragments_block {info : Element} {children : List Node} (h : ¬ Single info children)
    (hl : ∀ content, children ≠ [text content]) :
    fragments depth (element info children) = ⟨depth, info.openTag⟩ ::
      (children.flatMap (fragments (depth + 1)) ++ [⟨depth, info.closeTag⟩]) := by
  rw [Single, not_or] at h
  rw [← fragmentsAll_eq_flatMap]
  unfold fragments
  rw [if_neg h.1]
  split
  · exact absurd rfl h.2
  · next content => exact absurd rfl (hl content)
  · rfl

/-- An element with children between its tags either holds a lone text or is a block. -/
theorem lone_or_block {info : Element} {children : List Node} (h : ¬ Single info children) :
    (∃ content, info.selfClosing = false ∧ children = [text content]) ∨
      ∀ content, children ≠ [text content] := by
  by_cases hl : ∃ content, children = [text content]
  · obtain ⟨content, rfl⟩ := hl
    rw [Single, not_or, Bool.not_eq_true] at h
    exact .inl ⟨content, h.1, rfl⟩
  · exact .inr fun content he => hl ⟨content, he⟩

theorem flatMap_fragments_ne_nil {nodes : List Node} (h : nodes ≠ [])
    (hn : ∀ n ∈ nodes, fragments depth n ≠ []) : nodes.flatMap (fragments depth) ≠ [] := by
  obtain ⟨n, rest, rfl⟩ := List.exists_cons_of_ne_nil h
  rw [List.flatMap_cons]
  exact List.append_ne_nil_of_left_ne_nil (hn n List.mem_cons_self) _

/-- Every node has something to print, if only an empty line. -/
theorem fragments_ne_nil (n : Node) : fragments depth n ≠ [] := by
  induction n using childInduction with
  | step n ih =>
    cases n with
    | root children =>
      by_cases h : children = []
      · subst h
        exact List.cons_ne_nil _ _
      · rw [fragments_root depth h]
        exact flatMap_fragments_ne_nil depth h ih
    | element info children =>
      by_cases h : Single info children
      · rw [fragments_single depth h]
        exact List.cons_ne_nil _ _
      · rcases lone_or_block h with ⟨content, hs, rfl⟩ | hl
        · rw [fragments_lone depth hs]
          exact List.cons_ne_nil _ _
        · rw [fragments_block depth h hl]
          exact List.cons_ne_nil _ _
    | text content => exact List.cons_ne_nil _ _
    | attr item => exact List.cons_ne_nil _ _

end Fragments

/-! ## Printing -/

section Printing
variable (style : Style)

/-- If each node of a list is printed as its fragments are, joined by line breaks, then so is
the list. -/
theorem intercalate_printAll {nodes : List Node} (depth : Nat)
    (h : ∀ n ∈ nodes, print style depth n =
      style.lineBreak.intercalate ((n.fragments depth).map (·.print style))) :
    style.lineBreak.intercalate (printAll style depth nodes) =
      style.lineBreak.intercalate ((nodes.flatMap (fragments depth)).map (·.print style)) := by
  induction nodes with
  | nil => rfl
  | cons n rest ih =>
    have hn := h n List.mem_cons_self
    have ih := ih fun m hm => h m (List.mem_cons_of_mem n hm)
    rw [printAll, List.flatMap_cons, List.map_append]
    by_cases hr : rest = []
    · subst hr
      simpa [printAll] using hn
    · have hprint : printAll style depth rest ≠ [] := by
        obtain ⟨m, more, rfl⟩ := List.exists_cons_of_ne_nil hr
        exact List.cons_ne_nil _ _
      have hrest := flatMap_fragments_ne_nil depth hr fun m _ => fragments_ne_nil depth m
      rw [String.intercalate_cons_of_ne_nil hprint, ih, hn, String.intercalate_append_of_ne_nil]
      · exact mt List.map_eq_nil_iff.mp (fragments_ne_nil depth n)
      · exact mt List.map_eq_nil_iff.mp hrest

/-- **A node is printed as its fragments are, joined by line breaks.** -/
theorem print_eq_fragments (n : Node) (depth : Nat) : print style depth n =
    style.lineBreak.intercalate ((n.fragments depth).map (·.print style)) := by
  induction n using childInduction generalizing depth with
  | step n ih =>
    cases n with
    | root children =>
      have hc : style.lineBreak.intercalate (printAll style depth children) = _ :=
        intercalate_printAll style depth fun c hc => ih c hc depth
      by_cases h : children = []
      · subst h
        simp [print, printAll, fragments, Fragment.print, Style.margin]
      · rw [fragments_root depth h, ← hc]
        unfold print
        rfl
    | element info children =>
      by_cases h : Single info children
      · rw [print_single style depth h, fragments_single depth h, List.map_singleton,
          String.intercalate_singleton]
        rfl
      · rcases lone_or_block h with ⟨content, hs, rfl⟩ | hl
        · rw [print_lone style depth hs, fragments_lone depth hs, List.map_singleton,
            String.intercalate_singleton, Fragment.print, String.append_assoc,
            String.append_assoc, String.append_assoc]
        · have hc : style.lineBreak.intercalate (printAll style (depth + 1) children) = _ :=
            intercalate_printAll style (depth + 1) fun c hc => ih c hc (depth + 1)
          have hne : children ≠ [] := fun he => h (.inr he)
          have hinner := flatMap_fragments_ne_nil (depth + 1) hne fun c _ =>
            fragments_ne_nil (depth + 1) c
          rw [print_block style depth h hl, fragments_block depth h hl, hc, List.map_cons,
            List.map_append, List.map_singleton, String.intercalate_cons_of_ne_nil (by simp),
            String.intercalate_append_of_ne_nil (mt List.map_eq_nil_iff.mp hinner) (by simp),
            String.intercalate_singleton, Fragment.print, Fragment.print]
          simp only [String.append_assoc]
    | text content =>
      unfold print
      simp [fragments, Fragment.print]
    | attr item =>
      unfold print
      simp [fragments, Fragment.print, Style.margin]

end Printing

/-- Formatted markup has each fragment on a line of its own. -/
theorem markup_multiline (page : Node) (indent : String) :
    page.markup { indent, multiline := true } = "\n".intercalate ((page.fragments 0).map
      (·.indented (Style.effective { indent, multiline := true }).indent)) := by
  have hprint : Fragment.print (Style.effective { indent, multiline := true }) =
      Fragment.indented (Style.effective { indent, multiline := true }).indent := by
    funext f
    rw [Fragment.print, Style.margin, Style.multiline_effective]
    rfl
  rw [markup, print_eq_fragments, hprint, Style.lineBreak, Style.multiline_effective]
  rfl

/-- Compact markup has one fragment right behind the other. -/
theorem markup_compact (page : Node) (indent : String) :
    page.markup { indent, multiline := false } =
      String.join ((page.fragments 0).map (·.text)) := by
  have hjoin (texts : List String) : "".intercalate texts = String.join texts := by
    induction texts with
    | nil => rfl
    | cons t rest ih =>
      rw [String.join_cons, ← ih]
      cases rest <;> simp
  rw [markup, print_eq_fragments, Style.lineBreak, Style.multiline_effective,
    if_neg Bool.false_ne_true, hjoin]
  simp [Fragment.print, Style.margin]

/-- **Formatted and compact markup are the same fragments written down in two ways**: each on
a line of its own, behind as many units of indentation as it is nested deep, or one behind
the other. -/
theorem markup_eq_fragments (page : Node) (indent : String) :
    page.markup { indent, multiline := true } = "\n".intercalate ((page.fragments 0).map
      (·.indented (Style.effective { indent, multiline := true }).indent)) ∧
    page.markup { indent, multiline := false } =
      String.join ((page.fragments 0).map (·.text)) :=
  ⟨markup_multiline page indent, markup_compact page indent⟩

end Node
end PageDesign

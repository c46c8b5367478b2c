import Mathlib.Data.List.Chain
import PageDesign.Node.Search
import PageDesign.Proofs.Markup.RoundTrip
import PageDesign.Proofs.Markup.Yield

/-! # What every page that was read is like

Whatever works on a page that was read may rely on more than that markup can hold it.
`Legible` says node by node what that is: of an element, that it has no more to it than its
tag says and that no two texts stand side by side below it; of a text, that it is a run of
markup from end to end; and that there are no other nodes.  It is true of every node below
the root of a page that was read (`legible_of_ofMarkup`).

Names, texts and their order are those of a page that markup can hold (`reading_proper`).
What is left to show is what no tag can say: a reading gives no ids, knows nothing of the
canvas, makes no flag that is off and puts nothing below a single tag (`reading_plain`).
-/
namespace PageDesign
open Text Markup

/-- Whether no two texts of a list stand side by side. -/
def Node.TextsApart (nodes : List Node) : Prop :=
  nodes.IsChain fun a b => a.isText = true → b.isText = false

namespace Element

/-- Whether an element with the given children has no more to it than its tags can say. -/
structure Plain (info : Element) (children : List Node) : Prop where
  id : info.id = none
  canvas : info.canvas = none
  shown : ∀ a ∈ info.attributes, a.value ≠ .flag false
  childless : info.selfClosing = true → children = []

/-- Whether an element with the given children is one that a reading can make, the children
themselves apart. -/
structure Legible (info : Element) (children : List Node) : Prop extends Plain info children where
  tag : TagName info.tag
  names : ∀ a ∈ info.attributes, AttributeName a.name
  apart : Node.TextsApart children

end Element

namespace Node

/-- Whether a node, if it is an element, has no more to it than its tags can say. -/
def Plain : Node → Prop
  | element info children => info.Plain children
  | _ => True

/-- Whether a node below a root is one that a reading can make, the nodes below it apart. -/
def Legible : Node → Prop
  | element info children => info.Legible children
  | text content => RunText content
  | root _ => False
  | attr _ => False

theorem preorderAll_append (nodes more : List Node) :
    preorderAll (nodes ++ more) = preorderAll nodes ++ preorderAll more := by
  induction nodes with
  | nil => simp [preorderAll]
  | cons n rest ih => simp [preorderAll, ih]

/-! ## Pages that markup can hold -/

theorem textsApart_of_proper {p : String → Prop} {nodes : List Node} (h : ProperAll p nodes) :
    TextsApart nodes := by
  induction nodes with
  | nil => exact List.isChain_nil
  | cons n rest ih =>
    obtain ⟨-, hnext, hrest⟩ := h
    exact List.isChain_cons.mpr ⟨fun m hm htext => hnext htext m hm, ih hrest⟩

mutual

/-- Every plain node of a tree that markup can hold is legible. -/
theorem legible_of_proper : ∀ {n : Node}, Proper RunText n → ∀ m ∈ n.preorder, m.Plain → m.Legible
  | element info children, ⟨htag, hnames, hchildren⟩, m, hm, hplain => by
    rw [preorder] at hm
    rcases List.mem_cons.mp hm with rfl | hm
    · have hapart := textsApart_of_proper hchildren
      exact { toPlain := hplain, tag := htag, names := hnames, apart := hapart }
    · exact legible_of_properAll hchildren m hm hplain
  | text content, h, m, hm, _ => by
    rw [preorder] at hm
    obtain rfl := List.mem_singleton.mp hm
    exact h

/-- Every plain node in or below a list that markup can hold is legible. -/
theorem legible_of_properAll : ∀ {nodes : List Node}, ProperAll RunText nodes →
    ∀ m ∈ preorderAll nodes, m.Plain → m.Legible
  | [], _, m, hm, _ => by cases hm
  | n :: rest, ⟨hn, _, hrest⟩, m, hm, hplain => by
    rw [preorderAll] at hm
    rcases List.mem_append.mp hm with hm | hm
    · exact legible_of_proper hn m hm hplain
    · exact legible_of_properAll hrest m hm hplain

end

end Node

/-! ## What no tag can say -/

namespace Markup
open Node

/-- An attribute that was read is a true flag or a text. -/
theorem shown_of_attribute? {s rest : List Char} {a : Attribute}
    (h : attribute? s = some (a, rest)) : a.value ≠ .flag false := by
  unfold attribute? at h
  split at h
  · cases h
  · split at h
    · obtain ⟨rfl, -⟩ := h
      exact Value.noConfusion
    · obtain ⟨rfl, -⟩ := h
      simp

theorem shown_of_tagUpTo? {mark s rest : List Char} {tag : String} {attrs : List Attribute}
    (h : tagUpTo? mark s = some (tag, attrs, rest)) : ∀ a ∈ attrs, a.value ≠ .flag false := by
  obtain ⟨-, t, rfl⟩ := parts_of_tagUpTo? h
  exact forall_mem_attributes (fun _ _ _ h => shown_of_attribute? h) t

/-- Whether all nodes in and below a list are plain. -/
def PlainAll (nodes : List Node) : Prop := ∀ n ∈ preorderAll nodes, n.Plain

theorem PlainAll.append {nodes more : List Node} (hn : PlainAll nodes) (hm : PlainAll more) :
    PlainAll (nodes ++ more) := by
  intro n h
  rw [preorderAll_append] at h
  rcases List.mem_append.mp h with h | h
  · exact hn n h
  · exact hm n h

theorem PlainAll.element {info : Element} {children : List Node} (h : info.Plain children)
    (hc : PlainAll children) : PlainAll [.element info children] := by
  intro n hn
  rw [preorderAll, preorderAll, List.append_nil, preorder] at hn
  rcases List.mem_cons.mp hn with rfl | hn
  · exact h
  · exact hc n hn

/-- What a run becomes is no element. -/
theorem plainAll_textNodes (text : String) : PlainAll (textNodes text) := by
  unfold textNodes
  split
  · intro n hn
    cases hn
  · intro n hn
    rw [preorderAll, preorderAll, List.append_nil, preorder] at hn
    obtain rfl := List.mem_singleton.mp hn
    trivial

/-- **A reading says no more of an element than its tags do.** -/
theorem reading_plain (s : List Char) : PlainAll (reading s).nodes := by
  induction hn : s.length using Nat.strongRecOn generalizing s with
  | ind k ih =>
    cases step s with
    | stop he hr h =>
      rw [h]
      intro n hn
      cases hn
    | run text rest he hr hl h =>
      rw [h]
      exact (plainAll_textNodes _).append (ih rest.length (by omega) rest rfl)
    | single tag attributes rest hs hl h =>
      have hshown := shown_of_tagUpTo? hs
      have hp : Element.Plain { tag, attributes, selfClosing := true } [] :=
        { id := rfl, canvas := rfl, shown := hshown, childless := fun _ => rfl }
      rw [h]
      refine (PlainAll.element hp ?_).append (ih rest.length (by omega) rest rfl)
      intro n hn
      cases hn
    | pair tags attributes inner rest hs ho hc hi hl h =>
      have hshown := shown_of_tagUpTo? ho
      have hp : Element.Plain { tag := tags.opening, attributes } (reading inner).nodes :=
        { id := rfl, canvas := rfl, shown := hshown, childless := fun h => nomatch h }
      rw [h]
      exact (PlainAll.element hp (ih inner.length (by omega) inner rfl)).append
        (ih rest.length (by omega) rest rfl)

/-! ## Pages that were read -/

/-- **Every page that was read is legible**: elements and texts below the root, none of
which says more than markup does, and no two texts side by side. -/
theorem legible_of_ofMarkup {source : String} {page : Node} (h : Node.ofMarkup source = .ok page) :
    ∃ nodes, page = .root nodes ∧ TextsApart nodes ∧ ∀ n ∈ preorderAll nodes, n.Legible := by
  obtain ⟨-, -, rfl⟩ := ofMarkup_eq_ok_iff.mp h
  have hp := (reading_proper source.toList).1
  refine ⟨_, rfl, textsApart_of_proper hp, ?_⟩
  intro n hn
  exact legible_of_properAll hp n hn (reading_plain source.toList n hn)

/-- A row with a bare flag, a text that holds a `<`, and a single tag. -/
theorem legible_of_ofMarkup_row :
    let hr : Node := .element { tag := "hr", selfClosing := true } []
    let row : Element := { tag := "row", attributes := [⟨"on", .flag true⟩] }
    let page : Node := .root [.element row [.text "a < b", hr]]
    Node.ofMarkup "<row on>a < b<hr /></row>\n" = .ok page ∧
      ∃ nodes, page = .root nodes ∧ TextsApart nodes ∧ ∀ n ∈ preorderAll nodes, n.Legible := by
  intro hr row page
  have hp : ProperAll SafeText [.element row [.text "a < b", hr]] :=
    ⟨⟨by decide, by decide, (by decide : SafeText "a < b"), by simp [hr, isText, text?],
      ⟨by decide, by decide, trivial⟩, by simp, trivial⟩, by simp, trivial⟩
  have hs : Style.compact.Blank := by decide
  have hread := ofMarkup_append hs hp (by decide : Blanks "\n".toList)
  rw [show page.markup .compact ++ "\n" = "<row on>a < b<hr /></row>\n" by decide +kernel,
    show page.visible = page by decide +kernel] at hread
  exact ⟨hread, legible_of_ofMarkup hread⟩

end Markup
end PageDesign

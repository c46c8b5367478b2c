import PageDesign.Markup.Printer
import PageDesign.Proofs.Markup.Proper

/-! # What markup shows of a page

Markup says nothing of ids and of the canvas, it leaves out false flags, and it shows an
element without children, or with children that a single tag hides, as a single tag.
The *visible* form of a page drops all this.  A page and its visible form have the same
markup in every style (`print_visible`), so nothing of what is dropped could ever be read
back, and pages that look alike cannot be told apart by their markup
(`markup_eq_of_visible`).
-/
namespace PageDesign
open Markup

/-- Whether an attribute is printed: all are but false flags. -/
def Attribute.shown (a : Attribute) : Bool := a.value ≠ .flag false

/-- What markup shows of an element that it shows as a single tag or not. -/
def Element.visible (e : Element) (single : Bool) : Element where
  tag := e.tag
  attributes := e.attributes.filter (·.shown)
  selfClosing := single

namespace Node

mutual

/-- A page without all that its markup does not show. -/
def visible : Node → Node
  | root children => root (visibleAll children)
  | element info children =>
    if info.selfClosing || children.isEmpty then element (info.visible true) []
    else element (info.visible false) (visibleAll children)
  | text content => text content
  | attr item => attr item

/-- Pages without all that their markup does not show. -/
def visibleAll : List Node → List Node
  | [] => []
  | n :: rest => visible n :: visibleAll rest

end

/-- Whether an element is printed as a single tag. -/
def Single (info : Element) (children : List Node) : Prop :=
  info.selfClosing = true ∨ children = []

theorem visible_single {info : Element} {children : List Node} (h : Single info children) :
    visible (element info children) = element (info.visible true) [] := by
  unfold visible
  rcases h with h | rfl
  · simp only [h, Bool.true_or, if_true]
  · simp only [List.isEmpty_nil, Bool.or_true, if_true]

theorem visible_pair {info : Element} {children : List Node} (h : ¬ Single info children) :
    visible (element info children) = element (info.visible false) (visibleAll children) := by
  simp only [Single, not_or, Bool.not_eq_true] at h
  unfold visible
  rw [h.1, Bool.false_or, if_neg (by simpa using h.2)]

/-- Only a text looks like a text. -/
theorem visible_eq_text {n : Node} {content : String} (h : visible n = text content) :
    n = text content := by
  cases n with
  | element info children =>
    by_cases hs : Single info children
    · rw [visible_single hs] at h
      cases h
    · rw [visible_pair hs] at h
      cases h
  | text => simpa [visible] using h
  | _ => simp [visible] at h

/-- What looks like a pair of tags is one, and between the tags it looks alike too. -/
theorem visibleAll_of_pair {info shown : Element} {children inner : List Node}
    (h : visible (element info children) = element shown inner) (hs : shown.selfClosing = false) :
    visibleAll children = inner := by
  by_cases hc : Single info children
  · rw [visible_single hc] at h
    obtain ⟨rfl, -⟩ := element.inj h
    cases hs
  · rw [visible_pair hc] at h
    exact (element.inj h).2

theorem isText_visible (n : Node) : (visible n).isText = n.isText := by
  cases n with
  | element info children =>
    by_cases h : Single info children
    · rw [visible_single h]
      rfl
    · rw [visible_pair h]
      rfl
  | _ => simp [visible, isText, text?]

theorem visibleAll_eq_map (nodes : List Node) : visibleAll nodes = nodes.map visible := by
  induction nodes with
  | nil => rfl
  | cons n rest ih => rw [visibleAll, List.map_cons, ih]

theorem visibleAll_eq_nil {nodes : List Node} : visibleAll nodes = [] ↔ nodes = [] := by
  rw [visibleAll_eq_map, List.map_eq_nil_iff]

/-- A pair of tags is still one in the visible form. -/
theorem not_single_visible {info : Element} {children : List Node} (h : ¬ Single info children) :
    ¬ Single (info.visible false) (visibleAll children) := by
  rw [Single, visibleAll_eq_nil]
  exact fun hs => h (hs.imp_left fun hf => nomatch hf)

/-! ## Pages that markup can hold -/

mutual

theorem Proper.visible {p : String → Prop} : ∀ {n : Node}, Proper p n → Proper p n.visible
  | element info children, ⟨ht, ha, hc⟩ => by
    have hshown : ∀ single, ∀ a ∈ (info.visible single).attributes, AttributeName a.name :=
      fun _ a hm => ha a (List.mem_of_mem_filter hm)
    by_cases h : Single info children
    · rw [visible_single h]
      exact ⟨ht, hshown true, trivial⟩
    · rw [visible_pair h]
      exact ⟨ht, hshown false, ProperAll.visible hc⟩
  | text _, hp => by simpa [Node.visible] using hp

theorem ProperAll.visible {p : String → Prop} :
    ∀ {nodes : List Node}, ProperAll p nodes → ProperAll p (visibleAll nodes)
  | [], _ => trivial
  | n :: rest, ⟨hn, ht, hr⟩ => by
    refine ⟨Proper.visible hn, ?_, ProperAll.visible hr⟩
    rw [isText_visible]
    intro htext m hm
    cases rest with
    | nil => cases hm
    | cons next rest =>
      obtain rfl : next.visible = m := by simpa [visibleAll] using hm
      rw [isText_visible]
      exact ht htext next rfl

end

/-! ## Printing -/

variable (style : Style) (depth : Nat)

theorem print_single {info : Element} {children : List Node} (h : Single info children) :
    print style depth (element info children) = style.margin depth ++ info.singleTag := by
  by_cases hs : info.selfClosing = true
  · unfold print
    simp only [hs, if_true]
  · obtain rfl := h.resolve_left hs
    unfold print
    rw [if_neg hs]

theorem print_lone {info : Element} (h : info.selfClosing = false) (content : String) :
    print style depth (element info [text content]) =
      style.margin depth ++ info.openTag ++ content ++ info.closeTag := by
  unfold print
  simp only [h, Bool.false_eq_true, if_false]

theorem print_block {info : Element} {children : List Node} (h : ¬ Single info children)
    (hl : ∀ content, children ≠ [text content]) :
    print style depth (element info children) =
      style.margin depth ++ info.openTag ++ style.lineBreak ++
        style.lineBreak.intercalate (printAll style (depth + 1) children) ++ style.lineBreak ++
        style.margin depth ++ info.closeTag := by
  simp only [Single, not_or, Bool.not_eq_true] at h
  obtain ⟨hs, hne⟩ := h
  unfold print
  rw [hs, if_neg Bool.false_ne_true]
  split
  · exact absurd rfl hne
  · next content => exact absurd rfl (hl content)
  · rfl

end Node

theorem attributesMarkup_cons (a : Attribute) (rest : List Attribute) :
    attributesMarkup (a :: rest) =
      (if a.markup = "" then "" else " " ++ a.markup) ++ attributesMarkup rest := by
  unfold attributesMarkup
  by_cases h : a.markup = ""
  · simp [h]
  · simp [h, String.join_cons]

theorem Attribute.markup_of_not_shown {a : Attribute} (h : ¬ a.shown = true) : a.markup = "" := by
  have hv : a.value = .flag false := by simpa [Attribute.shown] using h
  simp [Attribute.markup, hv]

/-- A false flag leaves no trace in a tag. -/
theorem attributesMarkup_shown (attributes : List Attribute) :
    attributesMarkup (attributes.filter (·.shown)) = attributesMarkup attributes := by
  induction attributes with
  | nil => rfl
  | cons a rest ih =>
    by_cases h : a.shown = true
    · rw [List.filter_cons_of_pos h, attributesMarkup_cons, attributesMarkup_cons, ih]
    · rw [List.filter_cons_of_neg h, attributesMarkup_cons, ih,
        if_pos (Attribute.markup_of_not_shown h), String.empty_append]

theorem Element.heading_visible (e : Element) (single : Bool) :
    (e.visible single).heading = e.heading := by
  unfold Element.heading
  rw [show (e.visible single).attributes = e.attributes.filter (·.shown) from rfl,
    attributesMarkup_shown]
  rfl

namespace Node

variable (style : Style)

mutual

/-- **The markup of a page shows its visible form and nothing else.** -/
theorem print_visible : ∀ (n : Node) (depth : Nat),
    print style depth (visible n) = print style depth n
  | root children, depth => by
    unfold visible print
    rw [printAll_visibleAll children depth]
  | element info children, depth => by
    by_cases h : Single info children
    · rw [visible_single h, print_single style depth (.inl rfl), print_single style depth h]
      unfold Element.singleTag
      rw [Element.heading_visible]
    · have hopen : (info.visible false).openTag = info.openTag := by
        unfold Element.openTag
        rw [Element.heading_visible]
      by_cases hl : ∃ content, children = [text content]
      · obtain ⟨content, rfl⟩ := hl
        have hs : info.selfClosing = false := by simpa [Single] using h
        rw [visible_pair h, print_lone style depth hs, ← hopen]
        exact print_lone style depth rfl content
      · -- the visible form does not gain a lone text either
        have hlone : ∀ content, visibleAll children ≠ [text content] := by
          intro content he
          rcases children with _ | ⟨n, _ | ⟨m, rest⟩⟩
          · cases he
          · obtain ⟨hn, -⟩ := List.cons.inj he
            exact hl ⟨content, by rw [visible_eq_text hn]⟩
          · cases (List.cons.inj he).2
        rw [visible_pair h, print_block style depth (not_single_visible h) hlone,
          print_block style depth h (fun content he => hl ⟨content, he⟩),
          printAll_visibleAll children (depth + 1), hopen]
        rfl
  | text _, _ => by simp only [visible]
  | attr _, _ => by simp only [visible]

theorem printAll_visibleAll : ∀ (nodes : List Node) (depth : Nat),
    printAll style depth (visibleAll nodes) = printAll style depth nodes
  | [], _ => rfl
  | n :: rest, depth => by
    unfold visibleAll printAll
    rw [print_visible n depth, printAll_visibleAll rest depth]

end

end Node

/-! ## What does not reach the markup -/

theorem Element.visible_visible (e : Element) (single again : Bool) :
    (e.visible single).visible again = e.visible again := by
  simp only [Element.visible, List.filter_filter, Bool.and_self]

namespace Node

mutual

/-- The visible form of a page shows all there is to it. -/
theorem visible_visible : ∀ n : Node, n.visible.visible = n.visible
  | root children => by rw [visible, visible, visibleAll_visibleAll children]
  | element info children => by
    by_cases h : Single info children
    · rw [visible_single h, visible_single (.inl rfl), Element.visible_visible]
    · rw [visible_pair h, visible_pair (not_single_visible h), Element.visible_visible,
        visibleAll_visibleAll children]
  | text content => by rw [visible, visible]
  | attr item => by rw [visible, visible]

theorem visibleAll_visibleAll : ∀ nodes : List Node,
    visibleAll (visibleAll nodes) = visibleAll nodes
  | [] => rfl
  | n :: rest => by
    rw [visibleAll, visibleAll, visible_visible n, visibleAll_visibleAll rest]

end

/-- A page has the markup of its visible form. -/
theorem markup_visible (style : Style) (page : Node) :
    page.visible.markup style = page.markup style :=
  print_visible style.effective page 0

/-- **Nothing but the visible form of a page reaches its markup**: pages that look alike have
the same markup in every style, and so do a page and its visible form, which has nothing left
to drop. -/
theorem markup_eq_of_visible (page other : Node) :
    (∀ style, page.visible.markup style = page.markup style) ∧
      (page.visible = other.visible → ∀ style, page.markup style = other.markup style) ∧
      page.visible.visible = page.visible := by
  refine ⟨fun style => markup_visible style page, fun h style => ?_, visible_visible page⟩
  calc page.markup style
    _ = page.visible.markup style := (markup_visible style page).symm
    _ = other.visible.markup style := by rw [h]
    _ = other.markup style := markup_visible style other

/-- A card on the canvas, with a flag that is off and a line that hides a text, and the same
card with nothing to it but what is seen.  An attribute node that stands among the children
is no flag of the card. -/
theorem markup_eq_of_visible_card :
    let canvas : Canvas := { layout := some .flex, isContainer := some true, group := some .high }
    let flags : List Attribute := [⟨"off", .flag false⟩, ⟨"on", .flag true⟩]
    let info : Element := { id := some "c1", tag := "card", attributes := flags, canvas }
    let line : Element := { id := some "l1", tag := "hr", selfClosing := true }
    let off : Node := .attr ⟨"off", .flag false⟩
    let card : Node := .root [.element info [off, .element line [.text "hidden"], .root []]]
    let seen : Node := .root [.element { tag := "card", attributes := [⟨"on", .flag true⟩] }
      [off, .element { tag := "hr" } [], .root []]]
    card.visible = seen.visible ∧ ∀ style, card.markup style = seen.markup style := by
  intro canvas flags info line off card seen
  have h : card.visible = seen.visible := by decide
  exact ⟨h, (markup_eq_of_visible card seen).2.1 h⟩

end Node
end PageDesign

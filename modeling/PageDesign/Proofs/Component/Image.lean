import Mathlib.Data.List.Forall2
import PageDesign.Component.Config
import PageDesign.Proofs.Node.Preorder

/-! # What becomes of a configuration

A configuration becomes a page of one element.  On the way a prop loses its kind: a number
becomes the text of its digits, `null` a flag that is off, and a missing mark of self-closing
the mark `false`.  Nothing else is lost, at any depth: two configurations become the same page
if and only if they are alike but for that (`Child.toNode_eq_iff`).

And nothing is gained.  The elements of such a page have neither an id nor a canvas, no two of
their attributes share a name, and there is nothing below them but elements and texts.  Every
such tree comes from a configuration (`Child.exists_toNode_iff`), since its attributes can be
taken for props as they are.
-/
namespace PageDesign

/-! ## Configurations that become the same page -/

/-- Whether two components are alike but for what props and marks lose. -/
structure Component.Alike (a b : Component) : Prop where
  tag : a.tag = b.tag
  props : a.props.entries.map (fun prop => (prop.1, prop.2.toValue)) =
    b.props.entries.map fun prop => (prop.1, prop.2.toValue)
  selfClosing : a.selfClosing.getD false = b.selfClosing.getD false

/-- Whether two children are alike at every depth: texts are equal, components are alike, and
so are their children, one by one. -/
inductive Child.Alike : Child → Child → Prop
  | text (content : String) : Alike (.text content) (.text content)
  | component {a b : Component} {xs ys : List Child} (info : a.Alike b)
      (children : List.Forall₂ Alike xs ys) : Alike (.component a xs) (.component b ys)

theorem Component.toElement_eq_iff {a b : Component} :
    a.toElement = b.toElement ↔ a.Alike b := by
  have hprops : ∀ c : Component, c.props.attributes.map (fun attr => (attr.name, attr.value)) =
      c.props.entries.map fun prop => (prop.1, prop.2.toValue) := fun c => List.map_map
  have hinj : Function.Injective fun attr : Attribute => (attr.name, attr.value) := by
    rintro ⟨name, value⟩ ⟨name', value'⟩ h
    obtain ⟨rfl, rfl⟩ := Prod.mk.inj h
    rfl
  constructor
  · intro h
    obtain ⟨-, htag, hattributes, hclosing, -⟩ := Element.mk.inj h
    exact ⟨htag, by rw [← hprops, ← hprops, hattributes], hclosing⟩
  · rintro ⟨htag, h, hclosing⟩
    rw [← hprops, ← hprops] at h
    have hattributes := List.map_injective_iff.mpr hinj h
    rw [toElement, toElement, htag, hattributes, hclosing]

namespace Child

mutual

/-- **Two children become the same node if and only if they are alike.** -/
theorem toNode_eq_iff : ∀ a b : Child, toNode a = toNode b ↔ Alike a b
  | text s, text t => by
    constructor
    · intro h
      obtain rfl := Node.text.inj h
      exact .text s
    · rintro ⟨⟩
      rfl
  | component a xs, component b ys => by
    have hinfo := @Component.toElement_eq_iff a b
    have hchildren := toNodes_eq_iff xs ys
    constructor
    · intro h
      obtain ⟨he, hn⟩ := Node.element.inj h
      exact .component (hinfo.mp he) (hchildren.mp hn)
    · intro h
      cases h with
      | component ha hc => exact congrArg₂ Node.element (hinfo.mpr ha) (hchildren.mpr hc)
  | text _, component _ _ => iff_of_false (fun h => nomatch h) fun h => nomatch h
  | component _ _, text _ => iff_of_false (fun h => nomatch h) fun h => nomatch h

/-- Children become the same nodes if and only if they are alike one by one. -/
theorem toNodes_eq_iff : ∀ xs ys : List Child,
    toNodes xs = toNodes ys ↔ List.Forall₂ Alike xs ys
  | [], [] => iff_of_true rfl .nil
  | x :: xs, y :: ys => by
    rw [toNodes, toNodes, List.cons.injEq, toNode_eq_iff x y, toNodes_eq_iff xs ys,
      List.forall₂_cons]
  | [], _ :: _ => iff_of_false (fun h => nomatch h) fun h => nomatch h
  | _ :: _, [] => iff_of_false (fun h => nomatch h) fun h => nomatch h

end

end Child

/-! ## Pages that come from a configuration -/

/-- Whether an element can come from a component. -/
structure Element.Designed (info : Element) : Prop where
  id : info.id = none
  canvas : info.canvas = none
  distinct : (info.attributes.map (·.name)).Nodup

/-- Whether a node, apart from what is below it, can come from a child: it is a text, or an
element that can come from a component. -/
inductive Node.Designed : Node → Prop
  | text (content : String) : Designed (.text content)
  | element {info : Element} (children : List Node) (h : info.Designed) :
      Designed (.element info children)

theorem Component.designed_toElement (c : Component) : c.toElement.Designed := by
  have hnames : c.toElement.attributes.map (·.name) = c.props.entries.map (·.1) := List.map_map
  exact ⟨rfl, rfl, hnames ▸ c.props.distinct⟩

/-- A value of an attribute as the value of a prop. -/
def Scalar.ofValue : Value → Scalar
  | .flag on => .flag on
  | .text content => .text content

theorem Scalar.toValue_ofValue (v : Value) : (ofValue v).toValue = v := by
  cases v <;> rfl

/-- An element that can come from a component does. -/
theorem Component.exists_toElement {info : Element} (h : info.Designed) :
    ∃ c : Component, c.toElement = info := by
  obtain ⟨id, tag, attributes, closing, canvas⟩ := info
  obtain ⟨rfl, rfl, hdistinct⟩ := h
  have hkeys : (attributes.map fun attr => (attr.name, Scalar.ofValue attr.value)).map Prod.fst =
      attributes.map (·.name) := List.map_map
  refine ⟨{ tag, props := ⟨_, hkeys ▸ hdistinct⟩, selfClosing := some closing }, ?_⟩
  simp [toElement, Props.attributes, Function.comp_def, Scalar.toValue_ofValue]

namespace Child

mutual

/-- Whatever a child becomes is made of nodes that can come from children. -/
theorem designed_toNode : ∀ c : Child, ∀ n ∈ c.toNode.preorder, n.Designed
  | text content, n, h => by
    obtain rfl := List.mem_singleton.mp h
    exact .text content
  | component info children, n, h => by
    rcases List.mem_cons.mp h with rfl | h
    · exact .element _ info.designed_toElement
    · exact designed_toNodes children n h

theorem designed_toNodes : ∀ children : List Child,
    ∀ n ∈ Node.preorderAll (toNodes children), n.Designed
  | [], _, h => nomatch h
  | c :: rest, n, h => by
    rcases List.mem_append.mp h with h | h
    · exact designed_toNode c n h
    · exact designed_toNodes rest n h

end

/-- Nodes that come from children one by one come from a list of children. -/
theorem exists_toNodes {nodes : List Node} (h : ∀ n ∈ nodes, ∃ c : Child, c.toNode = n) :
    ∃ children, toNodes children = nodes := by
  induction nodes with
  | nil => exact ⟨[], rfl⟩
  | cons n rest ih =>
    obtain ⟨⟨c, rfl⟩, hrest⟩ := List.forall_mem_cons.mp h
    obtain ⟨children, rfl⟩ := ih hrest
    exact ⟨c :: children, rfl⟩

/-- **A tree comes from a child if and only if each of its nodes can.** -/
theorem exists_toNode_iff (n : Node) :
    (∃ c : Child, c.toNode = n) ↔ ∀ m ∈ n.preorder, m.Designed := by
  constructor
  · rintro ⟨c, rfl⟩
    exact designed_toNode c
  · intro h
    induction n using Node.childInduction with
    | step n ih =>
      rw [Node.preorder_eq, List.forall_mem_cons] at h
      obtain ⟨hn, hbelow⟩ := h
      obtain ⟨children, hchildren⟩ := exists_toNodes fun m hm =>
        ih m hm fun k hk => hbelow k (List.mem_flatMap.mpr ⟨m, hm, hk⟩)
      cases hn with
      | text content => exact ⟨.text content, rfl⟩
      | element nodes hinfo =>
        obtain ⟨c, rfl⟩ := Component.exists_toElement hinfo
        exact ⟨.component c children, congrArg (Node.element _) hchildren⟩

end Child

/-- **A configuration loses what its props and marks lose and nothing else, and becomes every
page that it can.**  Two configurations become the same page if and only if they are alike at
every depth.  A page comes from a configuration if and only if it is a root with one child, an
element, whose tree is made of texts and of elements without an id, without a canvas and with
attributes of distinct names. -/
theorem Config.page_exact :
    (∀ a b : Config, a.page = b.page ↔ a.toChild.Alike b.toChild) ∧
      ∀ page : Node, (∃ config : Config, config.page = page) ↔
        ∃ info nodes, page = .root [.element info nodes] ∧
          ∀ n ∈ (Node.element info nodes).preorder, n.Designed := by
  constructor
  · intro a b
    rw [← Child.toNode_eq_iff, page, page, Node.root.injEq, List.cons.injEq, and_iff_left rfl]
    rfl
  · intro page
    constructor
    · rintro ⟨config, rfl⟩
      exact ⟨_, _, rfl, Child.designed_toNode config.toChild⟩
    · rintro ⟨info, nodes, rfl, h⟩
      obtain ⟨c, hc⟩ := (Child.exists_toNode_iff _).mpr h
      cases c with
      | text content => cases hc
      | component component children =>
        exact ⟨{ info := component, children }, congrArg (fun n => Node.root [n]) hc⟩

end PageDesign

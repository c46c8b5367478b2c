import Mathlib.Algebra.BigOperators.Group.List.Lemmas
import PageDesign.Proofs.Component.Stored
import PageDesign.Proofs.Node.Preorder

/-! # The size of a design

The size of a page can be read off the design it comes from.  A design has components and texts
at all depths, and a height; its page has an element for each component, a text for each text,
a root above them (`Design.count_page`), and one level more than the design is high
(`Design.depth_page`).  A mark of self-closing makes no difference, since the children of the
component are still nodes of the page.

The elements with a tag are those whose component has it (`Design.length_findAll_hasTag`), so a
search for each of the tags finds every element once (`Design.sum_findAll_hasTag`).
-/
namespace PageDesign

/-! ## Components, texts and heights -/

namespace Child

mutual

/-- The components of a child at all depths. -/
def components : Child → List Component
  | text _ => []
  | component info children => info :: componentsAll children

/-- The components of children at all depths. -/
def componentsAll : List Child → List Component
  | [] => []
  | c :: rest => components c ++ componentsAll rest

end

mutual

/-- The texts of a child at all depths. -/
def texts : Child → List String
  | text content => [content]
  | component _ children => textsAll children

/-- The texts of children at all depths. -/
def textsAll : List Child → List String
  | [] => []
  | c :: rest => texts c ++ textsAll rest

end

mutual

/-- The height of a child: a component is one higher than the highest of its children. -/
def height : Child → Nat
  | text _ => 1
  | component _ children => 1 + heightAll children

/-- The greatest height of children. -/
def heightAll : List Child → Nat
  | [] => 0
  | c :: rest => max (height c) (heightAll rest)

end

end Child

namespace Design

/-- The configurations of a design as children. -/
def children (design : Design) : List Child := design.configs.map Config.toChild

/-- The components of a design at all depths. -/
def components (design : Design) : List Component := Child.componentsAll design.children

/-- The texts of a design at all depths. -/
def texts (design : Design) : List String := Child.textsAll design.children

/-- The greatest height of a configuration in a design; zero if there is none. -/
def height (design : Design) : Nat := Child.heightAll design.children

theorem page_eq (design : Design) : design.page = .root (Child.toNodes design.children) := by
  cases design with
  | one config => rfl
  | many configs =>
    refine congrArg Node.root ?_
    induction configs with
    | nil => rfl
    | cons config rest ih => exact congrArg (config.toNode :: ·) ih

end Design

/-! ## Nodes that come from children -/

namespace Child

mutual

theorem elements_toNode : ∀ c : Child,
    c.toNode.elements = c.components.map Component.toElement
  | text _ => Node.elements_text _
  | component info children => by
    rw [toNode, Node.elements_element, elementsAll_toNodes children, components, List.map_cons]

theorem elementsAll_toNodes : ∀ children : List Child,
    Node.elementsAll (toNodes children) = (componentsAll children).map Component.toElement
  | [] => Node.elementsAll_nil
  | c :: rest => by
    rw [toNodes, Node.elementsAll_cons, elements_toNode c, elementsAll_toNodes rest,
      componentsAll, List.map_append]

end

mutual

theorem count_toNode : ∀ c : Child, c.toNode.count = c.components.length + c.texts.length
  | text _ => rfl
  | component info children => by
    have ih := countAll_toNodes children
    rw [toNode, Node.count, components, List.length_cons, texts]
    omega

theorem countAll_toNodes : ∀ children : List Child,
    Node.countAll (toNodes children) = (componentsAll children).length + (textsAll children).length
  | [] => rfl
  | c :: rest => by
    have hc := count_toNode c
    have ih := countAll_toNodes rest
    rw [toNodes, Node.countAll, componentsAll, textsAll, List.length_append, List.length_append]
    omega

end

mutual

theorem depth_toNode : ∀ c : Child, c.toNode.depth = c.height
  | text _ => rfl
  | component info children => by
    rw [toNode, Node.depth, depthAll_toNodes children, height, Nat.add_comm]

theorem depthAll_toNodes : ∀ children : List Child,
    Node.depthAll (toNodes children) = heightAll children
  | [] => rfl
  | c :: rest => by
    rw [toNodes, Node.depthAll, depth_toNode c, depthAll_toNodes rest, heightAll]

end

end Child

/-- A search for elements by what they say about themselves finds as many as there are. -/
theorem Node.length_findAll (p : Element → Bool) (n : Node) :
    (n.findAll fun m => m.element?.any p).length = n.elements.countP p := by
  rw [findAll_eq, elements, List.countP_filterMap, List.countP_eq_length_filter]
  congr 2
  funext m
  cases m.element? <;> rfl

/-! ## Pages of designs -/

namespace Design

theorem elements_page (design : Design) :
    design.page.elements = design.components.map Component.toElement := by
  rw [page_eq, Node.elements_root, Child.elementsAll_toNodes, components]

/-- **A page has a node for each component, one for each text, and a root.** -/
theorem count_page (design : Design) :
    design.page.count = 1 + design.components.length + design.texts.length := by
  rw [page_eq, Node.count, Child.countAll_toNodes, components, texts]
  omega

/-- **A page has one level more than the highest of its configurations.** -/
theorem depth_page (design : Design) : design.page.depth = 1 + design.height := by
  rw [page_eq, Node.depth, Child.depthAll_toNodes, height, Nat.add_comm]

theorem elementCount_page (design : Design) :
    design.page.elementCount = design.components.length := by
  have hp : Node.isElement = fun m => m.element?.any fun _ => true := by
    funext m
    cases m <;> rfl
  rw [Node.elementCount, hp, Node.length_findAll, List.countP_true, elements_page,
    List.length_map]

/-- The elements with a tag are as many as the components with it. -/
theorem length_findAll_hasTag (design : Design) (tag : String) :
    (design.page.findAll (Node.hasTag tag)).length =
      (design.components.map (·.tag)).count tag := by
  have hp : Node.hasTag tag = fun m => m.element?.any (·.tag == tag) := by
    funext m
    cases m <;> rfl
  rw [hp, Node.length_findAll, elements_page, List.countP_map, List.count, List.countP_map]
  rfl

/-- **Searches for all tags of a design find every component once.** -/
theorem sum_findAll_hasTag (design : Design) :
    ((design.components.map (·.tag)).dedup.map fun tag =>
      (design.page.findAll (Node.hasTag tag)).length).sum = design.components.length := by
  simp only [length_findAll_hasTag]
  rw [List.sum_map_count_dedup_eq_length, List.length_map]

end Design
end PageDesign

import Mathlib.Data.Option.Basic
import PageDesign.Node.Stored
import PageDesign.Proofs.Json.Written
import PageDesign.Proofs.Json.Record
import PageDesign.Proofs.Node.Elements

/-! # The stored form of a page is read back

Every record of a page is read back from its stored form, and so is the page
(`Node.ofJson?_toJson`): a field that was left out is read as absent, a list by its items,
and a node by the kind that it names.  This is said of pages without floating-point numbers,
which only the canvas holds; no number at all is stored with such a page (`exact_toJson`).
-/
namespace PageDesign
open Json

/-! ## The canvas -/

namespace Dimension

/-- Whether a length is one of a style sheet. -/
def FloatFree : Dimension → Prop
  | pixels _ => False
  | css _ => True

theorem toJson_ne_null (d : Dimension) : d.toJson ≠ .null := by
  cases d <;> exact Json.noConfusion

theorem ofJson?_toJson {d : Dimension} (hd : d.FloatFree) : ofJson? d.toJson = some d := by
  cases d with
  | pixels x => exact hd.elim
  | css text => rfl

end Dimension

/-- Whether what the canvas knows about an element holds no floating-point number. -/
structure Canvas.FloatFree (c : Canvas) : Prop where
  position : c.position = none
  width : ∀ s ∈ c.size, ∀ d ∈ s.width, d.FloatFree
  height : ∀ s ∈ c.size, ∀ d ∈ s.height, d.FloatFree
  gap : ∀ f ∈ c.flex, f.gap = none

namespace Node

/-- Whether a page holds no floating-point number. -/
def FloatFree (n : Node) : Prop := ∀ e ∈ n.elements, ∀ c ∈ e.canvas, c.FloatFree

/-- Whether the trees of a list hold no floating-point number. -/
def FloatFreeAll (nodes : List Node) : Prop :=
  ∀ e ∈ elementsAll nodes, ∀ c ∈ e.canvas, c.FloatFree

theorem floatFree_root {children : List Node} :
    (root children).FloatFree ↔ FloatFreeAll children := by
  simp [FloatFree, FloatFreeAll]

theorem floatFree_element {info : Element} {children : List Node} :
    (element info children).FloatFree ↔
      (∀ c ∈ info.canvas, c.FloatFree) ∧ FloatFreeAll children := by
  simp [FloatFree, FloatFreeAll]

theorem floatFreeAll_cons {n : Node} {rest : List Node} :
    FloatFreeAll (n :: rest) ↔ n.FloatFree ∧ FloatFreeAll rest := by
  simp only [FloatFree, FloatFreeAll, elementsAll_cons, List.forall_mem_append]

theorem floatFreeAll_iff {nodes : List Node} : FloatFreeAll nodes ↔ ∀ n ∈ nodes, n.FloatFree := by
  induction nodes with
  | nil => simp [FloatFreeAll]
  | cons n rest ih => rw [floatFreeAll_cons, ih, List.forall_mem_cons]

end Node

theorem present_ne_null (table : List (String × Option Json)) : present table ≠ .null :=
  Json.noConfusion

theorem Size.ofJson?_toJson {s : Size} (hw : ∀ d ∈ s.width, d.FloatFree)
    (hh : ∀ d ∈ s.height, d.FloatFree) : ofJson? s.toJson = some s := by
  obtain ⟨ps, hps, hvalues⟩ := @record?_obj s.toJson
    [("width", s.width.map Dimension.toJson), ("height", s.height.map Dimension.toJson)]
    ["width", "height"] rfl rfl (by decide)
  simp only [List.map_cons, List.map_nil, List.map_eq_cons_iff, List.map_eq_nil_iff] at hvalues
  obtain ⟨width, _, rfl, hwidth, height, _, rfl, hheight, rfl⟩ := hvalues
  rw [ofJson?, hps]
  simp only [Option.bind_eq_bind, Option.bind_some,
    optional_eq hwidth Dimension.toJson_ne_null fun d hd => Dimension.ofJson?_toJson (hw d hd),
    optional_eq hheight Dimension.toJson_ne_null fun d hd => Dimension.ofJson?_toJson (hh d hd)]
  rfl

theorem Layout.case?_toJson (l : Layout) : case? names l.toJson = some l := by
  cases l <;> rfl

theorem Layout.toJson_ne_null (l : Layout) : l.toJson ≠ .null := by
  cases l <;> exact Json.noConfusion

theorem Group.case?_toJson (g : Group) : case? names g.toJson = some g := by
  cases g <;> rfl

theorem FlexBox.ofJson?_toJson {f : FlexBox} (hgap : f.gap = none) :
    ofJson? f.toJson = some f := by
  obtain ⟨ps, hps, hvalues⟩ := @record?_obj f.toJson
    [("direction", f.direction.map .str), ("justify", f.justify.map .str),
      ("align", f.align.map .str), ("wrap", f.wrap.map .str),
      ("gap", f.gap.map fun x => .number (.float x))]
    ["direction", "justify", "align", "wrap", "gap"] rfl rfl (by decide)
  simp only [List.map_cons, List.map_nil, List.map_eq_cons_iff, List.map_eq_nil_iff] at hvalues
  obtain ⟨direction, _, rfl, hdirection, justify, _, rfl, hjustify, align, _, rfl, halign,
    wrap, _, rfl, hwrap, gap, _, rfl, hg, rfl⟩ := hvalues
  have hstr : ∀ text, Json.str text ≠ .null := fun _ => Json.noConfusion
  have hread : ∀ text, str? (.str text) = some text := fun _ => rfl
  rw [ofJson?, hps]
  simp only [Option.bind_eq_bind, Option.bind_some, optional_eq hdirection hstr fun a _ => hread a,
    optional_eq hjustify hstr fun a _ => hread a, optional_eq halign hstr fun a _ => hread a,
    optional_eq hwrap hstr fun a _ => hread a,
    @optional_eq _ _ _ float? _ _ hg (fun _ => Json.noConfusion) (by simp [hgap])]
  rfl

theorem Canvas.ofJson?_toJson {c : Canvas} (hc : c.FloatFree) : ofJson? c.toJson = some c := by
  obtain ⟨ps, hps, hvalues⟩ := @record?_obj c.toJson
    [("position", c.position.map Position.toJson), ("size", c.size.map Size.toJson),
      ("layout", c.layout.map Layout.toJson), ("isContainer", c.isContainer.map .bool),
      ("category", c.group.map Group.toJson), ("flexProps", c.flex.map FlexBox.toJson)]
    ["position", "size", "layout", "isContainer", "category", "flexProps"] rfl rfl (by decide)
  simp only [List.map_cons, List.map_nil, List.map_eq_cons_iff, List.map_eq_nil_iff] at hvalues
  obtain ⟨position, _, rfl, hposition, size, _, rfl, hsize, layout, _, rfl, hlayout,
    isContainer, _, rfl, hcontainer, group, _, rfl, hgroup, flex, _, rfl, hflex, rfl⟩ := hvalues
  rw [ofJson?, hps]
  simp only [Option.bind_eq_bind, Option.bind_some,
    @optional_eq _ _ _ Position.ofJson? _ _ hposition (fun _ => Json.noConfusion)
      (by simp [hc.position]),
    optional_eq hsize (fun _ => present_ne_null _) fun s hs =>
      Size.ofJson?_toJson (hc.width s hs) (hc.height s hs),
    optional_eq hlayout Layout.toJson_ne_null fun l _ => l.case?_toJson,
    @optional_eq _ _ _ bool? _ _ hcontainer (fun _ => Json.noConfusion) fun _ _ => rfl,
    optional_eq hgroup (fun _ => Json.noConfusion) fun g _ => g.case?_toJson,
    optional_eq hflex (fun _ => present_ne_null _) fun f hf => FlexBox.ofJson?_toJson (hc.gap f hf)]
  rfl

/-! ## Attributes and elements -/

theorem Value.ofJson?_toJson (x : Value) : ofJson? x.toJson = some x := by
  cases x <;> rfl

theorem Attribute.ofFields?_members {v : Json} {members : List (String × Part v)} {a : Attribute}
    (hm : plain members = a.members) : ofFields? (.named members) = some a := by
  obtain ⟨ps, hps, hvalues⟩ := @pick?_named v members
    [("name", some (.str a.name)), ("value", some a.value.toJson)] ["name", "value"] rfl
    (by decide) hm
  simp only [List.map_cons, List.map_nil, List.map_eq_cons_iff, List.map_eq_nil_iff] at hvalues
  obtain ⟨name, _, rfl, hname, value, _, rfl, hvalue, rfl⟩ := hvalues
  rw [ofFields?, hps]
  simp only [Option.bind_eq_bind, Option.bind_some, @required_eq _ _ _ _ str? hname,
    @required_eq _ _ _ _ Value.ofJson? hvalue, Value.ofJson?_toJson]
  rfl

theorem Attribute.ofJson?_members (a : Attribute) : ofJson? (.obj a.members) = some a := by
  obtain ⟨members, hf, hm⟩ := @fields?_obj (.obj a.members) a.members rfl
  rw [ofJson?, hf]
  exact ofFields?_members hm

/-- The fields of a stored element, its children given. -/
def Element.fields (e : Element) (children : List Json) : List (String × Option Json) :=
  [("id", e.id.map Json.str), ("tag", some (.str e.tag)),
    ("attributes", some (.arr (e.attributes.map fun a => .obj a.members))),
    ("children", some (.arr children)), ("isSelfClosing", some (.bool e.selfClosing)),
    ("meta", e.canvas.map Canvas.toJson)]

theorem Element.members_eq (e : Element) (children : List Json) :
    e.members children = presentMembers (e.fields children) := rfl

theorem Element.ofFields?_members {v : Json} {members : List (String × Part v)} {e : Element}
    {nodes : List Node} {enc : Node → Json} {read : Json → Option Node}
    (hm : plain members = e.members (nodes.map enc)) (he : ∀ c ∈ e.canvas, c.FloatFree)
    (hread : ∀ n ∈ nodes, read (enc n) = some n) :
    ofFields? (read ·.1) (.named members) = some (e, nodes) := by
  obtain ⟨ps, hps, hvalues⟩ := @pick?_named v members (e.fields (nodes.map enc))
    ["id", "tag", "attributes", "children", "isSelfClosing", "meta"] rfl (by decide) hm
  simp only [Element.fields, List.map_cons, List.map_nil, List.map_eq_cons_iff,
    List.map_eq_nil_iff] at hvalues
  obtain ⟨id, _, rfl, hid, tag, _, rfl, htag, attributes, _, rfl, hattributes, children, _, rfl,
    hchildren, selfClosing, _, rfl, hclosing, canvas, _, rfl, hcanvas, rfl⟩ := hvalues
  rw [ofFields?, hps]
  simp only [Option.bind_eq_bind, Option.bind_some,
    @optional_eq _ _ _ str? _ _ hid (fun _ => Json.noConfusion) fun _ _ => rfl,
    @required_eq _ _ _ _ str? htag,
    listOf_eq hattributes fun a _ => a.ofJson?_members, listOf_eq hchildren hread,
    @orElse_eq _ _ _ _ bool? _ hclosing,
    optional_eq hcanvas (fun _ => present_ne_null _) fun c hc => Canvas.ofJson?_toJson (he c hc)]
  rfl

/-- No field of an element is called as the member that names the kind of a node. -/
theorem Element.type_notMem_members (e : Element) (children : List Json) :
    "type" ∉ (e.members children).map Prod.fst := by
  intro h
  have hkey := (keys_presentMembers (e.fields children)).subset h
  simp [fields] at hkey

/-! ## Nodes -/

namespace Node

theorem toJsonList_eq (nodes : List Node) : toJsonList nodes = nodes.map toJson := by
  induction nodes with
  | nil => rfl
  | cons n rest ih => rw [toJsonList, ih, List.map_cons]

/-- The kind of a written node is found in front of its other fields. -/
theorem tagged?_obj {v : Json} {name : String} {kind : Kind} {ms : List (String × Json)}
    (hv : v = .obj (("type", .str name) :: ms)) (hkind : Kind.names.lookup name = some kind)
    (hms : "type" ∉ ms.map Prod.fst) (place : Place) :
    ∃ members, tagged? place v = some (kind, .named members) ∧ plain members = ms := by
  obtain ⟨members, hf, hm⟩ := fields?_obj hv
  obtain ⟨m, rest, rfl, hfirst, rfl⟩ := List.map_eq_cons_iff.mp hm
  obtain ⟨htype, hstr⟩ := Prod.mk.inj hfirst
  have hrest : ∀ x ∈ rest, x.1 ≠ "type" := by
    intro x hx he
    refine hms (List.mem_map.mpr ⟨(x.1, x.2.1), List.mem_map_of_mem hx, he⟩)
  have hthis : (m :: rest).filter (·.1 == "type") = [m] := by
    rw [List.filter_cons_of_pos (by simp [htype]), List.filter_eq_nil_iff.mpr]
    simpa using hrest
  have hothers : (m :: rest).filter (·.1 != "type") = rest := by
    rw [List.filter_cons_of_neg (by simp [htype]), List.filter_eq_self]
    simpa using hrest
  refine ⟨rest, ?_, rfl⟩
  unfold tagged?
  simp only [hf, hthis, hothers]
  have hread : Kind.ofJson? place m.2.1 = some kind := by
    rw [hstr, ← hkind]
    cases place <;> rfl
  rw [hread]
  rfl

/-- A root is read along with the items of its list, which may be left out. -/
theorem ofJson?_root {place : Place} {stored : Option (List Json)} {children : List Node}
    (h : (stored.getD []).mapM (ofJson? .inside) = some children) :
    ofJson? place
        (.obj (("type", .str "Root") :: presentMembers [("children", stored.map .arr)])) =
      some (root children) := by
  have htype : "type" ∉ (presentMembers [("children", stored.map Json.arr)]).map Prod.fst := by
    intro hkey
    simpa using (keys_presentMembers _).subset hkey
  obtain ⟨members, htagged, hm⟩ := @tagged?_obj _ "Root" .root _ rfl rfl htype place
  obtain ⟨ps, hps, hvalues⟩ := @pick?_named _ members _ ["children"] rfl
    (by decide) hm
  simp only [List.map_cons, List.map_nil, List.map_eq_cons_iff, List.map_eq_nil_iff] at hvalues
  obtain ⟨p, _, rfl, hp, rfl⟩ := hvalues
  have hread : orElse [] (listOf fun q => ofJson? .inside q.1) p = some children := by
    cases stored with
    | none =>
      obtain rfl : p = none := Option.map_eq_none_iff.mp hp
      exact h
    | some items =>
      obtain ⟨q, rfl, hq⟩ := Option.map_eq_some_iff.mp hp
      exact (listOf_arr hq).trans h
  rw [ofJson?, htagged]
  simp only [hps, Option.bind_eq_bind, Option.bind_some, hread]
  rfl

mutual

/-- **A page is read back from its stored form**, in any place. -/
theorem ofJson?_toJson (place : Place) : ∀ n : Node, n.FloatFree → ofJson? place n.toJson = some n
  | root children, hn => by
    have ih := ofJson?_toJson_of_mem children (floatFree_root.mp hn)
    rw [toJson, toJsonList_eq]
    exact @ofJson?_root place (some (children.map toJson)) children (mapM_eq ih)
  | element info children, hn => by
    obtain ⟨hcanvas, hchildren⟩ := floatFree_element.mp hn
    have ih := ofJson?_toJson_of_mem children hchildren
    obtain ⟨members, htagged, hm⟩ := @tagged?_obj (toJson (element info children)) "Element"
      .element _ rfl rfl (info.type_notMem_members _) place
    rw [ofJson?, htagged]
    rw [toJsonList_eq] at hm
    simp only [Element.ofFields?_members hm hcanvas ih]
    rfl
  | text content, _ => by
    obtain ⟨members, htagged, hm⟩ := @tagged?_obj (toJson (text content)) "Text" .text
      [("content", .str content)] rfl rfl (by simp) place
    obtain ⟨ps, hps, hvalues⟩ := @pick?_named _ members [("content", some (.str content))]
      ["content"] rfl (by decide) hm
    simp only [List.map_cons, List.map_nil, List.map_eq_cons_iff, List.map_eq_nil_iff] at hvalues
    obtain ⟨p, _, rfl, hp, rfl⟩ := hvalues
    rw [ofJson?, htagged]
    simp only [hps, Option.bind_eq_bind, Option.bind_some, @required_eq _ _ _ _ str? hp]
    rfl
  | attr item, _ => by
    obtain ⟨members, htagged, hm⟩ := @tagged?_obj (toJson (attr item)) "Attribute" .attr _ rfl rfl
      (by simp [Attribute.members]) place
    rw [ofJson?, htagged]
    simp only [Attribute.ofFields?_members hm]
    rfl

theorem ofJson?_toJson_of_mem : ∀ nodes : List Node, FloatFreeAll nodes →
    ∀ n ∈ nodes, ofJson? .inside n.toJson = some n
  | [], _ => by simp
  | n :: rest, h => by
    obtain ⟨hn, hrest⟩ := floatFreeAll_cons.mp h
    rw [List.forall_mem_cons]
    exact ⟨ofJson?_toJson .inside n hn, ofJson?_toJson_of_mem rest hrest⟩

end

/-! ## Numbers of the stored form -/

theorem exact_present {table : List (String × Option Json)} :
    Exact (present table) ↔ ∀ field ∈ table, ∀ v ∈ field.2, Exact v := by
  rw [← @forall_mem_presentMembers _ Exact, ← exactMembers_iff]
  exact Iff.rfl

theorem exact_dimension {d : Dimension} (hd : d.FloatFree) : Exact d.toJson := by
  cases d with
  | pixels x => exact hd.elim
  | css text => trivial

theorem exact_canvas {c : Canvas} (hc : c.FloatFree) : Exact c.toJson := by
  have hsize : ∀ s ∈ c.size, Exact s.toJson := by
    intro s hs
    refine exact_present.mpr ?_
    simp only [List.forall_mem_cons, Option.forall_mem_map, List.not_mem_nil]
    exact ⟨fun d hd => exact_dimension (hc.width s hs d hd),
      fun d hd => exact_dimension (hc.height s hs d hd), by simp⟩
  have hflex : ∀ f ∈ c.flex, Exact f.toJson := by
    intro f hf
    refine exact_present.mpr ?_
    simp only [List.forall_mem_cons, Option.forall_mem_map, List.not_mem_nil]
    exact ⟨fun _ _ => trivial, fun _ _ => trivial, fun _ _ => trivial, fun _ _ => trivial,
      by simp [hc.gap f hf], by simp⟩
  refine exact_present.mpr ?_
  simp only [List.forall_mem_cons, Option.forall_mem_map, List.not_mem_nil]
  refine ⟨by simp [hc.position], hsize, fun l _ => ?_, fun _ _ => trivial, fun _ _ => trivial,
    hflex, by simp⟩
  cases l <;> trivial

theorem exact_members {e : Element} (he : ∀ c ∈ e.canvas, c.FloatFree) {children : List Json}
    (hc : ExactItems children) : ExactMembers (e.members children) := by
  have hattributes : ∀ a : Attribute, Exact (.obj a.members) := by
    intro a
    cases hv : a.value <;>
      simp [Exact, ExactMembers, Attribute.members, Value.toJson, hv]
  rw [exactMembers_iff, Element.members_eq, forall_mem_presentMembers]
  simp only [Element.fields, List.forall_mem_cons, Option.forall_mem_map, Option.mem_some_iff,
    forall_eq', List.not_mem_nil]
  refine ⟨fun _ _ => trivial, trivial, ?_, hc, trivial, fun c hc => exact_canvas (he c hc), by simp⟩
  rw [Exact, exactItems_iff]
  simpa using fun a _ => hattributes a

mutual

/-- No number is stored with a page that holds no floating-point number. -/
theorem exact_toJson : ∀ n : Node, n.FloatFree → Exact n.toJson
  | root children, hn => by
    exact ⟨trivial, exact_toJsonList children (floatFree_root.mp hn), trivial⟩
  | element info children, hn => by
    obtain ⟨hcanvas, hchildren⟩ := floatFree_element.mp hn
    exact ⟨trivial, exact_members hcanvas (exact_toJsonList children hchildren)⟩
  | text _, _ => ⟨trivial, trivial, trivial⟩
  | attr item, _ => by
    cases hv : item.value <;>
      simp [toJson, Exact, ExactMembers, Attribute.members, Value.toJson, hv]

theorem exact_toJsonList : ∀ nodes : List Node, FloatFreeAll nodes → ExactItems (toJsonList nodes)
  | [], _ => trivial
  | n :: rest, h => by
    obtain ⟨hn, hrest⟩ := floatFreeAll_cons.mp h
    exact ⟨exact_toJson n hn, exact_toJsonList rest hrest⟩

end

end Node
end PageDesign

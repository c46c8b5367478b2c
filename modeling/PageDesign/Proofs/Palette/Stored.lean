import PageDesign.Palette.Stored
import PageDesign.Proofs.Component.Stored
import PageDesign.Proofs.Json.Shape
import PageDesign.Proofs.Node.Reload

/-! # The stored form of palettes is read back

A palette is read back from its stored form (`Palette.ofJson?_toJson`), which has the shape
that is expected of it (`Palette.writtenIn`), so the palette is loaded from its text.  This is
said of the palettes whose templates can be stored: they hold no floating-point number, and
have at most sixty levels (`Template.Storable`).

A palette, its sections and what they offer take up five levels of nesting, which leaves 122
for a template.  Those of the stock palette can all be stored (`Palette.storable_stock`).
-/
namespace PageDesign
open Json

/-! ## The shape of an element -/

theorem Position.fits (p : Position) : shape.Fits p.toJson := by
  have hnumber : ∀ x, Shape.number.Fits (.number (.float x)) := fun _ => ⟨rfl, rfl⟩
  exact Shape.fits_record (.cons (fills_value (hnumber p.x))
    (.cons (fills_value (hnumber p.y)) .nil)) (by decide)

theorem Dimension.isSome_ofJson? (d : Dimension) : (ofJson? d.toJson).isSome = true := by
  cases d <;> rfl

theorem Size.fits (s : Size) : shape.Fits s.toJson := by
  have hlength : ∀ d : Dimension,
      (Shape.optional (.whole fun v => (Dimension.ofJson? v).isSome)).Fits d.toJson :=
    fun d => .inr d.isSome_ofJson?
  exact Shape.fits_record (.cons (fills_map rfl fun d _ => hlength d)
    (.cons (fills_map rfl fun d _ => hlength d) .nil)) (by decide)

theorem FlexBox.fits (f : FlexBox) : shape.Fits f.toJson := by
  have htext : ∀ content, (Shape.optional .text).Fits (.str content) :=
    fun _ => .inr ⟨rfl, rfl⟩
  have hnumber : ∀ x, (Shape.optional .number).Fits (.number (.float x)) :=
    fun _ => .inr ⟨rfl, rfl⟩
  exact Shape.fits_record (.cons (fills_map rfl fun a _ => htext a)
    (.cons (fills_map rfl fun a _ => htext a) (.cons (fills_map rfl fun a _ => htext a)
      (.cons (fills_map rfl fun a _ => htext a)
        (.cons (fills_map rfl fun x _ => hnumber x) .nil))))) (by decide)

theorem Layout.fits (l : Layout) : (Shape.case (names.map (·.1))).Fits l.toJson := by
  cases l <;> exact ⟨_, rfl, by decide⟩

theorem Group.contains_name (g : Group) : (names.map (·.1)).contains g.name = true := by
  cases g <;> decide

theorem Canvas.fits (c : Canvas) : shape.Fits c.toJson :=
  Shape.fits_record (.cons (fills_map rfl fun p _ => .inr p.fits)
    (.cons (fills_map rfl fun s _ => .inr s.fits) (.cons (fills_map rfl fun l _ => .inr l.fits)
      (.cons (fills_map rfl fun _ _ => .inr ⟨rfl, rfl⟩)
        (.cons (fills_map rfl fun g _ => .inr ⟨g.name, rfl, g.contains_name⟩)
          (.cons (fills_map rfl fun f _ => .inr f.fits) .nil)))))) (by decide)

theorem Attribute.fits (a : Attribute) : shape.Fits (.obj a.members) := by
  have hname : Shape.text.Fits (.str a.name) := ⟨rfl, rfl⟩
  have hvalue : (Shape.whole fun v => (Value.ofJson? v).isSome).Fits a.value.toJson := by
    rw [Shape.Fits, Value.ofJson?_toJson]
    rfl
  exact Shape.fits_record (.cons (fills_value hname) (.cons (fills_value hvalue) .nil)) (by decide)

/-- An element is written in its shape if its children can be read. -/
theorem Element.fits (e : Element) {children : List Json}
    (h : ∀ v ∈ children, (Node.ofJson? .alone v).isSome = true) :
    shape.Fits (.obj (e.members children)) := by
  have htext : ∀ content, Shape.text.Fits (.str content) := fun _ => ⟨rfl, rfl⟩
  have hattributes : (Shape.defaulted (.list Attribute.shape)).Fits
      (.arr (e.attributes.map fun a => .obj a.members)) :=
    ⟨_, rfl, List.forall_mem_map.mpr fun a _ => a.fits⟩
  have hchildren : (Shape.defaulted (.list (.whole fun v => (Node.ofJson? .alone v).isSome))).Fits
      (.arr children) := ⟨_, rfl, h⟩
  have hflag : (Shape.defaulted .flag).Fits (.bool e.selfClosing) := ⟨rfl, rfl⟩
  have hcanvas : ∀ c : Canvas, (Shape.optional Canvas.shape).Fits c.toJson := fun c => .inr c.fits
  exact Shape.fits_record (.cons (fills_map rfl fun id _ => .inr (htext id))
    (.cons (fills_value (htext e.tag)) (.cons (fills_value hattributes)
      (.cons (fills_value hchildren) (.cons (fills_value hflag)
        (.cons (fills_map rfl fun c _ => hcanvas c) .nil)))))) (by decide)

/-! ## Templates -/

namespace Template

/-- Whether a template can be stored: it holds no floating-point number, and has at most sixty
levels. -/
structure Storable (t : Template) : Prop where
  floatFree : t.toNode.FloatFree
  depth_le : t.toNode.depth ≤ 60

variable {t : Template}

theorem toJson_eq (t : Template) :
    t.toJson = .obj (t.info.members (t.children.map Node.toJson)) := by
  rw [toJson, Node.toJsonList_eq]

/-- The children of a template are read as nodes that stand by themselves. -/
theorem Storable.children (h : t.Storable) :
    ∀ n ∈ t.children, Node.ofJson? .alone n.toJson = some n := by
  obtain ⟨-, hchildren⟩ := Node.floatFree_element.mp h.floatFree
  exact fun n hn => Node.ofJson?_toJson .alone n (Node.floatFreeAll_iff.mp hchildren n hn)

/-- A template is read back, although its kind is not stored. -/
theorem ofJson?_toJson (h : t.Storable) : ofJson? t.toJson = some t := by
  obtain ⟨hcanvas, -⟩ := Node.floatFree_element.mp h.floatFree
  obtain ⟨members, hf, hm⟩ := fields?_obj t.toJson_eq
  rw [ofJson?, hf]
  simp only [Option.bind_eq_bind, Option.bind_some, Element.ofFields?_members hm hcanvas h.children]
  rfl

/-- **A template is written in the shape of an element.** -/
theorem writtenIn (h : t.Storable) : WrittenIn 122 Element.shape t.toJson where
  fits := by
    rw [toJson_eq]
    refine t.info.fits (List.forall_mem_map.mpr fun n hn => ?_)
    rw [h.children n hn]
    rfl
  exact := (Node.exact_toJson t.toNode h.floatFree).2
  nesting_le := by
    have hlevels := (Node.nesting_toJson t.toNode).2
    have hdepth := (Node.depth_bounds t.toNode).1
    have hle := h.depth_le
    -- as a node it has one more member, which is not nested
    have hsame : nesting t.toJson ≤ nesting t.toNode.toJson :=
      Nat.succ_le_succ (Nat.le_max_right _ _)
    omega

end Template

/-! ## Palettes -/

namespace Offer
variable {o : Offer}

theorem ofJson?_toJson (h : o.template.Storable) : ofJson? o.toJson = some o := by
  obtain ⟨ps, hps, hvalues⟩ := @record?_obj o.toJson
    [("name", some (.str o.name)), ("label", some (.str o.label)),
      ("category", some o.group.toJson), ("template", some o.template.toJson)]
    ["name", "label", "category", "template"] rfl rfl (by decide)
  simp only [List.map_cons, List.map_nil, List.map_eq_cons_iff, List.map_eq_nil_iff] at hvalues
  obtain ⟨name, _, rfl, hname, label, _, rfl, hlabel, group, _, rfl, hgroup, template, _, rfl,
    htemplate, rfl⟩ := hvalues
  rw [ofJson?, hps]
  simp only [Option.bind_eq_bind, Option.bind_some, @required_eq _ _ _ _ str? hname,
    @required_eq _ _ _ _ str? hlabel, @required_eq _ _ _ _ (case? Group.names) hgroup,
    Group.case?_toJson, @required_eq _ _ _ _ Template.ofJson? htemplate,
    Template.ofJson?_toJson h]
  rfl

theorem writtenIn (h : o.template.Storable) : WrittenIn 123 shape o.toJson :=
  .record (.cons (fills_value .text) (.cons (fills_value .text)
    (.cons (fills_value (.case o.group.contains_name))
      (.cons (fills_value (Template.writtenIn h)) .nil)))) (by decide)

end Offer

namespace Section
variable {s : Section}

theorem ofJson?_toJson (h : ∀ o ∈ s.offers, o.template.Storable) : ofJson? s.toJson = some s := by
  obtain ⟨ps, hps, hvalues⟩ := @record?_obj s.toJson
    [("name", some s.group.toJson), ("label", some (.str s.label)),
      ("components", some (.arr (s.offers.map Offer.toJson)))]
    ["name", "label", "components"] rfl rfl (by decide)
  simp only [List.map_cons, List.map_nil, List.map_eq_cons_iff, List.map_eq_nil_iff] at hvalues
  obtain ⟨group, _, rfl, hgroup, label, _, rfl, hlabel, offers, _, rfl, hoffers, rfl⟩ := hvalues
  have hread := requiredList_eq hoffers fun o ho => Offer.ofJson?_toJson (h o ho)
  rw [ofJson?, hps]
  simp only [Option.bind_eq_bind, Option.bind_some, @required_eq _ _ _ _ str? hlabel,
    @required_eq _ _ _ _ (case? Group.names) hgroup, Group.case?_toJson, hread]
  rfl

theorem writtenIn (h : ∀ o ∈ s.offers, o.template.Storable) : WrittenIn 125 shape s.toJson := by
  have hoffers : WrittenIn 124 (.list Offer.shape) (.arr (s.offers.map Offer.toJson)) :=
    .list (List.forall_mem_map.mpr fun o ho => Offer.writtenIn (h o ho))
  exact .record (.cons (fills_value (.case s.group.contains_name)) (.cons (fills_value .text)
    (.cons (fills_value hoffers) .nil))) (by decide)

end Section

namespace Palette
variable {p : Palette}

theorem ofJson?_toJson (h : ∀ o ∈ p.offers, o.template.Storable) : ofJson? p.toJson = some p := by
  obtain ⟨ps, hps, hvalues⟩ := @record?_obj p.toJson
    [("categories", some (.arr (p.sections.map Section.toJson)))] ["categories"] rfl rfl (by decide)
  simp only [List.map_cons, List.map_nil, List.map_eq_cons_iff, List.map_eq_nil_iff] at hvalues
  obtain ⟨sections, _, rfl, hsections, rfl⟩ := hvalues
  have hread := requiredList_eq hsections fun s hs =>
    Section.ofJson?_toJson fun o ho => h o (List.mem_flatMap.mpr ⟨s, hs, ho⟩)
  rw [ofJson?, hps]
  simp only [Option.bind_eq_bind, Option.bind_some, hread]
  rfl

theorem writtenIn (h : ∀ o ∈ p.offers, o.template.Storable) :
    WrittenIn nestingLimit shape p.toJson := by
  have hsections : WrittenIn 126 (.list Section.shape) (.arr (p.sections.map Section.toJson)) :=
    .list (List.forall_mem_map.mpr fun s hs =>
      Section.writtenIn fun o ho => h o (List.mem_flatMap.mpr ⟨s, hs, ho⟩))
  exact .record (.cons (fills_value hsections) .nil) (by decide)

end Palette

/-! ## The stock palette -/

namespace Palette

theorem storable_textOffer (name label : String) (group : Group) (attributes : List Attribute)
    (content : String) {canvas : Canvas} (h : canvas.FloatFree) :
    (textOffer name label group attributes content canvas).template.Storable where
  floatFree := by
    refine Node.floatFree_element.mpr ⟨fun c hc => ?_, by simp [textOffer, Node.FloatFreeAll]⟩
    obtain rfl := Option.some.inj hc
    exact h
  depth_le := by
    show 2 ≤ 60
    decide

/-- Every template of the stock palette can be stored. -/
theorem storable_stock : ∀ o ∈ stock.offers, o.template.Storable := by
  have hcontrol : controlCanvas.FloatFree :=
    ⟨rfl, by simp [controlCanvas], by simp [controlCanvas], by simp [controlCanvas]⟩
  have hwide : Canvas.FloatFree
      { size := some { width := some (.css "100%") }, isContainer := some true } :=
    ⟨rfl, by simp [Dimension.FloatFree], by simp, by simp⟩
  have hoffers : stock.offers = [button, inputField, card] := rfl
  rw [hoffers, List.forall_mem_cons, List.forall_mem_cons, List.forall_mem_singleton]
  exact ⟨storable_textOffer _ _ _ _ _ hcontrol, storable_textOffer _ _ _ _ _ hcontrol,
    storable_textOffer _ _ _ _ _ hwide⟩

end Palette

/-! ## Texts -/

/-- **Designs and palettes come back from the texts that are written for them.**  A design does
if its numbers are integers of sixty-four bits and at most 63 of its components stand in one
another; a palette does if its templates hold no floating-point number and have at most sixty
levels. -/
theorem come_back_of_written :
    (∀ (design : Design) (source : String), Written design.toJson source →
      (∀ config ∈ design.configs, config.toChild.Exact ∧ config.toChild.depth ≤ 63) →
      Design.read source = .ok design ∧ Design.load source = .ok design) ∧
    ∀ (p : Palette) (source : String), (source = p.text ∨ source = p.toJson.compact) →
      (∀ o ∈ p.offers, o.template.toNode.FloatFree ∧ o.template.toNode.depth ≤ 60) →
      Palette.load source = .ok p := by
  constructor
  · intro design source hsource hconfigs
    exact (Design.loads_written hsource fun config hc => (hconfigs config hc).1).1
      fun config hc => (hconfigs config hc).2
  · intro p source hsource hoffers
    have hstorable : ∀ o ∈ p.offers, o.template.Storable := fun o ho =>
      ⟨(hoffers o ho).1, (hoffers o ho).2⟩
    have hwritten : Written p.toJson source := by
      rcases hsource with rfl | rfl
      · exact .pretty
      · exact .compact
    exact (Palette.writtenIn hstorable).load (Palette.ofJson?_toJson hstorable) hwritten

/-- The extreme integers, a prop that is `null` and a mark that is off come back, and so does
the stock palette. -/
theorem come_back_of_written_stock :
    let design : Design := .many
      [{ info := { tag := "div", selfClosing := some false
                   props := Props.ofList [("low", .number (.int (-2 ^ 63))),
                    ("high", .number (.int (2 ^ 64 - 1))), ("gone", .null), ("on", .flag true)] }
         children := [.text "a", .component { tag := "br" } []] }]
    Design.load design.toJson.compact = .ok design ∧
      Palette.load Palette.stock.text = .ok Palette.stock := by
  intro design
  have hdesign : ∀ config ∈ design.configs,
      config.toChild.Exact ∧ config.toChild.depth ≤ 63 := by
    refine List.forall_mem_singleton.mpr
      ⟨⟨?_, trivial, ⟨fun _ h => ?_, trivial⟩, trivial⟩, by decide⟩
    · simp [Component.Exact, Props.ofList, Props.set, Props.empty, setEntry, Scalar.Exact,
        Number.Exact]
    · cases h
  have hstock := Palette.storable_stock
  exact ⟨(come_back_of_written.1 design _ .compact hdesign).2,
    come_back_of_written.2 Palette.stock _ (.inl rfl) fun o ho =>
      ⟨(hstock o ho).floatFree, (hstock o ho).depth_le⟩⟩

end PageDesign

import PageDesign.Proofs.Node.Insertion

/-! # Changing one node

A change that is asked for by a property goes to the first node with the property in pre-order,
replaces it, and touches nothing else (`modify?_replaced`).

Setting an attribute is such a change.  On the list of attributes it is a lens for the first
attribute of a name: what was set is read (`value?_set_self`), the other names read as before
(`value?_set_of_ne`), and of two settings the later one counts (`set_set`).  In the list it
takes the place of the first attribute of the name, or the end where there is none
(`setAttribute_eq`).  Since the element keeps its id and its children, a search by the id finds
it again, and the page keeps its nodes, its levels and its ids.
-/
namespace PageDesign

/-! ## Attribute lists -/

/-- An attribute is set in the place of the first of its name, or at the end if there is
none. -/
theorem setAttribute_eq (name : String) (value : Value) (attrs : List Attribute) :
    setAttribute name value attrs =
      match attrs.findIdx? (·.name = name) with
      | some slot => attrs.set slot ⟨name, value⟩
      | none => attrs ++ [⟨name, value⟩] := by
  induction attrs with
  | nil => rfl
  | cons a rest ih =>
    rw [setAttribute, List.findIdx?_cons, ih]
    by_cases h : a.name = name
    · simp [h]
    · cases hr : rest.findIdx? (·.name = name) <;> simp [h]

theorem find?_setAttribute_self (name : String) (value : Value) (attrs : List Attribute) :
    (setAttribute name value attrs).find? (·.name = name) = some ⟨name, value⟩ := by
  induction attrs with
  | nil => simp [setAttribute]
  | cons a rest ih =>
    rw [setAttribute]
    by_cases h : a.name = name
    · simp [h]
    · simp [h, ih]

theorem find?_setAttribute_of_ne {name other : String} (h : other ≠ name) (value : Value)
    (attrs : List Attribute) :
    (setAttribute name value attrs).find? (·.name = other) = attrs.find? (·.name = other) := by
  induction attrs with
  | nil => simp [setAttribute, h.symm]
  | cons a rest ih =>
    rw [setAttribute]
    by_cases ha : a.name = name
    · simp [ha, h.symm]
    · rw [if_neg ha, List.find?_cons, List.find?_cons, ih]

theorem setAttribute_setAttribute (name : String) (value later : Value)
    (attrs : List Attribute) :
    setAttribute name later (setAttribute name value attrs) = setAttribute name later attrs := by
  induction attrs with
  | nil => simp [setAttribute]
  | cons a rest ih =>
    by_cases h : a.name = name
    · simp [setAttribute, h]
    · simp [setAttribute, h, ih]

namespace Element
variable (e : Element)

/-- What was set is read. -/
theorem value?_set_self (name : String) (value : Value) :
    (e.set name value).value? name = some value := by
  rw [value?, set, find?_setAttribute_self, Option.map_some]

/-- Other names read as before. -/
theorem value?_set_of_ne {name other : String} (h : other ≠ name) (value : Value) :
    (e.set name value).value? other = e.value? other := by
  rw [value?, set, find?_setAttribute_of_ne h, value?]

/-- The later of two settings counts. -/
theorem set_set (name : String) (value later : Value) :
    (e.set name value).set name later = e.set name later := by
  rw [set, set, setAttribute_setAttribute, set]

end Element

/-! ## Pages -/

namespace Node

section Change
variable {page : Node} {p : Node → Bool} {f : Node → Node}

/-- The node that a search finds stands at the first spot with the property. -/
theorem exists_spot_of_find? {found : Node} (h : page.find? p = some found) :
    ∃ spot, (page.spotsOf p).head? = some spot ∧ page.at? spot = some found := by
  rw [find?_eq_spot] at h
  exact Option.bind_eq_some_iff.mp h

/-- **A change replaces the node at the first spot with the property.** -/
theorem modify?_replaced {spot : Spot} {found : Node}
    (hs : (page.spotsOf p).head? = some spot) (hat : page.at? spot = some found) :
    ∃ after, page.modify? p f = some after ∧ Replaced page after spot found (f found) :=
  ⟨page.changeAt f spot, by rw [modify?_eq_spot, hs, Option.map_some], replaced_changeAt hat f⟩

end Change

section Levels
variable {page page' old new : Node} {spot : Spot}

theorem Replaced.count_of_eq (h : Replaced page page' spot old new) (hc : new.count = old.count) :
    page'.count = page.count := by
  have hcount := h.count
  omega

theorem Replaced.depth_le (h : Replaced page page' spot old new) (hd : new.depth = old.depth) :
    page.depth ≤ page'.depth := by
  have hmax : new.depth = max old.depth 0 := by omega
  rw [h.depth hmax]
  exact Nat.le_max_left _ _

theorem Replaced.depth_of_eq (h : Replaced page page' spot old new) (hd : new.depth = old.depth) :
    page'.depth = page.depth :=
  Nat.le_antisymm (h.symm.depth_le hd.symm) (h.depth_le hd)

end Levels

section SetAttribute
variable {page changed : Node} {id name : String} {value : Value}

/-- Setting an attribute leaves the ids of a page. -/
theorem ids_setAttribute? (h : page.setAttribute? id name value = some changed) :
    changed.ids = page.ids := by
  obtain ⟨info, before, behind, -, hb, ha⟩ := setAttribute?_split h
  exact ids_eq_of_set hb ha

/-- The element that carries the id is found again, with its attribute set, and setting it
once more changes nothing. -/
theorem findById?_setAttribute {spot : Spot} {info : Element} {nodes : List Node}
    (hs : (page.spotsOf (hasId id)).head? = some spot) (hid : info.id = some id)
    (h : Replaced page changed spot (element info nodes) (element (info.set name value) nodes)) :
    changed.findById? id = some (element (info.set name value) nodes) ∧
      changed.setAttribute? id name value = some changed := by
  have hcarries : (element (info.set name value) nodes).hasId id = true :=
    hasId_iff.mpr ⟨_, nodes, rfl, hid⟩
  have hagain := h.head?_spotsOf_of_hasId hcarries hs
  have hset : (element (info.set name value) nodes).mapElement (·.set name value) =
      element (info.set name value) nodes := by
    rw [mapElement, Element.set_set]
  constructor
  · rw [findById?, find?_eq_spot, hagain, Option.bind_some, h.after]
  · rw [setAttribute?, modify?_eq_spot, hagain, Option.map_some, changeAt_eq_self h.after hset]

end SetAttribute

/-- **A change touches one node.**  A change by a property is made if and only if a search
finds a node with the property; it replaces the first of them in pre-order by what it becomes,
and all else is as it was.

In particular, setting an attribute of the element that a search by an id finds changes what
this element says about itself.  The attribute is what was set, other names read as before, and
in the list the attribute stands where the first one of the name stood, or at the end.  The
element is still found by the id, setting the attribute once more changes nothing, and the page
keeps its number of nodes, its levels and its ids. -/
theorem modify?_exact (page : Node) (p : Node → Bool) (f : Node → Node) (id name : String)
    (value : Value) :
    let changed := (page.modify? p f).getD page
    let after := (Edit.setAttribute id name value).apply page
    ((page.modify? p f).isSome = (page.find? p).isSome ∧
      (page.find? p = none → changed = page) ∧
      ∀ found, page.find? p = some found → ∃ spot, (page.spotsOf p).head? = some spot ∧
        Replaced page changed spot found (f found)) ∧
    (page.findById? id = none → after = page) ∧
    ∀ found, page.findById? id = some found → ∃ spot info nodes, found = element info nodes ∧
      (page.spotsOf (hasId id)).head? = some spot ∧
      Replaced page after spot found (element (info.set name value) nodes) ∧
      after.findById? id = some (element (info.set name value) nodes) ∧
      (info.set name value).value? name = some value ∧
      (∀ other, other ≠ name → (info.set name value).value? other = info.value? other) ∧
      (info.set name value).attributes =
        (match info.attributes.findIdx? (·.name = name) with
        | some slot => info.attributes.set slot ⟨name, value⟩
        | none => info.attributes ++ [⟨name, value⟩]) ∧
      (Edit.setAttribute id name value).apply after = after ∧
      after.count = page.count ∧ after.depth = page.depth ∧ after.ids = page.ids := by
  intro changed after
  refine ⟨⟨isSome_modify? p f page, ?_, ?_⟩, ?_, ?_⟩
  · intro hnone
    exact congrArg (Option.getD · page) (modify?_eq_none p f hnone)
  · intro found hfound
    obtain ⟨spot, hs, hat⟩ := exists_spot_of_find? hfound
    obtain ⟨after, hafter, hr⟩ := modify?_replaced (f := f) hs hat
    refine ⟨spot, hs, ?_⟩
    rwa [show changed = after from congrArg (Option.getD · page) hafter]
  · intro hnone
    exact congrArg (Option.getD · page) (modify?_eq_none _ _ hnone)
  · intro found hfound
    obtain ⟨spot, hs, hat⟩ := exists_spot_of_find? hfound
    obtain ⟨info, nodes, helement, hid⟩ := exists_element_of_head? hs
    obtain rfl := Option.some.inj (hat.symm.trans helement)
    obtain ⟨next, hnext, hr⟩ := modify?_replaced (f := mapElement (·.set name value)) hs hat
    obtain rfl : after = next := congrArg (Option.getD · page) hnext
    obtain ⟨hfind, hagain⟩ := findById?_setAttribute hs hid hr
    refine ⟨spot, info, nodes, rfl, hs, hr, hfind, info.value?_set_self name value,
      fun other ho => info.value?_set_of_ne ho value, setAttribute_eq name value _,
      congrArg (Option.getD · _) hagain, hr.count_of_eq rfl, hr.depth_of_eq rfl,
      ids_setAttribute? hnext⟩

/-- A size is set on the first of two elements with one id, which has two sizes already. -/
theorem modify?_exact_sizes :
    let button (attributes : List Attribute) : Node :=
      .element { id := some "go", tag := "button", attributes } [.text "OK"]
    let page : Node := .root [.text "x", button [⟨"size", .text "small"⟩, ⟨"size", .flag true⟩],
      button []]
    let after := (Edit.setAttribute "go" "size" (.text "large")).apply page
    page.findById? "go" = some (button [⟨"size", .text "small"⟩, ⟨"size", .flag true⟩]) ∧
      after.findById? "go" = some (button [⟨"size", .text "large"⟩, ⟨"size", .flag true⟩]) ∧
      Replaced page after [1] (button [⟨"size", .text "small"⟩, ⟨"size", .flag true⟩])
        (button [⟨"size", .text "large"⟩, ⟨"size", .flag true⟩]) ∧
      after.ids = page.ids := by
  intro button page after
  have hfound : page.findById? "go" =
      some (button [⟨"size", .text "small"⟩, ⟨"size", .flag true⟩]) := by decide +kernel
  obtain ⟨-, -, hset⟩ :=
    modify?_exact page (hasId "go") id "go" "size" (.text "large")
  obtain ⟨spot, info, nodes, ⟨⟩, hs, hr, hagain, -, -, -, -, -, -, hids⟩ := hset _ hfound
  have hspot : (page.spotsOf (hasId "go")).head? = some [1] := by decide +kernel
  obtain rfl := Option.some.inj (hs.symm.trans hspot)
  exact ⟨hfound, hagain, hr, hids⟩

end Node
end PageDesign

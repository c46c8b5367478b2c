import Mathlib.Data.List.InsertIdx
import Mathlib.Data.List.Nodup
import PageDesign.Node.Edit

/-! # The elements of a page

What all elements of a page say about themselves, listed in pre-order, is `elements`; the
ids among this are `ids`.  Searching and editing by id is easy to follow on the two lists:

* a search by id finds the first element of the list that carries it (`elementById?_eq`);
* changing a node changes the stretch of the list that is the node's own (`modify?_split`);
* an insertion adds the elements of what is inserted (`insert_perm`);
* a removal takes out one stretch, the elements of what is removed (`remove?_split`).

If no id is carried twice, then an element is found by its id wherever it stands
(`elementById?_eq_some_iff`).
-/
namespace PageDesign.Node
open scoped List

/-- What the elements of a tree say about themselves, in pre-order. -/
def elements (n : Node) : List Element := n.preorder.filterMap element?

/-- What the elements in and below a list of nodes say about themselves. -/
def elementsAll (nodes : List Node) : List Element := (preorderAll nodes).filterMap element?

/-- The ids that the elements of a tree carry. -/
def ids (n : Node) : List String := n.elements.filterMap (·.id)

@[simp] theorem elements_root (children : List Node) :
    elements (root children) = elementsAll children := by
  unfold elements preorder
  exact List.filterMap_cons_none rfl

@[simp] theorem elements_element (info : Element) (children : List Node) :
    elements (element info children) = info :: elementsAll children := by
  simp [elements, elementsAll, preorder, element?]

@[simp] theorem elements_text (content : String) : elements (text content) = [] := by
  simp [elements, preorder, element?]

@[simp] theorem elements_attr (item : Attribute) : elements (attr item) = [] := by
  simp [elements, preorder, element?]

@[simp] theorem elementsAll_nil : elementsAll [] = [] := by
  simp [elementsAll, preorderAll]

@[simp] theorem elementsAll_cons (n : Node) (rest : List Node) :
    elementsAll (n :: rest) = elements n ++ elementsAll rest := by
  simp [elementsAll, elements, preorderAll]

theorem elementsAll_eq_flatMap (nodes : List Node) :
    elementsAll nodes = nodes.flatMap elements := by
  induction nodes with
  | nil => rfl
  | cons n rest ih => rw [elementsAll_cons, List.flatMap_cons, ih]

theorem hasId_iff {id : String} {n : Node} :
    n.hasId id = true ↔ ∃ info children, n = element info children ∧ info.id = some id := by
  cases n <;> simp [hasId]

theorem mem_ids_iff {id : String} {n : Node} :
    id ∈ n.ids ↔ ∃ info ∈ n.elements, info.id = some id := by
  simp [ids]

theorem mem_ids_of_hasId {id : String} {n : Node} (h : n.hasId id = true) : id ∈ n.ids := by
  obtain ⟨info, children, rfl, hid⟩ := hasId_iff.mp h
  exact mem_ids_iff.mpr ⟨info, by simp, hid⟩

/-- No node carries two ids. -/
theorem not_hasId_of_ne {a b : String} {n : Node} (h : a ≠ b) (ha : n.hasId a = true) :
    ¬ n.hasId b = true := by
  obtain ⟨info, children, rfl, hid⟩ := hasId_iff.mp ha
  simpa [hasId, hid] using h

/-! ## Searching -/

section Searching
variable (p : Node → Bool)

mutual

/-- A search goes through the nodes in pre-order. -/
theorem find?_eq : ∀ n : Node, n.find? p = n.preorder.find? p
  | root children => by
    have ih := findIn?_eq children
    unfold find? preorder
    by_cases h : p (root children) = true
    · rw [if_pos h, List.find?_cons_of_pos h]
    · rw [if_neg h, List.find?_cons_of_neg h]
      exact ih
  | element info children => by
    have ih := findIn?_eq children
    unfold find? preorder
    by_cases h : p (element info children) = true
    · rw [if_pos h, List.find?_cons_of_pos h]
    · rw [if_neg h, List.find?_cons_of_neg h]
      exact ih
  | text content => by
    unfold find? preorder
    by_cases h : p (text content) = true <;> simp [h]
  | attr item => by
    unfold find? preorder
    by_cases h : p (attr item) = true <;> simp [h]

theorem findIn?_eq : ∀ nodes : List Node, findIn? p nodes = (preorderAll nodes).find? p
  | [] => by simp [findIn?, preorderAll]
  | n :: rest => by
    unfold findIn? preorderAll
    rw [find?_eq n, findIn?_eq rest, List.find?_append]
    cases (preorder n).find? p <;> rfl

end

end Searching

/-- What the element says about itself that a search by id finds. -/
def elementById? (id : String) (n : Node) : Option Element := (n.findById? id).bind element?

/-- A search by id finds the first element that carries it. -/
theorem elementById?_eq (id : String) (n : Node) :
    n.elementById? id = n.elements.find? (·.id == some id) := by
  rw [elementById?, findById?, find?_eq, elements]
  induction n.preorder with
  | nil => rfl
  | cons m rest ih =>
    cases m with
    | element info children => by_cases h : info.id == some id <;> simp_all [hasId, element?]
    | _ => simpa [hasId, element?] using ih

theorem isSome_findById? (id : String) (n : Node) :
    (n.findById? id).isSome = (n.elementById? id).isSome := by
  rw [elementById?]
  cases h : n.findById? id with
  | none => rfl
  | some found =>
    rw [findById?, find?_eq] at h
    obtain ⟨info, children, rfl, -⟩ := hasId_iff.mp (List.find?_some h)
    rfl

/-- An id can be found just where some element carries it. -/
theorem findById?_isSome_iff {id : String} {n : Node} :
    (n.findById? id).isSome = true ↔ id ∈ n.ids := by
  rw [isSome_findById?, elementById?_eq, List.find?_isSome, mem_ids_iff]
  simp

/-- **Where no id is carried twice, an element is found by its id wherever it stands.** -/
theorem elementById?_eq_some_iff {n : Node} (h : n.ids.Nodup) {id : String} {info : Element} :
    n.elementById? id = some info ↔ info ∈ n.elements ∧ info.id = some id := by
  rw [elementById?_eq]
  unfold ids at h
  revert h
  induction n.elements with
  | nil => simp
  | cons first rest ih =>
    intro h
    have hrest : (rest.filterMap (·.id)).Nodup :=
      h.sublist ((List.sublist_cons_self first rest).filterMap _)
    by_cases hf : first.id = some id
    · rw [List.find?_cons_of_pos (by simpa using hf)]
      constructor
      · rintro ⟨rfl⟩
        exact ⟨List.mem_cons_self, hf⟩
      · rintro ⟨hm, hid⟩
        rcases List.mem_cons.mp hm with rfl | hm
        · rfl
        · rw [List.filterMap_cons_some hf, List.nodup_cons] at h
          exact absurd (List.mem_filterMap.mpr ⟨info, hm, hid⟩) h.1
    · rw [List.find?_cons_of_neg (by simpa using hf), ih hrest]
      constructor
      · rintro ⟨hm, hid⟩
        exact ⟨List.mem_cons_of_mem _ hm, hid⟩
      · rintro ⟨hm, hid⟩
        rcases List.mem_cons.mp hm with rfl | hm
        · exact absurd hid hf
        · exact ⟨hm, hid⟩

/-! ## Changing a node -/

section Changing
variable (p : Node → Bool) (f : Node → Node)

mutual

/-- Where a search finds nothing, nothing can be changed. -/
theorem modify?_eq_none : ∀ {n : Node}, n.find? p = none → n.modify? p f = none := by
  intro n h
  unfold find? at h
  unfold modify?
  by_cases hp : p n = true
  · rw [if_pos hp] at h
    cases h
  · rw [if_neg hp] at h
    rw [if_neg hp]
    cases n with
    | root children => exact congrArg (Option.map root) (modifyIn?_eq_none h)
    | element info children => exact congrArg (Option.map (element info)) (modifyIn?_eq_none h)
    | text content => rfl
    | attr item => rfl

theorem modifyIn?_eq_none : ∀ {nodes : List Node}, findIn? p nodes = none →
    modifyIn? p f nodes = none
  | [], _ => rfl
  | n :: rest, h => by
    unfold findIn? at h
    unfold modifyIn?
    cases hn : n.find? p with
    | some found =>
      rw [hn] at h
      cases h
    | none =>
      rw [hn] at h
      rw [modify?_eq_none hn]
      exact congrArg (Option.map (n :: ·)) (modifyIn?_eq_none h)

end

mutual

/-- A change of a node that a search would find changes the stretch of the list of elements
that is the node's own. -/
theorem modify?_split : ∀ {n found : Node},
    n.find? p = some found → ∃ changed before behind, n.modify? p f = some changed ∧
      n.elements = before ++ (found.elements ++ behind) ∧
      changed.elements = before ++ ((f found).elements ++ behind) := by
  intro n found h
  unfold find? at h
  unfold modify?
  by_cases hp : p n = true
  · rw [if_pos hp] at h
    obtain rfl := Option.some.inj h
    exact ⟨f n, [], [], if_pos hp, by simp, by simp⟩
  · rw [if_neg hp] at h
    rw [if_neg hp]
    cases n with
    | root children =>
      obtain ⟨changed, before, behind, hc, hb, ha⟩ := modifyIn?_split h
      exact ⟨root changed, before, behind, by simp [hc], by simpa using hb, by simpa using ha⟩
    | element info children =>
      obtain ⟨changed, before, behind, hc, hb, ha⟩ := modifyIn?_split h
      exact ⟨element info changed, info :: before, behind, by simp [hc], by simpa using hb,
        by simpa using ha⟩
    | text content => cases h
    | attr item => cases h

theorem modifyIn?_split : ∀ {nodes : List Node} {found : Node},
    findIn? p nodes = some found → ∃ changed before behind, modifyIn? p f nodes = some changed ∧
      elementsAll nodes = before ++ (found.elements ++ behind) ∧
      elementsAll changed = before ++ ((f found).elements ++ behind)
  | [], _, h => by cases h
  | n :: rest, found, h => by
    unfold findIn? at h
    unfold modifyIn?
    cases hn : n.find? p with
    | some first =>
      rw [hn] at h
      obtain rfl := Option.some.inj h
      obtain ⟨changed, before, behind, hc, hb, ha⟩ := modify?_split hn
      exact ⟨changed :: rest, before, behind ++ elementsAll rest, by simp [hc], by simp [hb],
        by simp [ha]⟩
    | none =>
      rw [hn] at h
      obtain ⟨changed, before, behind, hc, hb, ha⟩ := modifyIn?_split h
      refine ⟨n :: changed, n.elements ++ before, behind, ?_, by simp [hb], by simp [ha]⟩
      rw [modify?_eq_none p f hn, hc]
      rfl

end

/-- A change is made just where a search finds something to change. -/
theorem isSome_modify? (n : Node) : (n.modify? p f).isSome = (n.find? p).isSome := by
  cases h : n.find? p with
  | none => rw [modify?_eq_none p f h]
  | some found =>
    obtain ⟨changed, -, -, hc, -⟩ := modify?_split p f h
    rw [hc, Option.isSome_some, Option.isSome_some]

end Changing

/-! ## Insertion and removal -/

/-- An insertion that can be made adds the elements of what is inserted. -/
theorem insert_perm {n child placed : Node} {parent : String} {index : Nat}
    (h : n.insert parent index child = .ok placed) :
    placed.elements.Perm (child.elements ++ n.elements) := by
  unfold insert at h
  split at h
  · cases h
  · next found hfound =>
    obtain ⟨info, children, rfl, -⟩ : ∃ info children, found = element info children ∧ _ := by
      rw [findById?, find?_eq] at hfound
      exact hasId_iff.mp (List.find?_some hfound)
    obtain ⟨changed, before, behind, hc, hb, ha⟩ :=
      modify?_split _ (mapChildren (·.insertIdx index child)) hfound
    simp only [hc, Option.getD_some] at h
    split at h
    · cases h
    · next hle =>
      obtain rfl := Except.ok.inj h
      have hle : index ≤ children.length := Nat.le_of_not_lt hle
      have hins := (List.perm_insertIdx child children hle).flatMap_right elements
      rw [List.flatMap_cons, ← elementsAll_eq_flatMap, ← elementsAll_eq_flatMap] at hins
      -- up to order, what is inserted may as well stand at the front
      have hmoved := List.perm_append_comm_assoc (before ++ [info]) child.elements
        (elementsAll children ++ behind)
      rw [ha, hb]
      calc before ++ (info :: elementsAll (children.insertIdx index child) ++ behind)
        _ ~ before ++ (info :: (child.elements ++ elementsAll children) ++ behind) :=
          ((hins.cons info).append_right behind).append_left before
        _ ~ child.elements ++ (before ++ (info :: elementsAll children ++ behind)) := by
          simpa using hmoved

/-- What a removal from a list can come to: its first node is taken, or one below this, or one
further on. -/
inductive RemovedFrom (id : String) (n : Node) (rest : List Node) : Node → List Node → Prop
  | first (hid : n.hasId id = true) : RemovedFrom id n rest n rest
  | below {removed kept : Node} (hid : ¬ n.hasId id = true)
      (hn : n.remove? id = some (removed, kept)) : RemovedFrom id n rest removed (kept :: rest)
  | further {removed : Node} {kept : List Node} (hid : ¬ n.hasId id = true)
      (hn : n.remove? id = none) (hr : removeIn? id rest = some (removed, kept)) :
      RemovedFrom id n rest removed (n :: kept)

theorem removedFrom {id : String} {n removed : Node} {rest left : List Node}
    (h : removeIn? id (n :: rest) = some (removed, left)) : RemovedFrom id n rest removed left := by
  unfold removeIn? at h
  split at h
  · next hid =>
    obtain ⟨rfl, rfl⟩ : n = removed ∧ rest = left := by simpa using h
    exact .first hid
  · next hid =>
    split at h
    · next taken kept hn =>
      obtain ⟨rfl, rfl⟩ : taken = removed ∧ kept :: rest = left := by simpa using h
      exact .below hid hn
    · next hn =>
      obtain ⟨⟨taken, kept⟩, hr, he⟩ := Option.map_eq_some_iff.mp h
      obtain ⟨rfl, rfl⟩ : taken = removed ∧ n :: kept = left := by simpa using he
      exact .further hid hn hr

mutual

/-- A removal takes the stretch of the list of elements that belongs to what is removed. -/
theorem remove?_split {id : String} : ∀ {n removed left : Node},
    n.remove? id = some (removed, left) → ∃ before behind,
      n.elements = before ++ (removed.elements ++ behind) ∧ left.elements = before ++ behind
  | root children, removed, left, h => by
    unfold remove? at h
    obtain ⟨⟨taken, rest⟩, hr, he⟩ := Option.map_eq_some_iff.mp h
    obtain ⟨rfl, rfl⟩ : taken = removed ∧ root rest = left := by simpa using he
    obtain ⟨before, behind, hb, ha⟩ := removeIn?_split hr
    exact ⟨before, behind, by simpa using hb, by simpa using ha⟩
  | element info children, removed, left, h => by
    unfold remove? at h
    obtain ⟨⟨taken, rest⟩, hr, he⟩ := Option.map_eq_some_iff.mp h
    obtain ⟨rfl, rfl⟩ : taken = removed ∧ element info rest = left := by simpa using he
    obtain ⟨before, behind, hb, ha⟩ := removeIn?_split hr
    exact ⟨info :: before, behind, by simpa using hb, by simpa using ha⟩
  | text _, _, _, h => by cases h
  | attr _, _, _, h => by cases h

theorem removeIn?_split {id : String} : ∀ {nodes : List Node} {removed : Node} {left : List Node},
    removeIn? id nodes = some (removed, left) → ∃ before behind,
      elementsAll nodes = before ++ (removed.elements ++ behind) ∧
      elementsAll left = before ++ behind
  | [], _, _, h => by cases h
  | n :: rest, removed, left, h => by
    cases removedFrom h with
    | first hid => exact ⟨[], elementsAll rest, by simp, by simp⟩
    | below hid hn =>
      obtain ⟨before, behind, hb, ha⟩ := remove?_split hn
      exact ⟨before, behind ++ elementsAll rest, by simp [hb], by simp [ha]⟩
    | further hid hn hr =>
      obtain ⟨before, behind, hb, ha⟩ := removeIn?_split hr
      exact ⟨n.elements ++ before, behind, by simp [hb], by simp [ha]⟩

end

/-- An element with an attribute set still carries its id, so the ids of a page stay. -/
theorem ids_eq_of_set {n changed : Node} {info : Element} {name : String} {value : Value}
    {before behind : List Element} (hb : n.elements = before ++ info :: behind)
    (ha : changed.elements = before ++ info.set name value :: behind) : changed.ids = n.ids := by
  have hset : (info.set name value).id = info.id := rfl
  rw [ids, ids, hb, ha, List.filterMap_append, List.filterMap_append, List.filterMap_cons,
    List.filterMap_cons, hset]

/-- Setting an attribute changes what one element says about itself. -/
theorem setAttribute?_split {n changed : Node} {id name : String} {value : Value}
    (h : n.setAttribute? id name value = some changed) : ∃ info before behind,
      info.id = some id ∧ n.elements = before ++ info :: behind ∧
      changed.elements = before ++ info.set name value :: behind := by
  unfold setAttribute? at h
  cases hf : n.find? (hasId id) with
  | none =>
    rw [modify?_eq_none _ _ hf] at h
    cases h
  | some found =>
    obtain ⟨changed', before, behind, hc, hb, ha⟩ :=
      modify?_split _ (mapElement (·.set name value)) hf
    obtain rfl : changed' = changed := by simpa [hc] using h
    rw [find?_eq] at hf
    obtain ⟨info, children, rfl, hid⟩ := hasId_iff.mp (List.find?_some hf)
    exact ⟨info, before, elementsAll children ++ behind, hid, by simpa using hb,
      by simpa [mapElement] using ha⟩

end PageDesign.Node

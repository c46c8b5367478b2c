import Mathlib.Algebra.BigOperators.Group.List.Basic
import Mathlib.Data.List.InsertIdx
import Mathlib.Order.Basic
import PageDesign.Proofs.Node.Replaced
import PageDesign.Proofs.Node.Session

/-! # Inserting a node

An insertion looks for its parent as a search by id would, at the first spot where an element
carries the id.  `Insertion` says what can come of it: there is no such spot, the parent there
has too few children, or the node takes its place among them (`insertion`).

In the last case the parent is replaced by itself with one more child, which fixes the page
(`insert_exact`): what stands elsewhere, how many nodes there are and how many levels.
-/
namespace PageDesign.Node

/-- The page with `child` at place `index` among the children of the node at a spot. -/
def placeAt (page : Node) (spot : Spot) (index : Nat) (child : Node) : Node :=
  page.changeAt (mapChildren (·.insertIdx index child)) spot

/-- What comes of an insertion. -/
inductive Insertion (page : Node) (parent : String) (index : Nat) (child : Node) :
    Except InsertError Node → Prop
  | noParent (hs : page.spotsOf (hasId parent) = []) :
      Insertion page parent index child (.error (.parentNotFound parent))
  | outOfBounds {spot : Spot} {info : Element} {nodes : List Node}
      (hs : (page.spotsOf (hasId parent)).head? = some spot)
      (hat : page.at? spot = some (element info nodes)) (hi : nodes.length < index) :
      Insertion page parent index child (.error (.indexOutOfBounds index nodes.length))
  | placed {spot : Spot} {info : Element} {nodes : List Node}
      (hs : (page.spotsOf (hasId parent)).head? = some spot)
      (hat : page.at? spot = some (element info nodes)) (hi : index ≤ nodes.length) :
      Insertion page parent index child (.ok (page.placeAt spot index child))

/-- At the first spot with an id stands an element that carries it. -/
theorem exists_element_of_head? {page : Node} {id : String} {spot : Spot}
    (hs : (page.spotsOf (hasId id)).head? = some spot) :
    ∃ info nodes, page.at? spot = some (element info nodes) ∧ info.id = some id := by
  obtain ⟨m, hat, hm⟩ := mem_spotsOf_iff.mp (List.mem_of_mem_head? hs)
  obtain ⟨info, nodes, rfl, hid⟩ := hasId_iff.mp hm
  exact ⟨info, nodes, hat, hid⟩

/-- Where the first element with the id of the parent stands decides what comes of an
insertion. -/
theorem insert_of_head? {page child : Node} {parent : String} {index : Nat} {spot : Spot}
    {info : Element} {nodes : List Node} (hs : (page.spotsOf (hasId parent)).head? = some spot)
    (hat : page.at? spot = some (element info nodes)) :
    page.insert parent index child =
      if nodes.length < index then .error (.indexOutOfBounds index nodes.length)
      else .ok (page.placeAt spot index child) := by
  rw [insert, findById?, find?_eq_spot, modify?_eq_spot, hs, Option.bind_some, hat]
  rfl

theorem insertion (page : Node) (parent : String) (index : Nat) (child : Node) :
    Insertion page parent index child (page.insert parent index child) := by
  cases hs : (page.spotsOf (hasId parent)).head? with
  | none =>
    rw [insert, findById?, find?_eq_spot, hs]
    exact .noParent (List.head?_eq_none_iff.mp hs)
  | some spot =>
    obtain ⟨info, nodes, hat, -⟩ := exists_element_of_head? hs
    rw [insert_of_head? hs hat]
    split
    · next hi => exact .outOfBounds hs hat hi
    · next hi => exact .placed hs hat (Nat.le_of_not_lt hi)

/-! ## The page afterwards -/

theorem countAll_insertIdx {nodes : List Node} {index : Nat} (h : index ≤ nodes.length)
    (child : Node) : countAll (nodes.insertIdx index child) = countAll nodes + child.count := by
  have hperm := (List.perm_insertIdx child nodes h).map count
  rw [countAll_eq_sum, countAll_eq_sum, hperm.sum_eq, List.map_cons, List.sum_cons, Nat.add_comm]

theorem depthAll_insertIdx {nodes : List Node} {index : Nat} (h : index ≤ nodes.length)
    (child : Node) : depthAll (nodes.insertIdx index child) = max (depthAll nodes) child.depth := by
  refine eq_of_forall_ge_iff fun k => ?_
  rw [depthAll_le_iff, max_le_iff, depthAll_le_iff]
  simp only [List.mem_insertIdx h, forall_eq_or_imp, and_comm]

/-- As many nodes stand above a spot as it goes down levels. -/
theorem length_above {n m : Node} {spot : Spot} (hat : n.at? spot = some m) :
    (n.above spot).length = spot.length := by
  induction spot generalizing n with
  | nil => rfl
  | cons i spot ih =>
    obtain ⟨child, hi, hchild⟩ := at?_cons_eq_some_iff.mp hat
    rw [above, hi, Option.elim_some, List.length_cons, ih hchild, List.length_cons]

section Placed
variable {page placed child : Node} {spot : Spot} {index : Nat} {info : Element}
variable {nodes : List Node}

theorem replaced_placeAt (hat : page.at? spot = some (element info nodes)) (index : Nat)
    (child : Node) : Replaced page (page.placeAt spot index child) spot (element info nodes)
      (element info (nodes.insertIdx index child)) :=
  replaced_changeAt hat (mapChildren (·.insertIdx index child))

variable (h : Replaced page placed spot (element info nodes)
  (element info (nodes.insertIdx index child))) (hi : index ≤ nodes.length)
include h hi

/-- The page has the nodes of its new child on top of its own. -/
theorem Replaced.count_insertIdx : placed.count = page.count + child.count := by
  have hcount := h.count
  rw [Node.count, Node.count, countAll_insertIdx hi] at hcount
  omega

/-- The page is as deep as before, or as the new child makes it. -/
theorem Replaced.depth_insertIdx :
    placed.depth = max page.depth ((page.above spot).length + 1 + child.depth) := by
  have hnew : (element info (nodes.insertIdx index child)).depth =
      max (element info nodes).depth (1 + child.depth) := by
    rw [Node.depth, Node.depth, depthAll_insertIdx hi]
    omega
  rw [h.depth hnew, length_above h.before, Nat.add_assoc]

end Placed

/-- **An insertion is exact, and nothing happens if it cannot be made.**  It is refused if no
element carries the id of the parent, or if the place lies behind the end of the children of
the first element in pre-order that does.  Otherwise that element is replaced by itself with
one more child, at the given place, and all else is as it was. -/
theorem insert_exact (page : Node) (parent : String) (index : Nat) (child : Node) :
    let result := page.insert parent index child
    let after := (Edit.insert parent index child).apply page
    (page.preorder.find? (hasId parent) = none →
      result = .error (.parentNotFound parent) ∧ after = page) ∧
    ∀ found, page.preorder.find? (hasId parent) = some found →
      ∃ spot info nodes, (page.spotsOf (hasId parent)).head? = some spot ∧
        page.at? spot = some found ∧ found = element info nodes ∧
        (nodes.length < index →
          result = .error (.indexOutOfBounds index nodes.length) ∧ after = page) ∧
        (index ≤ nodes.length → result = .ok after ∧
          Replaced page after spot found (element info (nodes.insertIdx index child)) ∧
          after.count = page.count + child.count ∧
          after.depth = max page.depth ((page.above spot).length + 1 + child.depth)) := by
  have houtcome := insertion page parent index child
  dsimp only [Edit.apply]
  generalize page.insert parent index child = result at houtcome ⊢
  cases houtcome with
  | noParent hs =>
    rw [find?_preorder_eq_spot, hs]
    exact ⟨fun _ => ⟨rfl, rfl⟩, fun found h => nomatch h⟩
  | @outOfBounds spot info nodes hs hat hi =>
    rw [find?_preorder_eq_spot, hs, Option.bind_some, hat]
    refine ⟨fun h => (nomatch h), ?_⟩
    rintro found ⟨⟩
    exact ⟨spot, info, nodes, rfl, hat, rfl, fun _ => ⟨rfl, rfl⟩, fun hle => by omega⟩
  | @placed spot info nodes hs hat hi =>
    have hr := replaced_placeAt hat index child
    rw [find?_preorder_eq_spot, hs, Option.bind_some, hat]
    refine ⟨fun h => (nomatch h), ?_⟩
    rintro found ⟨⟩
    exact ⟨spot, info, nodes, rfl, hat, rfl, fun hlt => by omega,
      fun _ => ⟨rfl, hr, hr.count_insertIdx hi, hr.depth_insertIdx hi⟩⟩

end PageDesign.Node

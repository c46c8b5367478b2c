import Mathlib.Data.List.Basic
import PageDesign.Proofs.Node.Preorder

/-! # Spots on a page

Nodes that are equal may stand on a page many times over, so where a search stops is more
than which node it finds.  A *spot* says where a node stands: which child to go to, level by
level, from the top.  The spots of a page are listed in pre-order too (`spots`), and at each
of them stands the node that the pre-order listing has in its place (`map_at?_spots`).  This
is the order in which a dictionary would list them (`pairwise_spots`), so the first spot with
a property is the one that no other comes before (`head?_spotsOf_iff`).

Of the spots with a property, a search finds the node at the first (`find?_eq_spot`), an edit
changes the page there and nowhere else (`modify?_eq_spot`), and a search for all nodes gives
what stands at each of them (`findAll_eq_spots`).
-/
namespace PageDesign.Node

/-- Where a node stands on a page: which child to go to, level by level. -/
abbrev Spot := List Nat

/-- The node that stands at a spot. -/
def at? (n : Node) : Spot → Option Node
  | [] => some n
  | i :: spot => n.children[i]?.bind fun child => child.at? spot

/-- The page with the node at a spot changed by `f`, if there is one. -/
def changeAt (f : Node → Node) (n : Node) : Spot → Node
  | [] => f n
  | i :: spot => n.mapChildren (·.modify i fun child => child.changeAt f spot)

/-- The nodes that one comes by on the way to a spot, from the top down. -/
def above (n : Node) : Spot → List Node
  | [] => []
  | i :: spot => n :: n.children[i]?.elim [] fun child => child.above spot

mutual

/-- The spots of a page, in pre-order. -/
def spots : Node → List Spot
  | root children => [] :: spotsFrom 0 children
  | element _ children => [] :: spotsFrom 0 children
  | text _ => [[]]
  | attr _ => [[]]

/-- The spots below a node whose children from the one numbered `index` on are given. -/
def spotsFrom (index : Nat) : List Node → List Spot
  | [] => []
  | n :: rest => (spots n).map (index :: ·) ++ spotsFrom (index + 1) rest

end

/-- Whether a node with the property `p` stands at a spot. -/
def holdsAt (p : Node → Bool) (n : Node) (spot : Spot) : Bool := (n.at? spot).any p

/-- The spots at which nodes with the property `p` stand, in pre-order. -/
def spotsOf (p : Node → Bool) (n : Node) : List Spot := n.spots.filter (n.holdsAt p)

/-! ## Listing the spots -/

theorem spots_eq_from (n : Node) : n.spots = [] :: spotsFrom 0 n.children := by
  cases n <;> rfl

theorem spotsFrom_eq_flatMap (index : Nat) (nodes : List Node) : spotsFrom index nodes =
    (nodes.zipIdx index).flatMap fun place => place.1.spots.map (place.2 :: ·) := by
  induction nodes generalizing index with
  | nil => rfl
  | cons n rest ih => rw [spotsFrom, List.zipIdx_cons, List.flatMap_cons, ih]

theorem spots_eq (n : Node) : n.spots =
    [] :: n.children.zipIdx.flatMap fun place => place.1.spots.map (place.2 :: ·) := by
  rw [spots_eq_from, spotsFrom_eq_flatMap]

/-- The way to a spot goes through the child it names first. -/
theorem at?_cons_of_getElem? {n child : Node} {i : Nat} (h : n.children[i]? = some child)
    (spot : Spot) : n.at? (i :: spot) = child.at? spot := by
  rw [at?, h, Option.bind_some]

theorem at?_cons_eq_some_iff {n m : Node} {i : Nat} {spot : Spot} : n.at? (i :: spot) = some m ↔
    ∃ child, n.children[i]? = some child ∧ child.at? spot = some m :=
  Option.bind_eq_some_iff

/-- **At the spots of a page stand the nodes of its pre-order listing.** -/
theorem map_at?_spots (n : Node) : n.spots.map n.at? = n.preorder.map some := by
  induction n using childInduction with
  | step n ih =>
    have hbelow : ∀ place ∈ n.children.zipIdx,
        (place.1.spots.map (place.2 :: ·)).map n.at? = place.1.preorder.map some := by
      rintro ⟨child, i⟩ hplace
      have hi := List.mem_zipIdx_iff_getElem?.mp hplace
      rw [← ih child (List.mem_of_getElem? hi), List.map_map]
      exact List.map_congr_left fun spot _ => at?_cons_of_getElem? hi spot
    rw [spots_eq, preorder_eq, List.map_cons, List.map_cons, List.map_flatMap, List.map_flatMap,
      List.flatMap_congr hbelow]
    conv_rhs => rw [← List.zipIdx_map_fst 0 n.children, List.flatMap_map]
    rfl

/-- The spots of a page are those at which something stands. -/
theorem mem_spots_iff {n : Node} {spot : Spot} : spot ∈ n.spots ↔ (n.at? spot).isSome = true := by
  induction n using childInduction generalizing spot with
  | step n ih =>
    rw [spots_eq]
    cases spot with
    | nil => simp [at?]
    | cons i spot =>
      simp only [List.mem_cons, reduceCtorEq, false_or, List.mem_flatMap, List.mem_map,
        List.cons.injEq, Option.isSome_iff_exists, at?_cons_eq_some_iff]
      constructor
      · rintro ⟨⟨child, j⟩, hplace, _, hspot, rfl, rfl⟩
        have hj := List.mem_zipIdx_iff_getElem?.mp hplace
        have hsome := (ih child (List.mem_of_getElem? hj)).mp hspot
        obtain ⟨m, hm⟩ := Option.isSome_iff_exists.mp hsome
        exact ⟨m, child, hj, hm⟩
      · rintro ⟨m, child, hi, hm⟩
        have hsome := Option.isSome_iff_exists.mpr ⟨m, hm⟩
        have hspot := (ih child (List.mem_of_getElem? hi)).mpr hsome
        exact ⟨(child, i), List.mem_zipIdx_iff_getElem?.mpr hi, spot, hspot, rfl, rfl⟩

theorem mem_spotsOf_iff {p : Node → Bool} {n : Node} {spot : Spot} :
    spot ∈ n.spotsOf p ↔ ∃ m, n.at? spot = some m ∧ p m = true := by
  rw [spotsOf, List.mem_filter, mem_spots_iff, holdsAt]
  cases n.at? spot <;> simp

/-- **Pre-order is the order of a dictionary**: a spot comes before all that it begins, and
what the first difference names decides otherwise. -/
theorem pairwise_spots (n : Node) : n.spots.Pairwise (· < ·) := by
  induction n using childInduction with
  | step n ih =>
    have hindex : n.children.zipIdx.Pairwise (·.2 < ·.2) := by
      rw [← List.pairwise_map, List.zipIdx_map_snd]
      exact List.pairwise_lt_range'
    rw [spots_eq, List.pairwise_cons, List.pairwise_flatMap]
    refine ⟨?_, ?_, hindex.imp ?_⟩
    · intro spot hspot
      obtain ⟨_, -, hspot⟩ := List.mem_flatMap.mp hspot
      obtain ⟨_, -, rfl⟩ := List.mem_map.mp hspot
      exact List.nil_lt_cons _ _
    · rintro ⟨child, i⟩ hplace
      have hchild := List.mem_of_getElem? (List.mem_zipIdx_iff_getElem?.mp hplace)
      rw [List.pairwise_map]
      exact (ih child hchild).imp fun h => List.cons_lt_cons_iff.mpr (.inr ⟨rfl, h⟩)
    · rintro ⟨_, i⟩ ⟨_, j⟩ hij _ hx _ hy
      obtain ⟨_, -, rfl⟩ := List.mem_map.mp hx
      obtain ⟨_, -, rfl⟩ := List.mem_map.mp hy
      exact List.cons_lt_cons_iff.mpr (.inl hij)

/-! ## First spots -/

/-- A spot does not come after those that it begins. -/
theorem not_append_lt (spot below : Spot) : ¬ spot ++ below < spot := by
  induction spot with
  | nil => exact List.not_lt_nil below
  | cons i spot ih =>
    rw [List.cons_append, List.cons_lt_cons_iff]
    rintro (h | ⟨-, h⟩)
    · exact Nat.lt_irrefl i h
    · exact ih h

/-- Among the spots that begin with the same one, what follows decides. -/
theorem append_lt_append_iff {spot below below' : Spot} :
    spot ++ below < spot ++ below' ↔ below < below' := by
  induction spot with
  | nil => exact Iff.rfl
  | cons i spot ih =>
    rw [List.cons_append, List.cons_append, List.cons_lt_cons_iff, ih]
    simp

/-- The first spot of an ordered list is the one that none comes before. -/
theorem head?_eq_some_iff {spots : List Spot} (h : spots.Pairwise (· < ·)) {spot : Spot} :
    spots.head? = some spot ↔ spot ∈ spots ∧ ∀ other ∈ spots, ¬ other < spot := by
  cases spots with
  | nil => simp
  | cons first rest =>
    have hrest := (List.pairwise_cons.mp h).1
    rw [List.head?_cons, Option.some.injEq]
    constructor
    · rintro rfl
      refine ⟨List.mem_cons_self, fun other ho => ?_⟩
      rcases List.mem_cons.mp ho with rfl | ho
      · exact List.lt_irrefl other
      · exact List.lt_asymm (hrest other ho)
    · rintro ⟨hspot, hfirst⟩
      rcases List.mem_cons.mp hspot with rfl | hspot
      · rfl
      · exact absurd (hrest spot hspot) (hfirst first List.mem_cons_self)

theorem head?_spotsOf_iff {p : Node → Bool} {n : Node} {spot : Spot} :
    (n.spotsOf p).head? = some spot ↔
      spot ∈ n.spotsOf p ∧ ∀ other ∈ n.spotsOf p, ¬ other < spot :=
  head?_eq_some_iff ((pairwise_spots n).sublist List.filter_sublist)

/-! ## Searching -/

variable (p : Node → Bool)

/-- **A search for all nodes gives what stands at the spots with the property.** -/
theorem findAll_eq_spots (n : Node) : n.findAll p = (n.spotsOf p).filterMap n.at? := by
  have hmap : (n.spotsOf p).map n.at? = (n.preorder.filter p).map some := by
    rw [spotsOf, show n.holdsAt p = (Option.any p) ∘ n.at? from rfl, ← List.filter_map,
      map_at?_spots, List.filter_map]
    rfl
  have hid := congrArg (List.filterMap id) hmap
  rw [List.filterMap_map, List.filterMap_map] at hid
  rw [findAll_eq]
  simpa using hid.symm

/-- Where a list of spots has the nodes of another list, the first node with the property
stands at the first spot with it. -/
theorem find?_eq_of_map_at? {n : Node} {spots : List Spot} {nodes : List Node}
    (h : spots.map n.at? = nodes.map some) :
    nodes.find? p = (spots.filter (n.holdsAt p)).head?.bind n.at? := by
  have hmap : (spots.find? (n.holdsAt p)).map n.at? = (nodes.find? p).map some := by
    rw [show n.holdsAt p = Option.any p ∘ n.at? from rfl, ← List.find?_map, h, List.find?_map]
    rfl
  rw [List.head?_filter]
  cases hs : spots.find? (n.holdsAt p) with
  | none =>
    rw [hs] at hmap
    exact Option.map_eq_none_iff.mp hmap.symm
  | some spot =>
    rw [hs] at hmap
    obtain ⟨m, hm, hat⟩ := Option.map_eq_some_iff.mp hmap.symm
    rw [hm, Option.bind_some, ← hat]

/-- The first node in pre-order with the property stands at the first spot with it. -/
theorem find?_preorder_eq_spot (n : Node) :
    n.preorder.find? p = (n.spotsOf p).head?.bind n.at? :=
  find?_eq_of_map_at? p (map_at?_spots n)

/-- **A search finds the node at the first spot with the property.** -/
theorem find?_eq_spot (n : Node) : n.find? p = (n.spotsOf p).head?.bind n.at? := by
  rw [find?_eq, find?_preorder_eq_spot]

/-- Through a child, a property holds where it holds below the child. -/
theorem holdsAt_comp_cons {n child : Node} {i : Nat} (h : n.children[i]? = some child) :
    n.holdsAt p ∘ (i :: ·) = child.holdsAt p :=
  funext fun spot => by simp only [Function.comp_apply, holdsAt, at?_cons_of_getElem? h]

/-! ## Changing a node -/

/-- Of a change of the child list only what becomes of it counts. -/
theorem mapChildren_congr {n : Node} {f g : List Node → List Node}
    (h : f n.children = g n.children) : n.mapChildren f = n.mapChildren g := by
  cases n with
  | root nodes => exact congrArg root h
  | element info nodes => exact congrArg (element info) h
  | text content => rfl
  | attr item => rfl

/-- A change of one child leaves the others where they are. -/
theorem mapChildren_modify {parent n : Node} {before rest : List Node}
    (h : parent.children = before ++ n :: rest) (f : Node → Node) :
    parent.mapChildren (·.modify before.length f) =
      parent.mapChildren fun _ => before ++ f n :: rest := by
  refine mapChildren_congr ?_
  simp [h, List.modify_eq_take_cons_drop]

theorem mapChildren_mapChildren (f g : List Node → List Node) (n : Node) :
    (n.mapChildren f).mapChildren g = n.mapChildren (g ∘ f) := by
  cases n <;> rfl

theorem mapChildren_eq_self {f : List Node → List Node} {n : Node}
    (h : f n.children = n.children) : n.mapChildren f = n :=
  (mapChildren_congr (g := id) h).trans (by cases n <;> rfl)

/-- Among the spots that go through the children from the one behind `before` on, those that
go through the first of them come first, and they are its own. -/
theorem find?_spotsFrom_cons {parent n : Node} {before rest : List Node}
    (h : parent.children = before ++ n :: rest) :
    (spotsFrom before.length (n :: rest)).find? (parent.holdsAt p) =
      ((n.spots.find? (n.holdsAt p)).map (before.length :: ·)).or
        ((spotsFrom (before ++ [n]).length rest).find? (parent.holdsAt p)) := by
  have hn : parent.children[before.length]? = some n := by rw [h]; simp
  rw [spotsFrom, List.find?_append, List.find?_map, holdsAt_comp_cons p hn, List.length_append,
    List.length_singleton]

variable (f : Node → Node)

/-- If each child is changed at its first spot with the property, then so is the list of
children, here from the one behind `before` on. -/
theorem modifyIn?_eq_spot {parent : Node} (nodes before : List Node)
    (h : parent.children = before ++ nodes)
    (hchild : ∀ n ∈ nodes, n.modify? p f = (n.spots.find? (n.holdsAt p)).map (n.changeAt f)) :
    (modifyIn? p f nodes).map (fun changed => parent.mapChildren fun _ => before ++ changed) =
      ((spotsFrom before.length nodes).find? (parent.holdsAt p)).map (parent.changeAt f) := by
  induction nodes generalizing before with
  | nil => rfl
  | cons n rest ih =>
    rw [modifyIn?, hchild n List.mem_cons_self, find?_spotsFrom_cons p h]
    cases n.spots.find? (n.holdsAt p) with
    | some spot =>
      exact congrArg some (mapChildren_modify h fun child => child.changeAt f spot).symm
    | none =>
      have hrest := ih (before ++ [n]) (by rw [h]; simp) fun m hm =>
        hchild m (List.mem_cons_of_mem n hm)
      simpa [Function.comp_def] using hrest

/-- **An edit changes the page at the first spot with the property**, and is refused if there
is none. -/
theorem modify?_eq_spot (n : Node) : n.modify? p f = (n.spotsOf p).head?.map (n.changeAt f) := by
  rw [spotsOf, List.head?_filter]
  induction n using childInduction with
  | step n ih =>
    rw [modify?_eq_children, spots_eq_from]
    have htop : n.holdsAt p [] = p n := rfl
    by_cases hp : p n = true
    · rw [if_pos hp, List.find?_cons_of_pos (htop.trans hp)]
      rfl
    · rw [if_neg hp, List.find?_cons_of_neg (htop ▸ hp)]
      exact modifyIn?_eq_spot p f n.children [] rfl ih

/-! ## All searches -/

/-- **All searches go by one listing.**  The pre-order listing has a node before its children
and these from left to right, and its nodes stand at the spots of the page.  A search for all
nodes filters it, and a search for one stops at the first; this is also where an edit changes
the page.  The first element that carries an id is what is found by the id.  The listing is
as long as the page has nodes, and the page has as many levels as a longest way down has
nodes, which is no more than all. -/
theorem searches_eq_preorder (page : Node) (id : String) :
    page.preorder = page :: page.children.flatMap preorder ∧
    page.spots.map page.at? = page.preorder.map some ∧
    page.findAll p = page.preorder.filter p ∧
    page.find? p = (page.preorder.filter p).head? ∧
    (page.find? p = (page.spotsOf p).head?.bind page.at? ∧
      ∀ f, page.modify? p f = (page.spotsOf p).head?.map (page.changeAt f)) ∧
    (page.findById? id = (page.preorder.filter isElement).find? (hasId id) ∧
      ∀ f, page.modify? (hasId id) f = (page.spotsOf (hasId id)).head?.map (page.changeAt f)) ∧
    page.count = page.preorder.length ∧
    ((∃ path, Branch page path ∧ path.length = page.depth) ∧
      ∀ path, Branch page path → path.length ≤ page.depth) ∧
    page.depth ≤ page.count := by
  have hid : page.findById? id = (page.preorder.filter isElement).find? (hasId id) := by
    rw [findById?, find?_eq, List.find?_filter]
    congr 1
    funext n
    rw [Bool.eq_iff_iff]
    cases n <;> simp [hasId, isElement, element?]
  have hfirst : page.find? p = (page.preorder.filter p).head? := by
    rw [find?_eq, List.head?_filter]
  exact ⟨preorder_eq page, map_at?_spots page, findAll_eq p page, hfirst,
    ⟨find?_eq_spot p page, fun f => modify?_eq_spot p f page⟩,
    ⟨hid, fun f => modify?_eq_spot (hasId id) f page⟩, count_eq page,
    ⟨exists_branch_length_eq page, fun _ h => h.length_le⟩, depth_le_count page⟩

end PageDesign.Node

import PageDesign.Proofs.Node.Insertion

/-! # Removing a node

A removal goes through the nodes below the top in pre-order, child by child, and takes the first
one that carries the id away from its siblings (`remove?_eq_spot`).  The top itself is passed
over, even if it carries the id too, so the spots that count are those below it (`spotsBelow`).

`Removal` says what can come of it.  The parent of what is removed is replaced by itself with
one child less (`remove?_exact`); putting the child back would replace it again, so the
page had just the nodes of what is removed on top of those that are left, and it was no less
deep.
-/
namespace PageDesign.Node

/-- The spots below the top at which nodes with the property `p` stand, in pre-order. -/
def spotsBelow (p : Node → Bool) (n : Node) : List Spot :=
  (spotsFrom 0 n.children).filter (n.holdsAt p)

/-- The page without the node at a spot below the top. -/
def dropAt (n : Node) : Spot → Node
  | [] => n
  | [i] => n.mapChildren (·.eraseIdx i)
  | i :: spot => n.mapChildren (·.modify i fun child => child.dropAt spot)

/-- What comes of a removal. -/
inductive Removal (page : Node) (id : String) : Option (Node × Node) → Prop
  | missing (hs : page.spotsBelow (hasId id) = []) : Removal page id none
  | taken {spot : Spot} {index : Nat} {parent removed : Node}
      (hs : (page.spotsBelow (hasId id)).head? = some (spot ++ [index]))
      (hat : page.at? spot = some parent) (hr : parent.children[index]? = some removed) :
      Removal page id (some (removed, page.dropAt (spot ++ [index])))

/-! ## Below the top -/

section Below
variable {p : Node → Bool} {n : Node}

/-- The top is the first of all spots. -/
theorem spotsOf_eq_below (p : Node → Bool) (n : Node) :
    n.spotsOf p = if p n then [] :: n.spotsBelow p else n.spotsBelow p := by
  rw [spotsOf, spots_eq_from, List.filter_cons]
  rfl

theorem mem_spotsBelow_iff {spot : Spot} :
    spot ∈ n.spotsBelow p ↔ spot ≠ [] ∧ ∃ m, n.at? spot = some m ∧ p m = true := by
  have hlt := pairwise_spots n
  rw [spots_eq_from, List.pairwise_cons] at hlt
  rw [← mem_spotsOf_iff, spotsOf, spotsBelow, List.mem_filter, List.mem_filter, spots_eq_from,
    List.mem_cons]
  constructor
  · rintro ⟨hspot, hp⟩
    refine ⟨?_, .inr hspot, hp⟩
    rintro rfl
    exact List.lt_irrefl [] (hlt.1 [] hspot)
  · rintro ⟨hne, hspot, hp⟩
    exact ⟨hspot.resolve_left hne, hp⟩

theorem head?_spotsBelow_iff {spot : Spot} :
    (n.spotsBelow p).head? = some spot ↔
      spot ∈ n.spotsBelow p ∧ ∀ other ∈ n.spotsBelow p, ¬ other < spot := by
  have hlt := pairwise_spots n
  rw [spots_eq_from, List.pairwise_cons] at hlt
  exact head?_eq_some_iff (hlt.2.sublist List.filter_sublist)

theorem map_at?_spotsFrom (n : Node) :
    (spotsFrom 0 n.children).map n.at? = (preorderAll n.children).map some := by
  have h := map_at?_spots n
  rw [spots_eq_from, preorder_eq, ← preorderAll_eq_flatMap] at h
  exact (List.cons.inj h).2

/-- The first node below the top with the property stands at the first spot below it. -/
theorem find?_preorderAll_eq_spot (p : Node → Bool) (n : Node) :
    (preorderAll n.children).find? p = (n.spotsBelow p).head?.bind n.at? :=
  find?_eq_of_map_at? p (map_at?_spotsFrom n)

/-- There is no such spot if nothing below the top has the property. -/
theorem spotsBelow_eq_nil_iff :
    n.spotsBelow p = [] ↔ ∀ m ∈ preorderAll n.children, p m = false := by
  have hfind := find?_preorderAll_eq_spot p n
  constructor
  · intro h m hm
    rw [h] at hfind
    simpa using List.find?_eq_none.mp hfind m hm
  · intro h
    cases hs : n.spotsBelow p with
    | nil => rfl
    | cons spot rest =>
      obtain ⟨-, m, hat, hp⟩ := mem_spotsBelow_iff.mp (hs ▸ List.mem_cons_self)
      rw [hs, List.head?_cons, Option.bind_some, hat] at hfind
      rw [h m (List.mem_of_find?_eq_some hfind)] at hp
      cases hp

end Below

/-! ## Where a removal acts -/

theorem dropAt_cons {n : Node} {i : Nat} {spot : Spot} (h : spot ≠ []) :
    n.dropAt (i :: spot) = n.mapChildren (·.modify i fun child => child.dropAt spot) := by
  cases spot with
  | nil => exact absurd rfl h
  | cons j spot => rfl

/-- What is dropped is a child of the node at the spot before. -/
theorem dropAt_append (n : Node) (spot : Spot) (index : Nat) :
    n.dropAt (spot ++ [index]) = n.changeAt (mapChildren (·.eraseIdx index)) spot := by
  induction spot generalizing n with
  | nil => rfl
  | cons i spot ih =>
    rw [List.cons_append, dropAt_cons (by simp), changeAt]
    simp only [ih]

theorem remove?_eq_children (id : String) (n : Node) : n.remove? id =
    (removeIn? id n.children).map fun out => (out.1, n.mapChildren fun _ => out.2) := by
  cases n <;> rfl

/-- A child that is dropped leaves the others where they are. -/
theorem mapChildren_eraseIdx {parent n : Node} {before rest : List Node}
    (h : parent.children = before ++ n :: rest) :
    parent.mapChildren (·.eraseIdx before.length) = parent.mapChildren fun _ => before ++ rest := by
  refine mapChildren_congr ?_
  rw [h, List.eraseIdx_append_of_length_le (Nat.le_refl _), Nat.sub_self]
  rfl

/-- What is removed at a spot, and the page without it. -/
def takenAt (n : Node) (spot : Spot) : Option (Node × Node) :=
  (n.at? spot).map fun removed => (removed, n.dropAt spot)

/-- If each child loses what stands at its first spot below, then the list of children loses
what stands at its first spot, here from the one behind `before` on. -/
theorem removeIn?_eq_spot {id : String} {parent : Node} (nodes before : List Node)
    (h : parent.children = before ++ nodes)
    (hchild : ∀ n ∈ nodes, n.remove? id = (n.spotsBelow (hasId id)).head?.bind n.takenAt) :
    (removeIn? id nodes).map (fun out => (out.1, parent.mapChildren fun _ => before ++ out.2)) =
      ((spotsFrom before.length nodes).find? (parent.holdsAt (hasId id))).bind
        parent.takenAt := by
  induction nodes generalizing before with
  | nil => rfl
  | cons n rest ih =>
    have hn : parent.children[before.length]? = some n := by rw [h]; simp
    have htop : n.holdsAt (hasId id) [] = n.hasId id := rfl
    rw [removeIn?, find?_spotsFrom_cons (hasId id) h, spots_eq_from]
    by_cases hid : n.hasId id = true
    · rw [if_pos hid, List.find?_cons_of_pos (htop.trans hid)]
      have hdrop := mapChildren_eraseIdx h
      simp [takenAt, at?_singleton, hn, dropAt, hdrop]
    · rw [if_neg hid, List.find?_cons_of_neg (htop ▸ hid), hchild n List.mem_cons_self]
      rw [spotsBelow, List.head?_filter]
      cases hs : (spotsFrom 0 n.children).find? (n.holdsAt (hasId id)) with
      | some spot =>
        have hmem : spot ∈ n.spotsBelow (hasId id) :=
          List.mem_filter.mpr ⟨List.mem_of_find?_eq_some hs, List.find?_some hs⟩
        obtain ⟨hne, m, hat, -⟩ := mem_spotsBelow_iff.mp hmem
        have hmodify := mapChildren_modify h fun child => child.dropAt spot
        simp [takenAt, at?_cons_of_getElem? hn, hat, dropAt_cons hne, hmodify]
      | none =>
        have hrest := ih (before ++ [n]) (by rw [h]; simp) fun m hm =>
          hchild m (List.mem_cons_of_mem n hm)
        simpa [Function.comp_def] using hrest

/-- **A removal takes what stands at the first spot below the top that carries the id.** -/
theorem remove?_eq_spot (id : String) (n : Node) :
    n.remove? id = (n.spotsBelow (hasId id)).head?.bind n.takenAt := by
  induction n using childInduction with
  | step n ih =>
    rw [remove?_eq_children, spotsBelow, List.head?_filter]
    exact removeIn?_eq_spot n.children [] rfl ih

/-- Where the first node below the top with the id stands decides what is removed. -/
theorem remove?_of_head? {page removed : Node} {id : String} {spot : Spot}
    (hs : (page.spotsBelow (hasId id)).head? = some spot) (hat : page.at? spot = some removed) :
    page.remove? id = some (removed, page.dropAt spot) := by
  rw [remove?_eq_spot, hs, Option.bind_some, takenAt, hat]
  rfl

theorem removal (page : Node) (id : String) : Removal page id (page.remove? id) := by
  cases hs : (page.spotsBelow (hasId id)).head? with
  | none =>
    rw [remove?_eq_spot, hs]
    exact .missing (List.head?_eq_none_iff.mp hs)
  | some place =>
    obtain ⟨hne, removed, hat, -⟩ := mem_spotsBelow_iff.mp (List.mem_of_mem_head? hs)
    rw [remove?_of_head? hs hat]
    obtain ⟨spot, index, rfl⟩ : ∃ spot index, place = spot ++ [index] :=
      ⟨place.dropLast, place.getLast hne, (List.dropLast_append_getLast hne).symm⟩
    rw [at?_append] at hat
    obtain ⟨parent, hp, hr⟩ := Option.bind_eq_some_iff.mp hat
    rw [at?_singleton] at hr
    exact .taken hs hp hr

/-! ## The page afterwards -/

section Taken
variable {page left parent removed : Node} {spot : Spot} {index : Nat}

theorem replaced_dropAt (hat : page.at? spot = some parent) (index : Nat) :
    Replaced page (page.dropAt (spot ++ [index])) spot parent
      (parent.mapChildren (·.eraseIdx index)) := by
  rw [dropAt_append]
  exact replaced_changeAt hat _

/-- Where a child was dropped, it can be put back. -/
theorem insertIdx_eraseIdx {nodes : List Node} (hr : nodes[index]? = some removed) :
    index ≤ (nodes.eraseIdx index).length ∧
      (nodes.eraseIdx index).insertIdx index removed = nodes := by
  obtain ⟨hi, rfl⟩ := List.getElem?_eq_some_iff.mp hr
  refine ⟨?_, List.insertIdx_eraseIdx_getElem hi⟩
  rw [List.length_eraseIdx_of_lt hi]
  omega

variable (h : Replaced page left spot parent (parent.mapChildren (·.eraseIdx index)))
variable (hr : parent.children[index]? = some removed)
include h hr

/-- What is removed takes its nodes along. -/
theorem Replaced.count_eraseIdx : left.count + removed.count = page.count := by
  obtain ⟨hi, hback⟩ := insertIdx_eraseIdx hr
  have hnodes := countAll_insertIdx hi removed
  have hcount := h.count
  rw [hback] at hnodes
  rw [count_eq_children parent, count_eq_children (mapChildren _ parent), ← countAll_eq_sum,
    ← countAll_eq_sum, children_mapChildren rfl, hnodes] at hcount
  omega

/-- No page gets deeper by a removal: put back, what is removed can only add levels. -/
theorem Replaced.depth_eraseIdx_le : left.depth ≤ page.depth := by
  obtain ⟨hi, hback⟩ := insertIdx_eraseIdx hr
  have hnodes := depthAll_insertIdx hi removed
  rw [hback] at hnodes
  have hparent : parent.depth =
      max (parent.mapChildren (·.eraseIdx index)).depth (1 + removed.depth) := by
    rw [depth_eq, depth_eq (mapChildren _ parent), children_mapChildren rfl, hnodes]
    omega
  rw [h.symm.depth hparent]
  exact Nat.le_max_left _ _

end Taken

/-- **A removal detaches the first match, and nothing else.**  It is refused if nothing below
the top carries the id.  Otherwise it gives the first element in pre-order below the top that
does, with all that is below it, and its parent is replaced by itself without this child; all
else is as it was, no node is lost, and no level is won.  If the top does not carry the id,
then a search by the id finds the same element at the same spot. -/
theorem remove?_exact (page : Node) (id : String) :
    let result := page.remove? id
    let after := (Edit.remove id).apply page
    ((preorderAll page.children).find? (hasId id) = none → result = none ∧ after = page) ∧
    ∀ removed, (preorderAll page.children).find? (hasId id) = some removed →
      ∃ spot index parent, (page.spotsBelow (hasId id)).head? = some (spot ++ [index]) ∧
        page.at? (spot ++ [index]) = some removed ∧ result = some (removed, after) ∧
        Replaced page after spot parent (parent.mapChildren (·.eraseIdx index)) ∧
        after.count + removed.count = page.count ∧ after.depth ≤ page.depth ∧
        (page.hasId id = false → page.findById? id = some removed ∧
          (page.spotsOf (hasId id)).head? = some (spot ++ [index])) := by
  have houtcome := removal page id
  dsimp only [Edit.apply]
  generalize page.remove? id = result at houtcome ⊢
  cases houtcome with
  | missing hs =>
    rw [find?_preorderAll_eq_spot, hs]
    exact ⟨fun _ => ⟨rfl, rfl⟩, fun removed h => nomatch h⟩
  | @taken spot index parent removed hs hat hr =>
    have hplace : page.at? (spot ++ [index]) = some removed := by
      rw [at?_append_of_at? hat, at?_singleton, hr]
    have hrep := replaced_dropAt hat index
    rw [find?_preorderAll_eq_spot, hs, Option.bind_some, hplace]
    refine ⟨fun h => (nomatch h), ?_⟩
    rintro _ ⟨⟩
    refine ⟨spot, index, parent, rfl, hplace, rfl, hrep, hrep.count_eraseIdx hr,
      hrep.depth_eraseIdx_le hr, fun htop => ?_⟩
    have hfirst : (page.spotsOf (hasId id)).head? = some (spot ++ [index]) := by
      rw [spotsOf_eq_below, htop]
      exact hs
    refine ⟨?_, hfirst⟩
    rw [findById?, find?_eq_spot, hfirst, Option.bind_some, hplace]

end PageDesign.Node

import PageDesign.Proofs.Node.Removal

/-! # Removing all that carry an id

A removal takes one node.  Asked for the same id again and again it is refused in the end,
since each time the page loses nodes (`removeAll`).  Until then it takes the *outermost*
nodes below the top that carry the id, those with no other such node above them but, perhaps,
the top: what stands further in leaves along with the node above it.

A removal that is refused finds no such node and nothing to drop (`outermost_of_refused`);
any other takes the first of these nodes and leaves the rest of them for later
(`outermost_of_taken`).  So they come out in the order of their spots on the page that one
started from, and what is left is this page with each child that carries the id dropped,
whatever its depth (`prune`).
-/
namespace PageDesign.Node

mutual

/-- The page with each child dropped, at whatever depth, that carries `id`. -/
def prune (id : String) : Node → Node
  | root children => root (pruneIn id children)
  | element info children => element info (pruneIn id children)
  | text content => text content
  | attr item => attr item

/-- The nodes of a list that do not carry `id`, each of them pruned. -/
def pruneIn (id : String) : List Node → List Node
  | [] => []
  | n :: rest => if n.hasId id then pruneIn id rest else prune id n :: pruneIn id rest

end

/-- Whether no node with the property `p` stands above a spot, the top apart. -/
def freeAbove (p : Node → Bool) (n : Node) (spot : Spot) : Bool :=
  (n.above spot).tail.all fun m => !p m

/-- The spots below the top at which nodes with the property `p` stand, if none of the others
stands above them, in pre-order. -/
def outermostSpots (p : Node → Bool) (n : Node) : List Spot :=
  (n.spotsBelow p).filter (n.freeAbove p)

mutual

/-- The outermost nodes below the top with the property `p`, in pre-order. -/
def outermost (p : Node → Bool) : Node → List Node
  | root children => outermostIn p children
  | element _ children => outermostIn p children
  | text _ => []
  | attr _ => []

/-- The outermost nodes in or below a list with the property `p`, in pre-order. -/
def outermostIn (p : Node → Bool) : List Node → List Node
  | [] => []
  | n :: rest => (if p n then [n] else outermost p n) ++ outermostIn p rest

end

/-! ## What is dropped -/

theorem prune_eq_children (id : String) (n : Node) :
    n.prune id = n.mapChildren (pruneIn id) := by
  cases n <;> rfl

@[simp] theorem hasId_prune (id other : String) (n : Node) :
    (n.prune id).hasId other = n.hasId other := by
  rw [prune_eq_children, hasId_mapChildren]

theorem pruneIn_cons_of_pos {id : String} {n : Node} (h : n.hasId id = true)
    (rest : List Node) : pruneIn id (n :: rest) = pruneIn id rest := by
  rw [pruneIn, if_pos h]

theorem pruneIn_cons_of_neg {id : String} {n : Node} (h : ¬ n.hasId id = true)
    (rest : List Node) : pruneIn id (n :: rest) = n.prune id :: pruneIn id rest := by
  rw [pruneIn, if_neg h]

theorem outermost_eq_children (p : Node → Bool) (n : Node) :
    n.outermost p = outermostIn p n.children := by
  cases n <;> rfl

theorem outermostIn_cons_of_pos {p : Node → Bool} {n : Node} (h : p n = true)
    (rest : List Node) : outermostIn p (n :: rest) = n :: outermostIn p rest := by
  rw [outermostIn, if_pos h, List.singleton_append]

theorem outermostIn_cons_of_neg {p : Node → Bool} {n : Node} (h : ¬ p n = true)
    (rest : List Node) : outermostIn p (n :: rest) = n.outermost p ++ outermostIn p rest := by
  rw [outermostIn, if_neg h]

theorem outermostIn_eq_flatMap (p : Node → Bool) (nodes : List Node) : outermostIn p nodes =
    nodes.flatMap fun n => if p n then [n] else n.outermost p := by
  induction nodes with
  | nil => rfl
  | cons n rest ih => rw [outermostIn, List.flatMap_cons, ih]

/-- Of the spots of a child, those are outermost on the page that are so on the child, or the
one where the child stands itself, if it has the property. -/
theorem map_at?_filter_spots {p : Node → Bool} {n : Node}
    (ih : (n.outermostSpots p).map n.at? = (n.outermost p).map some) :
    ((n.spots.filter (n.holdsAt p)).filter fun spot => (n.above spot).all fun m => !p m).map
      n.at? = (if p n then [n] else n.outermost p).map some := by
  have htop : n.holdsAt p [] = p n := rfl
  have hbelow : ∀ spot ∈ n.spotsBelow p,
      ((n.above spot).all fun m => !p m) = (!p n && n.freeAbove p spot) := by
    intro spot hspot
    cases spot with
    | nil => exact absurd rfl (mem_spotsBelow_iff.mp hspot).1
    | cons i spot => rfl
  rw [spots_eq_from]
  by_cases hp : p n = true
  · have hnone : (n.spotsBelow p).filter (fun spot => (n.above spot).all fun m => !p m) = [] :=
      List.filter_eq_nil_iff.mpr fun spot hspot => by simp [hbelow spot hspot, hp]
    rw [if_pos hp, List.filter_cons_of_pos (htop.trans hp), List.filter_cons_of_pos rfl]
    exact congrArg (fun spots => (([] : Spot) :: spots).map n.at?) hnone
  · rw [if_neg hp, List.filter_cons_of_neg (htop ▸ hp), ← ih]
    refine congrArg (List.map n.at?) (List.filter_congr fun spot hspot => ?_)
    simp [hbelow spot hspot, hp]

/-- **The outermost nodes stand at the outermost spots.** -/
theorem map_at?_outermostSpots (p : Node → Bool) (n : Node) :
    (n.outermostSpots p).map n.at? = (n.outermost p).map some := by
  induction n using childInduction with
  | step n ih =>
    have hchild : ∀ place ∈ n.children.zipIdx,
        (((place.1.spots.map (place.2 :: ·)).filter (n.holdsAt p)).filter
          (n.freeAbove p)).map n.at? =
        (if p place.1 then [place.1] else place.1.outermost p).map some := by
      rintro ⟨child, i⟩ hplace
      have hi := List.mem_zipIdx_iff_getElem?.mp hplace
      have hat : n.at? ∘ (i :: ·) = child.at? := funext (at?_cons_of_getElem? hi)
      have hfree : n.freeAbove p ∘ (i :: ·) = fun spot => (child.above spot).all fun m => !p m :=
        funext fun spot => by simp only [Function.comp_apply, freeAbove, above, hi,
          Option.elim_some, List.tail_cons]
      rw [List.filter_map, List.filter_map, List.map_map, hat,
        holdsAt_comp_cons p hi, hfree]
      exact map_at?_filter_spots (ih child (List.mem_of_getElem? hi))
    rw [outermostSpots, spotsBelow, spotsFrom_eq_flatMap, List.filter_flatMap, List.filter_flatMap,
      List.map_flatMap, List.flatMap_congr hchild, outermost_eq_children, outermostIn_eq_flatMap,
      List.map_flatMap]
    conv_rhs => rw [← List.zipIdx_map_fst 0 n.children, List.flatMap_map]

/-! ## One removal -/

section Removal
variable {id : String}

mutual

/-- **A refused removal finds nothing to take and nothing to drop.** -/
theorem outermost_of_refused : ∀ {n : Node}, n.remove? id = none →
    n.outermost (hasId id) = [] ∧ n.prune id = n
  | root children, h => by
    unfold remove? at h
    obtain ⟨hnone, hsame⟩ := outermostIn_of_refused (Option.map_eq_none_iff.mp h)
    exact ⟨hnone, congrArg root hsame⟩
  | element info children, h => by
    unfold remove? at h
    obtain ⟨hnone, hsame⟩ := outermostIn_of_refused (Option.map_eq_none_iff.mp h)
    exact ⟨hnone, congrArg (element info) hsame⟩
  | text _, _ => ⟨rfl, rfl⟩
  | attr _, _ => ⟨rfl, rfl⟩

theorem outermostIn_of_refused : ∀ {nodes : List Node}, removeIn? id nodes = none →
    outermostIn (hasId id) nodes = [] ∧ pruneIn id nodes = nodes
  | [], _ => ⟨rfl, rfl⟩
  | n :: rest, h => by
    unfold removeIn? at h
    split at h
    · cases h
    · next hid =>
      split at h
      · cases h
      · next hn =>
        obtain ⟨hnone, hsame⟩ := outermost_of_refused hn
        obtain ⟨hrest, hkept⟩ := outermostIn_of_refused (Option.map_eq_none_iff.mp h)
        constructor
        · rw [outermostIn_cons_of_neg hid, hnone, hrest, List.nil_append]
        · rw [pruneIn_cons_of_neg hid, hsame, hkept]

end

/-- What is left of a page carries the ids at its top that the page does. -/
theorem hasId_of_remove? {n removed left : Node} (h : n.remove? id = some (removed, left))
    (other : String) : left.hasId other = n.hasId other := by
  rw [remove?_eq_children] at h
  obtain ⟨out, -, he⟩ := Option.map_eq_some_iff.mp h
  obtain rfl := congrArg Prod.snd he
  exact hasId_mapChildren other _ n

mutual

/-- **A removal takes the first of the outermost nodes and leaves the rest of them**, and
what is to be dropped after it is what was to be dropped before. -/
theorem outermost_of_taken : ∀ {n removed left : Node}, n.remove? id = some (removed, left) →
    n.outermost (hasId id) = removed :: left.outermost (hasId id) ∧ n.prune id = left.prune id
  | root children, removed, left, h => by
    unfold remove? at h
    obtain ⟨⟨taken, rest⟩, hr, he⟩ := Option.map_eq_some_iff.mp h
    obtain ⟨rfl, rfl⟩ : taken = removed ∧ root rest = left := by simpa using he
    obtain ⟨hfirst, hsame⟩ := outermostIn_of_taken hr
    exact ⟨hfirst, congrArg root hsame⟩
  | element info children, removed, left, h => by
    unfold remove? at h
    obtain ⟨⟨taken, rest⟩, hr, he⟩ := Option.map_eq_some_iff.mp h
    obtain ⟨rfl, rfl⟩ : taken = removed ∧ element info rest = left := by simpa using he
    obtain ⟨hfirst, hsame⟩ := outermostIn_of_taken hr
    exact ⟨hfirst, congrArg (element info) hsame⟩
  | text _, _, _, h => by cases h
  | attr _, _, _, h => by cases h

theorem outermostIn_of_taken : ∀ {nodes : List Node} {removed : Node} {left : List Node},
    removeIn? id nodes = some (removed, left) →
      outermostIn (hasId id) nodes = removed :: outermostIn (hasId id) left ∧
        pruneIn id nodes = pruneIn id left
  | [], _, _, h => by cases h
  | n :: rest, removed, left, h => by
    cases removedFrom h with
    | first hid => exact ⟨outermostIn_cons_of_pos hid rest, pruneIn_cons_of_pos hid rest⟩
    | @below _ kept hid hn =>
      obtain ⟨hfirst, hsame⟩ := outermost_of_taken hn
      have hkept : ¬ kept.hasId id = true := by rwa [hasId_of_remove? hn]
      constructor
      · rw [outermostIn_cons_of_neg hid, outermostIn_cons_of_neg hkept, hfirst, List.cons_append]
      · rw [pruneIn_cons_of_neg hid, pruneIn_cons_of_neg hkept, hsame]
    | further hid hn hr =>
      obtain ⟨hnone, -⟩ := outermost_of_refused hn
      obtain ⟨hfirst, hsame⟩ := outermostIn_of_taken hr
      constructor
      · rw [outermostIn_cons_of_neg hid, outermostIn_cons_of_neg hid, hnone, hfirst,
          List.nil_append, List.nil_append]
      · rw [pruneIn_cons_of_neg hid, pruneIn_cons_of_neg hid, hsame]

end

end Removal

/-! ## All removals -/

/-- A page loses nodes by each removal. -/
theorem count_lt_of_remove? {page removed left : Node} {id : String}
    (h : page.remove? id = some (removed, left)) : left.count < page.count := by
  have houtcome := removal page id
  rw [h] at houtcome
  cases houtcome with
  | @taken spot index parent removed hs hat hr =>
    have hcount := (replaced_dropAt hat index).count_eraseIdx hr
    have hpos := count_eq_children removed
    omega

/-- Removals of `id`, one after the other until one is refused: what they give, and the page
that is left in the end. -/
def removeAll (id : String) (page : Node) : List Node × Node :=
  match _ : page.remove? id with
  | none => ([], page)
  | some (removed, left) =>
    let later := removeAll id left
    (removed :: later.1, later.2)
termination_by page.count
decreasing_by exact count_lt_of_remove? ‹_›

section Run
variable {id : String} {page removed left : Node}

theorem removeAll_of_refused (h : page.remove? id = none) : page.removeAll id = ([], page) := by
  rw [removeAll]
  split <;> simp_all

theorem removeAll_of_taken (h : page.remove? id = some (removed, left)) :
    page.removeAll id = (removed :: (left.removeAll id).1, (left.removeAll id).2) := by
  rw [removeAll]
  split <;> simp_all

/-- **All removals of an id take the outermost nodes that carry it, and the pruned page is
left.** -/
theorem removeAll_eq (id : String) (page : Node) :
    page.removeAll id = (page.outermost (hasId id), page.prune id) := by
  induction page using removeAll.induct id with
  | case1 page h =>
    obtain ⟨hnone, hsame⟩ := outermost_of_refused h
    rw [removeAll_of_refused h, hnone, hsame]
  | case2 page removed left h ih =>
    obtain ⟨hfirst, hsame⟩ := outermost_of_taken h
    rw [removeAll_of_taken h, ih, hfirst, hsame]

/-- The last removal is refused. -/
theorem remove?_removeAll (id : String) (page : Node) :
    (page.removeAll id).2.remove? id = none := by
  induction page using removeAll.induct id with
  | case1 page h => rw [removeAll_of_refused h, h]
  | case2 page removed left h ih =>
    rw [removeAll_of_taken h]
    exact ih

end Run

/-- **Removing until nothing is left.**  Removals of an id, asked for until one is refused, take
as many nodes as stand below the top with this id and below no other such node but the top.
These come out in pre-order, each as it stood on the page; what is left is the page without
the children that carry the id, at whatever depth, so that no node below the top carries it
any more. -/
theorem removeAll_exact (page : Node) (id : String) :
    let removed := (page.removeAll id).1
    let last := (page.removeAll id).2
    let spots := page.outermostSpots (hasId id)
    removed.length = spots.length ∧ removed.map some = spots.map page.at? ∧
      last = page.prune id ∧ ∀ n ∈ preorderAll last.children, n.hasId id = false := by
  intro removed last spots
  have htaken : removed.map some = spots.map page.at? := by
    rw [show removed = page.outermost (hasId id) from congrArg Prod.fst (removeAll_eq id page)]
    exact (map_at?_outermostSpots (hasId id) page).symm
  refine ⟨?_, htaken, congrArg Prod.snd (removeAll_eq id page), ?_⟩
  · rw [← List.length_map (f := some), htaken, List.length_map]
  · have hrefused := removal last id
    rw [remove?_removeAll] at hrefused
    cases hrefused with
    | missing hs => exact spotsBelow_eq_nil_iff.mp hs

end PageDesign.Node

import PageDesign.Proofs.Node.Spot

/-! # Pages that differ at one spot

What an edit leaves alone is said here without reference to how the edit is made.  A page
comes from another one by replacing a node (`Replaced`) if the one has the old node at a
spot, the other has the new node there, and at every spot that does not lie below, or at, this
spot both have nodes that are the same but for what is below them (`bare`).

A page is known from its nodes taken by themselves (`eq_of_bare`), so there is just one way
to replace a node (`Replaced.unique`), and it can be undone (`Replaced.symm`).  An edit at a
spot replaces the node there (`replaced_changeAt`).  How many nodes and levels the page has
afterwards depends on the old and the new node only (`Replaced.count`, `Replaced.depth`).  If
the two are the same by themselves, an id by which the node was found still finds it
(`Replaced.head?_spotsOf`).
-/
namespace PageDesign.Node

/-- A node by itself, without what is below it. -/
def bare (n : Node) : Node := n.mapChildren fun _ => []

/-- A page with the node at a spot replaced, and all else as it was. -/
structure Replaced (page page' : Node) (spot : Spot) (old new : Node) : Prop where
  before : page.at? spot = some old
  after : page'.at? spot = some new
  /-- At spots that are not at or below the one in question, nodes by themselves stay. -/
  elsewhere : ∀ other, ¬ spot <+: other →
    (page'.at? other).map bare = (page.at? other).map bare

/-! ## Nodes by themselves -/

@[simp] theorem bare_mapChildren (f : List Node → List Node) (n : Node) :
    (n.mapChildren f).bare = n.bare := by
  cases n <;> rfl

@[simp] theorem hasId_bare (id : String) (n : Node) : n.bare.hasId id = n.hasId id := by
  cases n <;> rfl

@[simp] theorem hasId_mapChildren (id : String) (f : List Node → List Node) (n : Node) :
    (n.mapChildren f).hasId id = n.hasId id := by
  cases n <;> rfl

/-- A change of the child list that leaves an empty one empty. -/
theorem children_mapChildren {f : List Node → List Node} (hf : f [] = []) (n : Node) :
    (n.mapChildren f).children = f n.children := by
  cases n with
  | root nodes => rfl
  | element info nodes => rfl
  | text content => exact hf.symm
  | attr item => exact hf.symm

theorem eq_of_bare_of_children {n m : Node} (hb : n.bare = m.bare)
    (hc : n.children = m.children) : n = m := by
  cases n <;> cases m <;> simp_all [bare, mapChildren, children, children?]

theorem at?_append (n : Node) (spot below : Spot) :
    n.at? (spot ++ below) = (n.at? spot).bind (·.at? below) := by
  induction spot generalizing n with
  | nil => rfl
  | cons i spot ih =>
    rw [List.cons_append, at?, at?]
    cases n.children[i]? with
    | none => rfl
    | some child => exact ih child

theorem at?_append_of_at? {n m : Node} {spot : Spot} (h : n.at? spot = some m) (below : Spot) :
    n.at? (spot ++ below) = m.at? below := by
  rw [at?_append, h, Option.bind_some]

theorem at?_singleton (n : Node) (i : Nat) : n.at? [i] = n.children[i]? := by
  rw [at?]
  cases n.children[i]? <;> rfl

/-- **A page is known from its nodes taken by themselves**, each at its spot. -/
theorem eq_of_bare {n m : Node} (h : ∀ spot, (n.at? spot).map bare = (m.at? spot).map bare) :
    n = m := by
  induction n using childInduction generalizing m with
  | step n ih =>
    refine eq_of_bare_of_children (Option.some.inj (h [])) (List.ext_getElem? fun i => ?_)
    have hi := h [i]
    rw [at?_singleton, at?_singleton] at hi
    cases hn : n.children[i]? with
    | none =>
      rw [hn] at hi
      exact (Option.map_eq_none_iff.mp hi.symm).symm
    | some child =>
      rw [hn] at hi
      obtain ⟨child', hm, -⟩ := Option.map_eq_some_iff.mp hi.symm
      have hchild : child = child' := by
        refine ih child (List.mem_of_getElem? hn) fun spot => ?_
        rw [← at?_cons_of_getElem? hn, ← at?_cons_of_getElem? hm]
        exact h (i :: spot)
      rw [hm, hchild]

/-! ## Replacing a node -/

section Replacing
variable {page page' : Node} {spot : Spot} {old new : Node}

theorem Replaced.symm (h : Replaced page page' spot old new) : Replaced page' page spot new old :=
  ⟨h.after, h.before, fun other ho => (h.elsewhere other ho).symm⟩

/-- **There is just one way to replace a node.** -/
theorem Replaced.unique {page'' : Node} (h : Replaced page page' spot old new)
    (h' : Replaced page page'' spot old new) : page' = page'' := by
  refine eq_of_bare fun other => ?_
  by_cases hs : spot <+: other
  · obtain ⟨below, rfl⟩ := hs
    rw [at?_append_of_at? h.after, at?_append_of_at? h'.after]
  · rw [h.elsewhere other hs, h'.elsewhere other hs]

/-- The way down through a child that was changed. -/
theorem at?_modify_cons {n child : Node} {i : Nat} (hi : n.children[i]? = some child)
    (f : Node → Node) (spot : Spot) :
    (n.mapChildren (·.modify i f)).at? (i :: spot) = (f child).at? spot := by
  refine at?_cons_of_getElem? ?_ spot
  rw [children_mapChildren (by simp), List.getElem?_modify_eq, hi]
  rfl

/-- The way down through another child. -/
theorem at?_modify_cons_of_ne {i j : Nat} (h : i ≠ j) (n : Node) (f : Node → Node) (spot : Spot) :
    (n.mapChildren (·.modify i f)).at? (j :: spot) = n.at? (j :: spot) := by
  rw [at?, at?, children_mapChildren (by simp), List.getElem?_modify_ne _ _ h]

/-- **An edit at a spot replaces the node there.** -/
theorem replaced_changeAt (hat : page.at? spot = some old) (f : Node → Node) :
    Replaced page (page.changeAt f spot) spot old (f old) := by
  induction spot generalizing page with
  | nil =>
    obtain rfl := Option.some.inj hat
    exact ⟨rfl, rfl, fun other h => absurd List.nil_prefix h⟩
  | cons i spot ih =>
    obtain ⟨child, hi, hchild⟩ := at?_cons_eq_some_iff.mp hat
    obtain ⟨-, hafter, helse⟩ := ih hchild
    refine ⟨hat, (at?_modify_cons hi _ spot).trans hafter, fun other hother => ?_⟩
    cases other with
    | nil => exact congrArg some (bare_mapChildren _ page)
    | cons j other =>
      rw [changeAt]
      by_cases hij : i = j
      · subst j
        rw [at?_modify_cons hi, at?_cons_of_getElem? hi]
        exact helse other fun h => hother (List.cons_prefix_cons.mpr ⟨rfl, h⟩)
      · rw [at?_modify_cons_of_ne hij]

theorem Replaced.eq_changeAt (h : Replaced page page' spot old new) :
    page' = page.changeAt (fun _ => new) spot :=
  h.unique (replaced_changeAt h.before fun _ => new)

/-- A change that leaves the node there as it is leaves the page. -/
theorem changeAt_eq_self (hat : page.at? spot = some old) {f : Node → Node} (hf : f old = old) :
    page.changeAt f spot = page := by
  have hr := replaced_changeAt hat f
  rw [hf] at hr
  exact hr.unique ⟨hat, hat, fun _ _ => rfl⟩

/-! ## Nodes and levels -/

theorem countAll_modify {nodes : List Node} {i : Nat} {n : Node} (hi : nodes[i]? = some n)
    (f : Node → Node) : countAll (nodes.modify i f) + n.count = countAll nodes + (f n).count := by
  induction nodes generalizing i with
  | nil => cases hi
  | cons m rest ih =>
    cases i with
    | zero =>
      obtain rfl := Option.some.inj hi
      rw [List.modify_zero_cons, countAll, countAll]
      omega
    | succ i =>
      have ih := ih (i := i) hi
      rw [List.modify_succ_cons, countAll, countAll]
      omega

theorem depthAll_modify {nodes : List Node} {i levels : Nat} {n : Node} {f : Node → Node}
    (hi : nodes[i]? = some n) (hf : (f n).depth = max n.depth levels) :
    depthAll (nodes.modify i f) = max (depthAll nodes) levels := by
  induction nodes generalizing i with
  | nil => cases hi
  | cons m rest ih =>
    cases i with
    | zero =>
      obtain rfl := Option.some.inj hi
      rw [List.modify_zero_cons, depthAll, depthAll, hf, Nat.max_right_comm]
    | succ i =>
      rw [List.modify_succ_cons, depthAll, depthAll, ih (i := i) hi, Nat.max_assoc]

theorem count_changeAt (hat : page.at? spot = some old) (f : Node → Node) :
    (page.changeAt f spot).count + old.count = page.count + (f old).count := by
  induction spot generalizing page with
  | nil =>
    obtain rfl := Option.some.inj hat
    exact Nat.add_comm _ _
  | cons i spot ih =>
    obtain ⟨child, hi, hchild⟩ := at?_cons_eq_some_iff.mp hat
    have hcount := countAll_modify hi fun child => child.changeAt f spot
    have ih := ih hchild
    rw [changeAt, count_eq_children, count_eq_children page, ← countAll_eq_sum, ← countAll_eq_sum,
      children_mapChildren (by simp)]
    omega

theorem depth_changeAt {levels : Nat} {f : Node → Node} (hat : page.at? spot = some old)
    (hf : (f old).depth = max old.depth levels) :
    (page.changeAt f spot).depth = max page.depth (spot.length + levels) := by
  induction spot generalizing page with
  | nil =>
    obtain rfl := Option.some.inj hat
    rw [List.length_nil, Nat.zero_add]
    exact hf
  | cons i spot ih =>
    obtain ⟨child, hi, hchild⟩ := at?_cons_eq_some_iff.mp hat
    have hdepth := depthAll_modify (f := fun child => child.changeAt f spot) hi (ih hchild)
    rw [changeAt, depth_eq, depth_eq page, children_mapChildren (by simp), hdepth,
      List.length_cons]
    omega

/-- The page changes its number of nodes as the node does. -/
theorem Replaced.count (h : Replaced page page' spot old new) :
    page'.count + old.count = page.count + new.count := by
  rw [h.eq_changeAt]
  exact count_changeAt h.before fun _ => new

/-- If the new node is as deep as the old one or as a number of levels, whichever is more,
then so is the page, where the levels are counted from the spot on. -/
theorem Replaced.depth {levels : Nat} (h : Replaced page page' spot old new)
    (hd : new.depth = max old.depth levels) :
    page'.depth = max page.depth (spot.length + levels) := by
  rw [h.eq_changeAt]
  exact depth_changeAt h.before hd

end Replacing

/-! ## What a replacement leaves of the spots with an id -/

section Replacing
variable {page page' old new : Node} {spot other : Spot} {id : String}

/-- Nodes that are the same but for what is below them carry the same id. -/
theorem mem_spotsOf_of_bare {n m : Node} (h : (n.at? other).map bare = (m.at? other).map bare)
    (ho : other ∈ n.spotsOf (hasId id)) : other ∈ m.spotsOf (hasId id) := by
  obtain ⟨a, hn, ha⟩ := mem_spotsOf_iff.mp ho
  rw [hn, Option.map_some] at h
  obtain ⟨b, hm, hb⟩ := Option.map_eq_some_iff.mp h.symm
  refine mem_spotsOf_iff.mpr ⟨b, hm, ?_⟩
  rw [← hasId_bare, hb, hasId_bare]
  exact ha

theorem Replaced.mem_spotsOf_iff (h : Replaced page page' spot old new)
    (ho : ¬ spot <+: other) :
    other ∈ page'.spotsOf (hasId id) ↔ other ∈ page.spotsOf (hasId id) :=
  ⟨mem_spotsOf_of_bare (h.elsewhere other ho), mem_spotsOf_of_bare (h.elsewhere other ho).symm⟩

theorem Replaced.mem_spotsOf_self (h : Replaced page page' spot old new)
    (hb : new.bare = old.bare) (hs : spot ∈ page.spotsOf (hasId id)) :
    spot ∈ page'.spotsOf (hasId id) := by
  refine mem_spotsOf_of_bare ?_ hs
  rw [h.before, h.after, Option.map_some, Option.map_some, hb]

/-- **What is found by an id is still found there** when it is replaced by something that
carries the id, too. -/
theorem Replaced.head?_spotsOf_of_hasId (h : Replaced page page' spot old new)
    (hid : new.hasId id = true) (hs : (page.spotsOf (hasId id)).head? = some spot) :
    (page'.spotsOf (hasId id)).head? = some spot := by
  obtain ⟨-, hfirst⟩ := head?_spotsOf_iff.mp hs
  have hmem := Node.mem_spotsOf_iff.mpr ⟨new, h.after, hid⟩
  refine head?_spotsOf_iff.mpr ⟨hmem, fun other ho hlt => ?_⟩
  have hnot : ¬ spot <+: other := by
    rintro ⟨below, rfl⟩
    exact not_append_lt spot below hlt
  exact hfirst other ((h.mem_spotsOf_iff hnot).mp ho) hlt

/-- So it is when only what is below it is replaced. -/
theorem Replaced.head?_spotsOf (h : Replaced page page' spot old new)
    (hb : new.bare = old.bare) (hs : (page.spotsOf (hasId id)).head? = some spot) :
    (page'.spotsOf (hasId id)).head? = some spot := by
  obtain ⟨m, hat, hm⟩ := Node.mem_spotsOf_iff.mp (List.mem_of_mem_head? hs)
  obtain rfl := Option.some.inj (h.before.symm.trans hat)
  exact h.head?_spotsOf_of_hasId (by rwa [← hasId_bare, hb, hasId_bare]) hs

end Replacing

end PageDesign.Node

import PageDesign.Proofs.Node.Removal

/-! # Insertions and removals undo each other

Both edits act at the first spot that meets their condition, so what one of them did is undone
by the other if this acts at the same spot again.  It does: an edit changes neither the nodes
at earlier spots, taken by themselves, nor the parent, taken by itself, and of what makes a
spot the first one with an id, nothing else counts (`head?_eq_some_iff`).

Once the spot is known, nothing is left to show about the rest of the page, since there is
just one way to replace a node (`Replaced.unique`).
-/
namespace PageDesign.Node

section Undo
variable {page child removed : Node} {spot : Spot} {info : Element} {nodes : List Node}
variable {index : Nat} (hat : page.at? spot = some (element info nodes))
include hat

/-- A node stands where it was placed. -/
theorem at?_placeAt (hi : index ≤ nodes.length) (child : Node) :
    (page.placeAt spot index child).at? (spot ++ [index]) = some child := by
  rw [at?_append_of_at? (replaced_placeAt hat index child).after, at?_singleton]
  exact List.getElem?_insertIdx_self.trans (if_pos hi)

/-- Dropping what was placed leaves the page. -/
theorem dropAt_placeAt : (page.placeAt spot index child).dropAt (spot ++ [index]) = page := by
  have hplaced := replaced_placeAt hat index child
  have hback := replaced_dropAt hplaced.after index
  have herase : (element info (nodes.insertIdx index child)).mapChildren (·.eraseIdx index) =
      element info nodes := congrArg (element info) (List.eraseIdx_insertIdx_self child)
  rw [herase] at hback
  exact hback.unique hplaced.symm

/-- Placing what was dropped brings the page back. -/
theorem placeAt_dropAt (hr : nodes[index]? = some removed) :
    (page.dropAt (spot ++ [index])).placeAt spot index removed = page := by
  have hdropped := replaced_dropAt hat index
  have hback := replaced_placeAt hdropped.after index removed
  rw [(insertIdx_eraseIdx hr).2] at hback
  exact hback.unique hdropped.symm

/-- **Where nothing below the top carried an id, what is inserted with this id is the first
node that does.**  Whatever stands before it carried the id before, too. -/
theorem head?_spotsBelow_placeAt {id : String} (hi : index ≤ nodes.length)
    (hc : child.hasId id = true) (hnone : page.spotsBelow (hasId id) = []) :
    ((page.placeAt spot index child).spotsBelow (hasId id)).head? = some (spot ++ [index]) := by
  have hr := replaced_placeAt hat index child
  have hmem := mem_spotsBelow_iff.mpr ⟨by simp, child, at?_placeAt hat hi child, hc⟩
  refine head?_spotsBelow_iff.mpr ⟨hmem, fun other ho hlt => ?_⟩
  obtain ⟨hne, m, hm, hid⟩ := mem_spotsBelow_iff.mp ho
  suffices hold : other ∈ page.spotsOf (hasId id) by
    obtain ⟨m', hat', hid'⟩ := mem_spotsOf_iff.mp hold
    have hbelow := mem_spotsBelow_iff.mpr ⟨hne, m', hat', hid'⟩
    rw [hnone] at hbelow
    cases hbelow
  by_cases hpre : spot <+: other
  · -- the parent itself, or one of its children before the new one
    obtain ⟨below, rfl⟩ := hpre
    rw [append_lt_append_iff] at hlt
    cases below with
    | nil =>
      rw [List.append_nil] at ho ⊢
      exact hr.symm.mem_spotsOf_self rfl (mem_spotsOf_iff.mpr (mem_spotsBelow_iff.mp ho).2)
    | cons j below =>
      have hj : j < index := by
        rcases List.cons_lt_cons_iff.mp hlt with hj | ⟨-, hlt⟩
        · exact hj
        · exact absurd hlt (List.not_lt_nil below)
      refine mem_spotsOf_iff.mpr ⟨m, ?_, hid⟩
      rw [at?_append_of_at? hr.after, at?] at hm
      rw [at?_append_of_at? hat, ← hm, at?]
      simp only [children, children?, Option.getD_some, List.getElem?_insertIdx_of_lt hj]
  · exact (hr.mem_spotsOf_iff hpre).mp (mem_spotsOf_iff.mpr ⟨m, hm, hid⟩)

end Undo

/-- **Insertions and removals undo each other.**  What was inserted with an id that nothing
below the top carried is what a removal of this id takes back, and the page is what it was.
What was removed can be put back in its place by any id by which a search finds its parent,
and the page is again what it was. -/
theorem insert_remove?_undo (page : Node) :
    (∀ parent index child id placed, child.hasId id = true →
      (∀ n ∈ preorderAll page.children, n.hasId id = false) →
      page.insert parent index child = .ok placed →
        placed.remove? id = some (child, page)) ∧
    ∀ id removed left, page.remove? id = some (removed, left) →
      ∃ spot index parent, (page.spotsBelow (hasId id)).head? = some (spot ++ [index]) ∧
        page.at? spot = some parent ∧ parent.children[index]? = some removed ∧
        ∀ handle, (page.spotsOf (hasId handle)).head? = some spot →
          left.insert handle index removed = .ok page := by
  constructor
  · intro parent index child id placed hc hnone h
    have houtcome := insertion page parent index child
    rw [h] at houtcome
    cases houtcome with
    | @placed spot info nodes hs hat hi =>
      have hfirst := head?_spotsBelow_placeAt hat hi hc (spotsBelow_eq_nil_iff.mpr hnone)
      rw [remove?_of_head? hfirst (at?_placeAt hat hi child), dropAt_placeAt hat]
  · intro id removed left h
    have houtcome := removal page id
    rw [h] at houtcome
    cases houtcome with
    | @taken spot index parent removed hs hat hr =>
      refine ⟨spot, index, parent, hs, hat, hr, fun handle hh => ?_⟩
      obtain ⟨info, nodes, hat', -⟩ := exists_element_of_head? hh
      obtain rfl := Option.some.inj (hat.symm.trans hat')
      have hdropped := replaced_dropAt hat index
      have hfirst := hdropped.head?_spotsOf (bare_mapChildren _ _) hh
      have hi := Nat.not_lt.mpr (insertIdx_eraseIdx hr).1
      rw [insert_of_head? hfirst hdropped.after, placeAt_dropAt hat hr]
      exact if_neg hi

/-- A button in which its own id stands again is put into a box, taken out and put back. -/
theorem insert_remove?_undo_button :
    let box (children : List Node) : Node := .element { id := some "box", tag := "div" } children
    let button (children : List Node) : Node :=
      .element { id := some "go", tag := "button" } children
    let page : Node := .root [box [.text "x"]]
    let placed : Node := .root [box [.text "x", button [button []]]]
    (page.insert "box" 1 (button [button []]) = .ok placed ∧
      placed.remove? "go" = some (button [button []], page)) ∧
    (placed.spotsOf (hasId "box")).head? = some [0] ∧
      page.insert "box" 1 (button [button []]) = .ok placed := by
  intro box button page placed
  have hinsert : page.insert "box" 1 (button [button []]) = .ok placed := rfl
  have hnone : ∀ n ∈ preorderAll page.children, n.hasId "go" = false := by decide +kernel
  have hremove : placed.remove? "go" = some (button [button []], page) :=
    (insert_remove?_undo page).1 "box" 1 _ "go" placed rfl hnone hinsert
  obtain ⟨spot, index, parent, hs, -, -, hback⟩ :=
    (insert_remove?_undo placed).2 "go" _ page hremove
  have hplace : (placed.spotsBelow (hasId "go")).head? = some ([0] ++ [1]) := by decide +kernel
  obtain ⟨rfl, ⟨⟩⟩ := List.append_inj' (Option.some.inj (hs.symm.trans hplace)) rfl
  have hbox : (placed.spotsOf (hasId "box")).head? = some [0] := by decide +kernel
  exact ⟨⟨hinsert, hremove⟩, hbox, hback "box" hbox⟩

end PageDesign.Node

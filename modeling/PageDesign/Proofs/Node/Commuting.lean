import PageDesign.Proofs.Node.Pruning

/-! # Edits that can be exchanged

Two edits of a page may be made in either order if neither decides where the other one acts.

For removals this is read off what they leave.  Where no id is carried twice, a removal leaves
the pruned page (`apply_remove_eq_prune`), and pruning a page for one id and for another comes
to the same in either order (`prune_comm`).  What a removal gives is the first outermost node
with its id; it is the same after another removal if neither of the two nodes stands inside
the other (`Apart`, `outermost_prune`).

An insertion goes down to its parent through nodes that do not carry its id (`place`).  If
what another one inserts does not carry this id either, then the way down and the number of
children there stay the same (`room_place`), and it does not matter which of the two goes
first, even if one parent stands inside the other (`place_comm`).
-/
namespace PageDesign.Node

/-! ## Removals -/

section Removals
variable {id : String}

theorem hasId_removed {page removed left : Node} (h : page.remove? id = some (removed, left)) :
    removed.hasId id = true := by
  have houtcome := removal page id
  rw [h] at houtcome
  cases houtcome with
  | taken hs hat hr =>
    obtain ⟨-, m, hm, hid⟩ := mem_spotsBelow_iff.mp (List.mem_of_mem_head? hs)
    rw [at?_append_of_at? hat, at?_singleton, hr] at hm
    obtain rfl := Option.some.inj hm
    exact hid

/-- What is removed and what is left share out the ids of the page. -/
theorem ids_perm_of_remove? {page removed left : Node}
    (h : page.remove? id = some (removed, left)) : page.ids.Perm (removed.ids ++ left.ids) := by
  obtain ⟨before, behind, hb, ha⟩ := remove?_split h
  unfold ids
  rw [hb, ha, ← List.filterMap_append]
  exact (List.perm_append_comm_assoc before removed.elements behind).filterMap _

theorem remove?_eq_none_of_notMem {n : Node} (h : id ∉ n.ids) : n.remove? id = none := by
  cases hr : n.remove? id with
  | none => rfl
  | some out =>
    have hmem := List.mem_append_left out.2.ids (mem_ids_of_hasId (hasId_removed hr))
    exact absurd ((ids_perm_of_remove? hr).mem_iff.mpr hmem) h

theorem prune_eq_self {n : Node} (h : id ∉ n.ids) : n.prune id = n :=
  (outermost_of_refused (remove?_eq_none_of_notMem h)).2

theorem outermost_eq_nil {n : Node} (h : id ∉ n.ids) : n.outermost (hasId id) = [] :=
  (outermost_of_refused (remove?_eq_none_of_notMem h)).1

/-- What a removal gives is the first outermost node with the id. -/
theorem map_fst_remove? (id : String) (n : Node) :
    (n.remove? id).map Prod.fst = (n.outermost (hasId id)).head? := by
  cases h : n.remove? id with
  | none => rw [(outermost_of_refused h).1]; rfl
  | some out => rw [(outermost_of_taken h).1]; rfl

/-- **Where no id is carried twice, a removal leaves the pruned page.** -/
theorem apply_remove_eq_prune {page : Node} (h : page.ids.Nodup) (id : String) :
    (Edit.remove id).apply page = page.prune id := by
  dsimp only [Edit.apply]
  cases hr : page.remove? id with
  | none => exact (outermost_of_refused hr).2.symm
  | some out =>
    obtain ⟨removed, left⟩ := out
    obtain ⟨-, -, hdisjoint⟩ := List.nodup_append.mp ((ids_perm_of_remove? hr).nodup_iff.mp h)
    have hgone : id ∉ left.ids := fun hid =>
      hdisjoint id (mem_ids_of_hasId (hasId_removed hr)) id hid rfl
    rw [(outermost_of_taken hr).2, prune_eq_self hgone]

theorem nodup_ids_apply_remove {page : Node} (h : page.ids.Nodup) (id : String) :
    ((Edit.remove id).apply page).ids.Nodup := by
  dsimp only [Edit.apply]
  cases hr : page.remove? id with
  | none => exact h
  | some out => exact (List.nodup_append.mp ((ids_perm_of_remove? hr).nodup_iff.mp h)).2.1

end Removals

section Pruning

/-- Whether, in a list and below it, no node that carries one of two ids has the other one in
or below it. -/
def Apart (a b : String) (nodes : List Node) : Prop :=
  ∀ n ∈ preorderAll nodes, (n.hasId a = true → b ∉ n.ids) ∧ (n.hasId b = true → a ∉ n.ids)

instance (a b : String) (nodes : List Node) : Decidable (Apart a b nodes) :=
  inferInstanceAs (Decidable (∀ n ∈ preorderAll nodes, _))

variable {a b : String}

theorem Apart.symm {nodes : List Node} (h : Apart a b nodes) : Apart b a nodes :=
  fun n hn => (h n hn).symm

theorem apart_cons_iff {n : Node} {rest : List Node} : Apart a b (n :: rest) ↔
    ((n.hasId a = true → b ∉ n.ids) ∧ (n.hasId b = true → a ∉ n.ids)) ∧
      Apart a b n.children ∧ Apart a b rest := by
  unfold Apart
  rw [preorderAll, preorder_eq, ← preorderAll_eq_flatMap, List.cons_append, List.forall_mem_cons,
    List.forall_mem_append]

variable (a b)

mutual

/-- **A page may be pruned for two ids in either order.** -/
theorem prune_comm : ∀ n : Node, (n.prune a).prune b = (n.prune b).prune a
  | root children => congrArg root (pruneIn_comm children)
  | element info children => congrArg (element info) (pruneIn_comm children)
  | text _ => rfl
  | attr _ => rfl

theorem pruneIn_comm : ∀ nodes : List Node,
    pruneIn b (pruneIn a nodes) = pruneIn a (pruneIn b nodes)
  | [] => rfl
  | n :: rest => by
    by_cases ha : n.hasId a = true <;> by_cases hb : n.hasId b = true <;>
      simp [pruneIn, ha, hb, pruneIn_comm rest, prune_comm n]

end

variable {a b}

mutual

/-- **Pruning for one id leaves the outermost nodes with another one** if nodes with the two
stand apart. -/
theorem outermost_prune : ∀ {n : Node}, Apart a b n.children →
    (n.prune b).outermost (hasId a) = n.outermost (hasId a)
  | root _, h => outermostIn_pruneIn h
  | element _ _, h => outermostIn_pruneIn h
  | text _, _ => rfl
  | attr _, _ => rfl

theorem outermostIn_pruneIn : ∀ {nodes : List Node}, Apart a b nodes →
    outermostIn (hasId a) (pruneIn b nodes) = outermostIn (hasId a) nodes
  | [], _ => rfl
  | n :: rest, h => by
    obtain ⟨⟨hselfA, hselfB⟩, hbelow, hrest⟩ := apart_cons_iff.mp h
    have ih := outermostIn_pruneIn hrest
    by_cases hb : n.hasId b = true
    · have ha : a ∉ n.ids := hselfB hb
      rw [pruneIn_cons_of_pos hb, outermostIn_cons_of_neg fun hid => ha (mem_ids_of_hasId hid),
        outermost_eq_nil ha, List.nil_append, ih]
    · rw [pruneIn_cons_of_neg hb]
      by_cases ha : n.hasId a = true
      · rw [prune_eq_self (hselfA ha), outermostIn_cons_of_pos ha, outermostIn_cons_of_pos ha, ih]
      · rw [outermostIn_cons_of_neg (by rwa [hasId_prune]), outermostIn_cons_of_neg ha, ih,
          outermost_prune hbelow]

end

end Pruning

/-- **Removals commute where no id is carried twice.**  Whichever of two removals comes first,
the same page is left.  If, below the top, no element with one of the ids stands inside an
element with the other, each of the two also gives the same node in either order. -/
theorem remove?_comm (page : Node) (h : page.ids.Nodup) (a b : String) :
    let withoutA := (Edit.remove a).apply page
    let withoutB := (Edit.remove b).apply page
    (Edit.remove b).apply withoutA = (Edit.remove a).apply withoutB ∧
      (Apart a b page.children →
        (withoutB.remove? a).map Prod.fst = (page.remove? a).map Prod.fst ∧
          (withoutA.remove? b).map Prod.fst = (page.remove? b).map Prod.fst) := by
  intro withoutA withoutB
  have hA : withoutA = page.prune a := apply_remove_eq_prune h a
  have hB : withoutB = page.prune b := apply_remove_eq_prune h b
  refine ⟨?_, fun hapart => ⟨?_, ?_⟩⟩
  · rw [apply_remove_eq_prune (nodup_ids_apply_remove h a),
      apply_remove_eq_prune (nodup_ids_apply_remove h b), apply_remove_eq_prune h,
      apply_remove_eq_prune h, prune_comm]
  · rw [map_fst_remove?, map_fst_remove?, hB, outermost_prune hapart]
  · rw [map_fst_remove?, map_fst_remove?, hA, outermost_prune hapart.symm]

/-- Two buttons that stand beside each other, one of them on a form, are removed. -/
theorem remove?_comm_buttons :
    let button (id : String) : Node := .element { id := some id, tag := "button" } [.text id]
    let page : Node := .root [.element { id := some "form", tag := "form" } [button "a", .text "x"],
      button "b"]
    let withoutA := (Edit.remove "a").apply page
    let withoutB := (Edit.remove "b").apply page
    (page.ids.Nodup ∧ Apart "a" "b" page.children) ∧
      (Edit.remove "b").apply withoutA = (Edit.remove "a").apply withoutB ∧
      (withoutB.remove? "a").map Prod.fst = some (button "a") ∧
      (withoutA.remove? "b").map Prod.fst = some (button "b") := by
  intro button page withoutA withoutB
  have hn : page.ids.Nodup := by decide +kernel
  have hapart : Apart "a" "b" page.children := by decide +kernel
  obtain ⟨hpage, hgiven⟩ := remove?_comm page hn "a" "b"
  obtain ⟨ha, hb⟩ := hgiven hapart
  exact ⟨⟨hn, hapart⟩, hpage, ha.trans (by decide +kernel), hb.trans (by decide +kernel)⟩

/-! ## Insertions -/

/-- The page with `child` at place `index` among the children of the first element that
carries `parent`; the page as it is if there is no such place. -/
def place (n : Node) (parent : String) (index : Nat) (child : Node) : Node :=
  (n.modify? (hasId parent) (mapChildren (·.insertIdx index child))).getD n

/-- The list with `child` at place `index` among the children of the first element in or
below it that carries `parent`. -/
def placeIn (parent : String) (index : Nat) (child : Node) (nodes : List Node) : List Node :=
  (modifyIn? (hasId parent) (mapChildren (·.insertIdx index child)) nodes).getD nodes

/-- The number of children of the first element that carries `parent`. -/
def room (parent : String) (n : Node) : Option Nat := (n.findById? parent).map (·.children.length)

/-- The number of children of the first element in or below a list that carries `parent`. -/
def roomIn (parent : String) (nodes : List Node) : Option Nat :=
  (findIn? (hasId parent) nodes).map (·.children.length)

section Place
variable {parent : String} {index : Nat} {child : Node}

/-- **What an insertion makes of a page, refused or not.** -/
theorem apply_insert (parent : String) (index : Nat) (child page : Node) :
    (Edit.insert parent index child).apply page = page.place parent index child := by
  have houtcome := insertion page parent index child
  dsimp only [Edit.apply]
  generalize page.insert parent index child = result at houtcome ⊢
  rw [place, modify?_eq_spot]
  cases houtcome with
  | noParent hs => rw [hs]; rfl
  | outOfBounds hs hat hi =>
    rw [hs]
    exact (changeAt_eq_self hat (congrArg _ (List.insertIdx_of_length_lt hi))).symm
  | placed hs hat hi => rw [hs]; rfl

theorem place_of_hasId {n : Node} (h : n.hasId parent = true) :
    n.place parent index child = n.mapChildren (·.insertIdx index child) := by
  rw [place, modify?_eq_children, if_pos h, Option.getD_some]

theorem place_of_not_hasId {n : Node} (h : ¬ n.hasId parent = true) :
    n.place parent index child = n.mapChildren (placeIn parent index child) := by
  rw [place, modify?_eq_children, if_neg h]
  cases hm : modifyIn? (hasId parent) (mapChildren (·.insertIdx index child)) n.children with
  | none =>
    have hsame : placeIn parent index child n.children = n.children := by rw [placeIn, hm]; rfl
    exact (mapChildren_eq_self hsame).symm
  | some changed => exact mapChildren_congr (by rw [placeIn, hm]; rfl)

@[simp] theorem hasId_place (id : String) (n : Node) :
    (n.place parent index child).hasId id = n.hasId id := by
  by_cases h : n.hasId parent = true
  · rw [place_of_hasId h, hasId_mapChildren]
  · rw [place_of_not_hasId h, hasId_mapChildren]

theorem isSome_modify?_iff {n : Node} (f : Node → Node) :
    (n.modify? (hasId parent) f).isSome = true ↔ parent ∈ n.ids := by
  rw [isSome_modify?]
  exact findById?_isSome_iff

theorem placeIn_cons_of_mem {n : Node} (h : parent ∈ n.ids) (rest : List Node) :
    placeIn parent index child (n :: rest) = n.place parent index child :: rest := by
  obtain ⟨changed, hc⟩ := Option.isSome_iff_exists.mp
    ((isSome_modify?_iff (mapChildren (·.insertIdx index child))).mpr h)
  rw [placeIn, modifyIn?, place, hc]
  rfl

theorem placeIn_cons_of_notMem {n : Node} (h : parent ∉ n.ids) (rest : List Node) :
    placeIn parent index child (n :: rest) = n :: placeIn parent index child rest := by
  have hnone := Option.not_isSome_iff_eq_none.mp
    (mt (isSome_modify?_iff (mapChildren (·.insertIdx index child))).mp h)
  rw [placeIn, modifyIn?, hnone, placeIn]
  cases modifyIn? (hasId parent) (mapChildren (·.insertIdx index child)) rest <;> rfl

theorem length_placeIn (nodes : List Node) :
    (placeIn parent index child nodes).length = nodes.length := by
  induction nodes with
  | nil => rfl
  | cons n rest ih =>
    by_cases h : parent ∈ n.ids
    · rw [placeIn_cons_of_mem h, List.length_cons, List.length_cons]
    · rw [placeIn_cons_of_notMem h, List.length_cons, List.length_cons, ih]

/-- An insertion goes past a node that does not carry the id of its parent. -/
theorem placeIn_insertIdx {other : Node} (h : parent ∉ other.ids) (i : Nat) (nodes : List Node) :
    placeIn parent index child (nodes.insertIdx i other) =
      (placeIn parent index child nodes).insertIdx i other := by
  induction nodes generalizing i with
  | nil =>
    cases i with
    | zero => exact placeIn_cons_of_notMem h []
    | succ i => rfl
  | cons n rest ih =>
    cases i with
    | zero => exact placeIn_cons_of_notMem h (n :: rest)
    | succ i =>
      rw [List.insertIdx_succ_cons]
      by_cases hn : parent ∈ n.ids
      · rw [placeIn_cons_of_mem hn, placeIn_cons_of_mem hn, List.insertIdx_succ_cons]
      · rw [placeIn_cons_of_notMem hn, placeIn_cons_of_notMem hn, List.insertIdx_succ_cons, ih]

/-- An insertion brings no other ids than those of what is inserted. -/
theorem mem_ids_place {id : String} (h : id ∉ child.ids) (n : Node) :
    id ∈ (n.place parent index child).ids ↔ id ∈ n.ids := by
  rw [← apply_insert]
  dsimp only [Edit.apply]
  cases hi : n.insert parent index child with
  | error error => exact Iff.rfl
  | ok placed =>
    have hperm := (insert_perm hi).filterMap (·.id)
    rw [List.filterMap_append] at hperm
    exact hperm.mem_iff.trans (List.mem_append.trans (or_iff_right h))

end Place

section Exchange
variable {p q : String} {i j : Nat} {c d : Node}

/-- An insertion under a node can be exchanged with one that goes further down. -/
theorem place_comm_of_hasId (hc : q ∉ c.ids) {n : Node} (hp : n.hasId p = true)
    (hq : ¬ n.hasId q = true) : (n.place q j d).place p i c = (n.place p i c).place q j d := by
  rw [place_of_hasId (by rwa [hasId_place]), place_of_hasId hp, place_of_not_hasId hq,
    place_of_not_hasId (by rwa [hasId_mapChildren]), mapChildren_mapChildren,
    mapChildren_mapChildren]
  exact mapChildren_congr (placeIn_insertIdx hc i n.children).symm

theorem placeIn_comm (hc : q ∉ c.ids) (hd : p ∉ d.ids) {nodes : List Node}
    (hnodes : ∀ n ∈ nodes, (n.place q j d).place p i c = (n.place p i c).place q j d) :
    placeIn p i c (placeIn q j d nodes) = placeIn q j d (placeIn p i c nodes) := by
  induction nodes with
  | nil => rfl
  | cons n rest ih =>
    obtain ⟨hn, hrest⟩ := List.forall_mem_cons.mp hnodes
    by_cases hp : p ∈ n.ids <;> by_cases hq : q ∈ n.ids <;>
      simp [placeIn_cons_of_mem, placeIn_cons_of_notMem, mem_ids_place hc, mem_ids_place hd, hp,
        hq, hn, ih hrest]

/-- **Insertions under different parents can be exchanged**, if neither of them brings in the
id of the other's parent. -/
theorem place_comm (hne : p ≠ q) (hc : q ∉ c.ids) (hd : p ∉ d.ids) (n : Node) :
    (n.place q j d).place p i c = (n.place p i c).place q j d := by
  induction n using childInduction with
  | step n ih =>
    by_cases hp : n.hasId p = true
    · exact place_comm_of_hasId hc hp (not_hasId_of_ne hne hp)
    · by_cases hq : n.hasId q = true
      · exact (place_comm_of_hasId hd hq hp).symm
      · rw [place_of_not_hasId (by rwa [hasId_place]), place_of_not_hasId hq,
          place_of_not_hasId (by rwa [hasId_place]), place_of_not_hasId hp,
          mapChildren_mapChildren, mapChildren_mapChildren]
        exact mapChildren_congr (placeIn_comm hc hd ih)

theorem room_of_hasId {n : Node} (h : n.hasId p = true) : n.room p = some n.children.length := by
  rw [room, findById?, find?_eq_children, if_pos h, Option.map_some]

theorem room_of_not_hasId {n : Node} (h : ¬ n.hasId p = true) :
    n.room p = roomIn p n.children := by
  rw [room, findById?, find?_eq_children, if_neg h, roomIn]

theorem roomIn_cons (n : Node) (rest : List Node) :
    roomIn p (n :: rest) = (n.room p).or (roomIn p rest) := by
  rw [roomIn, findIn?, room, findById?, roomIn]
  cases n.find? (hasId p) <;> rfl

theorem room_eq_none (hd : p ∉ d.ids) : d.room p = none := by
  rw [room, Option.not_isSome_iff_eq_none.mp (mt findById?_isSome_iff.mp hd), Option.map_none]

theorem roomIn_insertIdx (hd : p ∉ d.ids) (j : Nat) (nodes : List Node) :
    roomIn p (nodes.insertIdx j d) = roomIn p nodes := by
  induction nodes generalizing j with
  | nil =>
    cases j with
    | zero => rw [List.insertIdx_zero, roomIn_cons, room_eq_none hd, Option.none_or]
    | succ j => rfl
  | cons n rest ih =>
    cases j with
    | zero => rw [List.insertIdx_zero, roomIn_cons, room_eq_none hd, Option.none_or]
    | succ j => rw [List.insertIdx_succ_cons, roomIn_cons, roomIn_cons, ih]

theorem roomIn_placeIn {nodes : List Node}
    (hnodes : ∀ n ∈ nodes, (n.place q j d).room p = n.room p) :
    roomIn p (placeIn q j d nodes) = roomIn p nodes := by
  induction nodes with
  | nil => rfl
  | cons n rest ih =>
    obtain ⟨hn, hrest⟩ := List.forall_mem_cons.mp hnodes
    by_cases hq : q ∈ n.ids
    · rw [placeIn_cons_of_mem hq, roomIn_cons, roomIn_cons, hn]
    · rw [placeIn_cons_of_notMem hq, roomIn_cons, roomIn_cons, ih hrest]

/-- **An insertion under another parent leaves the number of children under this one.** -/
theorem room_place (hne : p ≠ q) (hd : p ∉ d.ids) (n : Node) :
    (n.place q j d).room p = n.room p := by
  induction n using childInduction with
  | step n ih =>
    by_cases hp : n.hasId p = true
    · rw [room_of_hasId (by rwa [hasId_place]), room_of_hasId hp,
        place_of_not_hasId (not_hasId_of_ne hne hp), children_mapChildren rfl, length_placeIn]
    · rw [room_of_not_hasId (by rwa [hasId_place]), room_of_not_hasId hp]
      by_cases hq : n.hasId q = true
      · obtain ⟨info, nodes, rfl, -⟩ := hasId_iff.mp hq
        rw [place_of_hasId hq]
        exact roomIn_insertIdx hd j nodes
      · rw [place_of_not_hasId hq, children_mapChildren rfl, roomIn_placeIn ih]

/-- How an insertion is answered depends on the number of children under its parent. -/
theorem insert_answer_congr {page page' : Node} (h : page.room p = page'.room p) :
    (page.insert p i c).map (fun _ => ()) = (page'.insert p i c).map (fun _ => ()) := by
  rw [room, room] at h
  rw [insert, insert]
  cases hf : page.findById? p with
  | none =>
    rw [hf] at h
    rw [Option.map_eq_none_iff.mp h.symm]
  | some found =>
    rw [hf] at h
    obtain ⟨found', hf', hlength⟩ := Option.map_eq_some_iff.mp h.symm
    simp only [hf', hlength]
    split <;> rfl

end Exchange

/-- **Insertions under different parents commute**, if nothing that the one inserts carries
the id of the other's parent.  Whichever comes first, each of them is made, or refused for the
same reason, and the page comes out the same. -/
theorem insert_comm (page : Node) {p q : String} (hne : p ≠ q) (i j : Nat) {c d : Node}
    (hc : q ∉ c.ids) (hd : p ∉ d.ids) :
    let first := Edit.insert p i c
    let second := Edit.insert q j d
    ((second.apply page).insert p i c).map (fun _ => ()) =
        (page.insert p i c).map (fun _ => ()) ∧
      ((first.apply page).insert q j d).map (fun _ => ()) =
        (page.insert q j d).map (fun _ => ()) ∧
      second.apply (first.apply page) = first.apply (second.apply page) := by
  intro first second
  rw [apply_insert, apply_insert, apply_insert, apply_insert]
  exact ⟨insert_answer_congr (room_place hne hd page),
    insert_answer_congr (room_place hne.symm hc page), (place_comm hne hc hd page).symm⟩

/-- A box goes in front of the one that gets a text; there is another box of the same id, and
the box that goes in front carries the id of its parent. -/
theorem insert_comm_boxes :
    let box (id : String) (children : List Node) : Node :=
      .element { id := some id, tag := "div" } children
    let page : Node := .root [box "outer" [box "inner" [.text "x"]], box "inner" []]
    let first := Edit.insert "outer" 0 (box "outer" [])
    let second := Edit.insert "inner" 1 (.text "y")
    ("outer" ≠ "inner" ∧ "inner" ∉ (box "outer" []).ids ∧ "outer" ∉ (Node.text "y").ids) ∧
      ((second.apply page).insert "outer" 0 (box "outer" [])).map (fun _ => ()) = .ok () ∧
      ((first.apply page).insert "inner" 1 (.text "y")).map (fun _ => ()) = .ok () ∧
      second.apply (first.apply page) =
        .root [box "outer" [box "outer" [], box "inner" [.text "x", .text "y"]],
          box "inner" []] := by
  intro box page first second
  have hne : "outer" ≠ "inner" := by decide
  have hc : "inner" ∉ (box "outer" []).ids := by decide +kernel
  have hd : "outer" ∉ (Node.text "y").ids := by decide +kernel
  obtain ⟨hfirst, hsecond, hpage⟩ := insert_comm page hne 0 1 hc hd
  exact ⟨⟨hne, hc, hd⟩, hfirst.trans (by rfl), hsecond.trans (by rfl), hpage.trans (by rfl)⟩

end PageDesign.Node

import Mathlib.Algebra.GroupWithZero.Nat
import Mathlib.Data.List.Basic
import PageDesign.Proofs.Node.Elements

/-! # Pages in pre-order

Every recursion over a page goes through the child lists of its nodes.  Here each of them is
brought into this form: first what it says of the node itself, then what it says of the
children, from left to right (`preorder_eq`, `find?_eq_children`, `findAll_eq_children`,
`modify?_eq_children`, `count_eq_children`, `depth_eq`).  What holds of a node as soon as it
holds of its children then holds of every node (`childInduction`).

So a search for all nodes filters the pre-order listing (`findAll_eq`), and a count gives its
length (`count_eq`).  The levels of a page are the nodes of a longest way down to a node
without children (`Branch`), and those stand in the listing one below the other
(`Branch.sublist_preorder`).
-/
namespace PageDesign.Node

/-! ## Child lists -/

theorem sizeOf_lt_of_mem_children {c n : Node} (h : c ∈ n.children) : sizeOf c < sizeOf n := by
  cases n with
  | root nodes =>
    have hlt : sizeOf c < sizeOf nodes := List.sizeOf_lt_of_mem h
    simp only [root.sizeOf_spec]
    omega
  | element info nodes =>
    have hlt : sizeOf c < sizeOf nodes := List.sizeOf_lt_of_mem h
    simp only [element.sizeOf_spec]
    omega
  | text content => cases h
  | attr item => cases h

/-- **What holds of a node as soon as it holds of its children holds of every node.** -/
@[elab_as_elim]
theorem childInduction {motive : Node → Prop}
    (step : ∀ n, (∀ c ∈ n.children, motive c) → motive n) (n : Node) : motive n :=
  step n fun c _ => childInduction step c
termination_by sizeOf n
decreasing_by exact sizeOf_lt_of_mem_children ‹_›

theorem preorderAll_eq_flatMap (nodes : List Node) :
    preorderAll nodes = nodes.flatMap preorder := by
  induction nodes with
  | nil => rfl
  | cons n rest ih => rw [preorderAll, List.flatMap_cons, ih]

theorem preorder_eq (n : Node) : n.preorder = n :: n.children.flatMap preorder := by
  rw [← preorderAll_eq_flatMap]
  cases n <;> rfl

theorem find?_eq_children (p : Node → Bool) (n : Node) :
    n.find? p = if p n then some n else findIn? p n.children := by
  cases n <;> rfl

theorem findAllIn_eq_flatMap (p : Node → Bool) (nodes : List Node) :
    findAllIn p nodes = nodes.flatMap (findAll p) := by
  induction nodes with
  | nil => rfl
  | cons n rest ih => rw [findAllIn, List.flatMap_cons, ih]

theorem findAll_eq_children (p : Node → Bool) (n : Node) : n.findAll p =
    if p n then n :: n.children.flatMap (findAll p) else n.children.flatMap (findAll p) := by
  rw [← findAllIn_eq_flatMap]
  cases n <;> rfl

theorem modify?_eq_children (p : Node → Bool) (f : Node → Node) (n : Node) : n.modify? p f =
    if p n then some (f n)
    else (modifyIn? p f n.children).map fun changed => n.mapChildren fun _ => changed := by
  cases n <;> rfl

theorem countAll_eq_sum (nodes : List Node) : countAll nodes = (nodes.map count).sum := by
  induction nodes with
  | nil => rfl
  | cons n rest ih => rw [countAll, List.map_cons, List.sum_cons, ih]

theorem count_eq_children (n : Node) : n.count = (n.children.map count).sum + 1 := by
  rw [← countAll_eq_sum]
  cases n <;> rfl

theorem depth_eq (n : Node) : n.depth = depthAll n.children + 1 := by
  cases n <;> rfl

theorem depthAll_le_iff {nodes : List Node} {k : Nat} :
    depthAll nodes ≤ k ↔ ∀ n ∈ nodes, n.depth ≤ k := by
  induction nodes with
  | nil => simp [depthAll]
  | cons n rest ih => rw [depthAll, Nat.max_le, ih, List.forall_mem_cons]

/-- Some tree of a list is the deepest. -/
theorem exists_depth_eq_depthAll {nodes : List Node} (h : nodes ≠ []) :
    ∃ n ∈ nodes, n.depth = depthAll nodes := by
  induction nodes with
  | nil => exact absurd rfl h
  | cons n rest ih =>
    by_cases hle : depthAll rest ≤ n.depth
    · exact ⟨n, List.mem_cons_self, (Nat.max_eq_left hle).symm⟩
    · have hrest : rest ≠ [] := by
        rintro rfl
        exact hle (Nat.zero_le _)
      obtain ⟨m, hm, hd⟩ := ih hrest
      refine ⟨m, List.mem_cons_of_mem n hm, hd.trans ?_⟩
      exact (Nat.max_eq_right (Nat.le_of_not_le hle)).symm

/-! ## Searching and counting -/

/-- **A search for all nodes filters the pre-order listing.** -/
theorem findAll_eq (p : Node → Bool) (n : Node) : n.findAll p = n.preorder.filter p := by
  induction n using childInduction with
  | step n ih =>
    have hbelow : n.children.flatMap (findAll p) = (n.children.flatMap preorder).filter p := by
      rw [List.filter_flatMap]
      exact List.flatMap_congr ih
    rw [findAll_eq_children, preorder_eq, List.filter_cons, hbelow]

/-- **A count gives the length of the pre-order listing.** -/
theorem count_eq (n : Node) : n.count = n.preorder.length := by
  induction n using childInduction with
  | step n ih =>
    rw [count_eq_children, preorder_eq, List.length_cons, List.length_flatMap,
      List.map_congr_left ih]

/-! ## Levels -/

/-- The ways down from a node: the node, one of its children, one of the children of this,
and so on to a node without children. -/
inductive Branch : Node → List Node → Prop
  | leaf {n : Node} (h : n.children = []) : Branch n [n]
  | step {n child : Node} {path : List Node} (hc : child ∈ n.children) (h : Branch child path) :
      Branch n (n :: path)

/-- No way down has more nodes than the page has levels. -/
theorem Branch.length_le {n : Node} {path : List Node} (h : Branch n path) :
    path.length ≤ n.depth := by
  induction h with
  | leaf h => rw [depth_eq, List.length_singleton]; omega
  | @step n child path hc _ ih =>
    have hd := depthAll_le_iff.mp (Nat.le_refl (depthAll n.children)) child hc
    rw [depth_eq, List.length_cons]
    omega

/-- Some way down has as many nodes as the page has levels. -/
theorem exists_branch_length_eq (n : Node) : ∃ path, Branch n path ∧ path.length = n.depth := by
  induction n using childInduction with
  | step n ih =>
    by_cases h : n.children = []
    · exact ⟨[n], .leaf h, by rw [depth_eq, h]; rfl⟩
    · obtain ⟨child, hc, hd⟩ := exists_depth_eq_depthAll h
      obtain ⟨path, hpath, hl⟩ := ih child hc
      exact ⟨n :: path, .step hc hpath, by rw [depth_eq, List.length_cons, hl, hd]⟩

/-- The nodes of a way down are listed in their order. -/
theorem Branch.sublist_preorder {n : Node} {path : List Node} (h : Branch n path) :
    path.Sublist n.preorder := by
  induction h with
  | leaf h => rw [preorder_eq, h]; exact List.Sublist.refl _
  | @step n child path hc _ ih =>
    rw [preorder_eq, List.flatMap_def]
    exact (ih.trans (List.sublist_flatten_of_mem (List.mem_map_of_mem hc))).cons_cons n

/-- A page has no more levels than nodes. -/
theorem depth_le_count (n : Node) : n.depth ≤ n.count := by
  obtain ⟨path, hpath, hl⟩ := exists_branch_length_eq n
  rw [count_eq, ← hl]
  exact hpath.sublist_preorder.length_le

end PageDesign.Node

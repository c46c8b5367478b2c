import PageDesign.Proofs.Json.Shape
import PageDesign.Proofs.Node.Preorder
import PageDesign.Proofs.Node.Stored

/-! # Loading what was stored

A level of a page costs two levels of nesting in its stored form, the object of a node and
the list of its children.  Texts and attribute nodes have no such list, so what counts is
how many roots and elements stand in one another, the `branchDepth` of the page: its stored
form is nested twice as deep, or one deeper (`nesting_toJson`).  The limit of the reader
hence admits a page that was written if and only if its branch depth is at most 63
(`load_compact`).

A page that was loaded from any text has at most 64 levels (`depth_le_of_ofJson?`).  On the
last one a root or an element may stand that the text gives without its list.  The writer
never leaves the list out, and what it writes for such a page is nested too deep.
-/
namespace PageDesign.Node
open Json

/-! ## Levels of a page -/

mutual

/-- How many roots and elements stand in one another in a tree. -/
def branchDepth : Node → Nat
  | root children => branchDepthAll children + 1
  | element _ children => branchDepthAll children + 1
  | text _ => 0
  | attr _ => 0

/-- How many roots and elements stand in one another in the trees of a list. -/
def branchDepthAll : List Node → Nat
  | [] => 0
  | n :: rest => max (branchDepth n) (branchDepthAll rest)

end

mutual

/-- Only the last level of a page can be one of texts and attribute nodes alone. -/
theorem depth_bounds : ∀ n : Node, n.branchDepth ≤ n.depth ∧ n.depth ≤ n.branchDepth + 1
  | root children => by
    have ih := depthAll_bounds children
    simp only [branchDepth, depth]
    omega
  | element _ children => by
    have ih := depthAll_bounds children
    simp only [branchDepth, depth]
    omega
  | text _ => by simp [branchDepth, depth]
  | attr _ => by simp [branchDepth, depth]

theorem depthAll_bounds : ∀ nodes : List Node,
    branchDepthAll nodes ≤ depthAll nodes ∧ depthAll nodes ≤ branchDepthAll nodes + 1
  | [] => by simp [branchDepthAll, depthAll]
  | n :: rest => by
    have hn := depth_bounds n
    have ih := depthAll_bounds rest
    simp only [branchDepthAll, depthAll]
    omega

end

/-! ## Levels of its stored form -/

theorem nesting_present_le_iff {table : List (String × Option Json)} {n : Nat} :
    nesting (present table) ≤ n + 1 ↔ ∀ field ∈ table, ∀ v ∈ field.2, nesting v ≤ n := by
  rw [← nestingOfMembers_present_le_iff]
  exact Nat.succ_le_succ_iff

theorem nesting_canvas_le (c : Canvas) : nesting c.toJson ≤ 2 := by
  have hlength : ∀ d : Dimension, nesting d.toJson = 0 := fun d => by cases d <;> rfl
  have hsize : ∀ s : Size, nesting s.toJson ≤ 1 := fun s =>
    nesting_present_le_iff.mpr (by simp [hlength])
  have hflex : ∀ f : FlexBox, nesting f.toJson ≤ 1 := fun f =>
    nesting_present_le_iff.mpr (by simp [nesting])
  have hlayout : ∀ l : Layout, nesting l.toJson = 0 := fun l => by cases l <;> rfl
  refine nesting_present_le_iff.mpr ?_
  simp only [List.forall_mem_cons, Option.forall_mem_map, List.not_mem_nil]
  refine ⟨fun _ _ => Nat.le_refl 1, fun s _ => hsize s, fun l _ => ?_, fun _ _ => Nat.zero_le 1,
    fun _ _ => Nat.zero_le 1, fun f _ => hflex f, by simp⟩
  exact hlayout l ▸ Nat.zero_le 1

/-- The members of an element are nested as deep as the list of its children, or two deep. -/
theorem nesting_members (e : Element) (children : List Json) :
    nestingOfItems children + 1 ≤ nestingOfMembers (e.members children) ∧
      nestingOfMembers (e.members children) ≤ max 2 (nestingOfItems children + 1) := by
  have hattributes : ∀ a : Attribute, nesting (.obj a.members) ≤ 1 := by
    intro a
    cases hv : a.value <;> simp [Attribute.members, Value.toJson, hv, nesting, nestingOfMembers]
  rw [Element.members_eq]
  constructor
  · have hmember : ("children", Json.arr children) ∈ presentMembers (e.fields children) := by
      simp [Element.fields, presentMembers]
    exact nestingOfMembers_le_iff.mp (Nat.le_refl _) _ hmember
  · refine nestingOfMembers_present_le_iff.mpr ?_
    simp only [Element.fields, List.forall_mem_cons, Option.forall_mem_map, Option.mem_some_iff,
      forall_eq', List.not_mem_nil]
    refine ⟨fun _ _ => Nat.zero_le _, Nat.zero_le _, Nat.le_trans ?_ (Nat.le_max_left _ _),
      Nat.le_max_right _ _, Nat.zero_le _,
      fun c _ => Nat.le_trans (nesting_canvas_le c) (Nat.le_max_left _ _), by simp⟩
    refine Nat.succ_le_succ (nestingOfItems_le_iff.mpr ?_)
    simpa using fun a _ => hattributes a

mutual

/-- **Each level of roots and elements costs two levels of nesting**, and there is at most
one level besides. -/
theorem nesting_toJson : ∀ n : Node,
    2 * n.branchDepth ≤ nesting n.toJson ∧ nesting n.toJson ≤ 2 * n.branchDepth + 1
  | root children => by
    have ih := nesting_toJsonList children
    simp only [toJson, branchDepth, nesting, nestingOfMembers]
    omega
  | element info children => by
    have ih := nesting_toJsonList children
    have hm := nesting_members info (toJsonList children)
    simp only [toJson, branchDepth, nesting, nestingOfMembers]
    omega
  | text _ => by simp [toJson, branchDepth, nesting, nestingOfMembers]
  | attr item => by
    cases hv : item.value <;>
      simp [toJson, branchDepth, nesting, nestingOfMembers, Attribute.members, Value.toJson, hv]

theorem nesting_toJsonList : ∀ nodes : List Node,
    2 * branchDepthAll nodes ≤ nestingOfItems (toJsonList nodes) ∧
      nestingOfItems (toJsonList nodes) ≤ 2 * branchDepthAll nodes + 1
  | [] => by simp [toJsonList, branchDepthAll, nestingOfItems]
  | n :: rest => by
    have hn := nesting_toJson n
    have ih := nesting_toJsonList rest
    simp only [toJsonList, branchDepthAll, nestingOfItems]
    omega

end

/-! ## Roots in one another -/

/-- Roots in one another. -/
def roots : Nat → Node
  | 0 => root []
  | k + 1 => root [roots k]

theorem branchDepth_roots (k : Nat) : (roots k).branchDepth = k + 1 := by
  induction k with
  | zero => rfl
  | succ k ih => simp [roots, branchDepth, branchDepthAll, ih]

theorem floatFree_roots (k : Nat) : (roots k).FloatFree := by
  have h : (roots k).elements = [] := by
    induction k with
    | zero => simp [roots]
    | succ k ih => simp [roots, ih]
  simp [FloatFree, h]

/-! ## Loading -/

theorem load_eq_ok_iff {source : String} {n : Node} :
    load source = .ok n ↔ ∃ v, Json.read source = .ok v ∧ ofJson? .alone v = some n :=
  Json.load_eq_ok_iff

/-- **What is written is loaded again** unless more than 63 roots and elements stand in one
another; then it is refused as nested too deep. -/
theorem load_compact {n : Node} (hn : n.FloatFree) :
    (n.branchDepth ≤ 63 → load n.toJson.compact = .ok n) ∧
      (64 ≤ n.branchDepth → ∃ f, load n.toJson.compact = .error f ∧ f.cause = .tooDeep) := by
  obtain ⟨hback, hdeep⟩ := Written.compact.read (exact_toJson n hn)
  have hlevels := nesting_toJson n
  constructor
  · intro hle
    have hread := hback (by simp only [nestingLimit]; omega)
    exact load_eq_ok_iff.mpr ⟨_, hread, ofJson?_toJson .alone n hn⟩
  · intro hlt
    obtain ⟨f, hread, hf⟩ := hdeep (by simp only [nestingLimit]; omega)
    refine ⟨f, ?_, hf⟩
    unfold load Json.load
    rw [hread]

/-- **A page of at most 63 levels is read back** from the text it is stored as; a page of 65
levels or more is not, its text being nested too deep. -/
theorem load_stored {n : Node} (hn : n.FloatFree) :
    (n.depth ≤ 63 → load n.toJson.compact = .ok n) ∧
      (65 ≤ n.depth → ∃ f, load n.toJson.compact = .error f ∧ f.cause = .tooDeep) := by
  obtain ⟨hback, hdeep⟩ := load_compact hn
  have hbounds := depth_bounds n
  exact ⟨fun h => hback (by omega), fun h => hdeep (by omega)⟩

/-- A button with a size in the units of a style sheet is read back; sixty-five roots in one
another are not. -/
theorem load_stored_button :
    let button : Node := .element
      { id := some "go", tag := "button", attributes := [⟨"type", .text "submit"⟩],
        canvas := some { size := some { width := some (.css "50%") }, layout := some .flex } }
      [.text "Go"]
    load button.toJson.compact = .ok button ∧
      ∃ f, load (roots 64).toJson.compact = .error f ∧ f.cause = .tooDeep := by
  have hcanvas : Canvas.FloatFree
      { size := some { width := some (.css "50%") }, layout := some .flex } :=
    ⟨rfl, by simp [Dimension.FloatFree], by simp, by simp⟩
  have hdeep := (depth_bounds (roots 64)).1
  rw [branchDepth_roots] at hdeep
  exact ⟨(load_stored (by simpa [FloatFree] using hcanvas)).1 (by decide),
    (load_stored (floatFree_roots 64)).2 hdeep⟩

/-! ## Levels of what is loaded -/

/-- The fields of a node are nested less deep than the node. -/
theorem nesting_lt_of_tagged? {place : Place} {v : Json} {kind : Kind} {fields : Fields v}
    (h : tagged? place v = some (kind, fields)) :
    0 < nesting v ∧ ∀ p ∈ fields.parts, nesting p.1 < nesting v := by
  unfold tagged? at h
  split at h
  · next members hf =>
    obtain ⟨hpos, hparts⟩ := nesting_lt_of_fields? hf
    split at h
    · obtain ⟨_, -, he⟩ := Option.map_eq_some_iff.mp h
      cases he
      refine ⟨hpos, fun p hp => hparts p ?_⟩
      obtain ⟨m, hm, rfl⟩ := List.mem_map.mp hp
      exact List.mem_map_of_mem (List.mem_filter.mp hm).1
    · cases h
  · next kind rest hf =>
    obtain ⟨hpos, hparts⟩ := nesting_lt_of_fields? hf
    obtain ⟨_, -, he⟩ := Option.map_eq_some_iff.mp h
    cases he
    exact ⟨hpos, fun p hp => hparts p (List.mem_cons_of_mem kind hp)⟩
  · cases h

section Children
variable {v : Json} {fields : Fields v} {child : Part v → Option Node}

/-- The children of an element are read from one of its fields. -/
theorem children_of_ofFields? {info : Element} {children : List Node}
    (h : Element.ofFields? child fields = some (info, children)) :
    ∃ keys ps p, fields.pick? keys = some ps ∧ p ∈ ps ∧
      orElse [] (listOf child) p = some children := by
  unfold Element.ofFields? at h
  obtain ⟨ps, hps, h⟩ := Option.bind_eq_some_iff.mp h
  split at h
  · simp only [Option.bind_eq_bind, Option.bind_eq_some_iff] at h
    obtain ⟨_, -, _, -, _, -, _, -, _, -, _, hchildren, he⟩ := h
    cases he
    exact ⟨_, _, _, hps, by simp, hchildren⟩
  · cases h

/-- The items of a field are nested two levels less deep than the node. -/
theorem nesting_of_children (hparts : ∀ p ∈ fields.parts, nesting p.1 < nesting v)
    {keys : List String} {ps : List (Option (Part v))} (hps : fields.pick? keys = some ps)
    {p : Option (Part v)} (hp : p ∈ ps) {children : List Node}
    (h : orElse [] (listOf fun q => ofJson? .inside q.1) p = some children) :
    ∀ c ∈ children, ∃ w, nesting w + 2 ≤ nesting v ∧ ofJson? .inside w = some c := by
  intro c hc
  cases p with
  | none =>
    cases h
    cases hc
  | some q =>
    have hq := hparts q (Fields.mem_parts_of_pick? hps hp)
    obtain ⟨w, hw, hread⟩ := (nesting_lt_of_listOf h).2 c hc
    exact ⟨w.1, by omega, hread⟩

end Children

/-- **A child was stored two levels below its parent.** -/
theorem child_of_ofJson? {place : Place} {v : Json} {n : Node} (h : ofJson? place v = some n) :
    0 < nesting v ∧ ∀ c ∈ n.children, ∃ w, nesting w + 2 ≤ nesting v ∧
      ofJson? .inside w = some c := by
  rw [ofJson?] at h
  -- one case for each kind of node; texts and attribute nodes have no children
  split at h
  · cases h
  · next fields htagged =>
    obtain ⟨hpos, hparts⟩ := nesting_lt_of_tagged? htagged
    obtain ⟨ps, hps, h⟩ := Option.bind_eq_some_iff.mp h
    split at h
    · next p =>
      obtain ⟨children, hchildren, he⟩ := Option.bind_eq_some_iff.mp h
      cases he
      exact ⟨hpos, nesting_of_children hparts hps List.mem_cons_self hchildren⟩
    · cases h
  · next fields htagged =>
    obtain ⟨hpos, hparts⟩ := nesting_lt_of_tagged? htagged
    obtain ⟨⟨info, children⟩, hfields, he⟩ := Option.bind_eq_some_iff.mp h
    cases he
    obtain ⟨keys, ps, p, hps, hp, hchildren⟩ := children_of_ofFields? hfields
    exact ⟨hpos, nesting_of_children hparts hps hp hchildren⟩
  · next fields htagged =>
    obtain ⟨hpos, -⟩ := nesting_lt_of_tagged? htagged
    obtain ⟨ps, -, h⟩ := Option.bind_eq_some_iff.mp h
    split at h
    · obtain ⟨content, -, he⟩ := Option.bind_eq_some_iff.mp h
      cases he
      exact ⟨hpos, fun c hc => by cases hc⟩
    · cases h
  · next fields htagged =>
    obtain ⟨hpos, -⟩ := nesting_lt_of_tagged? htagged
    obtain ⟨item, -, rfl⟩ := Option.map_eq_some_iff.mp h
    exact ⟨hpos, fun c hc => by cases hc⟩

/-- A page that is read has at most half as many levels as its text is nested deep. -/
theorem depth_le_of_ofJson? {place : Place} {v : Json} {n : Node}
    (h : ofJson? place v = some n) : 2 * n.depth ≤ nesting v + 1 := by
  suffices key : ∀ k place v n, nesting v = k → ofJson? place v = some n →
      2 * n.depth ≤ k + 1 from key (nesting v) place v n rfl h
  intro k
  induction k using Nat.strongRecOn with
  | ind k ih =>
    intro place v n hk h
    obtain ⟨hpos, hchildren⟩ := child_of_ofJson? h
    -- a child lost two levels of nesting, and by induction all of its levels fit into the rest
    have hall : depthAll n.children ≤ (k - 1) / 2 := by
      refine depthAll_le_iff.mpr fun c hc => ?_
      obtain ⟨w, hw, hread⟩ := hchildren c hc
      have hc := ih (nesting w) (by omega) .inside w c rfl hread
      omega
    rw [depth_eq]
    omega

/-- **What was loaded is loaded again once it is written, up to one level.**  A page that is
loaded from any text has at most 64 levels; the text that is written for it is accepted, and
gives the same page, if and only if no root or element stands on the 64th.  Otherwise it is
refused as nested too deep. -/
theorem reload_iff {source : String} {n : Node} (h : load source = .ok n) (hn : n.FloatFree) :
    n.depth ≤ 64 ∧ (load n.toJson.compact = .ok n ↔ n.branchDepth ≤ 63) ∧
      (n.branchDepth = 64 → ∃ f, load n.toJson.compact = .error f ∧ f.cause = .tooDeep) := by
  obtain ⟨v, hread, hv⟩ := load_eq_ok_iff.mp h
  have hdepth := depth_le_of_ofJson? hv
  have hlimit : nesting v ≤ 127 := nesting_le_of_read hread
  obtain ⟨hback, hdeep⟩ := load_compact hn
  refine ⟨by omega, ⟨fun hok => ?_, hback⟩, fun he => hdeep (by omega)⟩
  by_contra hlt
  obtain ⟨f, hf, -⟩ := hdeep (by omega)
  rw [hok] at hf
  cases hf

/-! ## Roots without their lists -/

/-- Roots in one another, of which the innermost is stored without its list. -/
def bareRoots : Nat → Json
  | 0 => .obj [("type", .str "Root")]
  | k + 1 => .obj [("type", .str "Root"), ("children", .arr [bareRoots k])]

theorem ofJson?_bareRoots (place : Place) (k : Nat) :
    ofJson? place (bareRoots k) = some (roots k) := by
  induction k generalizing place with
  | zero => exact @ofJson?_root place none [] rfl
  | succ k ih =>
    refine @ofJson?_root place (some [bareRoots k]) [roots k] ?_
    rw [Option.getD_some, List.mapM_cons, ih]
    rfl

theorem nesting_bareRoots (k : Nat) : nesting (bareRoots k) = 2 * k + 1 := by
  induction k with
  | zero => rfl
  | succ k ih =>
    simp only [bareRoots, nesting, nestingOfMembers, nestingOfItems, ih]
    omega

theorem exact_bareRoots (k : Nat) : Exact (bareRoots k) := by
  induction k with
  | zero => exact ⟨trivial, trivial⟩
  | succ k ih => exact ⟨trivial, ⟨ih, trivial⟩, trivial⟩

theorem load_bareRoots {k : Nat} (hk : k ≤ 63) : load (bareRoots k).compact = .ok (roots k) := by
  have hread := (Written.compact.read (exact_bareRoots k)).1
  have hlimit : 2 * k + 1 ≤ nestingLimit := by
    rw [nestingLimit]
    omega
  rw [nesting_bareRoots] at hread
  exact load_eq_ok_iff.mpr ⟨_, hread hlimit, ofJson?_bareRoots .alone k⟩

/-- Two roots in one another, the inner one stored without its list, are loaded again. -/
theorem reload_iff_bareRoots :
    load (bareRoots 1).compact = .ok (roots 1) ∧ load (roots 1).toJson.compact = .ok (roots 1) := by
  have hload : load (bareRoots 1).compact = .ok (roots 1) := load_bareRoots (by decide)
  have hreload := reload_iff hload (floatFree_roots 1)
  exact ⟨hload, hreload.2.1.mpr (by decide)⟩

/-- Not every page that was loaded is loaded again: sixty-four roots in one another are
accepted from a text that leaves out the list of the innermost, and refused once written. -/
theorem not_reload_bareRoots :
    load (bareRoots 63).compact = .ok (roots 63) ∧ (roots 63).FloatFree ∧
      ∀ n, load (roots 63).toJson.compact ≠ .ok n := by
  refine ⟨load_bareRoots (Nat.le_refl 63), floatFree_roots 63, fun n hn => ?_⟩
  obtain ⟨f, hf, -⟩ := (load_compact (floatFree_roots 63)).2 (by rw [branchDepth_roots])
  rw [hn] at hf
  cases hf

end PageDesign.Node

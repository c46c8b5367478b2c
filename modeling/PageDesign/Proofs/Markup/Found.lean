import PageDesign.Proofs.Markup.Line
import PageDesign.Proofs.Node.Spot

/-! # Elements in the markup of their page

An element that is found on a page can be printed by itself.  What comes out is also a part of
the markup of the page, unless a self-closing element stands above: its fragments are one
stretch of the fragments of the page, as many levels deeper as elements stand above
(`fragments_split`).  How many fragments come before depends on the spot alone
(`fragmentsBefore`), and the further behind a spot stands in pre-order, the more there are
(`fragmentsBefore_lt`).

So in formatted markup each element is a block of whole lines behind a common margin, and in
compact markup a stretch of characters, and the blocks begin in the order in which the
elements are found.  Of what stands below a self-closing element nothing is seen
(`visible_changeAt`).
-/
namespace PageDesign

/-- Whether `block` stands in `whole` from position `start` on. -/
def StandsAt {α : Type} (start : Nat) (block whole : List α) : Prop := block <+: whole.drop start

theorem standsAt_append {α : Type} (before block behind : List α) :
    StandsAt before.length block (before ++ (block ++ behind)) := by
  rw [StandsAt, List.drop_left]
  exact List.prefix_append block behind

theorem StandsAt.map {α β : Type} {start : Nat} {block whole : List α}
    (h : StandsAt start block whole) (f : α → β) : StandsAt start (block.map f) (whole.map f) := by
  rw [StandsAt, ← List.map_drop]
  exact List.IsPrefix.map f h

namespace Node

/-- Whether a node is an element that is marked as self-closing. -/
def closesItself : Node → Bool
  | element info _ => info.selfClosing
  | _ => false

/-- How many elements stand above a spot. -/
def elementsAbove (n : Node) (spot : Spot) : Nat := (n.above spot).countP isElement

/-- Whether nothing above a spot is self-closing. -/
def showsAt (n : Node) (spot : Spot) : Bool := (n.above spot).all fun a => !a.closesItself

/-- The spots of the elements that stand below no self-closing one, in pre-order. -/
def shownSpots (n : Node) : List Spot := (n.spotsOf isElement).filter n.showsAt

/-- How many fragments come before those of the node at a spot: the opening tags of the
elements above, and whatever stands in front of their children on the way. -/
def fragmentsBefore (n : Node) : Spot → Nat
  | [] => 0
  | i :: spot =>
    (if n.isElement then 1 else 0) + ((n.children.take i).map fun c => (c.fragments 0).length).sum +
      n.children[i]?.elim 0 fun child => child.fragmentsBefore spot

/-- How many characters come before those of the node at a spot in compact markup. -/
def charsBefore (n : Node) (spot : Spot) : Nat :=
  (((n.fragments 0).take (n.fragmentsBefore spot)).flatMap (·.text.toList)).length

/-! ## The way to a spot -/

section Spots
variable {n e child : Node} {i : Nat} {spot : Spot}

theorem elementsAbove_cons (hi : n.children[i]? = some child) :
    n.elementsAbove (i :: spot) = (if n.isElement then 1 else 0) + child.elementsAbove spot := by
  rw [elementsAbove, above, hi, Option.elim_some, List.countP_cons, Nat.add_comm]
  rfl

theorem showsAt_cons (hi : n.children[i]? = some child) : n.showsAt (i :: spot) = true ↔
    n.closesItself = false ∧ child.showsAt spot = true := by
  rw [showsAt, above, hi, Option.elim_some, List.all_cons, Bool.and_eq_true, Bool.not_eq_true']
  rfl

theorem fragmentsBefore_cons (hi : n.children[i]? = some child) :
    n.fragmentsBefore (i :: spot) = (if n.isElement then 1 else 0) +
      ((n.children.take i).map fun c => (c.fragments 0).length).sum +
        child.fragmentsBefore spot := by
  rw [fragmentsBefore, hi, Option.elim_some]

theorem mem_shownSpots_iff : spot ∈ n.shownSpots ↔
    (∃ e, n.at? spot = some e ∧ e.isElement = true) ∧ n.showsAt spot = true := by
  rw [shownSpots, List.mem_filter, mem_spotsOf_iff]

/-- What holds of all nodes of a page holds of all nodes of a tree on it. -/
theorem forall_mem_preorder_at? {p : Node → Prop} (hat : n.at? spot = some e)
    (h : ∀ m ∈ n.preorder, p m) : ∀ m ∈ e.preorder, p m := by
  induction spot generalizing n with
  | nil =>
    obtain rfl := Option.some.inj hat
    exact h
  | cons i spot ih =>
    obtain ⟨child, hi, hchild⟩ := at?_cons_eq_some_iff.mp hat
    exact ih hchild ((forall_mem_preorder.mp h).2 child (List.mem_of_getElem? hi))

/-- Where a spot is not shown, something self-closing stands above. -/
theorem exists_closesItself (h : ¬ n.showsAt spot = true) : ∃ top below a, spot = top ++ below ∧
    below ≠ [] ∧ n.at? top = some a ∧ a.closesItself = true := by
  induction spot generalizing n with
  | nil => exact absurd rfl h
  | cons i spot ih =>
    by_cases hn : n.closesItself = true
    · exact ⟨[], i :: spot, n, rfl, List.cons_ne_nil _ _, rfl, hn⟩
    · cases hi : n.children[i]? with
      | none => simp [showsAt, above, hi, hn] at h
      | some child =>
        have hchild : ¬ child.showsAt spot = true := fun hs =>
          h ((showsAt_cons hi).mpr ⟨by simpa using hn, hs⟩)
        obtain ⟨top, below, a, rfl, hb, ha, hc⟩ := ih hchild
        exact ⟨i :: top, below, a, rfl, hb, (at?_cons_of_getElem? hi top).trans ha, hc⟩

end Spots

/-! ## Fragments of an element -/

/-- What a node prints is the same at every depth, but for the margins. -/
theorem texts_fragments (n : Node) (depth other : Nat) :
    (n.fragments depth).map (·.text) = (n.fragments other).map (·.text) := by
  induction n using childInduction generalizing depth other with
  | step n ih =>
    have hbelow (depth other : Nat) : (n.children.flatMap (fragments depth)).map (·.text) =
        (n.children.flatMap (fragments other)).map (·.text) := by
      rw [List.map_flatMap, List.map_flatMap]
      exact List.flatMap_congr fun c hc => ih c hc depth other
    cases n with
    | root children =>
      by_cases h : children = []
      · subst h
        rfl
      · rw [fragments_root _ h, fragments_root _ h]
        exact hbelow depth other
    | element info children =>
      by_cases h : Single info children
      · rw [fragments_single _ h, fragments_single _ h]
        rfl
      · rcases lone_or_block h with ⟨content, hs, rfl⟩ | hl
        · rw [fragments_lone _ hs, fragments_lone _ hs]
          rfl
        · have hc : (children.flatMap (fragments (depth + 1))).map (·.text) =
              (children.flatMap (fragments (other + 1))).map (·.text) :=
            hbelow (depth + 1) (other + 1)
          rw [fragments_block _ h hl, fragments_block _ h hl, List.map_cons, List.map_cons,
            List.map_append, List.map_append, hc]
          rfl
    | text content => rfl
    | attr item => rfl

theorem length_fragments (n : Node) (depth other : Nat) :
    (n.fragments depth).length = (n.fragments other).length := by
  simpa using congrArg List.length (texts_fragments n depth other)

/-- The first fragment of an element is not empty: it begins with a bracket. -/
theorem exists_fragment_of_isElement {e : Node} (he : e.isElement = true) (depth : Nat) :
    ∃ first rest, e.fragments depth = first :: rest ∧ first.text.toList ≠ [] := by
  match e, he with
  | .element info children, _ =>
    by_cases h : Single info children
    · exact ⟨_, [], fragments_single depth h, by simp [Element.singleTag]⟩
    · rcases lone_or_block h with ⟨content, hs, rfl⟩ | hl
      · exact ⟨_, [], fragments_lone depth hs content, by simp [Element.openTag]⟩
      · exact ⟨_, _, fragments_block depth h hl, by simp [Element.openTag]⟩

/-- The children of a node are printed one behind the other, if an element stands among them
or further below and the node is not self-closing. -/
theorem fragments_children {n child e : Node} {i : Nat} {spot : Spot}
    (hi : n.children[i]? = some child) (hat : child.at? spot = some e) (he : e.isElement = true)
    (hn : n.closesItself = false) (depth : Nat) : ∃ opening closing,
      n.fragments depth = opening ++
        (n.children.flatMap (fragments (depth + opening.length)) ++ closing) ∧
      opening.length = if n.isElement then 1 else 0 := by
  have hmem := List.mem_of_getElem? hi
  cases n with
  | root children =>
    have hne : children ≠ [] := List.ne_nil_of_mem hmem
    refine ⟨[], [], ?_, rfl⟩
    rw [fragments_root depth hne, List.append_nil]
    rfl
  | element info children =>
    have hne : children ≠ [] := List.ne_nil_of_mem hmem
    have hs : ¬ Single info children := by
      rintro (hs | rfl)
      · exact Bool.false_ne_true (hn.symm.trans hs)
      · exact hne rfl
    have hl : ∀ content, children ≠ [text content] := by
      -- nothing but the text itself stands at a spot in a text
      rintro content rfl
      obtain rfl : child = text content := List.mem_singleton.mp hmem
      cases spot with
      | nil =>
        obtain rfl := Option.some.inj hat
        exact Bool.false_ne_true he
      | cons j spot => exact nomatch hat
    exact ⟨[⟨depth, info.openTag⟩], [⟨depth, info.closeTag⟩], fragments_block depth hs hl, rfl⟩
  | text content => cases hmem
  | attr item => cases hmem

/-- **The fragments of an element are a stretch of the fragments of the page**, as many levels
deeper as elements stand above. -/
theorem fragments_split {n e : Node} {spot : Spot} (hat : n.at? spot = some e)
    (he : e.isElement = true) (hs : n.showsAt spot = true) (depth : Nat) : ∃ before behind,
      n.fragments depth = before ++ (e.fragments (depth + n.elementsAbove spot) ++ behind) ∧
      before.length = n.fragmentsBefore spot := by
  induction spot generalizing n depth with
  | nil =>
    obtain rfl := Option.some.inj hat
    exact ⟨[], [], by simp [elementsAbove, above], rfl⟩
  | cons i spot ih =>
    obtain ⟨child, hi, hchild⟩ := at?_cons_eq_some_iff.mp hat
    obtain ⟨hn, hs⟩ := (showsAt_cons hi).mp hs
    obtain ⟨opening, closing, hf, ho⟩ := fragments_children hi hchild he hn depth
    obtain ⟨before, behind, hc, hb⟩ := ih hchild hs (depth + opening.length)
    obtain ⟨hlt, rfl⟩ := List.getElem?_eq_some_iff.mp hi
    have hsplit : n.children = n.children.take i ++ n.children[i] :: n.children.drop (i + 1) := by
      rw [← List.drop_eq_getElem_cons hlt, List.take_append_drop]
    refine ⟨opening ++ (n.children.take i).flatMap (fragments (depth + opening.length)) ++ before,
      behind ++ (n.children.drop (i + 1)).flatMap (fragments (depth + opening.length)) ++ closing,
      ?_, ?_⟩
    · rw [hf, elementsAbove_cons hi, ← ho, ← Nat.add_assoc]
      conv_lhs => rw [hsplit, List.flatMap_append, List.flatMap_cons, hc]
      simp only [List.append_assoc]
    · rw [fragmentsBefore_cons hi, List.length_append, List.length_append, ho, hb,
        List.length_flatMap, List.map_congr_left fun c _ => length_fragments c _ 0]

/-- Behind all fragments that come before it, an element begins with one that is not empty. -/
theorem exists_first_fragment {n e : Node} {spot : Spot} (hat : n.at? spot = some e)
    (he : e.isElement = true) (hs : n.showsAt spot = true) : ∃ first,
      (n.fragments 0)[n.fragmentsBefore spot]? = some first ∧ first.text.toList ≠ [] := by
  obtain ⟨before, behind, hsplit, hb⟩ := fragments_split hat he hs 0
  obtain ⟨first, rest, hfirst, hne⟩ := exists_fragment_of_isElement he (0 + n.elementsAbove spot)
  refine ⟨first, ?_, hne⟩
  rw [hsplit, hfirst, ← hb]
  simp

/-! ## The order of the elements -/

/-- What comes before a later entry weighs more than what comes before an earlier one, by the
weight of the earlier entry at least. -/
theorem sum_take_add_le {α : Type} {entries : List α} {i j : Nat} {entry : α}
    (hi : entries[i]? = some entry) (hij : i < j) (weight : α → Nat) :
    ((entries.take i).map weight).sum + weight entry ≤ ((entries.take j).map weight).sum := by
  have htake : entries.take (i + 1) = entries.take i ++ [entry] := by
    rw [List.take_add_one, hi]
    rfl
  obtain ⟨between, hbetween⟩ : entries.take (i + 1) <+: entries.take j :=
    List.take_prefix_take_left hij
  rw [← hbetween, htake]
  simp only [List.map_append, List.sum_append, List.map_singleton, List.sum_singleton]
  omega

/-- **An element that comes later in pre-order has more fragments before it.** -/
theorem fragmentsBefore_lt {n e e' : Node} {spot spot' : Spot} (hlt : spot < spot')
    (hat : n.at? spot = some e) (he : e.isElement = true) (hs : n.showsAt spot = true)
    (hat' : n.at? spot' = some e') : n.fragmentsBefore spot < n.fragmentsBefore spot' := by
  induction spot generalizing n spot' with
  | nil =>
    obtain rfl := Option.some.inj hat
    cases spot' with
    | nil => exact absurd hlt (List.lt_irrefl _)
    | cons j below =>
      obtain ⟨child, hj, -⟩ := at?_cons_eq_some_iff.mp hat'
      rw [fragmentsBefore_cons hj, if_pos he, fragmentsBefore]
      omega
  | cons i spot ih =>
    cases spot' with
    | nil => exact absurd hlt (List.not_lt_nil _)
    | cons j below =>
      obtain ⟨child, hi, hchild⟩ := at?_cons_eq_some_iff.mp hat
      obtain ⟨other, hj, hother⟩ := at?_cons_eq_some_iff.mp hat'
      obtain ⟨-, hs⟩ := (showsAt_cons hi).mp hs
      rw [fragmentsBefore_cons hi, fragmentsBefore_cons hj]
      rcases List.cons_lt_cons_iff.mp hlt with hij | ⟨rfl, hbelow⟩
      · -- all of the earlier child is printed before the later one
        obtain ⟨_, hfirst, -⟩ := exists_first_fragment hchild he hs
        obtain ⟨hin, -⟩ := List.getElem?_eq_some_iff.mp hfirst
        have hsum := sum_take_add_le hi hij fun c => (c.fragments 0).length
        omega
      · obtain rfl : child = other := Option.some.inj (hi.symm.trans hj)
        have := ih hbelow hchild hs hother
        omega

/-- **So has it more characters before it**, for no element begins with an empty fragment. -/
theorem charsBefore_lt {n e e' : Node} {spot spot' : Spot} (hlt : spot < spot')
    (hat : n.at? spot = some e) (he : e.isElement = true) (hs : n.showsAt spot = true)
    (hat' : n.at? spot' = some e') : n.charsBefore spot < n.charsBefore spot' := by
  obtain ⟨first, hfirst, hne⟩ := exists_first_fragment hat he hs
  have hsum := sum_take_add_le hfirst (fragmentsBefore_lt hlt hat he hs hat')
    fun f => f.text.toList.length
  have hlength : 0 < first.text.toList.length := List.length_pos_of_ne_nil hne
  rw [charsBefore, charsBefore, List.length_flatMap, List.length_flatMap]
  omega

/-- What grows from each element to the next grows along the list of them. -/
theorem pairwise_shownSpots {n : Node} {f : Spot → Nat}
    (h : ∀ {e e' : Node} {spot spot' : Spot}, spot < spot' → n.at? spot = some e →
      e.isElement = true → n.showsAt spot = true → n.at? spot' = some e' → f spot < f spot') :
    (n.shownSpots.map f).Pairwise (· < ·) := by
  rw [List.pairwise_map]
  refine ((n.pairwise_spots.filter _).filter _).imp_of_mem fun {spot spot'} hm hm' hlt => ?_
  obtain ⟨⟨e, hat, he⟩, hs⟩ := mem_shownSpots_iff.mp hm
  obtain ⟨⟨e', hat', -⟩, -⟩ := mem_shownSpots_iff.mp hm'
  exact h hlt hat he hs hat'

/-! ## Parts of the markup -/

section Parts
variable {e : Node} {spot : Spot}

/-- **An element is a block of lines of the formatted markup**, behind a margin for each element
above. -/
theorem standsAt_lines {children : List Node} {style : Style} (hm : style.multiline = true)
    (hi : Text.Unbroken style.effective.indent) (h : ∀ m ∈ preorderAll children, m.Unbroken)
    (hat : (root children).at? spot = some e) (he : e.isElement = true)
    (hs : (root children).showsAt spot = true) :
    StandsAt ((root children).fragmentsBefore spot)
      ((Text.lines (e.markup style)).map
        (style.effective.margin ((root children).elementsAbove spot) ++ ·))
      (Text.lines ((root children).markup style)) := by
  have hbelow : ∀ m ∈ e.preorder, m.Unbroken := by
    cases spot with
    | nil =>
      obtain rfl := Option.some.inj hat
      exact absurd he Bool.false_ne_true
    | cons i spot =>
      obtain ⟨child, hi, hchild⟩ := at?_cons_eq_some_iff.mp hat
      exact forall_mem_preorder_at? hchild
        (forall_mem_preorderAll.mp h child (List.mem_of_getElem? hi))
  obtain ⟨before, behind, hsplit, hb⟩ := fragments_split hat he hs 0
  rw [Nat.zero_add] at hsplit
  rw [margin_lines_markup hm hi hbelow, lines_markup hm hi (newline_notMem_fragments_root h 0),
    hsplit, ← hb]
  exact (standsAt_append _ _ _).map _

/-- **An element is a stretch of the compact markup.** -/
theorem standsAt_chars {n : Node} (hat : n.at? spot = some e) (he : e.isElement = true)
    (hs : n.showsAt spot = true) (indent : String) : StandsAt (n.charsBefore spot)
      (e.markup { indent, multiline := false }).toList
      (n.markup { indent, multiline := false }).toList := by
  obtain ⟨before, behind, hsplit, hb⟩ := fragments_split hat he hs 0
  have hchars : n.charsBefore spot = ((before.map (·.text)).flatMap String.toList).length := by
    rw [charsBefore, hsplit, ← hb, List.take_left, List.flatMap_map]
  have htext (m : Node) : (m.markup { indent, multiline := false }).toList =
      ((m.fragments 0).map (·.text)).flatMap String.toList := by
    rw [markup_compact, String.toList_join]
  rw [htext, htext, texts_fragments e 0 (0 + n.elementsAbove spot), hchars, hsplit,
    List.map_append, List.map_append, List.flatMap_append, List.flatMap_append]
  exact standsAt_append _ _ _

end Parts

/-! ## Below a self-closing element -/

/-- Children that look like the ones before do not change what is seen of a node. -/
theorem visible_mapChildren {n : Node} {f : List Node → List Node}
    (h : (f n.children).map visible = n.children.map visible) :
    (n.mapChildren f).visible = n.visible := by
  cases n with
  | root children =>
    have h : visibleAll (f children) = visibleAll children := by
      rw [visibleAll_eq_map, visibleAll_eq_map]
      exact h
    rw [mapChildren, visible, visible, h]
  | element info children =>
    have h : visibleAll (f children) = visibleAll children := by
      rw [visibleAll_eq_map, visibleAll_eq_map]
      exact h
    have hnil : f children = [] ↔ children = [] := by
      rw [← visibleAll_eq_nil, h, visibleAll_eq_nil]
    rw [mapChildren]
    by_cases hs : Single info children
    · rw [visible_single hs, visible_single (hs.imp_right hnil.mpr)]
    · have hs' : ¬ Single info (f children) := fun hs' => hs (hs'.imp_right hnil.mp)
      rw [visible_pair hs, visible_pair hs', h]
  | text content => rfl
  | attr item => rfl

/-- **Whatever is done to the children of a self-closing element, the page looks as before.** -/
theorem visible_changeAt {n a : Node} {spot : Spot} (hat : n.at? spot = some a)
    (ha : a.closesItself = true) (f : List Node → List Node) :
    (n.changeAt (mapChildren f) spot).visible = n.visible := by
  induction spot generalizing n with
  | nil =>
    obtain rfl := Option.some.inj hat
    match n, ha with
    | element info children, ha =>
      rw [changeAt, mapChildren, visible_single (.inl ha), visible_single (.inl ha)]
  | cons i spot ih =>
    obtain ⟨child, hi, hchild⟩ := at?_cons_eq_some_iff.mp hat
    rw [changeAt]
    refine visible_mapChildren (List.ext_getElem? fun j => ?_)
    rw [List.getElem?_map, List.getElem?_map, List.getElem?_modify]
    by_cases hj : i = j
    · subst j
      simp [hi, ih hchild]
    · simp [hj]

theorem markup_changeAt {n a : Node} {spot : Spot} (hat : n.at? spot = some a)
    (ha : a.closesItself = true) (f : List Node → List Node) (style : Style) :
    (n.changeAt (mapChildren f) spot).markup style = n.markup style := by
  rw [← markup_visible, visible_changeAt hat ha, markup_visible]

/-! ## What is found and what is printed -/

/-- **What is found on a page stands in its markup, in the order in which it is found.**  On a
page of elements and texts without line breaks, each element below no self-closing one is a
block of lines of the formatted markup, which are its own lines behind a unit of indentation
for each element above, and a stretch of the compact markup; and these parts begin one behind
the other.  A search by tag gives the elements of the tag in this order, among them those
below a self-closing element, whose children, whatever they are, leave no trace in the
markup. -/
theorem found_standsAt {children : List Node} (h : ∀ n ∈ preorderAll children, n.Unbroken)
    {indent : String} (hi : Text.Unbroken (Style.effective { indent, multiline := true }).indent) :
    let page : Node := .root children
    let style : Style := { indent, multiline := true }
    (∃ line : Spot → Nat, (page.shownSpots.map line).Pairwise (· < ·) ∧
      ∀ spot ∈ page.shownSpots, ∀ e, page.at? spot = some e →
        StandsAt (line spot) ((Text.lines (e.markup style)).map fun text =>
          String.join (List.replicate (page.elementsAbove spot) style.effective.indent) ++ text)
          (Text.lines (page.markup style))) ∧
    (∀ spare : String, ∃ start : Spot → Nat, (page.shownSpots.map start).Pairwise (· < ·) ∧
      ∀ spot ∈ page.shownSpots, ∀ e, page.at? spot = some e → StandsAt (start spot)
        (e.markup { indent := spare, multiline := false }).toList
        (page.markup { indent := spare, multiline := false }).toList) ∧
    (∀ tag, page.findAll (hasTag tag) = (page.spotsOf (hasTag tag)).filterMap page.at? ∧
      (page.spotsOf (hasTag tag)).Sublist (page.spotsOf isElement)) ∧
    ∀ spot info inner, page.at? spot = some (.element info inner) → spot ∉ page.shownSpots →
      .element info inner ∈ page.findAll (hasTag info.tag) ∧
      ∃ top below, spot = top ++ below ∧ below ≠ [] ∧ ∀ f other,
        (page.changeAt (mapChildren f) top).markup other = page.markup other := by
  intro page style
  refine ⟨⟨page.fragmentsBefore, pairwise_shownSpots fragmentsBefore_lt, ?_⟩,
    fun spare => ⟨page.charsBefore, pairwise_shownSpots charsBefore_lt, ?_⟩,
    fun tag => ⟨findAll_eq_spots _ page, ?_⟩, ?_⟩
  · intro spot hspot e hat
    obtain ⟨⟨_, hat', he⟩, hs⟩ := mem_shownSpots_iff.mp hspot
    obtain rfl := Option.some.inj (hat.symm.trans hat')
    have hmargin (levels : Nat) : style.effective.margin levels =
        String.join (List.replicate levels style.effective.indent) := by
      rw [Style.margin, Style.multiline_effective]
      rfl
    rw [← hmargin]
    exact standsAt_lines rfl hi h hat he hs
  · intro spot hspot e hat
    obtain ⟨⟨_, hat', he⟩, hs⟩ := mem_shownSpots_iff.mp hspot
    obtain rfl := Option.some.inj (hat.symm.trans hat')
    exact standsAt_chars hat he hs spare
  · refine List.monotone_filter_right _ fun spot hspot => ?_
    obtain ⟨m, hm, ht⟩ := (Option.any_eq_true _ _).mp hspot
    refine (Option.any_eq_true _ _).mpr ⟨m, hm, ?_⟩
    cases m with
    | element info inner => rfl
    | _ => exact absurd ht Bool.false_ne_true
  · intro spot info inner hat hhidden
    have htag : hasTag info.tag (.element info inner) = true := beq_self_eq_true info.tag
    constructor
    · rw [findAll_eq_spots, List.mem_filterMap]
      exact ⟨spot, mem_spotsOf_iff.mpr ⟨_, hat, htag⟩, hat⟩
    · have hs : ¬ page.showsAt spot = true := fun hs =>
        hhidden (mem_shownSpots_iff.mpr ⟨⟨_, hat, rfl⟩, hs⟩)
      obtain ⟨top, below, a, hsplit, hb, ha, hc⟩ := exists_closesItself hs
      exact ⟨top, below, hsplit, hb, markup_changeAt ha hc⟩

/-- A form with a picture and a paragraph, which is a line of the form one level deeper.  The
paragraph below the picture is found as well, but it is not seen. -/
theorem found_standsAt_form :
    let hidden : Node := .element { tag := "p" } []
    let picture : Node := .element { tag := "img", selfClosing := true } [hidden]
    let shown : Node := .element { tag := "p" } [.text "x"]
    let children : List Node := [.element { tag := "form" } [.text "a", picture, shown]]
    let style : Style := { indent := "\t", multiline := true }
    (∀ n ∈ preorderAll children, n.Unbroken) ∧ Text.Unbroken style.effective.indent ∧
      (root children).shownSpots = [[0], [0, 1], [0, 2]] ∧
      (∃ line : Spot → Nat, line [0] < line [0, 1] ∧ line [0, 1] < line [0, 2] ∧
        StandsAt (line [0, 2]) ["\t<p>x</p>"]
          ["<form>", "\ta", "\t<img />", "\t<p>x</p>", "</form>"]) ∧
      hidden ∈ (root children).findAll (hasTag "p") := by
  intro hidden picture shown children style
  have h : ∀ n ∈ preorderAll children, n.Unbroken := by decide
  have hi : Text.Unbroken style.effective.indent := by decide
  have hspots : (root children).shownSpots = [[0], [0, 1], [0, 2]] := by decide +kernel
  have hlines : Text.lines ((root children).markup style) =
      ["<form>", "\ta", "\t<img />", "\t<p>x</p>", "</form>"] := by decide +kernel
  have hblock : (Text.lines (shown.markup style)).map (fun text => String.join (List.replicate
      ((root children).elementsAbove [0, 2]) style.effective.indent) ++ text) =
        ["\t<p>x</p>"] := by decide +kernel
  obtain ⟨⟨line, horder, hstands⟩, -, -, hfound⟩ := found_standsAt h hi
  refine ⟨h, hi, hspots, ⟨line, ?_⟩, ?_⟩
  · have hline := hstands [0, 2] (by rw [hspots]; decide) shown rfl
    rw [hblock, hlines] at hline
    rw [hspots] at horder
    simp only [List.map_cons, List.map_nil, List.pairwise_cons] at horder
    exact ⟨horder.1 _ (by simp), horder.2.1 _ (by simp), hline⟩
  · exact (hfound [0, 1, 0] { tag := "p" } [] rfl (by rw [hspots]; decide)).1

end Node
end PageDesign

import Mathlib.Data.Finset.Dedup
import Mathlib.Data.Finset.Lattice.Basic
import Mathlib.Data.Finset.SDiff
import PageDesign.Palette.Basic
import PageDesign.Proofs.Node.Elements

/-! # Sessions of edits

A session starts from a page and edits it through the ids of its elements, one edit after
the other.  Beside the page it keeps on record which ids are in use: an insertion adds the
ids of what is inserted, a removal takes out those of all that is removed, and an edit that
cannot be made changes nothing.

An insertion is *fair* if the ids that it brings in are distinct and none of them is in
use.  As long as all insertions are fair, no id is ever carried twice and the record is
right (`Session.Consistent`).  So an element is found by its id for as long as the id stays
on record, and all that ever changes about it is the attributes that edits set for this
very id (`Session.run_page`).
-/
namespace PageDesign
open Node

/-- An edit of a page through the ids of its elements. -/
inductive Edit where
  | insert (parent : String) (index : Nat) (child : Node)
  | remove (id : String)
  | setAttribute (id name : String) (value : Value)

namespace Edit

/-- The page after an edit; an edit that cannot be made leaves it as it was. -/
def apply : Edit → Node → Node
  | insert parent index child, page =>
    match page.insert parent index child with
    | .ok placed => placed
    | .error _ => page
  | remove id, page =>
    match page.remove? id with
    | some (_, left) => left
    | none => page
  | setAttribute id name value, page => (page.setAttribute? id name value).getD page

/-- The ids on record after an edit of a page. -/
def record : Edit → Node → Finset String → Finset String
  | insert parent index child, page, known =>
    match page.insert parent index child with
    | .ok _ => known ∪ child.ids.toFinset
    | .error _ => known
  | remove id, page, known =>
    match page.remove? id with
    | some (removed, _) => known \ removed.ids.toFinset
    | none => known
  | setAttribute .., _, known => known

/-- Whether the ids that an edit brings in are distinct and not in use. -/
def Fair : Edit → Node → Prop
  | insert _ _ child, page => child.ids.Nodup ∧ ∀ id ∈ child.ids, id ∉ page.ids
  | _, _ => True

instance (page : Node) : (e : Edit) → Decidable (e.Fair page)
  | insert _ _ child =>
    inferInstanceAs (Decidable (child.ids.Nodup ∧ ∀ id ∈ child.ids, id ∉ page.ids))
  | remove _ => .isTrue trivial
  | setAttribute .. => .isTrue trivial

/-- What an edit makes of the attributes of the element that carries `id`. -/
def attributes (id : String) : Edit → List Attribute → List Attribute
  | setAttribute target name value, attrs =>
    if target = id then PageDesign.setAttribute name value attrs else attrs
  | _, attrs => attrs

/-- What edits make of the attributes of the element that carries `id`. -/
def attributesAfter (id : String) (edits : List Edit) (attrs : List Attribute) : List Attribute :=
  edits.foldl (fun attrs e => e.attributes id attrs) attrs

end Edit

/-- A page under edits, and the ids on record. -/
structure Session where
  page : Node
  known : Finset String

namespace Session

/-- A session that starts from a page. -/
def start (page : Node) : Session := ⟨page, page.ids.toFinset⟩

/-- The session after one more edit. -/
def edit (s : Session) (e : Edit) : Session := ⟨e.apply s.page, e.record s.page s.known⟩

/-- The session after a number of edits. -/
def run (s : Session) (edits : List Edit) : Session := edits.foldl edit s

/-- Whether all edits of a session are fair when their turn comes. -/
def Fair (s : Session) : List Edit → Prop
  | [] => True
  | e :: rest => e.Fair s.page ∧ (s.edit e).Fair rest

/-- Whether edits are fair can be decided. -/
def decideFair (s : Session) : (edits : List Edit) → Decidable (s.Fair edits)
  | [] => .isTrue trivial
  | e :: rest =>
    have := (s.edit e).decideFair rest
    inferInstanceAs (Decidable (e.Fair s.page ∧ (s.edit e).Fair rest))

instance (edits : List Edit) (s : Session) : Decidable (s.Fair edits) := s.decideFair edits

/-- Whether an id is on record before, between and after a number of edits. -/
def Stays (s : Session) (id : String) : List Edit → Prop
  | [] => id ∈ s.known
  | e :: rest => id ∈ s.known ∧ (s.edit e).Stays id rest

/-- Whether an id stays on record can be decided. -/
def decideStays (s : Session) (id : String) : (edits : List Edit) → Decidable (s.Stays id edits)
  | [] => inferInstanceAs (Decidable (id ∈ s.known))
  | e :: rest =>
    have := (s.edit e).decideStays id rest
    inferInstanceAs (Decidable (id ∈ s.known ∧ (s.edit e).Stays id rest))

instance (s : Session) (id : String) (edits : List Edit) : Decidable (s.Stays id edits) :=
  s.decideStays id edits

/-- No id is carried twice, and the record is right. -/
structure Consistent (s : Session) : Prop where
  nodup : s.page.ids.Nodup
  known_iff : ∀ id, id ∈ s.known ↔ id ∈ s.page.ids

variable {s : Session}

theorem run_append (s : Session) (before after : List Edit) :
    s.run (before ++ after) = (s.run before).run after :=
  List.foldl_append

theorem Stays.known {id : String} {edits : List Edit} (h : s.Stays id edits) : id ∈ s.known := by
  cases edits with
  | nil => exact h
  | cons e rest => exact h.1

theorem Fair.of_append {before after : List Edit} (h : s.Fair (before ++ after)) :
    s.Fair before ∧ (s.run before).Fair after := by
  induction before generalizing s with
  | nil => exact ⟨trivial, h⟩
  | cons e before ih =>
    obtain ⟨he, h⟩ := h
    obtain ⟨hb, ha⟩ := ih h
    exact ⟨⟨he, hb⟩, ha⟩

theorem consistent_start {page : Node} (h : page.ids.Nodup) : (start page).Consistent :=
  ⟨h, fun _ => List.mem_toFinset⟩

/-! ## One edit -/

/-- What an edit can do to a session. -/
inductive Edited (s s' : Session) : Edit → Prop
  | refused {e : Edit} (hs : s' = s)
      (ha : ∀ id ∈ s.page.ids, ∀ attrs, e.attributes id attrs = attrs) : Edited s s' e
  | insert (parent : String) (index : Nat) (child : Node)
      (hp : s'.page.elements.Perm (child.elements ++ s.page.elements))
      (hk : s'.known = s.known ∪ child.ids.toFinset) :
      Edited s s' (.insert parent index child)
  | remove (id : String) (removed : Node) (before behind : List Element)
      (hb : s.page.elements = before ++ (removed.elements ++ behind))
      (ha : s'.page.elements = before ++ behind)
      (hk : s'.known = s.known \ removed.ids.toFinset) : Edited s s' (.remove id)
  | setAttribute (id name : String) (value : Value) (info : Element)
      (before behind : List Element) (hid : info.id = some id)
      (hb : s.page.elements = before ++ info :: behind)
      (ha : s'.page.elements = before ++ info.set name value :: behind)
      (hk : s'.known = s.known) : Edited s s' (.setAttribute id name value)

theorem edited (s : Session) (e : Edit) : Edited s (s.edit e) e := by
  cases e with
  | insert parent index child =>
    cases h : s.page.insert parent index child with
    | error error =>
      refine .refused ?_ fun _ _ _ => rfl
      simp only [Session.edit, Edit.apply, Edit.record, h]
    | ok placed =>
      refine .insert parent index child ?_ ?_
      · simpa only [Session.edit, Edit.apply, h] using insert_perm h
      · simp only [Session.edit, Edit.record, h]
  | remove id =>
    cases h : s.page.remove? id with
    | none =>
      refine .refused ?_ fun _ _ _ => rfl
      simp only [Session.edit, Edit.apply, Edit.record, h]
    | some out =>
      obtain ⟨removed, left⟩ := out
      obtain ⟨before, behind, hb, ha⟩ := remove?_split h
      refine .remove id removed before behind hb ?_ ?_
      · simpa only [Session.edit, Edit.apply, h] using ha
      · simp only [Session.edit, Edit.record, h]
  | setAttribute id name value =>
    cases h : s.page.setAttribute? id name value with
    | none =>
      refine .refused ?_ ?_
      · simp only [Session.edit, Edit.apply, Edit.record, h, Option.getD_none]
      · intro target ht attrs
        refine if_neg ?_
        rintro rfl
        obtain ⟨found, hf⟩ := Option.isSome_iff_exists.mp (findById?_isSome_iff.mpr ht)
        obtain ⟨changed, -, -, hc, -⟩ := modify?_split _ (mapElement (·.set name value)) hf
        rw [setAttribute?, hc] at h
        cases h
    | some changed =>
      obtain ⟨info, before, behind, hid, hb, ha⟩ := setAttribute?_split h
      refine .setAttribute id name value info before behind hid hb ?_ rfl
      simpa only [Session.edit, Edit.apply, h, Option.getD_some] using ha

/-- **A fair edit keeps a session consistent.** -/
theorem Consistent.edit (h : s.Consistent) {e : Edit} (he : e.Fair s.page) :
    (s.edit e).Consistent := by
  obtain ⟨hn, hk⟩ := h
  cases edited s e with
  | refused hs =>
    rw [hs]
    exact ⟨hn, hk⟩
  | insert parent index child hp hknown =>
    obtain ⟨hchild, hnew⟩ := he
    have hids : (s.edit (.insert parent index child)).page.ids.Perm (child.ids ++ s.page.ids) := by
      simpa [ids] using hp.filterMap (·.id)
    constructor
    · refine hids.nodup_iff.mpr (List.nodup_append.mpr ⟨hchild, hn, ?_⟩)
      rintro id hid _ hold rfl
      exact hnew id hid hold
    · intro id
      rw [hknown, hids.mem_iff, Finset.mem_union, hk, List.mem_toFinset, List.mem_append, or_comm]
  | remove id removed before behind hb ha hknown =>
    have hids : s.page.ids =
        before.filterMap (·.id) ++ (removed.ids ++ behind.filterMap (·.id)) := by
      simp [ids, hb]
    have hleft : (s.edit (.remove id)).page.ids =
        before.filterMap (·.id) ++ behind.filterMap (·.id) := by
      simp [ids, ha]
    -- the three stretches of the list have no id in common
    rw [hids] at hn hk
    obtain ⟨hnb, hnr, hdb⟩ := List.nodup_append.mp hn
    obtain ⟨-, hnh, hdr⟩ := List.nodup_append.mp hnr
    constructor
    · rw [hleft]
      refine List.nodup_append.mpr ⟨hnb, hnh, ?_⟩
      exact fun x hx y hy => hdb x hx y (List.mem_append_right _ hy)
    · intro target
      rw [hknown, hleft, Finset.mem_sdiff, hk, List.mem_toFinset]
      simp only [List.mem_append]
      constructor
      · rintro ⟨hm | hm | hm, hr⟩
        · exact .inl hm
        · exact absurd hm hr
        · exact .inr hm
      · rintro (hm | hm)
        · exact ⟨.inl hm, fun hr => hdb target hm target (List.mem_append_left _ hr) rfl⟩
        · exact ⟨.inr (.inr hm), fun hr => hdr target hr target hm rfl⟩
  | setAttribute id name value info before behind hid hb ha hknown =>
    have hids : (s.edit (.setAttribute id name value)).page.ids = s.page.ids := ids_eq_of_set hb ha
    exact ⟨hids ▸ hn, fun target => by rw [hids, hknown, hk]⟩

/-- **An element that stays on record is changed by the edits of its own attributes
only.** -/
theorem Consistent.elementById?_edit (h : s.Consistent) {e : Edit} (he : e.Fair s.page)
    {id : String} {info : Element} (hf : s.page.elementById? id = some info)
    (hid : id ∈ (s.edit e).known) : (s.edit e).page.elementById? id =
      some { info with attributes := e.attributes id info.attributes } := by
  have hn := h.nodup
  obtain ⟨hm, hi⟩ := (elementById?_eq_some_iff hn).mp hf
  rw [elementById?_eq_some_iff (h.edit he).nodup]
  refine ⟨?_, hi⟩
  cases edited s e with
  | refused hs ha =>
    rw [hs, ha id (mem_ids_iff.mpr ⟨info, hm, hi⟩)]
    exact hm
  | insert parent index child hp _ => exact hp.mem_iff.mpr (List.mem_append_right _ hm)
  | remove target removed before behind hb ha hknown =>
    rw [hknown, Finset.mem_sdiff, List.mem_toFinset] at hid
    rw [hb, List.mem_append, List.mem_append] at hm
    rw [ha]
    rcases hm with hm | hm | hm
    · exact List.mem_append_left _ hm
    · exact absurd (mem_ids_iff.mpr ⟨info, hm, hi⟩) hid.2
    · exact List.mem_append_right _ hm
  | setAttribute target name value first before behind hfirst hb ha _ =>
    rw [ha]
    by_cases ht : target = id
    · -- no other element carries the id, so it is this one that is changed
      subst target
      have hmem : first ∈ s.page.elements := by simp [hb]
      have hsame := (elementById?_eq_some_iff hn).mpr ⟨hmem, hfirst⟩
      obtain rfl : first = info := by simpa [hsame] using hf
      simp [Edit.attributes, Element.set]
    · have hne : info ≠ first := by
        rintro rfl
        exact ht (Option.some.inj (hfirst.symm.trans hi))
      have hm : info ∈ before ∨ info ∈ behind := by simpa [hb, hne] using hm
      simp only [Edit.attributes, if_neg ht]
      rcases hm with hm | hm
      · exact List.mem_append_left _ hm
      · exact List.mem_append_right _ (List.mem_cons_of_mem _ hm)

/-! ## Components -/

/-- A copy of a component carries its new id, and no other if the template has none below
its top. -/
theorem ids_instantiate {offer : Offer}
    (h : ∀ info ∈ elementsAll offer.template.children, info.id = none) (id : String) :
    (offer.instantiate id).toNode.ids = [id] := by
  have hnone : (elementsAll offer.template.children).filterMap (·.id) = [] :=
    List.filterMap_eq_nil_iff.mpr h
  simp [ids, Offer.instantiate, Template.toNode, hnone]

/-- Dropping such a copy on the page under a fresh id is fair. -/
theorem fair_instantiate {offer : Offer}
    (h : ∀ info ∈ elementsAll offer.template.children, info.id = none) {id : String}
    {page : Node} (hid : id ∉ page.ids) (parent : String) (index : Nat) :
    (Edit.insert parent index (offer.instantiate id).toNode).Fair page := by
  show _ ∧ _
  rw [ids_instantiate h]
  exact ⟨List.nodup_singleton id, by simpa using hid⟩

/-! ## All edits -/

/-- **Fair edits keep a session consistent.** -/
theorem Consistent.run (h : s.Consistent) {edits : List Edit} (hf : s.Fair edits) :
    (s.run edits).Consistent := by
  induction edits generalizing s with
  | nil => exact h
  | cons e rest ih =>
    obtain ⟨he, hf⟩ := hf
    exact ih (h.edit he) hf

theorem Consistent.elementById?_run (h : s.Consistent) {edits : List Edit} (hf : s.Fair edits)
    {id : String} {info : Element} (hi : s.page.elementById? id = some info)
    (hs : s.Stays id edits) : (s.run edits).page.elementById? id =
      some { info with attributes := Edit.attributesAfter id edits info.attributes } := by
  induction edits generalizing s info with
  | nil => exact hi
  | cons e rest ih =>
    obtain ⟨he, hf⟩ := hf
    obtain ⟨-, hs⟩ := hs
    exact ih (h.edit he) hf (h.elementById?_edit he hi hs.known) hs

/-- **Elements are addressed by their ids, whatever the edits.**  After any fair edits of a
page in which no id is carried twice, no id is carried twice, an id can be found if and only
if it is on record, and an element is still what it was at any earlier time since which its
id has stayed on record, but for the attributes that were set for this id in between. -/
theorem run_page {page : Node} (h : page.ids.Nodup) {edits : List Edit}
    (hf : (start page).Fair edits) :
    let s := (start page).run edits
    s.page.ids.Nodup ∧ (∀ id, (s.page.findById? id).isSome = true ↔ id ∈ s.known) ∧
      ∀ before after, edits = before ++ after → ∀ id, ((start page).run before).Stays id after →
        ∃ info, ((start page).run before).page.elementById? id = some info ∧
          s.page.elementById? id =
            some { info with attributes := Edit.attributesAfter id after info.attributes } := by
  intro s
  have hs : s.Consistent := (consistent_start h).run hf
  refine ⟨hs.nodup, fun id => findById?_isSome_iff.trans (hs.known_iff id).symm, ?_⟩
  rintro before after rfl id hstays
  obtain ⟨hbefore, hafter⟩ := hf.of_append
  have hb := (consistent_start h).run hbefore
  have hfound := findById?_isSome_iff.mpr ((hb.known_iff id).mp hstays.known)
  rw [isSome_findById?] at hfound
  obtain ⟨info, hi⟩ := Option.isSome_iff_exists.mp hfound
  refine ⟨info, hi, ?_⟩
  rw [show s = ((start page).run before).run after from run_append _ _ _]
  exact hb.elementById?_run hafter hi hstays

/-- A button that is put into a box, changed twice and kept when another one is removed; no
element carries the id of the last edit. -/
theorem run_page_button :
    let page : Node := .root [.element { id := some "box", tag := "div" } []]
    let button (id : String) : Node := .element { id := some id, tag := "button" } [.text "OK"]
    let edits : List Edit :=
      [.insert "box" 0 (button "a"), .insert "box" 1 (button "b"),
       .setAttribute "a" "size" (.text "small"), .remove "b",
       .setAttribute "a" "size" (.text "large"), .remove "c"]
    let s := (start page).run edits
    (page.ids.Nodup ∧ (start page).Fair edits) ∧ s.page.ids.Nodup ∧
      (s.page.findById? "a").isSome = true ∧ ¬ (s.page.findById? "b").isSome = true ∧
      s.page.elementById? "a" =
        some { id := some "a", tag := "button", attributes := [⟨"size", .text "large"⟩] } := by
  intro page button edits s
  have hn : page.ids.Nodup := by decide
  have hf : (start page).Fair edits := by decide +kernel
  obtain ⟨hnodup, hfound, hkept⟩ := run_page hn hf
  refine ⟨⟨hn, hf⟩, hnodup, (hfound "a").mpr (by decide +kernel),
    mt (hfound "b").mp (by decide +kernel), ?_⟩
  obtain ⟨info, hi, hs⟩ := hkept (edits.take 1) (edits.drop 1) rfl "a" (by decide +kernel)
  have hnew : ((start page).run (edits.take 1)).page.elementById? "a" =
      some { id := some "a", tag := "button" } := by decide +kernel
  obtain rfl := Option.some.inj (hnew.symm.trans hi)
  exact hs

end Session
end PageDesign

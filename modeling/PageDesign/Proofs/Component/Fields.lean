import PageDesign.Proofs.Component.Stored

/-! # The fields of a stored component

The record of a component that is an object is read by its keys.  What stands under a key is a
list of values (`valuesOf`); a field is there if the list has an entry, and the record is refused
if a list has more than one.  So what a component is read from can be said without the reader
(`Component.ofJson?_obj`).
-/
namespace PageDesign
open Json

namespace Json

/-- The values that stand under a key, in their order. -/
def valuesOf (key : String) (members : List (String × Json)) : List Json :=
  (members.filter fun m => m.1 == key).map (·.2)

section Record
variable {members : List (String × Json)} {keys : List String}

theorem head?_valuesOf (key : String) : (valuesOf key members).head? = members.lookup key := by
  induction members with
  | nil => rfl
  | cons m rest ih =>
    rw [valuesOf, List.filter_cons, List.lookup_cons]
    by_cases h : m.1 = key
    · simp [h]
    · have hne : (key == m.1) = false := beq_false_of_ne (Ne.symm h)
      rw [if_neg (by simpa using h), hne]
      exact ih

theorem occurrences_eq_length {v : Json} (stored : List (String × Part v)) (key : String) :
    Fields.occurrences key stored = (valuesOf key (plain stored)).length := by
  rw [Fields.occurrences, valuesOf, List.length_map, plain, List.filter_map, List.length_map,
    List.countP_eq_length_filter]
  rfl

/-- The fields of a record that is an object are found if no key of one occurs twice. -/
theorem record?_of_once (h : ∀ key ∈ keys, (valuesOf key members).length ≤ 1) :
    ∃ ps, record? keys (.obj members) = some ps ∧
      ps.map (Option.map (·.1)) = keys.map fun key => (valuesOf key members).head? := by
  obtain ⟨stored, hf, hm⟩ := @fields?_obj (.obj members) members rfl
  refine ⟨keys.map fun key => stored.lookup key, ?_, ?_⟩
  · rw [record?, hf, Option.bind_some, Fields.pick?, if_pos]
    simpa [occurrences_eq_length, hm] using h
  · rw [List.map_map]
    refine List.map_congr_left fun key _ => ?_
    rw [head?_valuesOf]
    exact (lookup_plain key).trans (congrArg (List.lookup key) hm)

/-- A record that is an object has no key of a field twice. -/
theorem once_of_record? {ps : List (Option (Part (.obj members)))}
    (h : record? keys (.obj members) = some ps) :
    ∀ key ∈ keys, (valuesOf key members).length ≤ 1 := by
  obtain ⟨stored, hf, hm⟩ := @fields?_obj (.obj members) members rfl
  rw [record?, hf, Option.bind_some, Fields.pick?, Option.ite_none_right_eq_some] at h
  intro key hkey
  have hall := List.all_eq_true.mp h.1 key hkey
  rw [occurrences_eq_length, hm] at hall
  simpa using hall

end Record

/-- A value that may be `null`. -/
def nullable {α : Type} (read : Json → Option α) : Json → Option (Option α)
  | .null => some none
  | v => (read v).map some

/-- A list whose items are read one by one. -/
def itemsOf {α : Type} (read : Json → Option α) : Json → Option (List α)
  | .arr items => items.mapM read
  | _ => none

section Reading
variable {α : Type} {v : Json} {read : Json → Option α}

theorem optional_eq_nullable (p : Option (Part v)) :
    optional (read ·.1) p = orElse none (nullable read) (p.map (·.1)) := by
  cases p with
  | none => rfl
  | some q =>
    obtain ⟨w, _⟩ := q
    cases w <;> rfl

theorem listOf_eq_itemsOf (p : Part v) : listOf (read ·.1) p = itemsOf read p.1 := by
  obtain ⟨w, hw⟩ := p
  cases w with
  | arr items => exact listOf_arr rfl
  | _ => rfl

end Reading
end Json

/-! ## Components -/

/-- The keys of the fields of a component. -/
def Component.keys : List String := ["tag", "props", "children", "isSelfClosing"]

/-- What a component and its children are read from, given the members of an object. -/
structure Component.FoundIn (members : List (String × Json)) (read : Json → Option Child)
    (info : Component) (children : List Child) : Prop where
  once : ∀ key ∈ Component.keys, (valuesOf key members).length ≤ 1
  tag : required str? (valuesOf "tag" members).head? = some info.tag
  props : orElse .empty Props.ofJson? (valuesOf "props" members).head? = some info.props
  selfClosing : orElse none (nullable bool?) (valuesOf "isSelfClosing" members).head? =
    some info.selfClosing
  children : orElse [] (itemsOf read) (valuesOf "children" members).head? = some children

/-- **A component is read from an object by its keys.** -/
theorem Component.ofJson?_obj {members : List (String × Json)} {read : Json → Option Child}
    {info : Component} {children : List Child} :
    ofJson? (.obj members) (read ·.1) = some (info, children) ↔
      FoundIn members read info children := by
  by_cases honce : ∀ key ∈ keys, (valuesOf key members).length ≤ 1
  · obtain ⟨ps, hps, hvalues⟩ := record?_of_once honce
    simp only [keys, List.map_cons, List.map_nil, List.map_eq_cons_iff, List.map_eq_nil_iff]
      at hvalues
    obtain ⟨tag, _, rfl, htag, props, _, rfl, hprops, list, _, rfl, hlist, closing, _, rfl,
      hclosing, rfl⟩ := hvalues
    have hrequired : required (str? ·.1) tag = required str? (tag.map (·.1)) := by
      cases tag <;> rfl
    have hdefault : orElse .empty (Props.ofJson? ·.1) props =
        orElse .empty Props.ofJson? (props.map (·.1)) := by
      cases props <;> rfl
    have hitems : orElse [] (listOf (read ·.1)) list =
        orElse [] (itemsOf read) (list.map (·.1)) := by
      cases list with
      | none => rfl
      | some q => exact listOf_eq_itemsOf q
    have hfields : record? ["tag", "props", "children", "isSelfClosing"] (.obj members) =
        some [tag, props, list, closing] := hps
    rw [ofJson?, hfields]
    simp only [Option.bind_eq_bind, Option.bind_some, hrequired, hdefault, hitems,
      optional_eq_nullable, htag, hprops, hlist, hclosing, Option.pure_def,
      Option.bind_eq_some_iff, Option.some.injEq, Prod.mk.injEq]
    constructor
    · rintro ⟨t, ht, p, hp, s, hs, cs, hcs, rfl, rfl⟩
      exact ⟨honce, ht, hp, hs, hcs⟩
    · rintro ⟨-, ht, hp, hs, hcs⟩
      exact ⟨_, ht, _, hp, _, hs, _, hcs, rfl, rfl⟩
  · refine iff_of_false (fun h => honce ?_) fun h => honce h.once
    obtain ⟨ps, hps, -⟩ := Option.bind_eq_some_iff.mp h
    exact once_of_record? hps

end PageDesign

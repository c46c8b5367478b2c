import PageDesign.Proofs.Component.Fields
import PageDesign.Proofs.Component.OneOrMany
import PageDesign.Proofs.Json.Grammar

/-! # Which texts are designs

A value is tried as a list of configurations and then as a single one, a child as a text and
then as a configuration, and what does not fit anywhere fails without a reason.  What is
accepted in the end can be said of one object at a time: of the keys of its fields, how often
they occur and what stands under them (`Documented`).  A value is a design if and only if this
holds of every object that is reached from it through lists of children (`Design.isSome_iff`).
So nothing that does not fit is left out or taken for something else, however deep it stands,
and one such thing has all of the text refused (`Design.read_exact`).

This is said of values that are objects or lists of objects and in which no list is the child of
a component: a component can be stored as the list of its fields, too.  And it is said of texts
that can be read at all: a field that is not known is ignored, but its text is read with the
others (`Design.not_read_noted`).
-/
namespace PageDesign
open Json Decimal

/-! ## Objects that are configurations -/

namespace Json

/-- What is reached from a value through lists of children, itself included. -/
inductive Reaches : Json → Json → Prop
  | here (v : Json) : Reaches v v
  | child {members : List (String × Json)} {items : List Json} {item v : Json}
      (hl : .arr items ∈ valuesOf "children" members) (hi : item ∈ items) (h : Reaches item v) :
      Reaches (.obj members) v

/-- Whether a value is neither a list nor an object. -/
def Plain : Json → Prop
  | .arr _ => False
  | .obj _ => False
  | _ => True

/-- Whether there is no more than one value, and it has a property. -/
def AtMostOne (p : Json → Prop) (vs : List Json) : Prop := vs.length ≤ 1 ∧ ∀ v ∈ vs, p v

/-- Whether a value is a string or an object. -/
def TextOrObject (v : Json) : Prop := (∃ text, v = .str text) ∨ ∃ members, v = .obj members

end Json

/-- Whether the members of an object are those of a configuration, its children apart: one tag,
and no more than one of each of the other fields. -/
structure Documented (members : List (String × Json)) : Prop where
  tag : ∃ text, valuesOf "tag" members = [.str text]
  props : AtMostOne (fun v => ∃ entries, v = .obj entries ∧ ∀ entry ∈ entries, Plain entry.2)
    (valuesOf "props" members)
  children : AtMostOne (fun v => ∃ items, v = .arr items ∧ ∀ item ∈ items, TextOrObject item)
    (valuesOf "children" members)
  selfClosing : AtMostOne (fun v => v = .null ∨ ∃ on, v = .bool on)
    (valuesOf "isSelfClosing" members)

/-- Whether all objects that are reached from a value are those of configurations. -/
def DocumentedBelow (v : Json) : Prop := ∀ members, Reaches v (.obj members) → Documented members

/-- Whether no list of children that is reached from a value holds a list. -/
def FlatBelow (v : Json) : Prop :=
  ∀ members, Reaches v (.obj members) → ∀ items, .arr items ∈ valuesOf "children" members →
    ∀ inner, .arr inner ∉ items

/-! ## Reading one object -/

section Fields
variable {α β : Type} {vs : List Json} {read : Json → Option α} {v : Json}

theorem isSome_mapM {f : β → Option α} {entries : List β} :
    (entries.mapM f).isSome = true ↔ ∀ entry ∈ entries, (f entry).isSome = true := by
  induction entries with
  | nil => simp
  | cons entry rest ih =>
    rw [List.mapM_cons, List.forall_mem_cons, ← ih]
    cases f entry <;> cases rest.mapM f <;> simp

/-- A field that may be left out is read if what stands under its key can be. -/
theorem isSome_orElse {default : α} {p : Json → Prop} (hone : vs.length ≤ 1)
    (hp : ∀ v, (read v).isSome = true ↔ p v) :
    (orElse default read vs.head?).isSome = true ↔ AtMostOne p vs := by
  rw [AtMostOne, and_iff_right hone]
  cases vs with
  | nil => simp [orElse]
  | cons v rest =>
    obtain rfl : rest = [] := by simpa using hone
    simp [orElse, hp]

theorem isSome_nullable :
    (nullable bool? v).isSome = true ↔ v = .null ∨ ∃ on, v = .bool on := by
  cases v <;> simp [nullable, bool?]

theorem isSome_itemsOf : (itemsOf read v).isSome = true ↔
    ∃ items, v = .arr items ∧ ∀ item ∈ items, (read item).isSome = true := by
  cases v <;> simp [itemsOf, isSome_mapM]

theorem Scalar.isSome_ofJson? : (ofJson? v).isSome = true ↔ Plain v := by
  cases v <;> simp [ofJson?, Plain]

theorem Props.isSome_ofJson? : (ofJson? v).isSome = true ↔
    ∃ entries, v = .obj entries ∧ ∀ entry ∈ entries, Plain entry.2 := by
  cases v with
  | obj members => simp [ofJson?, isSome_mapM, Scalar.isSome_ofJson?]
  | _ => simp [ofJson?]

end Fields

/-- **An object is read as a component if and only if its fields are those of one** and its
children can be read. -/
theorem Component.isSome_ofJson?_obj {members : List (String × Json)}
    {read : Json → Option Child} :
    (ofJson? (.obj members) (read ·.1)).isSome = true ↔
      (∃ text, valuesOf "tag" members = [.str text]) ∧
      AtMostOne (fun v => ∃ entries, v = .obj entries ∧ ∀ entry ∈ entries, Plain entry.2)
        (valuesOf "props" members) ∧
      AtMostOne (fun v => ∃ items, v = .arr items ∧ ∀ item ∈ items, (read item).isSome = true)
        (valuesOf "children" members) ∧
      AtMostOne (fun v => v = .null ∨ ∃ on, v = .bool on) (valuesOf "isSelfClosing" members) := by
  constructor
  · intro h
    obtain ⟨⟨info, children⟩, hread⟩ := Option.isSome_iff_exists.mp h
    obtain ⟨honce, htag, hprops, hclosing, hchildren⟩ := ofJson?_obj.mp hread
    simp only [keys, List.forall_mem_cons] at honce
    obtain ⟨htag1, hprops1, hchildren1, hclosing1, -⟩ := honce
    refine ⟨?_, ?_, ?_, ?_⟩
    · generalize valuesOf "tag" members = vs at htag htag1
      cases vs with
      | nil => cases htag
      | cons v rest =>
        obtain rfl : rest = [] := by simpa using htag1
        cases v with
        | str text => exact ⟨text, rfl⟩
        | _ => cases htag
    · exact (isSome_orElse hprops1 fun _ => Props.isSome_ofJson?).mp (by rw [hprops]; rfl)
    · exact (isSome_orElse hchildren1 fun _ => isSome_itemsOf).mp (by rw [hchildren]; rfl)
    · exact (isSome_orElse hclosing1 fun _ => isSome_nullable).mp (by rw [hclosing]; rfl)
  · rintro ⟨⟨text, htag⟩, hprops, hchildren, hclosing⟩
    obtain ⟨props, hp⟩ := Option.isSome_iff_exists.mp
      ((@isSome_orElse _ _ _ .empty _ hprops.1 fun _ => Props.isSome_ofJson?).mpr hprops)
    obtain ⟨children, hc⟩ := Option.isSome_iff_exists.mp
      ((@isSome_orElse _ _ _ [] _ hchildren.1 fun _ => isSome_itemsOf).mpr hchildren)
    obtain ⟨closing, hs⟩ := Option.isSome_iff_exists.mp
      ((@isSome_orElse _ _ _ none _ hclosing.1 fun _ => isSome_nullable).mpr hclosing)
    have hfound : FoundIn members read { tag := text, props, selfClosing := closing } children := by
      refine ⟨?_, by rw [htag]; rfl, hp, hs, hc⟩
      simp [keys, htag, hprops.1, hchildren.1, hclosing.1]
    rw [ofJson?_obj.mpr hfound]
    rfl

/-! ## Reading all that is reached -/

section Below
variable {v : Json} {members : List (String × Json)}

/-- What is reached from an object is the object, or reached from one of its children. -/
theorem documentedBelow_obj_iff : DocumentedBelow (.obj members) ↔
    Documented members ∧ ∀ items, .arr items ∈ valuesOf "children" members →
      ∀ item ∈ items, DocumentedBelow item := by
  constructor
  · intro h
    exact ⟨h members (.here _), fun items hl item hi inner hr => h inner (.child hl hi hr)⟩
  · rintro ⟨hself, hitems⟩ inner hr
    cases hr with
    | here => exact hself
    | child hl hi hr => exact hitems _ hl _ hi inner hr

/-- What holds below the children of an object, and none of which is a list, holds below it. -/
theorem flatBelow_obj (h : ∀ items, .arr items ∈ valuesOf "children" members →
    ∀ item ∈ items, (∀ inner, item ≠ .arr inner) ∧ FlatBelow item) : FlatBelow (.obj members) := by
  intro found hr
  cases hr with
  | here => exact fun items hl inner hi => (h items hl _ hi).1 inner rfl
  | child hl hi hr => exact (h _ hl _ hi).2 found hr

theorem below_str (text : String) : FlatBelow (.str text) ∧ DocumentedBelow (.str text) :=
  ⟨fun _ hr => (nomatch hr), fun _ hr => (nomatch hr)⟩

theorem FlatBelow.child {items : List Json} {item : Json} (h : FlatBelow (.obj members))
    (hl : .arr items ∈ valuesOf "children" members) (hi : item ∈ items) : FlatBelow item :=
  fun inner hr => h inner (.child hl hi hr)

theorem sizeOf_lt_of_mem_valuesOf {key : String} (h : v ∈ valuesOf key members) :
    sizeOf v < sizeOf (Json.obj members) := by
  obtain ⟨m, hm, rfl⟩ := List.mem_map.mp h
  exact sizeOf_lt_of_mem_members (List.mem_filter.mp hm).1

/-- **A string or an object is read as a child if and only if all objects that are reached from
it are those of configurations.** -/
theorem Child.isSome_ofJson?_iff : ∀ v : Json, FlatBelow v → (∀ items, v ≠ .arr items) →
    ((ofJson? v).isSome = true ↔ TextOrObject v ∧ DocumentedBelow v)
  | .str content, _, _ => by
    rw [ofJson?]
    exact iff_of_true rfl ⟨.inl ⟨content, rfl⟩, (below_str content).2⟩
  | .obj members, hf, _ => by
    -- what is read of the items of a list of children is known by induction
    have hitems : ∀ items, .arr items ∈ valuesOf "children" members → ∀ item ∈ items,
        ((ofJson? item).isSome = true ↔ TextOrObject item ∧ DocumentedBelow item) := by
      intro items hl item hi
      have hsize := Nat.lt_trans (sizeOf_lt_of_mem_items hi) (sizeOf_lt_of_mem_valuesOf hl)
      refine isSome_ofJson?_iff item (hf.child hl hi) ?_
      rintro inner rfl
      exact hf members (.here _) items hl inner hi
    have hobject : (ofJson? (.obj members)).isSome = true ↔
        (Component.ofJson? (.obj members) fun p => ofJson? p.1).isSome = true := by
      rw [ofJson?]
      simp only [str?, Option.isSome_map]
    have hself : TextOrObject (.obj members) := .inr ⟨members, rfl⟩
    rw [hobject, Component.isSome_ofJson?_obj, and_iff_right hself, documentedBelow_obj_iff]
    constructor
    · rintro ⟨htag, hprops, ⟨hone, hchildren⟩, hclosing⟩
      have hall : ∀ items, .arr items ∈ valuesOf "children" members → ∀ item ∈ items,
          TextOrObject item ∧ DocumentedBelow item := by
        intro items hl item hi
        obtain ⟨found, he, hread⟩ := hchildren _ hl
        obtain rfl := Json.arr.inj he
        exact (hitems items hl item hi).mp (hread item hi)
      refine ⟨⟨htag, hprops, ⟨hone, fun w hw => ?_⟩, hclosing⟩,
        fun items hl item hi => (hall items hl item hi).2⟩
      obtain ⟨items, rfl, -⟩ := hchildren w hw
      exact ⟨items, rfl, fun item hi => (hall items hw item hi).1⟩
    · rintro ⟨⟨htag, hprops, ⟨hone, hchildren⟩, hclosing⟩, hbelow⟩
      refine ⟨htag, hprops, ⟨hone, fun w hw => ?_⟩, hclosing⟩
      obtain ⟨items, rfl, hentries⟩ := hchildren w hw
      exact ⟨items, rfl, fun item hi =>
        (hitems items hw item hi).mpr ⟨hentries item hi, hbelow items hw item hi⟩⟩
  | .arr items, _, ha => absurd rfl (ha items)
  | .null, _, _ | .bool _, _, _ | .number _, _, _ => by
    refine iff_of_false (fun h => ?_) ?_
    · rw [ofJson?] at h
      cases h
    · rintro ⟨⟨_, h⟩ | ⟨_, h⟩, -⟩ <;> cases h
termination_by v => sizeOf v
decreasing_by exact hsize

/-- An object is read as a configuration if and only if it is read as a child. -/
theorem Config.isSome_ofJson?_obj (hf : FlatBelow (.obj members)) :
    (ofJson? (.obj members)).isSome = true ↔ DocumentedBelow (.obj members) := by
  have hself : TextOrObject (.obj members) := .inr ⟨members, rfl⟩
  rw [← and_iff_right (b := DocumentedBelow (.obj members)) hself,
    ← Child.isSome_ofJson?_iff _ hf (fun _ => Json.noConfusion), ofJson?, Child.ofJson?]
  simp only [str?, Option.isSome_map]

end Below

/-! ## Designs -/

namespace Design

/-- The values that have to be configurations if a value is to be a design: the items of a
list, or else the value itself. -/
def roots : Json → List Json
  | .arr items => items
  | v => [v]

/-- **Objects and lists of objects are designs if and only if all objects that are reached from
them are those of configurations.** -/
theorem isSome_iff {v : Json} (ho : ∀ root ∈ roots v, ∃ members, root = .obj members)
    (hf : ∀ root ∈ roots v, FlatBelow root) :
    (ofJson? v).isSome = true ↔ ∀ root ∈ roots v, DocumentedBelow root := by
  cases v with
  | arr items =>
    have hitem : ∀ item ∈ items, ((Config.ofJson? item).isSome = true ↔ DocumentedBelow item) := by
      intro item hi
      obtain ⟨members, rfl⟩ := ho item hi
      exact Config.isSome_ofJson?_obj (hf _ hi)
    -- a list of objects is no list of the fields of a single configuration
    have hone : Config.ofJson? (.arr items) = none := by
      rw [← Option.not_isSome_iff_eq_none, Option.isSome_iff_exists]
      rintro ⟨config, hconfig⟩
      obtain ⟨text, rest, rfl⟩ := Config.stringFirst_of_ofJson? hconfig
      obtain ⟨members, he⟩ := ho _ List.mem_cons_self
      cases he
    have hlist : (ofJson? (.arr items)).isSome = true ↔
        (items.mapM Config.ofJson?).isSome = true := by
      rw [ofJson?, hone, Config.listOfJson?]
      cases items.mapM Config.ofJson? <;> rfl
    rw [hlist, isSome_mapM]
    exact forall₂_congr hitem
  | obj members =>
    have hsingle : (ofJson? (.obj members)).isSome = (Config.ofJson? (.obj members)).isSome := by
      rw [ofJson?, show Config.listOfJson? (.obj members) = none from rfl]
      exact Option.isSome_map
    rw [hsingle, Config.isSome_ofJson?_obj (hf _ List.mem_cons_self)]
    exact List.forall_mem_singleton.symm
  | _ =>
    obtain ⟨members, he⟩ := ho _ List.mem_cons_self
    cases he

/-! ## Accepted texts -/

/-- **Which texts of objects are designs.**  A text that is not well-formed is refused, and so is
one that is not readable: it holds half of a pair of surrogates, or a number out of range, as those
from about `2 ^ 1024` on are and smaller ones are not.  A readable text holds a value; if that is an
object or a list of objects and no list is the child of a component, the text is accepted if and
only if every object that is reached through children is that of a configuration, and otherwise all
of it is refused. -/
theorem read_exact (source : String) :
    ((¬ ∃ levels ≤ nestingLimit, WellFormed levels source) → ∃ e, read source = .error e) ∧
    ((¬ ∃ levels ≤ nestingLimit, Readable levels source) → ∃ e, read source = .error e) ∧
    (∀ whole fraction power t, NumberParts whole fraction power t →
      (power ≤ powerLimit →
        2 ^ 51 * numberValue whole fraction power < (2 ^ 51 - 1) * tooLarge → NumberInRange t) ∧
      (-powerLimit ≤ power → NumberInRange t →
        2 ^ 51 * numberValue whole fraction power < (2 ^ 51 + 1) * tooLarge)) ∧
    ∀ levels ≤ nestingLimit, Readable levels source → ∃ v, Json.read source = .ok v ∧
      ((∀ root ∈ roots v, ∃ members, root = .obj members) →
        (∀ root ∈ roots v, FlatBelow root) →
        ((∃ design, read source = .ok design) ↔ ∀ root ∈ roots v, DocumentedBelow root) ∧
        ((¬ ∀ root ∈ roots v, DocumentedBelow root) → read source = .error .shape)) := by
  have hrefused : (¬ ∃ levels ≤ nestingLimit, Readable levels source) →
      ∃ e, read source = .error e := by
    intro hno
    cases hr : read source with
    | error e => exact ⟨e, rfl⟩
    | ok design =>
      obtain ⟨v, hv, -⟩ := read_eq_ok_iff.mp hr
      exact absurd (exists_read_iff.mp ⟨v, hv⟩) hno
  refine ⟨fun hno => hrefused ?_, hrefused, fun _ _ _ _ h => h.range_bounds, ?_⟩
  · rintro ⟨levels, hl, h⟩
    exact hno ⟨levels, hl, h.wellFormed⟩
  · intro levels hl h
    obtain ⟨v, hv⟩ := exists_read_iff.mpr ⟨levels, hl, h⟩
    refine ⟨v, hv, fun ho hf => ?_⟩
    have haccepted : (∃ design, read source = .ok design) ↔ (ofJson? v).isSome = true := by
      simp only [read_iff_ofJson? hv, Option.isSome_iff_exists]
    rw [haccepted, isSome_iff ho hf, and_iff_right Iff.rfl]
    intro hno
    rw [← isSome_iff ho hf, Option.not_isSome_iff_eq_none] at hno
    obtain ⟨rest, hfront, -⟩ := read_eq_ok_iff_front.mp hv
    simp only [read, hfront, hno]

theorem numberParts_half : NumberParts ['0'] ['5'] 0 ['0', '.', '5'] := by
  have hwhole : Digits ['0'] := ⟨by simp, List.all_eq_true.mp rfl⟩
  have hfraction : Digits ['5'] := ⟨by simp, List.all_eq_true.mp rfl⟩
  exact .mk (.inl rfl) hwhole (fun _ _ h => nomatch h) (.point hfraction) .none

theorem numberParts_large : NumberParts ['1'] [] 999 ['1', 'e', '9', '9', '9'] := by
  have hwhole : Digits ['1'] := ⟨by simp, List.all_eq_true.mp rfl⟩
  have hpower : Digits ['9', '9', '9'] := ⟨by simp, List.all_eq_true.mp rfl⟩
  exact .mk (.inl rfl) hwhole (fun _ _ h => nomatch h) .none (.mk (.inl rfl) .none hpower)

/-- A component with a field that nothing is known of, and a child with one prop. -/
def nested (prop : Json) : Json :=
  .obj [("tag", .str "ul"), ("note", .arr [.arr [.null]]), ("children", .arr [.str "x",
    .obj [("tag", .str "li"), ("props", .obj [("class", prop)])]])]

theorem flatBelow_nested (prop : Json) : FlatBelow (nested prop) := by
  have hchild : FlatBelow (.obj [("tag", .str "li"), ("props", .obj [("class", prop)])]) :=
    flatBelow_obj (by simp [valuesOf])
  exact flatBelow_obj (by simp [valuesOf, (below_str "x").1, hchild])

theorem documentedBelow_nested {prop : Json} : DocumentedBelow (nested prop) ↔ Plain prop := by
  have hchild : DocumentedBelow (.obj [("tag", .str "li"), ("props", .obj [("class", prop)])]) ↔
      Plain prop := by
    rw [documentedBelow_obj_iff]
    constructor
    · rintro ⟨h, -⟩
      simpa [valuesOf, AtMostOne] using h.props
    · intro h
      refine ⟨⟨?_, ?_, ?_, ?_⟩, ?_⟩ <;> simp [valuesOf, AtMostOne, h]
  rw [nested, documentedBelow_obj_iff, ← hchild]
  constructor
  · rintro ⟨-, h⟩
    exact h _ (by simp [valuesOf]; rfl) _ (by simp)
  · intro h
    refine ⟨⟨?_, ?_, ?_, ?_⟩, ?_⟩ <;> simp [valuesOf, AtMostOne, TextOrObject, (below_str "x").2, h]

theorem numberValue_half : numberValue ['0'] ['5'] 0 = 1 / 2 := by
  have hdigits : digitsValue (['0'] ++ ['5']) = 5 := rfl
  rw [numberValue, hdigits]
  norm_num

theorem le_numberValue_large : (2 ^ 51 + 1) * tooLarge ≤ 2 ^ 51 * numberValue ['1'] [] 999 := by
  have hvalue : numberValue ['1'] [] 999 = (10 ^ 999 : Nat) := by
    have hdigits : digitsValue (['1'] ++ []) = 1 := rfl
    rw [numberValue, hdigits, Nat.cast_one, one_mul, Nat.cast_pow]
    rfl
  have hle : (2 ^ 51 + 1) * tooLarge ≤ 2 ^ 51 * 10 ^ 999 := by decide +kernel
  rw [hvalue]
  exact_mod_cast hle

/-- A prop of a child that is no plain value has the whole text refused; with another prop it is
accepted, though a field is not known.  One half is in range, and `1e999` is not. -/
theorem read_exact_nested : read (nested (.arr [])).compact = .error .shape ∧
    (∃ design, read (nested .null).compact = .ok design) ∧
    NumberInRange ['0', '.', '5'] ∧ ¬ NumberInRange ['1', 'e', '9', '9', '9'] := by
  have hexact (prop : Json) (h : Json.Exact prop) : Json.Exact (nested prop) := by
    simp [nested, Json.Exact, Json.ExactItems, Json.ExactMembers, h]
  have hread (prop : Json) (h : Json.Exact prop) (hn : nesting (nested prop) ≤ nestingLimit) :
      Json.read (nested prop).compact = .ok (nested prop) :=
    (Written.compact.read (hexact prop h)).1 hn
  -- what the law says about the text of a value of this form
  have hlaw (prop : Json) (h : Json.Exact prop) (hn : nesting (nested prop) ≤ nestingLimit) :
      ((∃ design, read (nested prop).compact = .ok design) ↔ Plain prop) ∧
        (¬ Plain prop → read (nested prop).compact = .error .shape) := by
    have hv := hread prop h hn
    obtain ⟨levels, hl, hreadable⟩ := exists_read_iff.mp ⟨_, hv⟩
    obtain ⟨v, hv', hv''⟩ := (read_exact (nested prop).compact).2.2.2 levels hl hreadable
    obtain rfl := Except.ok.inj (hv'.symm.trans hv)
    have hroots : roots (nested prop) = [nested prop] := rfl
    simp only [hroots, List.forall_mem_singleton, documentedBelow_nested] at hv''
    exact hv'' ⟨_, rfl⟩ (flatBelow_nested prop)
  have hnumbers := (read_exact "").2.2.1
  refine ⟨(hlaw (.arr []) trivial (by decide)).2 id, (hlaw .null trivial (by decide)).1.mpr trivial,
    (hnumbers _ _ _ _ numberParts_half).1 (by decide) ?_, fun hlarge => ?_⟩
  · have hlow : (1 : ℚ) ≤ tooLarge := by exact_mod_cast le_tooLarge (k := 0) (by decide)
    rw [numberValue_half]
    linarith
  · have hlt := (hnumbers _ _ _ _ numberParts_large).2 (by decide) hlarge
    exact absurd hlt (not_lt_of_ge le_numberValue_large)

/-- An object with a tag and with another field, of which the text is given. -/
def noted (value : List Char) : String :=
  String.ofList ("\x7b\"tag\":\"a\",\"note\":".toList ++ (value ++ ['}']))

theorem wellFormed_noted {value : List Char} (h : Formed (Chars UnitCode) NumberText 0 value) :
    WellFormed 1 (noted value) := by
  have htag : MemberFormed (Chars UnitCode) NumberText 0
      ('"' :: (['t', 'a', 'g'] ++ ['"'] ++ ([] ++ ':' :: ([] ++ '"' :: (['a'] ++ ['"']))))) :=
    .mk (chars_plain (by simp)) .nil .nil (.str (chars_plain (by simp)))
  have hnote : MemberFormed (Chars UnitCode) NumberText 0
      ('"' :: (['n', 'o', 't', 'e'] ++ ['"'] ++ ([] ++ ':' :: ([] ++ value)))) :=
    .mk (chars_plain (by simp)) .nil .nil h
  have hmembers := EntriesSpelled.cons Text.Spaces.nil htag Text.Spaces.nil
    (.last Text.Spaces.nil hnote Text.Spaces.nil)
  have hfront : "\x7b\"tag\":\"a\",\"note\":".toList = '{' :: '"' :: (['t', 'a', 'g'] ++
      '"' :: ':' :: '"' :: 'a' :: '"' :: ',' :: '"' :: (['n', 'o', 't', 'e'] ++ ['"', ':'])) := by
    simp
  have hsource : (noted value).toList = _ := String.toList_ofList
  unfold WellFormed
  rw [hsource, hfront]
  simpa using FormedText.mk Text.Spaces.nil Text.Spaces.nil (.object hmembers)

/-- A field that is not known is not ignored if it holds a number that is too large or half of a
pair of surrogates. -/
theorem not_read_noted :
    (∀ value, Formed (Chars UnitCode) NumberText 0 value → WellFormed 1 (noted value)) ∧
    (Formed (Chars UnitCode) NumberText 0 "1e999".toList ∧
      (read (noted "1e999".toList)).isOk = false) ∧
    (Formed (Chars UnitCode) NumberText 0 "\"\\ud800\"".toList ∧
      (read (noted "\"\\ud800\"".toList)).isOk = false) ∧
    (read (noted "0.5".toList)).isOk = true := by
  refine ⟨fun _ => wellFormed_noted, ⟨?_, by decide +kernel⟩, ⟨?_, by decide +kernel⟩,
    by decide +kernel⟩
  · exact .number ⟨_, _, _, numberParts_large⟩
  · exact .str (.code (t := "ud800".toList) (.mk (.mk rfl rfl rfl rfl)) .done)

end Design
end PageDesign

import PageDesign.Json.Value

/-! # Records in JSON

A record is stored as an object with a member for each field, or as the list of
its fields in their order, from which trailing fields may be left out.  In an
object the order is free and unknown keys are ignored, but a field may not occur
twice; a list may not be longer than the record.

Whatever is found inside a value is a `Part` of it and smaller, so readers of
nested data may recurse on it.
-/
namespace PageDesign.Json

/-- A value inside another. -/
abbrev Part (v : Json) := { part : Json // sizeOf part < sizeOf v }

theorem sizeOf_lt_of_mem_items {v : Json} {items : List Json} (h : v ∈ items) :
    sizeOf v < sizeOf (arr items) := by
  have := List.sizeOf_lt_of_mem h
  simp only [arr.sizeOf_spec]
  omega

theorem sizeOf_lt_of_mem_members {m : String × Json} {members : List (String × Json)}
    (h : m ∈ members) : sizeOf m.2 < sizeOf (obj members) := by
  have h1 := List.sizeOf_lt_of_mem h
  have h2 : sizeOf m = 1 + sizeOf m.1 + sizeOf m.2 := by cases m; rfl
  simp only [obj.sizeOf_spec]
  omega

/-- The items of a list. -/
def items? : (v : Json) → Option (List (Part v))
  | arr items => some (items.attach.map fun v => ⟨v.1, sizeOf_lt_of_mem_items v.2⟩)
  | _ => none

/-- The members of an object. -/
def members? : (v : Json) → Option (List (String × Part v))
  | obj members =>
    some (members.attach.map fun m => (m.1.1, ⟨m.1.2, sizeOf_lt_of_mem_members m.2⟩))
  | _ => none

/-- A part of a part is a part. -/
def Part.within {v : Json} (outer : Part v) (inner : Part outer.1) : Part v :=
  ⟨inner.1, Nat.lt_trans inner.2 outer.2⟩

/-- The items of a list that is part of `v`. -/
def Part.items? {v : Json} (p : Part v) : Option (List (Part v)) :=
  (Json.items? p.1).map (List.map p.within)

/-- The two forms in which a record is stored. -/
inductive Fields (v : Json) where
  | named (members : List (String × Part v))
  | listed (items : List (Part v))

/-- The fields of a stored record. -/
def fields? (v : Json) : Option (Fields v) :=
  match v.members? with
  | some members => some (.named members)
  | none => v.items?.map .listed

namespace Fields

variable {v : Json}

/-- How often a key occurs. -/
def occurrences (key : String) (members : List (String × Part v)) : Nat :=
  members.countP (·.1 == key)

/-- The values of the fields `keys`, one for each, `none` for a field that is left
out. -/
def pick? (keys : List String) : Fields v → Option (List (Option (Part v)))
  | named members =>
    if keys.all (occurrences · members ≤ 1) then
      some (keys.map fun key => members.lookup key)
    else none
  | listed items =>
    if items.length ≤ keys.length then
      some (items.map some ++ List.replicate (keys.length - items.length) none)
    else none

end Fields

/-- The values of the fields `keys` of a stored record. -/
def record? (keys : List String) (v : Json) : Option (List (Option (Part v))) :=
  v.fields?.bind (·.pick? keys)

/-! ## Fields -/

section
variable {α β : Type}

/-- A field that must be present. -/
def required (read : α → Option β) : Option α → Option β
  | none => none
  | some v => read v

/-- A field that stands for `default` when it is left out. -/
def orElse (default : β) (read : α → Option β) : Option α → Option β
  | none => some default
  | some v => read v

/-- A field that may be left out or `null`. -/
def optional {v : Json} (read : Part v → Option β) : Option (Part v) → Option (Option β)
  | none => some none
  | some p =>
    match p.1 with
    | null => some none
    | _ => (read p).map some

end

/-- A list of values of one kind. -/
def listOf {α : Type} {v : Json} (read : Part v → Option α) (p : Part v) : Option (List α) :=
  p.items?.bind (List.mapM read)

/-! ## Plain values -/

/-- A string. -/
def str? : Json → Option String
  | str s => some s
  | _ => none

/-- A truth value. -/
def bool? : Json → Option Bool
  | bool b => some b
  | _ => none

/-- A number, in floating point. -/
def float? : Json → Option Float
  | number n => some n.toFloat
  | _ => none

/-- One of several named cases: its name, or an object whose only key is the name
and whose value stands for nothing, being `null` or an empty object. -/
def case? {α : Type} (cases : List (String × α)) : Json → Option α
  | str name => cases.lookup name
  | obj [(name, null)] => cases.lookup name
  | obj [(name, obj [])] => cases.lookup name
  | _ => none

end PageDesign.Json

import Mathlib.Data.List.Forall2
import Mathlib.Data.List.Nodup
import PageDesign.Json.Record
import PageDesign.Proofs.Json.Nesting

/-! # Fields of stored records

A record is written as an object with a member for each of its fields, apart from those
that are absent.  Its reader finds every field again (`pick?_named`, `record?_obj`), so
what is left to say about a kind of record is how the values of its fields are read.

Wherever a field was found, it is nested less deep than the record it belongs to, and the
items of a field that is a list less deep than the field (`nesting_lt_of_fields?`,
`nesting_lt_of_listOf`).
-/
namespace PageDesign.Json

/-- The members that are written for the fields of a record. -/
def presentMembers (table : List (String × Option Json)) : List (String × Json) :=
  table.filterMap fun (key, v) => v.map (key, ·)

/-- The members of an object without what is known of their sizes. -/
def plain {v : Json} (members : List (String × Part v)) : List (String × Json) :=
  members.map fun m => (m.1, m.2.1)

/-! ## Finding the fields -/

section Table
variable {table : List (String × Option Json)}

theorem presentMembers_cons (key : String) (o : Option Json) (table : List (String × Option Json)) :
    presentMembers ((key, o) :: table) = (o.map (key, ·)).toList ++ presentMembers table := by
  cases o <;> rfl

theorem keys_presentMembers (table : List (String × Option Json)) :
    ((presentMembers table).map Prod.fst).Sublist (table.map Prod.fst) := by
  induction table with
  | nil => exact .slnil
  | cons field table ih =>
    obtain ⟨key, o⟩ := field
    rw [presentMembers_cons]
    cases o with
    | none => exact ih.cons key
    | some v => exact ih.cons_cons key

/-- What holds of the values of the fields that are present holds of the members. -/
theorem forall_mem_presentMembers {p : Json → Prop} :
    (∀ m ∈ presentMembers table, p m.2) ↔ ∀ field ∈ table, ∀ v ∈ field.2, p v := by
  induction table with
  | nil => simp [presentMembers]
  | cons field table ih =>
    obtain ⟨key, o⟩ := field
    rw [presentMembers_cons, List.forall_mem_append, ih, List.forall_mem_cons]
    cases o <;> simp

theorem lookup_of_notMem {key : String} (h : key ∉ table.map Prod.fst) :
    (presentMembers table).lookup key = none := by
  rw [List.lookup_eq_none_iff]
  intro m hm
  have hne : key ≠ m.1 := by
    rintro rfl
    exact h ((keys_presentMembers table).subset (List.mem_map_of_mem hm))
  exact bne_iff_ne.mpr hne

/-- Each field is found under its key. -/
theorem lookup_of_mem (hk : (table.map Prod.fst).Nodup) {key : String} {o : Option Json}
    (h : (key, o) ∈ table) : (presentMembers table).lookup key = o := by
  induction table with
  | nil => cases h
  | cons field table ih =>
    obtain ⟨first, p⟩ := field
    obtain ⟨hfirst, hrest⟩ := List.nodup_cons.mp hk
    rw [presentMembers_cons]
    rcases List.mem_cons.mp h with he | hin
    · obtain ⟨rfl, rfl⟩ := Prod.mk.inj he
      cases o with
      | none => exact lookup_of_notMem hfirst
      | some v => exact List.lookup_cons_self
    · have hne : (key == first) = false := by
        refine beq_false_of_ne ?_
        rintro rfl
        exact hfirst (List.mem_map.mpr ⟨(key, o), hin, rfl⟩)
      cases p with
      | none => exact ih hrest hin
      | some v =>
        show List.lookup key ((first, v) :: presentMembers table) = o
        rw [List.lookup_cons, hne]
        exact ih hrest hin

end Table

section Finding
variable {v : Json} {members : List (String × Part v)} {table : List (String × Option Json)}

theorem lookup_plain (key : String) :
    (members.lookup key).map (·.1) = (plain members).lookup key := by
  induction members with
  | nil => rfl
  | cons m rest ih =>
    show Option.map _ (List.lookup key (m :: rest)) = List.lookup key ((m.1, m.2.1) :: plain rest)
    rw [List.lookup_cons, List.lookup_cons]
    cases key == m.1 with
    | true => rfl
    | false => exact ih

theorem occurrences_le_one (hk : ((plain members).map Prod.fst).Nodup) (key : String) :
    Fields.occurrences key members ≤ 1 := by
  have h : Fields.occurrences key members = ((plain members).map Prod.fst).count key := by
    rw [Fields.occurrences, plain, List.map_map, List.count, List.countP_map]
    rfl
  rw [h]
  exact List.nodup_iff_count_le_one.mp hk key

/-- **Each field of a written record is found**, or found to be absent. -/
theorem pick?_named {keys : List String} (hkeys : table.map Prod.fst = keys) (hk : keys.Nodup)
    (hm : plain members = presentMembers table) :
    ∃ ps, (Fields.named members).pick? keys = some ps ∧
      ps.map (Option.map (·.1)) = table.map Prod.snd := by
  subst hkeys
  have hone : ∀ key ∈ table.map Prod.fst, Fields.occurrences key members ≤ 1 := fun key _ =>
    occurrences_le_one (hm ▸ hk.sublist (keys_presentMembers table)) key
  refine ⟨(table.map Prod.fst).map fun key => members.lookup key, ?_, ?_⟩
  · rw [Fields.pick?, if_pos]
    simpa using hone
  · rw [List.map_map, List.map_map]
    refine List.map_congr_left fun field hfield => ?_
    show (members.lookup field.1).map (·.1) = field.2
    rw [lookup_plain, hm]
    exact lookup_of_mem hk hfield

theorem fields?_obj {ms : List (String × Json)} (hv : v = obj ms) :
    ∃ members, fields? v = some (.named members) ∧ plain members = ms := by
  subst hv
  refine ⟨_, rfl, ?_⟩
  rw [plain, List.map_map]
  exact List.attach_map_subtype_val ms

theorem record?_obj {keys : List String} (hv : v = obj (presentMembers table))
    (hkeys : table.map Prod.fst = keys) (hk : keys.Nodup) :
    ∃ ps, record? keys v = some ps ∧ ps.map (Option.map (·.1)) = table.map Prod.snd := by
  obtain ⟨members, hf, hm⟩ := fields?_obj hv
  obtain ⟨ps, hp, hps⟩ := pick?_named hkeys hk hm
  refine ⟨ps, ?_, hps⟩
  rw [record?, hf]
  exact hp

/-- **The fields of a record that is a list are its items**, and then nothing. -/
theorem values_of_record?_arr {keys : List String} {items : List Json} {ps : List (Option (Part v))}
    (hv : v = arr items) (h : record? keys v = some ps) :
    ps.map (Option.map (·.1)) =
      items.map some ++ List.replicate (keys.length - items.length) none := by
  subst hv
  have hlisted : fields? (arr items) = some (.listed (items.attach.map fun w =>
    ⟨w.1, sizeOf_lt_of_mem_items w.2⟩)) := rfl
  rw [record?, hlisted] at h
  simp only [Option.bind_some, Fields.pick?, List.length_map, List.length_attach] at h
  split at h
  · cases h
    simp [List.map_map, Function.comp_def]
  · cases h

end Finding

/-! ## Reading a field -/

/-- The items of a list are read one by one. -/
theorem mapM_eq_some_iff {α β : Type} {read : α → Option β} {as : List α} {xs : List β} :
    as.mapM read = some xs ↔ List.Forall₂ (fun a x => read a = some x) as xs := by
  induction as generalizing xs with
  | nil => simp [eq_comm]
  | cons a as ih =>
    rw [List.mapM_cons, List.forall₂_cons_left_iff]
    simp only [Option.bind_eq_bind, Option.bind_eq_some_iff, ih]
    constructor
    · rintro ⟨x, ha, more, has, he⟩
      exact ⟨x, more, ha, has, (Option.some.inj he).symm⟩
    · rintro ⟨x, more, ha, has, rfl⟩
      exact ⟨x, ha, more, has, rfl⟩

theorem mapM_eq {α β : Type} {read : α → Option β} {enc : β → α} {xs : List β}
    (hread : ∀ a ∈ xs, read (enc a) = some a) : (xs.map enc).mapM read = some xs :=
  mapM_eq_some_iff.mpr (List.forall₂_map_left_iff.mpr (List.forall₂_same.mpr hread))

section Reading
variable {β : Type} {v w : Json} {p : Option (Part v)} {read : Json → Option β} {enc : β → Json}

theorem required_eq (hp : p.map (·.1) = some w) : required (read ·.1) p = read w := by
  obtain ⟨q, rfl, rfl⟩ := Option.map_eq_some_iff.mp hp
  rfl

theorem orElse_eq {default : β} (hp : p.map (·.1) = some w) :
    orElse default (read ·.1) p = read w := by
  obtain ⟨q, rfl, rfl⟩ := Option.map_eq_some_iff.mp hp
  rfl

theorem optional_eq {x : Option β} (hp : p.map (·.1) = x.map enc)
    (hnull : ∀ a, enc a ≠ .null) (hread : ∀ a ∈ x, read (enc a) = some a) :
    optional (read ·.1) p = some x := by
  cases x with
  | none =>
    obtain rfl : p = none := Option.map_eq_none_iff.mp hp
    rfl
  | some a =>
    obtain ⟨⟨_, hlt⟩, rfl, rfl⟩ := Option.map_eq_some_iff.mp hp
    unfold optional
    split
    · next hp => cases hp
    · next q hq =>
      obtain rfl := Option.some.inj hq
      split
      · next hn => exact absurd hn (hnull a)
      · show Option.map some (read (enc a)) = _
        rw [hread a rfl]
        rfl

theorem listOf_arr {items : List Json} {q : Part v} (hq : q.1 = .arr items) :
    listOf (read ·.1) q = items.mapM read := by
  obtain ⟨_, hlt⟩ := q
  subst hq
  show List.mapM (fun r : Part v => read r.1) ((items.attach.map _).map _) = _
  rw [List.map_map, List.mapM_map]
  conv => rhs; rw [← List.attach_map_subtype_val items, List.mapM_map]
  rfl

theorem exists_listOf {xs : List β} (hp : p.map (·.1) = some (.arr (xs.map enc)))
    (hread : ∀ a ∈ xs, read (enc a) = some a) :
    ∃ q, p = some q ∧ listOf (read ·.1) q = some xs := by
  obtain ⟨q, rfl, hq⟩ := Option.map_eq_some_iff.mp hp
  exact ⟨q, rfl, (listOf_arr hq).trans (mapM_eq hread)⟩

/-- A list of written values is read back. -/
theorem listOf_eq {default : List β} {xs : List β}
    (hp : p.map (·.1) = some (.arr (xs.map enc))) (hread : ∀ a ∈ xs, read (enc a) = some a) :
    orElse default (listOf (read ·.1)) p = some xs := by
  obtain ⟨q, rfl, hq⟩ := exists_listOf hp hread
  exact hq

/-- A list of written values that must be present is read back. -/
theorem requiredList_eq {xs : List β} (hp : p.map (·.1) = some (.arr (xs.map enc)))
    (hread : ∀ a ∈ xs, read (enc a) = some a) : required (listOf (read ·.1)) p = some xs := by
  obtain ⟨q, rfl, hq⟩ := exists_listOf hp hread
  exact hq

end Reading

/-! ## How deep fields are nested -/

namespace Fields
variable {v : Json}

/-- The values of all fields that are stored. -/
def parts : Fields v → List (Part v)
  | named members => members.map (·.2)
  | listed items => items

theorem mem_parts_of_pick? {fields : Fields v} {keys : List String}
    {ps : List (Option (Part v))} (h : fields.pick? keys = some ps) {p : Part v}
    (hp : some p ∈ ps) : p ∈ fields.parts := by
  cases fields with
  | named members =>
    simp only [pick?] at h
    split at h <;> cases h
    obtain ⟨key, -, hkey⟩ := List.mem_map.mp hp
    obtain ⟨before, behind, rfl, -⟩ := List.lookup_eq_some_iff.mp hkey
    simp [parts]
  | listed items =>
    simp only [pick?] at h
    split at h <;> cases h
    simpa [parts] using hp

end Fields

theorem nestingOfMembers_present_le_iff {table : List (String × Option Json)} {n : Nat} :
    nestingOfMembers (presentMembers table) ≤ n ↔
      ∀ field ∈ table, ∀ v ∈ field.2, nesting v ≤ n := by
  rw [nestingOfMembers_le_iff, ← @forall_mem_presentMembers _ (nesting · ≤ n)]

section Depth
variable {β : Type} {v : Json}

theorem nesting_lt_of_items? {ps : List (Part v)} (h : items? v = some ps) :
    0 < nesting v ∧ ∀ p ∈ ps, nesting p.1 < nesting v := by
  cases v with
  | arr items =>
    cases h
    refine ⟨Nat.succ_pos _, fun p hp => ?_⟩
    obtain ⟨w, -, rfl⟩ := List.mem_map.mp hp
    rw [nesting, Nat.lt_succ_iff]
    exact nestingOfItems_le_iff.mp (Nat.le_refl _) w.1 w.2
  | _ => cases h

/-- **Each field is nested less deep than its record.** -/
theorem nesting_lt_of_fields? {fields : Fields v} (h : v.fields? = some fields) :
    0 < nesting v ∧ ∀ p ∈ fields.parts, nesting p.1 < nesting v := by
  cases v with
  | arr items =>
    cases h
    exact nesting_lt_of_items? rfl
  | obj members =>
    cases h
    refine ⟨Nat.succ_pos _, fun p hp => ?_⟩
    obtain ⟨m, hm, rfl⟩ := List.mem_map.mp hp
    obtain ⟨w, -, rfl⟩ := List.mem_map.mp hm
    rw [nesting, Nat.lt_succ_iff]
    exact nestingOfMembers_le_iff.mp (Nat.le_refl _) w.1 w.2
  | _ => cases h

theorem exists_of_mapM {α : Type} {read : α → Option β} {as : List α} {xs : List β}
    (h : as.mapM read = some xs) : ∀ x ∈ xs, ∃ a ∈ as, read a = some x := by
  have hall := mapM_eq_some_iff.mp h
  clear h
  induction hall with
  | nil => simp
  | @cons a x as xs ha _ ih =>
    rw [List.forall_mem_cons]
    refine ⟨⟨a, List.mem_cons_self, ha⟩, fun y hy => ?_⟩
    obtain ⟨b, hb, hr⟩ := ih y hy
    exact ⟨b, List.mem_cons_of_mem a hb, hr⟩

/-- Each item of a list is nested less deep than the list. -/
theorem nesting_lt_of_listOf {read : Part v → Option β} {p : Part v} {xs : List β}
    (h : listOf read p = some xs) :
    0 < nesting p.1 ∧ ∀ x ∈ xs, ∃ q : Part v, nesting q.1 < nesting p.1 ∧ read q = some x := by
  obtain ⟨ps, hps, hread⟩ := Option.bind_eq_some_iff.mp h
  obtain ⟨inner, hinner, rfl⟩ := Option.map_eq_some_iff.mp hps
  obtain ⟨hpos, hlt⟩ := nesting_lt_of_items? hinner
  refine ⟨hpos, fun x hx => ?_⟩
  obtain ⟨q, hq, hqx⟩ := exists_of_mapM hread x hx
  obtain ⟨r, hr, rfl⟩ := List.mem_map.mp hq
  exact ⟨_, hlt r hr, hqx⟩

end Depth

end PageDesign.Json

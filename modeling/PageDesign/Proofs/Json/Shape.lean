import PageDesign.Json.Shape
import PageDesign.Proofs.Json.Record
import PageDesign.Proofs.Json.Written

/-! # Reading what is expected agrees with reading

A value that is read with a shape in hand is not read in the same way as one of which nothing
is known: members are sought among the fields, some values are refused unread, and others are
passed over.  But where the value has the form that its writer gives it, nothing of this
matters.  `Fits` says which values these are: a record is an object with some of its fields,
each once and all that are required among them.

Whatever text such a value is read from, it is read from the same text with the shape in hand,
and the same text is left (`Shape.agrees_of_fits`).  So a value that is written in a shape is
loaded in it (`WrittenIn.load`).
-/
namespace PageDesign.Json
open Text

namespace Shape

mutual

/-- Whether a value has a shape in the form in which it is written. -/
def Fits : Shape → Json → Prop
  | scalar accepts, v => nesting v = 0 ∧ accepts v = true
  | whole accepts, v => accepts v = true
  | optional shape, v => v = null ∨ Fits shape v
  | defaulted shape, v => Fits shape v
  | list item, v => ∃ vs, v = arr vs ∧ ∀ w ∈ vs, Fits item w
  | table entry, v => ∃ ms, v = obj ms ∧ ∀ m ∈ ms, Fits entry m.2
  | case names, v => ∃ name, v = str name ∧ names.contains name = true
  | record fields, v => ∃ ms, v = obj ms ∧ (ms.map Prod.fst).Nodup ∧
      (∀ m ∈ ms, FitsField fields m) ∧
      ∀ field ∈ fields, field.2.isRequired = true → field.1 ∈ ms.map Prod.fst

/-- Whether a member is one of the fields of a record, and its value has the shape of the
field. -/
def FitsField : List (String × Shape) → String × Json → Prop
  | [], _ => False
  | (name, shape) :: rest, m => if name = m.1 then Fits shape m.2 else FitsField rest m

end

end Shape

/-! ## Written records -/

/-- What a written record has for a field: a value that is right for its shape, or none if it
may be left out. -/
def Fills (right : Shape → Json → Prop) (field : String × Shape) (entry : String × Option Json) :
    Prop :=
  field.1 = entry.1 ∧ (∀ v ∈ entry.2, right field.2 v) ∧
    (entry.2 = none → field.2.isRequired = false)

section Fills
variable {right : Shape → Json → Prop} {name : String} {shape : Shape}
variable {fields : List (String × Shape)} {table : List (String × Option Json)}

theorem fills_value {v : Json} (h : right shape v) : Fills right (name, shape) (name, some v) := by
  refine ⟨rfl, fun w hw => ?_, fun hnone => nomatch hnone⟩
  obtain rfl := Option.some.inj hw
  exact h

theorem fills_map {α : Type} {o : Option α} {enc : α → Json} (hs : shape.isRequired = false)
    (h : ∀ a ∈ o, right shape (enc a)) : Fills right (name, shape) (name, o.map enc) :=
  ⟨rfl, Option.forall_mem_map.mpr h, fun _ => hs⟩

theorem keys_of_fills (h : List.Forall₂ (Fills right) fields table) :
    table.map Prod.fst = fields.map Prod.fst := by
  induction h with
  | nil => rfl
  | cons hfield _ ih => rw [List.map_cons, List.map_cons, ih, hfield.1]

theorem exists_shape_of_fills (h : List.Forall₂ (Fills right) fields table) :
    ∀ entry ∈ table, ∀ v ∈ entry.2, ∃ shape, right shape v := by
  induction h with
  | nil => simp
  | cons hfield _ ih =>
    exact List.forall_mem_cons.mpr ⟨fun v hv => ⟨_, hfield.2.1 v hv⟩, ih⟩

/-- **A record is written in its shape** if there is an entry for each field, in the order of
the fields. -/
theorem Shape.fits_record (h : List.Forall₂ (Fills Fits) fields table)
    (hk : (fields.map Prod.fst).Nodup) : Fits (.record fields) (.obj (presentMembers table)) := by
  rw [← keys_of_fills h] at hk
  refine ⟨_, rfl, hk.sublist (keys_presentMembers table), ?_⟩
  induction h with
  | nil => simp [presentMembers]
  | @cons field entry fields table hfield _ ih =>
    obtain ⟨name, shape⟩ := field
    obtain ⟨key, o⟩ := entry
    obtain ⟨hname, hvalue, hleft⟩ := hfield
    obtain rfl : name = key := hname
    obtain ⟨hfirst, hothers⟩ := List.nodup_cons.mp hk
    obtain ⟨hfits, hrequired⟩ := ih hothers
    -- the members of the other fields have other names
    have hrest : ∀ m ∈ presentMembers table, FitsField ((name, shape) :: fields) m := by
      intro m hm
      have hne : ¬ name = m.1 := by
        rintro rfl
        exact hfirst ((keys_presentMembers table).subset (List.mem_map_of_mem hm))
      exact (if_neg hne).mpr (hfits m hm)
    rw [presentMembers_cons]
    cases o with
    | none =>
      refine ⟨hrest, List.forall_mem_cons.mpr ⟨fun hr => ?_, hrequired⟩⟩
      rw [hleft rfl] at hr
      cases hr
    | some v =>
      refine ⟨List.forall_mem_cons.mpr ⟨(if_pos rfl).mpr (hvalue v rfl), hrest⟩, ?_⟩
      refine List.forall_mem_cons.mpr ⟨fun _ => List.mem_cons_self, fun other hmem hr => ?_⟩
      exact List.mem_cons_of_mem _ (hrequired other hmem hr)

end Fills

variable {depth : Nat} {s t rest : List Char} {v : Json}

/-! ## Plain values -/

theorem ofChar?_number {c : Char} (hc : c = '-' ∨ c.isDigit = true) : Opened.ofChar? c = none := by
  unfold Opened.ofChar?
  split
  · rcases hc with hc | hc <;> cases hc
  · rcases hc with hc | hc <;> cases hc
  · rfl

/-- A value that is neither a list nor an object does not begin as one, and is read without
any level. -/
theorem gives_zero (h : Gives (value depth s) v rest) (hv : nesting v = 0) :
    (skipSpace s).head?.bind Opened.ofChar? = none ∧ Gives (value 0 s) v rest := by
  cases value_gives_iff.mp h with
  | word hw hs =>
    refine ⟨?_, value_gives_iff.mpr (.word hw hs)⟩
    rw [hs]
    rcases exists_word_iff.mp ⟨_, _, hw⟩ with rfl | rfl | rfl <;> rfl
  | str hs ht =>
    refine ⟨?_, value_gives_iff.mpr (.str hs ht)⟩
    rw [hs]
    rfl
  | number hs hc hn =>
    refine ⟨?_, value_gives_iff.mpr (.number hs hc hn)⟩
    rw [hs]
    exact ofChar?_number hc
  | list => cases hv
  | object => cases hv

/-- Nothing but `null` begins as it does. -/
theorem head_eq_iff_null (h : Gives (value depth s) v rest) :
    (skipSpace s).head? = some 'n' ↔ v = .null := by
  cases value_gives_iff.mp h with
  | word hw hs =>
    rw [hs]
    simp only [words, List.mem_cons, Prod.mk.injEq, List.not_mem_nil, or_false] at hw
    rcases hw with ⟨rfl, rfl, rfl⟩ | ⟨rfl, rfl, rfl⟩ | ⟨rfl, rfl, rfl⟩ <;> simp
  | number hs hc =>
    rw [hs]
    refine iff_of_false (fun he => ?_) Json.noConfusion
    obtain rfl := Option.some.inj he
    rcases hc with hc | hc <;> cases hc
  | str hs | list _ hs | object _ hs =>
    rw [hs]
    simp

theorem gives_judge {accepts : Json → Bool} {out : Except Fault (Taken Json s)}
    (h : Gives out v rest) (ha : accepts v = true) : Gives (judge accepts out) v rest := by
  obtain ⟨hl, rfl⟩ := h
  exact ⟨hl, if_pos ha⟩

theorem gives_readScalar {accepts : Json → Bool} (h : Gives (value depth s) v rest)
    (hv : nesting v = 0) (ha : accepts v = true) : Gives (readScalar accepts s) v rest := by
  obtain ⟨hhead, hzero⟩ := gives_zero h hv
  unfold readScalar
  rw [hhead]
  exact gives_judge hzero ha

/-! ## Lists, objects and cases -/

section Within
variable {opened : Opened} {inner : Nat → Reading} {otherwise : Reading} {c : Char}

theorem gives_within {a : Json} (hs : skipSpace s = c :: t) (hc : Opened.ofChar? c = some opened)
    (h : Gives (inner depth t) a rest) :
    Gives (within opened (depth + 1) inner otherwise s) a rest := by
  obtain ⟨hl, h⟩ := h
  refine ⟨Nat.lt_trans hl (length_lt_of_skipSpace hs), ?_⟩
  unfold within
  split
  · next hs' => rw [hs] at hs'; cases hs'
  · next d u hs' =>
    obtain ⟨rfl, rfl⟩ := List.cons.inj (hs'.symm.trans hs)
    simp only [if_pos hc, h]
    rfl

theorem within_otherwise (hs : skipSpace s = c :: t) (hc : Opened.ofChar? c ≠ some opened) :
    within opened depth inner otherwise s = otherwise s := by
  unfold within
  split
  · rfl
  · next d u hs' =>
    obtain ⟨rfl, rfl⟩ := List.cons.inj (hs'.symm.trans hs)
    exact if_neg hc

end Within

theorem gives_map {α β : Type} {out : Except Fault (Taken α s)} {a : α} (h : Gives out a rest)
    (f : α → β) : Gives (out.map (Taken.map f)) (f a) rest := by
  obtain ⟨hl, rfl⟩ := h
  exact ⟨hl, rfl⟩

/-- The name of a case is read as the string that it is. -/
theorem gives_readName {names : List String} {name : String}
    (h : Gives (value depth s) (.str name) rest) (hn : names.contains name = true) :
    Gives (readName names s) (.str name) rest := by
  obtain ⟨t, hs⟩ := quote_of_gives h
  have hread : Gives (readScalar (isName names) s) (.str name) rest := gives_readScalar h rfl hn
  unfold readName
  rw [hs]
  exact hread

/-! ## Records -/

section Records
variable {slots : List Slot} {isFirst : Bool} {seen : List String} {ms : List (String × Json)}

/-- Whether a slot is found for a member, and reads the value of the member wherever it can
be read at all. -/
def Found (slots : List Slot) (depth : Nat) (m : String × Json) : Prop :=
  ∃ slot, slots.find? (·.name == m.1) = some slot ∧
    ∀ s rest, Gives (value depth s) m.2 rest → Gives (slot.read s) m.2 rest

/-- **Members that are read one after another are read as the fields of a record**, if each
is one of its fields, none comes twice, and none that is required is missing. -/
theorem gives_readNamed
    (h : EntriesRead '}' (fun s m rest => Gives (member (value depth) s) m rest) isFirst s ms rest)
    (hfound : ∀ m ∈ ms, Found slots depth m) (hdistinct : (ms.map Prod.fst).Nodup)
    (hnew : ∀ name ∈ ms.map Prod.fst, name ∉ seen)
    (hrequired : ∀ slot ∈ slots, slot.required = true →
      slot.name ∈ seen ∨ slot.name ∈ ms.map Prod.fst) :
    Gives (readNamed slots isFirst seen s) ms rest := by
  -- by induction on the members; what is still to come has no name that has been seen
  induction h generalizing seen with
  | done h =>
    refine ⟨length_lt_of_skipSpace h, ?_⟩
    have hall : slots.any (fun slot => slot.required && !seen.contains slot.name) = false := by
      simpa using hrequired
    rw [readNamed, next_close h]
    simp only [hall, Bool.false_eq_true, if_false]
  | @entry isFirst s start t rest m more hs ha _ ih =>
    rw [List.forall_mem_cons] at hfound
    rw [List.map_cons, List.nodup_cons] at hdistinct
    rw [List.map_cons, List.forall_mem_cons] at hnew
    obtain ⟨slot, hslot, hread⟩ := hfound.1
    obtain ⟨u, hk, hv⟩ := member_gives_iff.mp ha
    obtain ⟨h1, hk⟩ := key_gives_iff.mpr hk
    obtain ⟨h2, hv⟩ := hread _ _ hv
    have hseen : ¬ seen.contains m.1 = true := by simpa using hnew.1
    obtain ⟨h3, hmore⟩ := @ih (m.1 :: seen) hfound.2 hdistinct.2
      (fun name hname => by
        rw [List.mem_cons, not_or]
        exact ⟨fun he => hdistinct.1 (he ▸ hname), hnew.2 name hname⟩)
      (fun slot hs hr => by
        rw [List.mem_cons, or_assoc, or_left_comm]
        simpa using hrequired slot hs hr)
    obtain ⟨hl, hn⟩ : ∃ hl, next '}' .endInObject .expectedObjectSeparator isFirst s =
      .ok (.entry start hl) := hs.next
    refine ⟨Nat.lt_of_lt_of_le (Nat.lt_trans h3 (Nat.lt_trans h2 h1)) hl, ?_⟩
    rw [readNamed, hn]
    simp only [hk, hslot, if_neg hseen, hv, hmore]
    rfl

end Records

/-! ## Shapes -/

namespace Shape

/-- Whether a reading gives a value wherever the value can be read. -/
def Agrees (reading : Nat → Reading) (v : Json) : Prop :=
  ∀ depth s rest, Gives (value depth s) v rest → Gives (reading depth s) v rest

theorem agrees_list {item : Shape} {vs : List Json} (h : ∀ w ∈ vs, Agrees item.read w) :
    Agrees (list item).read (.arr vs) := by
  intro depth s rest hv
  rw [read]
  obtain ⟨inner, t, rfl, hs, ht⟩ := items_of_gives hv
  refine gives_within hs rfl (gives_map (items_gives_iff.mpr ?_) Json.arr)
  exact ht.imp fun w hw start behind => h w hw inner start behind

theorem agrees_table {entry : Shape} {ms : List (String × Json)}
    (h : ∀ m ∈ ms, Agrees entry.read m.2) : Agrees (table entry).read (.obj ms) := by
  intro depth s rest hv
  rw [read]
  obtain ⟨inner, t, rfl, hs, ht⟩ := members_of_gives hv
  refine gives_within hs rfl (gives_map (items_gives_iff.mpr ?_) Json.obj)
  refine ht.imp fun m hm start behind hread => ?_
  obtain ⟨u, hk, hv⟩ := member_gives_iff.mp hread
  exact member_gives_iff.mpr ⟨u, hk, h m hm inner u behind hv⟩

theorem agrees_case {names : List String} {name : String} (hn : names.contains name = true) :
    Agrees (case names).read (.str name) := by
  intro depth s rest hv
  rw [read]
  obtain ⟨t, hs⟩ := quote_of_gives hv
  rw [within_otherwise hs (by decide)]
  exact gives_readName hv hn

theorem mem_slots {fields : List (String × Shape)} {depth : Nat} {slot : Slot}
    (h : slot ∈ slots fields depth) :
    ∃ field ∈ fields, slot.name = field.1 ∧ slot.required = field.2.isRequired := by
  induction fields with
  | nil =>
    rw [slots] at h
    cases h
  | cons field fields ih =>
    rw [slots] at h
    rcases List.mem_cons.mp h with rfl | h
    · exact ⟨field, List.mem_cons_self .., rfl, rfl⟩
    · obtain ⟨found, hmem, hfound⟩ := ih h
      exact ⟨found, List.mem_cons_of_mem _ hmem, hfound⟩

theorem agrees_record {fields : List (String × Shape)} {ms : List (String × Json)}
    (hfields : ∀ m ∈ ms, ∀ depth, Found (slots fields depth) depth m)
    (hdistinct : (ms.map Prod.fst).Nodup)
    (hrequired : ∀ field ∈ fields, field.2.isRequired = true → field.1 ∈ ms.map Prod.fst) :
    Agrees (record fields).read (.obj ms) := by
  intro depth s rest hv
  rw [read]
  obtain ⟨inner, t, rfl, hs, ht⟩ := members_of_gives hv
  rw [within_otherwise hs (by decide)]
  refine gives_within hs rfl (gives_map (gives_readNamed ht (fun m hm => hfields m hm inner)
    hdistinct (by simp) fun slot hslot hr => .inr ?_) Json.obj)
  obtain ⟨field, hmem, hname, hreq⟩ := mem_slots hslot
  exact hname ▸ hrequired field hmem (hreq ▸ hr)

mutual

/-- **What fits a shape is read with the shape in hand** from every text it is read from. -/
theorem agrees_of_fits : ∀ (shape : Shape) (v : Json), Fits shape v → Agrees shape.read v
  | scalar accepts, v => by
    rintro ⟨hv, ha⟩ depth s rest h
    rw [read]
    exact gives_readScalar h hv ha
  | whole accepts, v => by
    intro ha depth s rest h
    rw [read]
    exact gives_judge h ha
  | optional shape, v => by
    intro hv depth s rest h
    rw [read]
    simp only
    split
    · next hhead =>
      -- the first letter alone makes the reader expect `null`, and nothing else begins with it
      obtain rfl := (head_eq_iff_null h).mp hhead
      exact gives_readScalar h rfl rfl
    · next hhead =>
      have hne : v ≠ .null := fun he => hhead ((head_eq_iff_null h).mpr he)
      exact agrees_of_fits shape v (hv.resolve_left hne) depth s rest h
  | defaulted shape, v => by
    intro hv depth s rest h
    rw [read]
    exact agrees_of_fits shape v hv depth s rest h
  | list item, v => by
    rintro ⟨vs, rfl, hitems⟩
    exact agrees_list fun w hw => agrees_of_fits item w (hitems w hw)
  | table entry, v => by
    rintro ⟨ms, rfl, hentries⟩
    exact agrees_table fun m hm => agrees_of_fits entry m.2 (hentries m hm)
  | case names, v => by
    rintro ⟨name, rfl, hname⟩
    exact agrees_case hname
  | record fields, v => by
    rintro ⟨ms, rfl, hdistinct, hfields, hrequired⟩
    exact agrees_record (fun m hm => found_of_fitsField fields m (hfields m hm)) hdistinct hrequired

theorem found_of_fitsField : ∀ (fields : List (String × Shape)) (m : String × Json),
    FitsField fields m → ∀ depth, Found (slots fields depth) depth m
  | [], m => fun h => h.elim
  | (name, shape) :: fields, m => by
    intro h depth
    rw [slots]
    -- slots stand in the order of the fields, so both name the same field first
    by_cases hname : name = m.1
    · have hfits : Fits shape m.2 := (if_pos hname).mp h
      refine ⟨_, List.find?_cons_of_pos (by simpa using hname), fun s rest => ?_⟩
      exact agrees_of_fits shape m.2 hfits depth s rest
    · have hfits : FitsField fields m := (if_neg hname).mp h
      obtain ⟨slot, hslot, hread⟩ := found_of_fitsField fields m hfits depth
      exact ⟨slot, (List.find?_cons_of_neg (by simpa using hname)).trans hslot, hread⟩

end

/-! ## Loading -/

/-- **What fits a shape is loaded in that shape** from every text that holds it. -/
theorem load_of_read {α : Type} {shape : Shape} {decode : Json → Option α} {a : α} {v : Json}
    {source : String} (hfits : Fits shape v) (h : Json.read source = .ok v)
    (hv : decode v = some a) : shape.load decode source = .ok a := by
  obtain ⟨rest, hf, hrest⟩ := read_eq_ok_iff_front.mp h
  obtain ⟨hl, hread⟩ := agrees_of_fits shape v hfits _ _ _ (front_eq_ok_iff.mp hf)
  simp only [load, hread, hv, hrest]
  rfl

end Shape

/-- A text that is read in full before it is judged is accepted if what it holds is. -/
theorem load_eq_ok_iff {α : Type} {decode : Json → Option α} {source : String} {a : α} :
    load decode source = .ok a ↔ ∃ v, Json.read source = .ok v ∧ decode v = some a := by
  unfold load
  cases Json.read source with
  | error f => simp
  | ok v => cases h : decode v <;> simp [h]

/-! ## Written values -/

/-- Whether a value is written in a shape, its numbers being integers of sixty-four bits, and
at most so many of its lists and objects standing in one another. -/
structure WrittenIn (levels : Nat) (shape : Shape) (v : Json) : Prop where
  fits : shape.Fits v
  exact : Exact v
  nesting_le : nesting v ≤ levels

namespace WrittenIn
variable {levels : Nat} {shape : Shape} {v : Json}

theorem text {content : String} : WrittenIn levels .text (.str content) :=
  ⟨⟨rfl, rfl⟩, trivial, Nat.zero_le _⟩

theorem case {names : List String} {name : String} (h : names.contains name = true) :
    WrittenIn levels (.case names) (.str name) :=
  ⟨⟨name, rfl, h⟩, trivial, Nat.zero_le _⟩

theorem list {vs : List Json} (h : ∀ w ∈ vs, WrittenIn levels shape w) :
    WrittenIn (levels + 1) (.list shape) (.arr vs) where
  fits := ⟨vs, rfl, fun w hw => (h w hw).fits⟩
  exact := exactItems_iff.mpr fun w hw => (h w hw).exact
  nesting_le := Nat.succ_le_succ (nestingOfItems_le_iff.mpr fun w hw => (h w hw).nesting_le)

theorem record {fields : List (String × Shape)} {table : List (String × Option Json)}
    (h : List.Forall₂ (Fills (WrittenIn levels)) fields table) (hk : (fields.map Prod.fst).Nodup) :
    WrittenIn (levels + 1) (.record fields) (.obj (presentMembers table)) where
  fits := by
    refine Shape.fits_record (h.imp fun field entry hfield => ?_) hk
    exact ⟨hfield.1, fun v hv => (hfield.2.1 v hv).fits, hfield.2.2⟩
  exact := by
    refine exactMembers_iff.mpr (forall_mem_presentMembers.mpr fun entry hentry v hv => ?_)
    obtain ⟨_, hright⟩ := exists_shape_of_fills h entry hentry v hv
    exact hright.exact
  nesting_le := by
    refine Nat.succ_le_succ (nestingOfMembers_present_le_iff.mpr fun entry hentry v hv => ?_)
    obtain ⟨_, hright⟩ := exists_shape_of_fills h entry hentry v hv
    exact hright.nesting_le

/-- **What is written in a shape is loaded in it**, from either text that is written for it. -/
theorem load {α : Type} {decode : Json → Option α} {a : α} {source : String}
    (h : WrittenIn nestingLimit shape v) (hv : decode v = some a) (hw : Written v source) :
    shape.load decode source = .ok a :=
  Shape.load_of_read h.fits ((hw.read h.exact).1 h.nesting_le) hv

end WrittenIn

end PageDesign.Json

import PageDesign.Json.Reader

/-! # What a reading of a value comes to

A reader of JSON gives what it has read and what is left of the text, or a fault.  What the
readers can give is listed here once: of the entries between two brackets (`EntriesRead`),
of the key of a member (`KeyRead`) and of a value (`ValueRead`).  Each list is complete in
both directions, so it stands for its reader wherever readings are compared or taken apart.

Only what stands behind the leading separators decides about a reading, and its first
character says which case it is.
-/
namespace PageDesign.Json
open Text

variable {α β : Type} {s t rest : List Char}

/-- A reading gives `a` and leaves `rest`. -/
def Gives (out : Except Fault (Taken α s)) (a : α) (rest : List Char) : Prop :=
  ∃ h, out = .ok ⟨(a, rest), h⟩

theorem gives_ok (u : Taken α s) : Gives (.ok u) u.1.1 u.1.2 := ⟨u.2, rfl⟩

theorem not_gives_error {f : Fault} {a : α} : ¬ Gives (s := s) (.error f) a rest :=
  fun ⟨_, h⟩ => nomatch h

/-- A reading behind the front of a text, as a reading of that text. -/
theorem gives_behind {out : Except Fault (Taken α t)} (hl : t.length < s.length) (f : α → β)
    {b : β} :
    Gives (out.map fun u => (u.map f).behind hl) b rest ↔ ∃ a, b = f a ∧ Gives out a rest := by
  constructor
  · rintro ⟨h, he⟩
    cases out with
    | error e => cases he
    | ok u =>
      cases he
      exact ⟨_, rfl, gives_ok u⟩
  · rintro ⟨a, rfl, h, rfl⟩
    exact ⟨Nat.lt_trans h hl, rfl⟩

/-! ## Entries between brackets -/

/-- Where an entry begins, if it is the first one or not: at the front, or behind a comma. -/
inductive EntryAt (close : Char) (s : List Char) : Bool → List Char → Prop
  | first {c : Char} {rest : List Char} (h : skipSpace s = c :: rest) (hc : c ≠ close) :
      EntryAt close s true s
  | comma {start : List Char} (h : skipSpace s = ',' :: start) (hc : ',' ≠ close)
      (hn : (skipSpace start).head? ≠ some close) : EntryAt close s false start

/-- What entries are read from a text up to the bracket that ends them, and what it leaves;
a single entry is read as `reads` says. -/
inductive EntriesRead (close : Char) (reads : List Char → α → List Char → Prop) :
    Bool → List Char → List α → List Char → Prop
  | done {isFirst : Bool} {s rest : List Char} (h : skipSpace s = close :: rest) :
      EntriesRead close reads isFirst s [] rest
  | entry {isFirst : Bool} {s start t rest : List Char} {a : α} {more : List α}
      (hs : EntryAt close s isFirst start) (ha : reads start a t)
      (hm : EntriesRead close reads false t more rest) :
      EntriesRead close reads isFirst s (a :: more) rest

section Next
variable {close : Char} {atEnd separator : Cause} {isFirst : Bool} {start : List Char}

theorem next_close (h : skipSpace s = close :: rest) (isFirst : Bool) :
    next close atEnd separator isFirst s = .ok (.done rest (length_lt_of_skipSpace h)) := by
  unfold next
  split
  · next hs => rw [h] at hs; cases hs
  · next c t hs =>
    obtain ⟨rfl, rfl⟩ := List.cons.inj (hs.symm.trans h)
    exact if_pos rfl

theorem EntryAt.next (h : EntryAt close s isFirst start) :
    ∃ hl, Json.next close atEnd separator isFirst s = .ok (.entry start hl) := by
  cases h with
  | first h hc =>
    refine ⟨Nat.le_refl _, ?_⟩
    unfold Json.next
    split
    · next hs => rw [h] at hs; cases hs
    · next d t hs =>
      obtain ⟨rfl, rfl⟩ := List.cons.inj (hs.symm.trans h)
      exact if_neg hc
  | comma h hc hn =>
    refine ⟨Nat.le_of_lt (length_lt_of_skipSpace h), ?_⟩
    unfold Json.next
    split
    · next hs => rw [h] at hs; cases hs
    · next d t hs =>
      obtain ⟨rfl, rfl⟩ := List.cons.inj (hs.symm.trans h)
      simp only [if_neg hc, Bool.false_eq_true, if_false, if_true, if_neg hn]

theorem done_of_next {hl : rest.length < s.length}
    (h : next close atEnd separator isFirst s = .ok (.done rest hl)) :
    skipSpace s = close :: rest := by
  unfold next at h
  split at h
  · cases h
  · next c t hs =>
    by_cases hc : c = close
    · subst c
      rw [if_pos rfl] at h
      cases h
      exact hs
    · simp only [if_neg hc] at h
      split at h
      · cases h
      · split at h
        · split at h <;> cases h
        · cases h

theorem entryAt_of_next {hl : start.length ≤ s.length}
    (h : next close atEnd separator isFirst s = .ok (.entry start hl)) :
    EntryAt close s isFirst start := by
  unfold next at h
  split at h
  · cases h
  · next c t hs =>
    by_cases hc : c = close
    · simp only [if_pos hc] at h
      cases h
    · simp only [if_neg hc] at h
      split at h
      · next hf =>
        cases h
        obtain rfl : isFirst = true := hf
        exact .first hs hc
      · next hf =>
        obtain rfl : isFirst = false := by simpa using hf
        split at h
        · next hcomma =>
          subst c
          split at h
          · cases h
          · next hn =>
            cases h
            exact .comma hs hc hn
        · cases h

end Next

section Items
variable {close : Char} {atEnd separator : Cause} {isFirst : Bool}
variable {item : (s : List Char) → Except Fault (Taken α s)} {xs : List α}

theorem items_of_entriesRead
    (h : EntriesRead close (fun s a rest => Gives (item s) a rest) isFirst s xs rest) :
    Gives (items close atEnd separator item isFirst s) xs rest := by
  induction h with
  | done h =>
    refine ⟨length_lt_of_skipSpace h, ?_⟩
    rw [items, next_close h]
  | entry hs ha _ ih =>
    obtain ⟨hl, hn⟩ : ∃ hl, next close atEnd separator _ _ = .ok (.entry _ hl) := hs.next
    obtain ⟨h1, ha⟩ := ha
    obtain ⟨h2, hm⟩ := ih
    refine ⟨Nat.lt_of_lt_of_le (Nat.lt_trans h2 h1) hl, ?_⟩
    rw [items, hn]
    simp only [ha, hm]

theorem entriesRead_of_items (h : Gives (items close atEnd separator item isFirst s) xs rest) :
    EntriesRead close (fun s a rest => Gives (item s) a rest) isFirst s xs rest := by
  induction hn : s.length using Nat.strongRecOn generalizing s isFirst xs with
  | ind n ih =>
    obtain ⟨hl, h⟩ := h
    rw [items] at h
    split at h
    · cases h
    · next hd =>
      cases h
      exact .done (done_of_next hd)
    · next start hs he =>
      split at h
      · cases h
      · next first t h1 hitem =>
        split at h
        · cases h
        · next more rest' h2 hmore =>
          cases h
          have hlt : t.length < s.length := Nat.lt_of_lt_of_le h1 hs
          exact .entry (entryAt_of_next he) ⟨h1, hitem⟩
            (ih t.length (hn ▸ hlt) ⟨h2, hmore⟩ rfl)

/-- **Entries are read one after another**, and in no other way. -/
theorem items_gives_iff : Gives (items close atEnd separator item isFirst s) xs rest ↔
    EntriesRead close (fun s a rest => Gives (item s) a rest) isFirst s xs rest :=
  ⟨entriesRead_of_items, items_of_entriesRead⟩

end Items

namespace EntriesRead
variable {close : Char} {isFirst : Bool} {xs : List α}
variable {reads reads' : List Char → α → List Char → Prop}

/-- Entries that are read in one way are read in another if each of them is. -/
theorem imp (h : EntriesRead close reads isFirst s xs rest)
    (himp : ∀ a ∈ xs, ∀ s rest, reads s a rest → reads' s a rest) :
    EntriesRead close reads' isFirst s xs rest := by
  induction h with
  | done h => exact .done h
  | entry hs ha _ ih =>
    rw [List.forall_mem_cons] at himp
    exact .entry hs (himp.1 _ _ ha) (ih himp.2)

/-- What holds of all that an entry can be read as holds of each entry that is read. -/
theorem forall_mem {p : α → Prop} (h : EntriesRead close reads isFirst s xs rest)
    (hp : ∀ s a rest, reads s a rest → p a) : ∀ a ∈ xs, p a := by
  induction h with
  | done => simp
  | entry _ ha _ ih => exact List.forall_mem_cons.mpr ⟨hp _ _ _ ha, ih⟩

end EntriesRead

/-! ## Keys -/

/-- The key that is read from the front of a text, and what follows its colon. -/
inductive KeyRead (s : List Char) : String → List Char → Prop
  | mk {t name mid rest : List Char} (hs : skipSpace s = '"' :: t)
      (hn : string t = .ok (name, mid)) (hc : skipSpace mid = ':' :: rest) :
      KeyRead s (String.ofList name) rest

theorem mark_eq_ok_iff {c : Char} {atEnd otherwise : Cause} {left : Left s} :
    mark c atEnd otherwise s = .ok left ↔ skipSpace s = c :: left.1 := by
  unfold mark
  split
  · next hs => simp [hs]
  · next d t hs =>
    by_cases hd : d = c
    · simp [hs, hd, Subtype.ext_iff]
    · simp [hs, hd]

theorem key_gives_iff {name : String} : Gives (key s) name rest ↔ KeyRead s name rest := by
  constructor
  · rintro ⟨hl, h⟩
    unfold key at h
    split at h
    · cases h
    · next t hs =>
      split at h
      · cases h
      · next raw mid hk =>
        split at h
        · cases h
        · next behind h1 hm =>
          cases h
          exact .mk hs hk (mark_eq_ok_iff.mp hm)
    · cases h
  · rintro ⟨hs, hn, hc⟩
    next t raw mid =>
    have h1 := length_lt_of_skipSpace hc
    have hm : mark ':' .endInObject .expectedColon mid = .ok ⟨rest, h1⟩ := mark_eq_ok_iff.mpr hc
    refine ⟨Nat.lt_trans h1 (Nat.lt_trans (length_lt_of_string hn) (length_lt_of_skipSpace hs)), ?_⟩
    unfold key
    split
    · next hs' => rw [hs] at hs'; cases hs'
    · next t' hs' =>
      obtain ⟨-, rfl⟩ := List.cons.inj (hs'.symm.trans hs)
      split
      · next hk => rw [hn] at hk; cases hk
      · next raw' mid' hk =>
        rw [hn] at hk
        obtain ⟨rfl, rfl⟩ := Prod.mk.inj (Except.ok.inj hk)
        simp only [hm]
    · next hne => exact (hne t hs).elim

section Member
variable {item : (s : List Char) → Except Fault (Taken α s)}

theorem member_eq {name : String} {hl : t.length < s.length}
    (h : key s = .ok ⟨(name, t), hl⟩) :
    member item s = (item t).map fun u => (u.map (name, ·)).behind hl := by
  unfold member
  rw [h]
  simp only
  cases item t <;> rfl

theorem member_gives_iff {m : String × α} :
    Gives (member item s) m rest ↔ ∃ t, KeyRead s m.1 t ∧ Gives (item t) m.2 rest := by
  constructor
  · intro h
    cases hk : key s with
    | error f =>
      unfold member at h
      rw [hk] at h
      exact (not_gives_error h).elim
    | ok u =>
      obtain ⟨⟨name, t⟩, hl⟩ := u
      rw [member_eq hk] at h
      obtain ⟨a, rfl, ha⟩ := (gives_behind hl _).mp h
      exact ⟨t, key_gives_iff.mp ⟨hl, hk⟩, ha⟩
  · rintro ⟨t, hk, ha⟩
    obtain ⟨hl, hk⟩ := key_gives_iff.mpr hk
    rw [member_eq hk]
    exact (gives_behind hl _).mpr ⟨m.2, rfl, ha⟩

end Member

/-! ## Values -/

/-- The words of JSON, each with its first letter apart. -/
def words : List (Char × List Char × Json) :=
  [('n', ['u', 'l', 'l'], .null), ('t', ['r', 'u', 'e'], .bool true),
    ('f', ['a', 'l', 's', 'e'], .bool false)]

theorem exists_word_iff {c : Char} :
    (∃ w v, (c, w, v) ∈ words) ↔ c = 'n' ∨ c = 't' ∨ c = 'f' := by
  simp [words, exists_or]

/-- The value that is read from the front of a text, lists and objects at most `depth` deep,
and what follows it. -/
inductive ValueRead (depth : Nat) (s : List Char) : Json → List Char → Prop
  | word {c : Char} {w rest : List Char} {v : Json} (hw : (c, w, v) ∈ words)
      (hs : skipSpace s = c :: (w ++ rest)) : ValueRead depth s v rest
  | str {t text rest : List Char} (hs : skipSpace s = '"' :: t)
      (ht : string t = .ok (text, rest)) : ValueRead depth s (.str (String.ofList text)) rest
  | number {c : Char} {t rest : List Char} {n : Number} (hs : skipSpace s = c :: t)
      (hc : c = '-' ∨ c.isDigit = true) (hn : numeral (c :: t) = .ok (n, rest)) :
      ValueRead depth s (.number n) rest
  | list {inner : Nat} {t rest : List Char} {vs : List Json} (hd : depth = inner + 1)
      (hs : skipSpace s = '[' :: t)
      (ht : EntriesRead ']' (fun s v rest => Gives (value inner s) v rest) true t vs rest) :
      ValueRead depth s (.arr vs) rest
  | object {inner : Nat} {t rest : List Char} {ms : List (String × Json)} (hd : depth = inner + 1)
      (hs : skipSpace s = '{' :: t)
      (ht : EntriesRead '}' (fun s m rest => Gives (member (value inner) s) m rest) true t ms
        rest) : ValueRead depth s (.obj ms) rest

/-- The words stand for `null` and for truth values. -/
theorem value_of_mem_words {c : Char} {w : List Char} {v : Json} (hw : (c, w, v) ∈ words) :
    v = .null ∨ ∃ on, v = .bool on := by
  simp only [words, List.mem_cons, Prod.mk.injEq, List.not_mem_nil, or_false] at hw
  rcases hw with ⟨-, -, rfl⟩ | ⟨-, -, rfl⟩ | ⟨-, -, rfl⟩
  · exact .inl rfl
  · exact .inr ⟨true, rfl⟩
  · exact .inr ⟨false, rfl⟩

theorem word_eq_ok_iff {w : List Char} : word w s = .ok rest ↔ s = w ++ rest := by
  induction w generalizing s with
  | nil => simp [word]
  | cons a w ih =>
    cases s with
    | nil => simp [word]
    | cons c s =>
      by_cases h : a = c
      · simp [word, h, ih]
      · simp [word, h, Ne.symm h]

theorem keyword_gives_iff {w : List Char} {v u : Json} {hb : t.length < s.length} :
    Gives (keyword hb w v) u rest ↔ u = v ∧ t = w ++ rest := by
  unfold keyword
  split
  · next f hf =>
    refine iff_of_false not_gives_error ?_
    rintro ⟨-, ht⟩
    rw [word_eq_ok_iff.mpr ht] at hf
    cases hf
  · next left hl =>
    rw [word_eq_ok_iff] at hl
    constructor
    · rintro ⟨_, h⟩
      cases h
      exact ⟨rfl, hl⟩
    · rintro ⟨rfl, ht⟩
      obtain rfl := List.append_cancel_left (hl.symm.trans ht)
      exact gives_ok _

section Value
variable {depth : Nat}

theorem value_word {c : Char} {w : List Char} {v : Json} (hw : (c, w, v) ∈ words)
    (h : skipSpace s = c :: t) : value depth s = keyword (length_lt_of_skipSpace h) w v := by
  unfold value
  split
  · next hs => rw [h] at hs; cases hs
  · next d u hs =>
    obtain ⟨rfl, rfl⟩ := List.cons.inj (hs.symm.trans h)
    simp only [words, List.mem_cons, Prod.mk.injEq, List.not_mem_nil, or_false] at hw
    rcases hw with ⟨rfl, rfl, rfl⟩ | ⟨rfl, rfl, rfl⟩ | ⟨rfl, rfl, rfl⟩ <;>
      simp only [Char.reduceEq, if_true, if_false]

theorem value_str {text : List Char} (h : skipSpace s = '"' :: t)
    (ht : string t = .ok (text, rest)) :
    Gives (value depth s) (.str (String.ofList text)) rest := by
  refine ⟨Nat.lt_trans (length_lt_of_string ht) (length_lt_of_skipSpace h), ?_⟩
  unfold value
  split
  · next hs => rw [h] at hs; cases hs
  · next c u hs =>
    obtain ⟨rfl, rfl⟩ := List.cons.inj (hs.symm.trans h)
    simp only [Char.reduceEq, if_false, if_true]
    split
    · next hq => rw [ht] at hq; cases hq
    · next hq =>
      rw [ht] at hq
      obtain ⟨rfl, rfl⟩ := Prod.mk.inj (Except.ok.inj hq)
      rfl

theorem value_number {c : Char} {n : Number} (h : skipSpace s = c :: t)
    (hc : c = '-' ∨ c.isDigit = true) (hn : numeral (c :: t) = .ok (n, rest)) :
    Gives (value depth s) (.number n) rest := by
  have hl := length_lt_of_numeral (by simpa using hc) (by simp) hn
  refine ⟨Nat.lt_of_lt_of_le hl (length_lt_of_skipSpace h), ?_⟩
  have hne : ∀ d, d.isDigit = false → d ≠ '-' → c ≠ d := by
    rintro d hd hm rfl
    rcases hc with rfl | hc
    · exact hm rfl
    · rw [hd] at hc
      cases hc
  unfold value
  split
  · next hs => rw [h] at hs; cases hs
  · next d u hs =>
    obtain ⟨rfl, rfl⟩ := List.cons.inj (hs.symm.trans h)
    -- what begins as a number begins neither as a word nor as a string
    simp only [if_neg (hne 'n' (by decide) (by decide)), if_neg (hne 't' (by decide) (by decide)),
      if_neg (hne 'f' (by decide) (by decide)), if_neg (hne '"' (by decide) (by decide)),
      dif_pos hc]
    split
    · next hq => rw [hn] at hq; cases hq
    · next hq =>
      rw [hn] at hq
      obtain ⟨rfl, rfl⟩ := Prod.mk.inj (Except.ok.inj hq)
      rfl

/-- A list uses up one level. -/
theorem value_list (h : skipSpace s = '[' :: t) : value depth s =
    match depth with
    | 0 => .error (.inside .tooDeep ('[' :: t))
    | inner + 1 => (items ']' .endInList .expectedListSeparator (value inner) true t).map
        fun u => (u.map .arr).behind (length_lt_of_skipSpace h) := by
  have hn : ¬ (False ∨ '['.isDigit = true) := by decide
  unfold value
  split
  · next hs => rw [h] at hs; cases hs
  · next c u hs =>
    obtain ⟨rfl, rfl⟩ := List.cons.inj (hs.symm.trans h)
    simp only [Char.reduceEq, if_false, if_true, dif_neg hn]
    cases depth with
    | zero => rfl
    | succ inner =>
      simp only
      cases items ']' .endInList .expectedListSeparator (value inner) true u <;> rfl

/-- An object uses up one level. -/
theorem value_object (h : skipSpace s = '{' :: t) : value depth s =
    match depth with
    | 0 => .error (.inside .tooDeep ('{' :: t))
    | inner + 1 => (items '}' .endInObject .expectedObjectSeparator (member (value inner)) true
        t).map fun u => (u.map .obj).behind (length_lt_of_skipSpace h) := by
  have hn : ¬ (False ∨ '{'.isDigit = true) := by decide
  unfold value
  split
  · next hs => rw [h] at hs; cases hs
  · next c u hs =>
    obtain ⟨rfl, rfl⟩ := List.cons.inj (hs.symm.trans h)
    simp only [Char.reduceEq, if_false, if_true, dif_neg hn]
    cases depth with
    | zero => rfl
    | succ inner =>
      simp only
      cases items '}' .endInObject .expectedObjectSeparator (member (value inner)) true u <;> rfl

theorem valueRead_of_value {v : Json} (h : Gives (value depth s) v rest) :
    ValueRead depth s v rest := by
  cases hs : skipSpace s with
  | nil =>
    obtain ⟨hl, h⟩ := h
    unfold value at h
    split at h
    · cases h
    · next hs' => rw [hs] at hs'; cases hs'
  | cons c t =>
    -- the cases are those of the first character
    by_cases hword : ∃ w v, (c, w, v) ∈ words
    · obtain ⟨w, u, hw⟩ := hword
      rw [value_word hw hs] at h
      obtain ⟨rfl, rfl⟩ := keyword_gives_iff.mp h
      exact .word hw hs
    by_cases hlist : c = '['
    · subst c
      rw [value_list hs] at h
      cases depth with
      | zero => exact (not_gives_error h).elim
      | succ inner =>
        obtain ⟨vs, rfl, hvs⟩ := (gives_behind _ _).mp h
        exact .list rfl hs (items_gives_iff.mp hvs)
    by_cases hobject : c = '{'
    · subst c
      rw [value_object hs] at h
      cases depth with
      | zero => exact (not_gives_error h).elim
      | succ inner =>
        obtain ⟨ms, rfl, hms⟩ := (gives_behind _ _).mp h
        exact .object rfl hs (items_gives_iff.mp hms)
    rw [exists_word_iff, not_or, not_or] at hword
    obtain ⟨hnull, htrue, hfalse⟩ := hword
    obtain ⟨hl, h⟩ := h
    unfold value at h
    split at h
    · cases h
    · next d u hs' =>
      obtain ⟨rfl, rfl⟩ := List.cons.inj (hs'.symm.trans hs)
      simp only [if_neg hnull, if_neg htrue, if_neg hfalse, if_neg hlist, if_neg hobject] at h
      split at h
      · next hquote =>
        subst hquote
        split at h
        · cases h
        · next ht =>
          cases h
          exact .str hs ht
      · split at h
        · next hc =>
          split at h
          · cases h
          · next hn =>
            cases h
            exact .number hs hc hn
        · cases h

theorem value_of_valueRead {v : Json} (h : ValueRead depth s v rest) :
    Gives (value depth s) v rest := by
  cases h with
  | word hw hs =>
    rw [value_word hw hs]
    exact keyword_gives_iff.mpr ⟨rfl, rfl⟩
  | str hs ht => exact value_str hs ht
  | number hs hc hn => exact value_number hs hc hn
  | list hd hs ht =>
    subst hd
    rw [value_list hs]
    exact (gives_behind _ _).mpr ⟨_, rfl, items_gives_iff.mpr ht⟩
  | object hd hs ht =>
    subst hd
    rw [value_object hs]
    exact (gives_behind _ _).mpr ⟨_, rfl, items_gives_iff.mpr ht⟩

/-- **A value is read in one of five ways**, and whatever can be read in one of them is. -/
theorem value_gives_iff {v : Json} : Gives (value depth s) v rest ↔ ValueRead depth s v rest :=
  ⟨valueRead_of_value, value_of_valueRead⟩

/-- A string is read from a text that begins with a quotation mark. -/
theorem quote_of_gives {name : String} (h : Gives (value depth s) (.str name) rest) :
    ∃ t, skipSpace s = '"' :: t := by
  cases value_gives_iff.mp h with
  | word hw => rcases value_of_mem_words hw with he | ⟨_, he⟩ <;> cases he
  | str hs => exact ⟨_, hs⟩

/-- A list is read from behind its bracket, one level further down. -/
theorem items_of_gives {vs : List Json} (h : Gives (value depth s) (.arr vs) rest) :
    ∃ inner t, depth = inner + 1 ∧ skipSpace s = '[' :: t ∧
      EntriesRead ']' (fun s v rest => Gives (value inner s) v rest) true t vs rest := by
  cases value_gives_iff.mp h with
  | word hw => rcases value_of_mem_words hw with he | ⟨_, he⟩ <;> cases he
  | list hd hs ht => exact ⟨_, _, hd, hs, ht⟩

/-- An object is read from behind its brace, one level further down. -/
theorem members_of_gives {ms : List (String × Json)} (h : Gives (value depth s) (.obj ms) rest) :
    ∃ inner t, depth = inner + 1 ∧ skipSpace s = '{' :: t ∧
      EntriesRead '}' (fun s m rest => Gives (member (value inner) s) m rest) true t ms rest := by
  cases value_gives_iff.mp h with
  | word hw => rcases value_of_mem_words hw with he | ⟨_, he⟩ <;> cases he
  | object hd hs ht => exact ⟨_, _, hd, hs, ht⟩

end Value

/-! ## Texts -/

theorem front_eq_ok_iff {source : String} {v : Json} {rest : List Char} :
    front source = .ok (v, rest) ↔ Gives (value nestingLimit source.toList) v rest := by
  unfold front
  cases h : value nestingLimit source.toList with
  | error f => exact iff_of_false (fun h => nomatch h) not_gives_error
  | ok u =>
    simp only [Except.ok.injEq]
    constructor
    · intro he
      have hu := gives_ok u
      rwa [he] at hu
    · rintro ⟨hl, he⟩
      rw [Except.ok.inj he]

theorem read_eq_ok_iff_front {source : String} {v : Json} :
    read source = .ok v ↔ ∃ rest, front source = .ok (v, rest) ∧ finished rest = .ok () := by
  unfold read
  constructor
  · intro h
    split at h
    · cases h
    · next w rest hf =>
      split at h
      · cases h
      · next hrest =>
        cases h
        exact ⟨rest, hf, hrest⟩
  · rintro ⟨rest, hf, hrest⟩
    simp only [hf, hrest]

end PageDesign.Json

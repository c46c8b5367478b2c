import PageDesign.Proofs.Json.Nesting
import PageDesign.Proofs.Json.Numeral
import PageDesign.Proofs.Json.Quoted
import PageDesign.Proofs.Text.Trim

/-! # The texts of a value

A value has many texts: separators may stand around every entry of a list or an object and
around every colon, a string may be written with any escapes, and a number in any way that is
read as the same number.  `Spelled` says which texts these are.

Every text that a value is read from is one of them (`spelled_of_value`).  In turn each of
them is read back from wherever it stands, behind any separators and before anything that
cannot extend a number, unless the value is nested deeper than the reader allows; then the
reading stops at the first bracket that is one too many (`readsBack_of_spelled`).  `ReadBack`
says this of the reading of an entry of a list or an object as well, so one argument about
lists of entries (`items_spelled`) serves both.

So the texts that are accepted are known (`read_eq_ok_iff`).
-/
namespace PageDesign.Json
open Text

variable {α β : Type}

/-! ## Spelling -/

/-- The text of some entries, with commas between them and separators around each. -/
inductive EntriesSpelled (spells : α → List Char → Prop) : List α → List Char → Prop
  | none {gap : List Char} (hg : Spaces gap) : EntriesSpelled spells [] gap
  | last {a : α} {before t behind : List Char} (hb : Spaces before) (ht : spells a t)
      (he : Spaces behind) : EntriesSpelled spells [a] (before ++ (t ++ behind))
  | cons {a b : α} {more : List α} {before t behind s : List Char} (hb : Spaces before)
      (ht : spells a t) (he : Spaces behind) (hm : EntriesSpelled spells (b :: more) s) :
      EntriesSpelled spells (a :: b :: more) (before ++ (t ++ (behind ++ ',' :: s)))

mutual

/-- The texts of a value, without separators at their ends. -/
inductive Spelled : Json → List Char → Prop
  | word {c : Char} {w : List Char} {v : Json} (hw : (c, w, v) ∈ words) : Spelled v (c :: w)
  | str {text raw : List Char} (h : StringSpelled text raw) :
      Spelled (.str (String.ofList text)) ('"' :: raw)
  | number {n : Number} {t : List Char} (h : NumberSpelled n t) : Spelled (.number n) t
  | list {vs : List Json} {inner : List Char} (h : EntriesSpelled Spelled vs inner) :
      Spelled (.arr vs) ('[' :: (inner ++ [']']))
  | object {ms : List (String × Json)} {inner : List Char}
      (h : EntriesSpelled MemberSpelled ms inner) : Spelled (.obj ms) ('{' :: (inner ++ ['}']))

/-- The texts of a member of an object. -/
inductive MemberSpelled : String × Json → List Char → Prop
  | mk {name raw before behind t : List Char} {v : Json} (hn : StringSpelled name raw)
      (hb : Spaces before) (he : Spaces behind) (hv : Spelled v t) :
      MemberSpelled (String.ofList name, v) ('"' :: (raw ++ (before ++ ':' :: (behind ++ t))))

end

/-! ## Whatever is read is spelled -/

theorem gap_of_skipSpace {c : Char} {s rest : List Char} (h : skipSpace s = c :: rest) :
    ∃ gap, Spaces gap ∧ s = gap ++ c :: rest := by
  rw [← h]
  exact exists_gap s

section Entries
variable {close : Char} {spells : α → List Char → Prop}
variable {reads : List Char → α → List Char → Prop}

/-- What stands behind an entry up to the end of the entries: the others, behind a comma. -/
inductive Behind (spells : α → List Char → Prop) (close : Char) (rest : List Char) :
    List α → List Char → Prop
  | none {gap : List Char} (hg : Spaces gap) : Behind spells close rest [] (gap ++ close :: rest)
  | more {b : α} {more : List α} {gap s : List Char} (hg : Spaces gap)
      (hm : EntriesSpelled spells (b :: more) s) :
      Behind spells close rest (b :: more) (gap ++ ',' :: (s ++ close :: rest))

theorem Behind.entry {a : α} {more : List α} {before t s rest : List Char}
    (h : Behind spells close rest more s) (hb : Spaces before) (ht : spells a t) :
    ∃ inner, before ++ (t ++ s) = inner ++ close :: rest ∧
      EntriesSpelled spells (a :: more) inner := by
  cases h with
  | none hg => exact ⟨_, by simp, .last hb ht hg⟩
  | more hg hm => exact ⟨_, by simp, .cons hb ht hg hm⟩

variable (hreads : ∀ s a rest, reads s a rest →
  ∃ gap t, Spaces gap ∧ s = gap ++ (t ++ rest) ∧ spells a t)
include hreads

theorem behind_of_entriesRead {isFirst : Bool} {s rest : List Char} {xs : List α}
    (h : EntriesRead close reads isFirst s xs rest) (hf : isFirst = false) :
    Behind spells close rest xs s := by
  induction h with
  | done h =>
    obtain ⟨gap, hg, rfl⟩ := gap_of_skipSpace h
    exact .none hg
  | entry hs ha _ ih =>
    cases hs with
    | first => cases hf
    | comma h =>
      obtain ⟨gap, hg, rfl⟩ := gap_of_skipSpace h
      obtain ⟨before, t, hb, rfl, ht⟩ := hreads _ _ _ ha
      obtain ⟨inner, hinner, hspelled⟩ := (ih rfl).entry hb ht
      rw [hinner]
      exact .more hg hspelled

/-- Entries that were read are spelled up to the bracket that ends them. -/
theorem entriesSpelled_of_read {s rest : List Char} {xs : List α}
    (h : EntriesRead close reads true s xs rest) :
    ∃ inner, s = inner ++ close :: rest ∧ EntriesSpelled spells xs inner := by
  cases h with
  | done h =>
    obtain ⟨gap, hg, rfl⟩ := gap_of_skipSpace h
    exact ⟨gap, rfl, .none hg⟩
  | entry hs ha hm =>
    cases hs with
    | first =>
      obtain ⟨before, t, hb, rfl, ht⟩ := hreads _ _ _ ha
      exact (behind_of_entriesRead hreads hm rfl).entry hb ht

end Entries

/-- **Whatever a value is read from is a text of it**, behind a gap. -/
theorem spelled_of_value {depth : Nat} {s rest : List Char} {v : Json}
    (h : Gives (value depth s) v rest) :
    ∃ gap t, Spaces gap ∧ s = gap ++ (t ++ rest) ∧ Spelled v t := by
  induction depth using Nat.strongRecOn generalizing s v rest with
  | ind depth ih =>
    cases value_gives_iff.mp h with
    | word hw hs =>
      obtain ⟨gap, hg, rfl⟩ := gap_of_skipSpace hs
      exact ⟨gap, _, hg, rfl, .word hw⟩
    | str hs ht =>
      obtain ⟨gap, hg, rfl⟩ := gap_of_skipSpace hs
      obtain ⟨raw, rfl, hraw⟩ := stringSpelled_of_string ht
      exact ⟨gap, _, hg, rfl, .str hraw⟩
    | number hs hc hn =>
      obtain ⟨gap, hg, rfl⟩ := gap_of_skipSpace hs
      obtain ⟨t, ht, hspelled⟩ := numberSpelled_of_numeral hc hn
      exact ⟨gap, t, hg, by rw [ht], .number hspelled⟩
    | list hd hs ht =>
      obtain ⟨gap, hg, rfl⟩ := gap_of_skipSpace hs
      obtain ⟨inner, rfl, hinner⟩ := entriesSpelled_of_read
        (fun _ _ _ hv => ih _ (by omega) hv) ht
      exact ⟨gap, _, hg, by simp, .list hinner⟩
    | @object k _ _ _ hd hs ht =>
      obtain ⟨gap, hg, rfl⟩ := gap_of_skipSpace hs
      have hmember : ∀ s (m : String × Json) rest, Gives (member (value k) s) m rest →
          ∃ gap t, Spaces gap ∧ s = gap ++ (t ++ rest) ∧ MemberSpelled m t := by
        rintro s ⟨name, v⟩ rest hm
        obtain ⟨t, ⟨hs, hn, hc⟩, hv⟩ := member_gives_iff.mp hm
        obtain ⟨gap, hg, rfl⟩ := gap_of_skipSpace hs
        obtain ⟨raw, rfl, hraw⟩ := stringSpelled_of_string hn
        obtain ⟨before, hb, rfl⟩ := gap_of_skipSpace hc
        obtain ⟨behind, u, he, rfl, hu⟩ := ih _ (by omega) hv
        exact ⟨gap, _, hg, by simp, .mk hraw hb he hu⟩
      obtain ⟨inner, rfl, hinner⟩ := entriesSpelled_of_read hmember ht
      exact ⟨gap, _, hg, by simp, .object hinner⟩

/-! ## Whatever is spelled is read back -/

/-- What becomes of an entry that is read from a text of it: it comes back if it fits into
the levels that are left, and is refused as nested too deep if it does not. -/
inductive ReadBack (fits : Prop) (a : α) (rest : List Char) {s : List Char}
    (out : Except Fault (Taken α s)) : Prop
  | back (hf : fits) (h : Gives out a rest)
  | tooDeep (hf : ¬ fits) (f : Fault) (h : out = .error f) (hc : f.cause = .tooDeep)

theorem ReadBack.of_iff {p q : Prop} (hpq : p ↔ q) {a : α} {s rest : List Char}
    {out : Except Fault (Taken α s)} (h : ReadBack p a rest out) : ReadBack q a rest out :=
  propext hpq ▸ h

/-- What is read back behind the front of a text is read back from that text. -/
theorem ReadBack.behind {fits : Prop} {a : α} {s t rest : List Char}
    {out : Except Fault (Taken α t)} (h : ReadBack fits a rest out) (hl : t.length < s.length)
    (f : α → β) : ReadBack fits (f a) rest (out.map fun u => (u.map f).behind hl) := by
  cases h with
  | tooDeep hf e h hc => exact .tooDeep hf e (by rw [h]; rfl) hc
  | back hf h => exact .back hf ((gives_behind hl f).mpr ⟨a, rfl, h⟩)

section Gaps
variable {gap s : List Char}

/-- Behind a gap, a number has ended. -/
theorem EndsNumber.behindGap (hg : Spaces gap) (hs : EndsNumber s) : EndsNumber (gap ++ s) := by
  cases gap with
  | nil => exact hs
  | cons c gap =>
    intro d hd
    obtain rfl : c = d := by simpa using hd
    have hspace := hg c (List.mem_cons_self ..)
    simp only [isSpace, Bool.or_eq_true, beq_iff_eq] at hspace
    rcases hspace with ((rfl | rfl) | rfl) | rfl <;> decide

theorem skipSpace_gap_cons (hg : Spaces gap) {c : Char} (hc : isSpace c = false) (s : List Char) :
    skipSpace (gap ++ c :: s) = c :: s := by
  rw [skipSpace_append hg, skipSpace_cons hc]

/-- A text that begins with a visible character, behind a gap. -/
theorem skipSpace_gap_append (hg : Spaces gap) {c : Char} (hc : isSpace c = false)
    (s rest : List Char) : skipSpace (gap ++ (c :: s ++ rest)) = c :: (s ++ rest) :=
  skipSpace_gap_cons hg hc _

/-- A text between two brackets, behind a gap. -/
theorem skipSpace_gap_brackets (hg : Spaces gap) {c : Char} (hc : isSpace c = false) (d : Char)
    (s rest : List Char) :
    skipSpace (gap ++ (c :: (s ++ [d]) ++ rest)) = c :: (s ++ d :: rest) := by
  rw [skipSpace_gap_append hg hc, List.append_assoc, List.singleton_append]

end Gaps

section Items
variable {item : (s : List Char) → Except Fault (Taken α s)} {spells : α → List Char → Prop}
variable {fits : α → Prop} {close : Char} {atEnd separator : Cause} {isFirst : Bool}
variable {xs : List α} {s rest : List Char}

/-- No entry stands before the end. -/
theorem ReadBack.none {p : Prop} (hp : p) (h : skipSpace s = close :: rest) :
    ReadBack p [] rest (items close atEnd separator item isFirst s) :=
  .back hp (items_gives_iff.mpr (.done h))

/-- One more entry stands in front. -/
theorem ReadBack.entry {p q : Prop} {a : α} {more : List α} {start t : List Char}
    (hat : EntryAt close s isFirst start) (hfirst : ReadBack p a t (item start))
    (hmore : ReadBack q more rest (items close atEnd separator item false t)) :
    ReadBack (p ∧ q) (a :: more) rest (items close atEnd separator item isFirst s) := by
  obtain ⟨hl, hn⟩ : ∃ hl, next close atEnd separator isFirst s = .ok (.entry start hl) := hat.next
  cases hfirst with
  | tooDeep hp f h hc =>
    refine .tooDeep (fun hboth => hp hboth.1) f ?_ hc
    rw [items, hn]
    simp only [h]
  | back hp h =>
    cases hmore with
    | tooDeep hq f h' hc =>
      obtain ⟨_, h⟩ := h
      refine .tooDeep (fun hboth => hq hboth.2) f ?_ hc
      rw [items, hn]
      simp only [h, h']
    | back hq h' =>
      exact .back ⟨hp, hq⟩ (items_gives_iff.mpr (.entry hat h (items_gives_iff.mp h')))

variable (hclose : close = ']' ∨ close = '}')
variable (hstart : ∀ a t, spells a t → ∃ c u, t = c :: u ∧ isSpace c = false ∧ c ≠ close)
variable (hitem : ∀ a ∈ xs, ∀ t, spells a t → ∀ gap rest, Spaces gap → EndsNumber rest →
  ReadBack (fits a) a rest (item (gap ++ (t ++ rest))))

include hstart in
/-- Spelled entries do not begin with the bracket that ends them. -/
theorem EntriesSpelled.skipSpace {a : α} {more : List α}
    (h : EntriesSpelled spells (a :: more) s) (rest : List Char) :
    ∃ c u, Text.skipSpace (s ++ rest) = c :: u ∧ c ≠ close := by
  cases h with
  | last hb ht =>
    obtain ⟨c, u, rfl, hspace, hc⟩ := hstart _ _ ht
    exact ⟨c, _, by
      rw [List.append_assoc, List.cons_append, List.cons_append, skipSpace_gap_cons hb hspace], hc⟩
  | cons hb ht =>
    obtain ⟨c, u, rfl, hspace, hc⟩ := hstart _ _ ht
    exact ⟨c, _, by
      rw [List.append_assoc, List.cons_append, List.cons_append, skipSpace_gap_cons hb hspace], hc⟩

include hclose

theorem isSpace_close : isSpace close = false := by rcases hclose with rfl | rfl <;> decide

theorem endsNumber_close (rest : List Char) : EndsNumber (close :: rest) := by
  intro c hc
  obtain rfl : close = c := by simpa using hc
  rcases hclose with rfl | rfl <;> decide

include hstart hitem

/-- Spelled entries are read back from where the first of them begins. -/
theorem items_spelled_from {a : α} {more : List α} (hxs : xs = a :: more)
    (h : EntriesSpelled spells xs s) {front rest : List Char}
    (hat : EntryAt close front isFirst (s ++ close :: rest)) :
    ReadBack (∀ x ∈ xs, fits x) xs rest (items close atEnd separator item isFirst front) := by
  have hcomma : ',' ≠ close := by rcases hclose with rfl | rfl <;> decide
  induction h generalizing a more front isFirst with
  | none => cases hxs
  | @last a before t behind hb ht he =>
    rw [List.forall_mem_cons] at hitem ⊢
    simp only [List.append_assoc] at hat
    have hend := (endsNumber_close hclose rest).behindGap he
    exact .entry hat (hitem.1 t ht before _ hb hend)
      (.none (by simp) (skipSpace_gap_cons he (isSpace_close hclose) rest))
  | @cons a b more before t behind s hb ht he hm ih =>
    rw [List.forall_mem_cons] at hitem ⊢
    simp only [List.append_assoc, List.cons_append] at hat
    have hend : EndsNumber (behind ++ ',' :: (s ++ close :: rest)) :=
      EndsNumber.behindGap he (by simp [EndsNumber])
    -- the end may not follow the comma, and it does not: an entry begins there
    obtain ⟨c, u, hc, hne⟩ := hm.skipSpace hstart (close :: rest)
    have hnext : EntryAt close (behind ++ ',' :: (s ++ close :: rest)) false
        (s ++ close :: rest) := by
      refine .comma (skipSpace_gap_cons he (by decide) _) hcomma ?_
      rw [hc, List.head?_cons]
      exact fun he => hne (Option.some.inj he)
    exact .entry hat (hitem.1 t ht before _ hb hend) (ih hitem.2 rfl hnext)

/-- **Spelled entries are read back**, all of them or up to the first that does not fit. -/
theorem items_spelled (h : EntriesSpelled spells xs s) (rest : List Char) :
    ReadBack (∀ x ∈ xs, fits x) xs rest
      (items close atEnd separator item true (s ++ close :: rest)) := by
  cases xs with
  | nil =>
    cases h with
    | none hg => exact .none (by simp) (skipSpace_gap_cons hg (isSpace_close hclose) rest)
  | cons a more =>
    obtain ⟨c, u, hc, hne⟩ := h.skipSpace hstart (close :: rest)
    exact items_spelled_from hclose hstart hitem rfl h (.first hc hne)

end Items

/-- Whether a value is read back from a text of it, at any level and wherever it stands. -/
def ReadsBack (v : Json) (t : List Char) : Prop :=
  ∀ gap depth rest, Spaces gap → EndsNumber rest →
    ReadBack (nesting v ≤ depth) v rest (value depth (gap ++ (t ++ rest)))

theorem ReadsBack.of_gives {v : Json} {t : List Char} (hn : nesting v = 0)
    (h : ∀ gap depth rest, Spaces gap → EndsNumber rest →
      Gives (value depth (gap ++ (t ++ rest))) v rest) : ReadsBack v t :=
  fun gap depth rest hg hr => .back (hn ▸ Nat.zero_le depth) (h gap depth rest hg hr)

theorem isSpace_number {c : Char} (hc : c = '-' ∨ c.isDigit = true) : isSpace c = false := by
  rcases hc with rfl | hc
  · decide
  · cases h : isSpace c with
    | false => rfl
    | true =>
      simp only [isSpace, Bool.or_eq_true, beq_iff_eq] at h
      rcases h with ((rfl | rfl) | rfl) | rfl <;> cases hc

/-- No text of a value begins with a separator or with a closing bracket. -/
theorem Spelled.starts {v : Json} {t : List Char} (h : Spelled v t) :
    ∃ c u, t = c :: u ∧ isSpace c = false ∧ c ≠ ']' := by
  cases h with
  | word hw =>
    have hc := exists_word_iff.mp ⟨_, _, hw⟩
    exact ⟨_, _, rfl, by rcases hc with rfl | rfl | rfl <;> decide,
      by rcases hc with rfl | rfl | rfl <;> decide⟩
  | str => exact ⟨_, _, rfl, by decide, by decide⟩
  | number h =>
    obtain ⟨c, u, rfl, hc⟩ := h.starts
    refine ⟨c, u, rfl, isSpace_number hc, ?_⟩
    rintro rfl
    rcases hc with hc | hc <;> cases hc
  | list => exact ⟨_, _, rfl, by decide, by decide⟩
  | object => exact ⟨_, _, rfl, by decide, by decide⟩

theorem MemberSpelled.starts {m : String × Json} {t : List Char} (h : MemberSpelled m t) :
    ∃ c u, t = c :: u ∧ isSpace c = false ∧ c ≠ '}' := by
  cases h with
  | mk => exact ⟨_, _, rfl, by decide, by decide⟩

theorem readsBack_list {vs : List Json} {inner : List Char} (h : EntriesSpelled Spelled vs inner)
    (hread : ∀ v ∈ vs, ∀ t, Spelled v t → ReadsBack v t) :
    ReadsBack (.arr vs) ('[' :: (inner ++ [']'])) := by
  intro gap depth rest hg _
  rw [value_list (skipSpace_gap_brackets hg (by decide) ']' inner rest)]
  -- one level is used up by the list itself
  cases depth with
  | zero => exact .tooDeep (by simp [nesting]) _ rfl rfl
  | succ depth =>
    have hfits : (∀ v ∈ vs, nesting v ≤ depth) ↔ nesting (.arr vs) ≤ depth + 1 := by
      rw [nesting, Nat.succ_le_succ_iff, nestingOfItems_le_iff]
    exact .of_iff hfits (.behind (items_spelled (.inl rfl) (fun _ _ => Spelled.starts)
      (fun v hv t ht gap rest hg hr => hread v hv t ht gap depth rest hg hr) h rest) _ _)

theorem readsBack_object {ms : List (String × Json)} {inner : List Char}
    (h : EntriesSpelled MemberSpelled ms inner)
    (hread : ∀ m ∈ ms, ∀ t, Spelled m.2 t → ReadsBack m.2 t) :
    ReadsBack (.obj ms) ('{' :: (inner ++ ['}'])) := by
  intro gap depth rest hg _
  rw [value_object (skipSpace_gap_brackets hg (by decide) '}' inner rest)]
  cases depth with
  | zero => exact .tooDeep (by simp [nesting]) _ rfl rfl
  | succ depth =>
    have hfits : (∀ m ∈ ms, nesting m.2 ≤ depth) ↔ nesting (.obj ms) ≤ depth + 1 := by
      rw [nesting, Nat.succ_le_succ_iff, nestingOfMembers_le_iff]
    refine .of_iff hfits (.behind (items_spelled (.inr rfl) (fun _ _ => MemberSpelled.starts)
      (fun m hm t ht gap rest hg hr => ?_) h rest) _ _)
    -- the key is read first, then the value behind the colon
    cases ht with
    | @mk name raw before behind t v hn hb he hv =>
      have hkey : KeyRead (gap ++ ('"' :: (raw ++ (before ++ ':' :: (behind ++ t))) ++ rest))
          (String.ofList name) (behind ++ (t ++ rest)) := by
        refine .mk (skipSpace_gap_append hg (by decide) _ _) ?_
          (skipSpace_gap_cons hb (by decide) _)
        simp only [List.append_assoc, List.cons_append]
        exact hn _
      obtain ⟨hl, hkey⟩ := key_gives_iff.mpr hkey
      rw [member_eq hkey]
      exact (hread _ hm t hv behind depth rest he hr).behind hl (String.ofList name, ·)

/-- **A value is read back from every text of it**, unless it is nested deeper than allowed. -/
theorem readsBack_of_spelled {v : Json} {t : List Char} (h : Spelled v t) : ReadsBack v t := by
  induction hn : nesting v using Nat.strongRecOn generalizing v t with
  | ind n ih =>
    cases h with
    | @word c w _ hw =>
      refine .of_gives (nesting_word hw) fun gap depth rest hg _ => ?_
      have hspace : isSpace c = false := by
        rcases exists_word_iff.mp ⟨w, v, hw⟩ with rfl | rfl | rfl <;> decide
      exact value_gives_iff.mpr (.word hw (skipSpace_gap_append hg hspace _ rest))
    | str h =>
      refine .of_gives rfl fun gap depth rest hg _ => ?_
      exact value_gives_iff.mpr (.str (skipSpace_gap_append hg (by decide) _ rest) (h rest))
    | number h =>
      refine .of_gives rfl fun gap depth rest hg hr => ?_
      obtain ⟨⟨c, u, rfl, hc⟩, hread⟩ := h
      exact value_gives_iff.mpr
        (.number (skipSpace_gap_append hg (isSpace_number hc) u rest) hc (hread rest hr))
    | list h =>
      refine readsBack_list h fun v hv t ht => ih (nesting v) ?_ ht rfl
      rw [← hn, nesting, Nat.lt_succ_iff]
      exact nestingOfItems_le_iff.mp (Nat.le_refl _) v hv
    | object h =>
      refine readsBack_object h fun m hm t ht => ih (nesting m.2) ?_ ht rfl
      rw [← hn, nesting, Nat.lt_succ_iff]
      exact nestingOfMembers_le_iff.mp (Nat.le_refl _) m hm

/-! ## Accepted texts -/

theorem finished_eq_ok_iff {rest : List Char} : finished rest = .ok () ↔ Spaces rest := by
  unfold finished Spaces
  rw [← List.dropWhile_eq_nil_iff, ← skipSpace]
  cases skipSpace rest <;> simp

theorem endsNumber_of_spaces {behind : List Char} (h : Spaces behind) : EndsNumber behind := by
  have hend := EndsNumber.behindGap h (s := []) (by simp [EndsNumber])
  rwa [List.append_nil] at hend

/-- What becomes of a text of a value, with separators at its ends. -/
theorem front_of_spelled {source : String} {v : Json} {gap t behind : List Char} (hg : Spaces gap)
    (hb : Spaces behind) (ht : Spelled v t) (hs : source.toList = gap ++ (t ++ behind)) :
    (nesting v ≤ nestingLimit → front source = .ok (v, behind)) ∧
      (nestingLimit < nesting v → ∃ f, front source = .error f ∧ f.cause = .tooDeep) := by
  have h := readsBack_of_spelled ht gap nestingLimit behind hg (endsNumber_of_spaces hb)
  rw [← hs] at h
  cases h with
  | back hf h => exact ⟨fun _ => front_eq_ok_iff.mpr h, fun hlt => absurd hf (Nat.not_le.mpr hlt)⟩
  | tooDeep hf f h hc =>
    refine ⟨fun hle => absurd hle hf, fun _ => ⟨f, ?_, hc⟩⟩
    simp only [front, h]

theorem read_of_spelled {source : String} {v : Json} {gap t behind : List Char} (hg : Spaces gap)
    (hb : Spaces behind) (ht : Spelled v t) (hs : source.toList = gap ++ (t ++ behind)) :
    (nesting v ≤ nestingLimit → read source = .ok v) ∧
      (nestingLimit < nesting v → ∃ f, read source = .error f ∧ f.cause = .tooDeep) := by
  obtain ⟨hback, hdeep⟩ := front_of_spelled hg hb ht hs
  constructor
  · intro hle
    simp only [read, hback hle, finished_eq_ok_iff.mpr hb]
  · intro hlt
    obtain ⟨f, h, hc⟩ := hdeep hlt
    refine ⟨f, ?_, hc⟩
    simp only [read, h]

/-- **A text holds a value if and only if it is a text of it**, with separators at its ends,
and the value is not nested too deep. -/
theorem read_eq_ok_iff {source : String} {v : Json} :
    read source = .ok v ↔ nesting v ≤ nestingLimit ∧ ∃ gap t behind,
      Spaces gap ∧ Spaces behind ∧ Spelled v t ∧ source.toList = gap ++ (t ++ behind) := by
  constructor
  · intro h
    obtain ⟨rest, hf, hrest⟩ := read_eq_ok_iff_front.mp h
    obtain ⟨gap, t, hg, hs, ht⟩ := spelled_of_value (front_eq_ok_iff.mp hf)
    exact ⟨nesting_le_of_read h, gap, t, rest, hg, finished_eq_ok_iff.mp hrest, ht, hs⟩
  · rintro ⟨hn, gap, t, behind, hg, hb, ht, hs⟩
    exact (read_of_spelled hg hb ht hs).1 hn

end PageDesign.Json

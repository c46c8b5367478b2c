import PageDesign.Json.Passed
import PageDesign.Proofs.Json.NumberText
import PageDesign.Proofs.Json.Spelling

/-! # The grammar of JSON texts

The texts that are well-formed JSON, from their characters up: strings (`Chars`), numbers, and
lists and objects in one another, so many levels deep (`Formed`).

Two kinds of well-formed texts cannot be read: a string in which a code stands for half of a
pair of surrogates, and a number that is out of range.  Everything else can
(`exists_stringSpelled_iff`, `exists_numberSpelled_iff`), so what can be read is known by the
text alone (`exists_read_iff`), and all of it is well-formed (`Readable.wellFormed`).
-/
namespace PageDesign.Json
open Text Decimal

/-! ## Strings -/

/-- Four digits of base sixteen, and the number that they write. -/
inductive CodeUnit : Nat → List Char → Prop
  | mk {a b c d : Char} {w x y z : Nat} (ha : hexValue? a = some w) (hb : hexValue? b = some x)
      (hc : hexValue? c = some y) (hd : hexValue? d = some z) :
      CodeUnit (((w * 16 + x) * 16 + y) * 16 + z) [a, b, c, d]

/-- What stands behind a backslash for a code unit, whichever it is. -/
inductive UnitCode : List Char → Prop
  | mk {n : Nat} {u : List Char} (h : CodeUnit n u) : UnitCode ('u' :: u)

/-- What stands behind a backslash for a character: its code unit, or two that are a pair of
surrogates. -/
inductive CharCode : List Char → Prop
  | unit {n : Nat} {u : List Char} (h : CodeUnit n u) (hl : isLowSurrogate n = false)
      (hh : isHighSurrogate n = false) : CharCode ('u' :: u)
  | pair {n m : Nat} {u v : List Char} (hu : CodeUnit n u) (hh : isHighSurrogate n = true)
      (hv : CodeUnit m v) (hl : isLowSurrogate m = true) :
      CharCode ('u' :: (u ++ '\\' :: 'u' :: v))

/-- The rest of a string behind its first quote.  A character may be written by a code of the
kind that is given. -/
inductive Chars (code : List Char → Prop) : List Char → Prop
  | done : Chars code ['"']
  | plain {c : Char} {s : List Char} (hq : c ≠ '"') (hb : c ≠ '\\') (hc : ¬ c.toNat < 0x20)
      (h : Chars code s) : Chars code (c :: s)
  | letter {c : Char} {s : List Char} (hc : c ∈ escapeLetters) (h : Chars code s) :
      Chars code ('\\' :: c :: s)
  | code {t s : List Char} (ht : code t) (h : Chars code s) : Chars code ('\\' :: (t ++ s))

theorem chars_plain {code : List Char → Prop} {s : List Char}
    (h : ∀ c ∈ s, c ≠ '"' ∧ c ≠ '\\' ∧ ¬ c.toNat < 0x20) : Chars code (s ++ ['"']) := by
  induction s with
  | nil => exact .done
  | cons c s ih =>
    obtain ⟨⟨hq, hb, hc⟩, hs⟩ := List.forall_mem_cons.mp h
    exact .plain hq hb hc (ih hs)

theorem CodeUnit.hexUnit {n : Nat} {u : List Char} (h : CodeUnit n u) (rest : List Char) :
    hexUnit (u ++ rest) = .ok (n, rest) := by
  obtain ⟨ha, hb, hc, hd⟩ := h
  simp only [Json.hexUnit, List.cons_append, List.nil_append, ha, hb, hc, hd]

theorem codeUnit_of_hexUnit {n : Nat} {s rest : List Char} (h : hexUnit s = .ok (n, rest)) :
    ∃ u, s = u ++ rest ∧ CodeUnit n u := by
  unfold hexUnit at h
  split at h
  · next a b c d rest =>
    split at h
    · next ha hb hc hd =>
      cases h
      exact ⟨[a, b, c, d], rfl, .mk ha hb hc hd⟩
    · cases h
  · cases h

theorem exists_escaped_letter {c : Char} (hc : c ∈ escapeLetters) :
    ∃ d, ∀ rest, escaped ([c] ++ rest) = .ok (d, rest) := by
  simp only [escapeLetters, List.mem_cons, List.not_mem_nil, or_false] at hc
  rcases hc with rfl | rfl | rfl | rfl | rfl | rfl | rfl | rfl <;> exact ⟨_, fun _ => rfl⟩

theorem CharCode.exists_escaped {t : List Char} (h : CharCode t) :
    ∃ d, ∀ rest, escaped (t ++ rest) = .ok (d, rest) := by
  cases h with
  | @unit n u h hl hh =>
    refine ⟨Char.ofNat n, fun rest => ?_⟩
    show unicode (u ++ rest) = _
    simp only [unicode, h.hexUnit, hl, hh, Bool.false_eq_true, if_false]
  | @pair n m u v hu hh hv hl =>
    refine ⟨Char.ofNat (0x10000 + (n - 0xD800) * 0x400 + (m - 0xDC00)), fun rest => ?_⟩
    have hlow : isLowSurrogate n = false := by
      simp only [isHighSurrogate, isLowSurrogate, Bool.and_eq_true, decide_eq_true_eq,
        Bool.and_eq_false_iff, decide_eq_false_iff_not] at hh ⊢
      omega
    have hlead : Json.lowSurrogate ('\\' :: 'u' :: (v ++ rest)) = .ok (m, rest) := by
      simp only [lowSurrogate, hv.hexUnit, hl, if_true]
    show unicode (u ++ '\\' :: 'u' :: v ++ rest) = _
    rw [List.append_assoc, List.cons_append, List.cons_append]
    simp only [unicode, hu.hexUnit, hlow, hh, hlead, Bool.false_eq_true, if_false, if_true]

/-- What stands behind a backslash is a letter or the code of a character. -/
theorem cases_of_escaped {s rest : List Char} {d : Char} (h : escaped s = .ok (d, rest)) :
    (∃ c ∈ escapeLetters, s = c :: rest) ∨ ∃ t, CharCode t ∧ s = t ++ rest := by
  unfold escaped at h
  split at h
  case h_10 s =>
    refine .inr ?_
    unfold unicode at h
    split at h
    · cases h
    · next n behind hu =>
      obtain ⟨u, rfl, hcode⟩ := codeUnit_of_hexUnit hu
      split at h
      · cases h
      · next hlow =>
        have hlow : isLowSurrogate n = false := by simpa using hlow
        split at h
        · next hhigh =>
          split at h
          · cases h
          · next m last hl =>
            obtain ⟨-, rfl⟩ := Prod.mk.inj (Except.ok.inj h)
            unfold lowSurrogate at hl
            split at hl
            case h_3 =>
              split at hl
              · cases hl
              · next k behind hv =>
                obtain ⟨v, rfl, hcode'⟩ := codeUnit_of_hexUnit hv
                split at hl
                · next hk =>
                  cases hl
                  exact ⟨_, .pair hcode hhigh hcode' hk, by simp⟩
                · cases hl
            all_goals cases hl
        · next hhigh =>
          cases h
          exact ⟨_, .unit hcode hlow (by simpa using hhigh), rfl⟩
  all_goals first
    | cases h; done
    | cases h
      exact .inl ⟨_, by decide, rfl⟩

/-- **A string can be read just if its codes stand for characters.** -/
theorem exists_stringSpelled_iff {raw : List Char} :
    (∃ text, StringSpelled text raw) ↔ Chars CharCode raw := by
  constructor
  · rintro ⟨text, h⟩
    -- what is read from the front of a text is a string, so all of `raw` is one
    have front (s text rest : List Char) (h : string s = .ok (text, rest)) :
        ∃ raw, s = raw ++ rest ∧ Chars CharCode raw := by
      fun_induction string s generalizing text with
      | case1 => cases h
      | case2 r =>
        cases h
        exact ⟨['"'], rfl, .done⟩
      | case3 => cases h
      | case4 r c r' he ih =>
        obtain ⟨more, rfl, hs⟩ := eq_cons_of_map h
        obtain ⟨raw, rfl, hraw⟩ := ih more hs
        rcases cases_of_escaped he with ⟨letter, hl, rfl⟩ | ⟨t, ht, rfl⟩
        · exact ⟨'\\' :: letter :: raw, rfl, .letter hl hraw⟩
        · exact ⟨'\\' :: (t ++ raw), by simp, .code ht hraw⟩
      | case5 => cases h
      | case6 c r hquote hslash hc ih =>
        obtain ⟨more, rfl, hs⟩ := eq_cons_of_map h
        obtain ⟨raw, rfl, hraw⟩ := ih more hs
        exact ⟨c :: raw, rfl, .plain hquote hslash hc hraw⟩
    obtain ⟨raw', he, hraw⟩ := front _ _ _ (h [])
    rwa [List.append_cancel_right he]
  · intro h
    induction h with
    | done => exact ⟨[], fun rest => by rw [List.singleton_append, string]⟩
    | plain hq hb hc _ ih =>
      obtain ⟨text, ih⟩ := ih
      exact ⟨_, stringSpelled_cons hq hb hc ih⟩
    | letter hc _ ih =>
      obtain ⟨text, ih⟩ := ih
      obtain ⟨d, hd⟩ := exists_escaped_letter hc
      exact ⟨_, stringSpelled_escape hd ih⟩
    | code ht _ ih =>
      obtain ⟨text, ih⟩ := ih
      obtain ⟨d, hd⟩ := ht.exists_escaped
      exact ⟨_, stringSpelled_escape hd ih⟩

/-! ## Values -/

mutual

/-- The text of a value with so many levels of lists and objects in one another, without
separators at its ends; what strings and numbers are is given. -/
inductive Formed (chars number : List Char → Prop) : Nat → List Char → Prop
  | word {c : Char} {w : List Char} {v : Json} (hw : (c, w, v) ∈ words) :
      Formed chars number 0 (c :: w)
  | str {raw : List Char} (h : chars raw) : Formed chars number 0 ('"' :: raw)
  | number {t : List Char} (h : number t) : Formed chars number 0 t
  | list {levels : List Nat} {inner : List Char}
      (h : EntriesSpelled (Formed chars number) levels inner) :
      Formed chars number (levels.foldr max 0 + 1) ('[' :: (inner ++ [']']))
  | object {levels : List Nat} {inner : List Char}
      (h : EntriesSpelled (MemberFormed chars number) levels inner) :
      Formed chars number (levels.foldr max 0 + 1) ('{' :: (inner ++ ['}']))

/-- The text of a member of an object. -/
inductive MemberFormed (chars number : List Char → Prop) : Nat → List Char → Prop
  | mk {n : Nat} {name before behind t : List Char} (hn : chars name) (hb : Spaces before)
      (he : Spaces behind) (hv : Formed chars number n t) :
      MemberFormed chars number n ('"' :: (name ++ (before ++ ':' :: (behind ++ t))))

end

/-- A text that consists of a value, with separators at its ends. -/
inductive FormedText (chars number : List Char → Prop) (levels : Nat) : List Char → Prop
  | mk {gap t behind : List Char} (hg : Spaces gap) (hb : Spaces behind)
      (ht : Formed chars number levels t) :
      FormedText chars number levels (gap ++ (t ++ behind))

/-- A well-formed JSON text with so many levels. -/
def WellFormed (levels : Nat) (source : String) : Prop :=
  FormedText (Chars UnitCode) NumberText levels source.toList

/-- A well-formed JSON text with so many levels, without numbers that are out of range and
without codes for half of a pair of surrogates. -/
def Readable (levels : Nat) (source : String) : Prop :=
  FormedText (Chars CharCode) NumberInRange levels source.toList

namespace EntriesSpelled
variable {α β : Type} {spells : α → List Char → Prop} {spells' : β → List Char → Prop}
  {xs : List α} {s : List Char}

/-- Entries are spelled as other entries if each of them is. -/
theorem map (h : EntriesSpelled spells xs s) (f : α → β)
    (hf : ∀ x ∈ xs, ∀ t, spells x t → spells' (f x) t) : EntriesSpelled spells' (xs.map f) s := by
  induction h with
  | none hg => exact .none hg
  | last hb ht he => exact .last hb (hf _ List.mem_cons_self _ ht) he
  | cons hb ht he _ ih =>
    rw [List.forall_mem_cons] at hf
    exact .cons hb (hf.1 _ ht) he (ih hf.2)

theorem exists_map (h : EntriesSpelled spells xs s) (f : β → α)
    (hf : ∀ x ∈ xs, ∀ t, spells x t → ∃ y, f y = x ∧ spells' y t) :
    ∃ ys : List β, ys.map f = xs ∧ EntriesSpelled spells' ys s := by
  induction h with
  | none hg => exact ⟨[], rfl, .none hg⟩
  | last hb ht he =>
    obtain ⟨y, rfl, hy⟩ := hf _ List.mem_cons_self _ ht
    exact ⟨[y], rfl, .last hb hy he⟩
  | cons hb ht he _ ih =>
    rw [List.forall_mem_cons] at hf
    obtain ⟨y, rfl, hy⟩ := hf.1 _ ht
    obtain ⟨ys, hys, hs⟩ := ih hf.2
    match ys, hys, hs with
    | z :: more, hys, hs => exact ⟨y :: z :: more, congrArg _ hys, .cons hb hy he hs⟩

end EntriesSpelled

theorem nestingOfItems_eq (items : List Json) :
    nestingOfItems items = (items.map nesting).foldr max 0 := by
  induction items with
  | nil => rfl
  | cons v rest ih => rw [nestingOfItems, ih]; rfl

theorem nestingOfMembers_eq (members : List (String × Json)) :
    nestingOfMembers members = (members.map fun m => nesting m.2).foldr max 0 := by
  induction members with
  | nil => rfl
  | cons m rest ih => rw [nestingOfMembers, ih]; rfl

theorem le_foldr_max {levels : List Nat} {n : Nat} (h : n ∈ levels) : n ≤ levels.foldr max 0 := by
  induction levels with
  | nil => cases h
  | cons m rest ih =>
    rcases List.mem_cons.mp h with rfl | h
    · exact Nat.le_max_left _ _
    · exact Nat.le_trans (ih h) (Nat.le_max_right _ _)

section Imp
variable {chars chars' number number' : List Char → Prop} {levels : Nat} {t : List Char}

theorem Formed.imp (h : Formed chars number levels t) (hc : ∀ s, chars s → chars' s)
    (hn : ∀ s, number s → number' s) : Formed chars' number' levels t := by
  induction levels using Nat.strongRecOn generalizing t with
  | ind n ih =>
    cases h with
    | word hw => exact .word hw
    | str h => exact .str (hc _ h)
    | number h => exact .number (hn _ h)
    | @list levels inner h =>
      have hinner := h.map id fun x hx t ht => ih x (Nat.lt_succ_of_le (le_foldr_max hx)) ht
      rw [List.map_id] at hinner
      exact .list hinner
    | @object levels inner h =>
      have hinner : EntriesSpelled (MemberFormed chars' number') (levels.map id) inner :=
        h.map id fun x hx t ht => by
          cases ht with
          | mk hname hb he hv =>
            exact .mk (hc _ hname) hb he (ih x (Nat.lt_succ_of_le (le_foldr_max hx)) hv)
      rw [List.map_id] at hinner
      exact .object hinner

/-- A pair of surrogates is written by two codes. -/
theorem Chars.units {raw : List Char} (h : Chars CharCode raw) : Chars UnitCode raw := by
  induction h with
  | done => exact .done
  | plain hq hb hc _ ih => exact .plain hq hb hc ih
  | letter hc _ ih => exact .letter hc ih
  | code ht _ ih =>
    cases ht with
    | unit h => exact .code (.mk h) ih
    | pair hu _ hv =>
      have := Chars.code (.mk hu) (Chars.code (.mk hv) ih)
      simpa using this

theorem Readable.wellFormed {source : String} (h : Readable levels source) :
    WellFormed levels source := by
  unfold Readable at h
  unfold WellFormed
  generalize source.toList = s at h ⊢
  cases h with
  | mk hg hb ht => exact .mk hg hb (ht.imp (fun _ => Chars.units) fun _ => NumberInRange.text)

end Imp

/-- A text of a value is formed, with as many levels as the value. -/
theorem formed_of_spelled {v : Json} {t : List Char} (h : Spelled v t) :
    Formed (Chars CharCode) NumberInRange (nesting v) t := by
  induction hn : nesting v using Nat.strongRecOn generalizing v t with
  | ind n ih =>
    subst hn
    cases h with
    | word hw => exact nesting_word hw ▸ .word hw
    | str h => exact .str (exists_stringSpelled_iff.mp ⟨_, h⟩)
    | number h => exact .number (exists_numberSpelled_iff.mp ⟨_, h⟩)
    | list h =>
      rw [nesting, nestingOfItems_eq]
      refine .list (h.map nesting fun v hv t ht => ih _ ?_ ht rfl)
      rw [nesting, Nat.lt_succ_iff]
      exact nestingOfItems_le_iff.mp le_rfl v hv
    | object h =>
      rw [nesting, nestingOfMembers_eq]
      refine .object (h.map (fun m => nesting m.2) fun m hm t ht => ?_)
      cases ht with
      | mk hname hb he hv =>
        refine .mk (exists_stringSpelled_iff.mp ⟨_, hname⟩) hb he (ih _ ?_ hv rfl)
        rw [nesting, Nat.lt_succ_iff]
        exact nestingOfMembers_le_iff.mp le_rfl _ hm

/-- Whatever is formed is the text of a value. -/
theorem exists_spelled_of_formed {levels : Nat} {t : List Char}
    (h : Formed (Chars CharCode) NumberInRange levels t) :
    ∃ v, nesting v = levels ∧ Spelled v t := by
  induction levels using Nat.strongRecOn generalizing t with
  | ind n ih =>
    cases h with
    | word hw => exact ⟨_, nesting_word hw, .word hw⟩
    | str h =>
      obtain ⟨text, htext⟩ := exists_stringSpelled_iff.mpr h
      exact ⟨_, rfl, .str htext⟩
    | number h =>
      obtain ⟨number, hnumber⟩ := exists_numberSpelled_iff.mpr h
      exact ⟨_, rfl, .number hnumber⟩
    | list h =>
      obtain ⟨vs, rfl, hvs⟩ := h.exists_map nesting fun x hx t ht =>
        ih x (Nat.lt_succ_of_le (le_foldr_max hx)) ht
      exact ⟨.arr vs, by rw [nesting, nestingOfItems_eq], .list hvs⟩
    | @object levels inner h =>
      have hmember : ∀ x ∈ levels, ∀ t, MemberFormed (Chars CharCode) NumberInRange x t →
          ∃ m : String × Json, nesting m.2 = x ∧ MemberSpelled m t := by
        intro x hx t ht
        cases ht with
        | mk hname hb he hv =>
          obtain ⟨name, hname⟩ := exists_stringSpelled_iff.mpr hname
          obtain ⟨v, hn, hv⟩ := ih x (Nat.lt_succ_of_le (le_foldr_max hx)) hv
          exact ⟨(String.ofList name, v), hn, .mk hname hb he hv⟩
      obtain ⟨ms, rfl, hms⟩ := h.exists_map (fun m : String × Json => nesting m.2) hmember
      exact ⟨.obj ms, by rw [nesting, nestingOfMembers_eq], .object hms⟩

/-- **A text can be read just if it is readable** and not nested deeper than allowed. -/
theorem exists_read_iff {source : String} :
    (∃ v, read source = .ok v) ↔ ∃ levels ≤ nestingLimit, Readable levels source := by
  constructor
  · rintro ⟨v, h⟩
    obtain ⟨hn, gap, t, behind, hg, hb, ht, hs⟩ := read_eq_ok_iff.mp h
    refine ⟨nesting v, hn, ?_⟩
    rw [Readable, hs]
    exact .mk hg hb (formed_of_spelled ht)
  · rintro ⟨levels, hl, h⟩
    unfold Readable at h
    generalize hs : source.toList = s at h
    cases h with
    | mk hg hb ht =>
      obtain ⟨v, rfl, hv⟩ := exists_spelled_of_formed ht
      exact ⟨v, read_eq_ok_iff.mpr ⟨hl, _, _, _, hg, hb, hv, hs⟩⟩

end PageDesign.Json

import PageDesign.Json.Quoted

/-! # Quoted strings are read back

Between its quotes a string is written character by character, and each character in one of
three ways: behind a backslash as a letter, behind a backslash as its number in base
sixteen, or as it is.  The reader of strings takes all three back (`string_escapeChar`), so
a quoted string is read up to its closing quote and no further (`string_flatMap`).

Whatever text a string is read from, what follows its closing quote has no say in it
(`stringSpelled_of_string`).
-/
namespace PageDesign.Json

/-! ## Escapes -/

theorem hexValue?_hexDigit (n : Nat) : hexValue? (hexDigit n) = some (n % 16) := by
  have h : ∀ k < 16, hexValue? (Nat.digitChar k) = some k := by decide
  exact h (n % 16) (Nat.mod_lt n (by decide))

/-- The letter of a short escape is read back. -/
theorem escaped_of_shortEscape? {c letter : Char} (h : shortEscape? c = some letter)
    (rest : List Char) : escaped (letter :: rest) = .ok (c, rest) := by
  unfold shortEscape? at h
  split at h <;> cases h <;> rfl

/-- The number of a control character is read back. -/
theorem escaped_control {c : Char} (h : c.toNat < 0x20) (rest : List Char) :
    escaped ('u' :: '0' :: '0' :: hexDigit (c.toNat / 16) :: hexDigit c.toNat :: rest) =
      .ok (c, rest) := by
  have h0 : hexValue? '0' = some 0 := by decide
  have hunit : hexUnit ('0' :: '0' :: hexDigit (c.toNat / 16) :: hexDigit c.toNat :: rest) =
      .ok (c.toNat, rest) := by
    unfold hexUnit
    simp only [h0, hexValue?_hexDigit]
    congr 2
    omega
  have hlow : isLowSurrogate c.toNat = false := by
    unfold isLowSurrogate
    rw [decide_eq_false (by omega), Bool.false_and]
  have hhigh : isHighSurrogate c.toNat = false := by
    unfold isHighSurrogate
    rw [decide_eq_false (by omega), Bool.false_and]
  show unicode _ = _
  unfold unicode
  rw [hunit]
  simp only [hlow, hhigh, Bool.false_eq_true, if_false, Char.ofNat_toNat]

/-! ## Strings -/

theorem string_backslash {s rest : List Char} {c : Char} (h : escaped s = .ok (c, rest)) :
    string ('\\' :: s) = (string rest).map fun (text, left) => (c :: text, left) := by
  rw [string]
  split
  · next f hf => rw [h] at hf; cases hf
  · next d rest' hd =>
    rw [h] at hd
    obtain ⟨rfl, rfl⟩ := Prod.mk.inj (Except.ok.inj hd)
    rfl

/-- **One character is read back**, in whichever way it is written. -/
theorem string_escapeChar (c : Char) (s : List Char) :
    string (escapeChar c ++ s) = (string s).map fun (text, left) => (c :: text, left) := by
  unfold escapeChar
  cases h : shortEscape? c with
  | some letter => exact string_backslash (escaped_of_shortEscape? h s)
  | none =>
    by_cases hc : c.toNat < 0x20
    · rw [if_pos hc]
      exact string_backslash (escaped_control hc s)
    · -- quotes and backslashes have short escapes, so this character stands for itself
      have hquote : c ≠ '"' := by rintro rfl; cases h
      have hslash : c ≠ '\\' := by rintro rfl; cases h
      rw [if_neg hc, List.singleton_append, string]
      · rw [if_neg hc]
      · exact hquote
      · exact hslash

/-- **A quoted string is read back** up to its closing quote. -/
theorem string_flatMap (text rest : List Char) :
    string (text.flatMap escapeChar ++ '"' :: rest) = .ok (text, rest) := by
  induction text with
  | nil => rw [List.flatMap_nil, List.nil_append, string]
  | cons c text ih =>
    rw [List.flatMap_cons, List.append_assoc, string_escapeChar, ih]
    rfl

/-! ## What is read does not depend on what follows -/

/-- Whether a reader looks no further than it reads. -/
def Local {α : Type} (read : List Char → Except Fault (α × List Char)) : Prop :=
  ∀ s a rest, read s = .ok (a, rest) →
    ∃ t, s = t ++ rest ∧ ∀ rest', read (t ++ rest') = .ok (a, rest')

theorem local_hexUnit : Local hexUnit := by
  intro s n rest h
  unfold hexUnit at h
  split at h
  · next a b c d rest =>
    split at h
    · next ha hb hc hd =>
      obtain ⟨rfl, rfl⟩ := Prod.mk.inj (Except.ok.inj h)
      refine ⟨[a, b, c, d], rfl, fun rest' => ?_⟩
      simp only [hexUnit, List.cons_append, List.nil_append, ha, hb, hc, hd]
    · cases h
  · cases h

theorem local_lowSurrogate : Local lowSurrogate := by
  intro s n rest h
  unfold lowSurrogate at h
  split at h
  · cases h
  · cases h
  · next r =>
    split at h
    · cases h
    · next m r' hu =>
      split at h
      · next hlow =>
        obtain ⟨rfl, rfl⟩ := Prod.mk.inj (Except.ok.inj h)
        obtain ⟨t, rfl, ht⟩ := local_hexUnit _ _ _ hu
        refine ⟨'\\' :: 'u' :: t, rfl, fun rest' => ?_⟩
        simp only [lowSurrogate, List.cons_append, ht, hlow, if_true]
      · cases h
  · cases h
  · cases h

theorem local_unicode : Local unicode := by
  intro s c rest h
  unfold unicode at h
  split at h
  · cases h
  · next n r hu =>
    obtain ⟨t, rfl, ht⟩ := local_hexUnit _ _ _ hu
    split at h
    · cases h
    · next hlow =>
      split at h
      · next hhigh =>
        split at h
        · cases h
        · next m r' hl =>
          obtain ⟨rfl, rfl⟩ := Prod.mk.inj (Except.ok.inj h)
          obtain ⟨u, rfl, hu'⟩ := local_lowSurrogate _ _ _ hl
          refine ⟨t ++ u, (List.append_assoc ..).symm, fun rest' => ?_⟩
          rw [List.append_assoc]
          simp only [unicode, ht, hlow, hhigh, hu', if_true, Bool.false_eq_true, if_false]
      · next hhigh =>
        obtain ⟨rfl, rfl⟩ := Prod.mk.inj (Except.ok.inj h)
        refine ⟨t, rfl, fun rest' => ?_⟩
        simp only [unicode, ht, hlow, hhigh, Bool.false_eq_true, if_false]

theorem local_escaped : Local escaped := by
  intro s c rest h
  unfold escaped at h
  split at h
  case h_10 r =>
    obtain ⟨t, rfl, ht⟩ := local_unicode _ _ _ h
    exact ⟨'u' :: t, rfl, ht⟩
  all_goals first
    | cases h; done
    | obtain ⟨rfl, rfl⟩ := Prod.mk.inj (Except.ok.inj h)
      exact ⟨[_], rfl, fun _ => rfl⟩

/-- Whether a string is read from `raw` and a closing quote at its end, whatever follows. -/
def StringSpelled (text raw : List Char) : Prop := ∀ rest, string (raw ++ rest) = .ok (text, rest)

theorem stringSpelled_escape {c : Char} {t text raw : List Char}
    (ht : ∀ rest, escaped (t ++ rest) = .ok (c, rest)) (h : StringSpelled text raw) :
    StringSpelled (c :: text) ('\\' :: (t ++ raw)) := by
  intro rest
  rw [List.cons_append, List.append_assoc, string_backslash (ht _), h]
  rfl

theorem stringSpelled_cons {c : Char} {text raw : List Char} (hquote : c ≠ '"') (hslash : c ≠ '\\')
    (hc : ¬ c.toNat < 0x20) (h : StringSpelled text raw) :
    StringSpelled (c :: text) (c :: raw) := by
  intro rest
  rw [List.cons_append, string, if_neg hc, h]
  · rfl
  · exact hquote
  · exact hslash

theorem eq_cons_of_map {c : Char} {out : Except Fault (List Char × List Char)}
    {text rest : List Char}
    (h : (out.map fun (text, left) => (c :: text, left)) = .ok (text, rest)) :
    ∃ more, text = c :: more ∧ out = .ok (more, rest) := by
  cases out with
  | error f => cases h
  | ok read =>
    cases h
    exact ⟨_, rfl, rfl⟩

/-- **What a string is read from is read alike wherever it stands.** -/
theorem stringSpelled_of_string {s text rest : List Char} (h : string s = .ok (text, rest)) :
    ∃ raw, s = raw ++ rest ∧ StringSpelled text raw := by
  fun_induction string s generalizing text with
  | case1 => cases h
  | case2 r =>
    obtain ⟨rfl, rfl⟩ := Prod.mk.inj (Except.ok.inj h)
    refine ⟨['"'], rfl, fun rest' => ?_⟩
    rw [List.singleton_append, string]
  | case3 => cases h
  | case4 r c r' he ih =>
    obtain ⟨more, rfl, hs⟩ := eq_cons_of_map h
    obtain ⟨t, rfl, ht⟩ := local_escaped _ _ _ he
    obtain ⟨raw, rfl, hraw⟩ := ih hs
    exact ⟨'\\' :: (t ++ raw), by simp, stringSpelled_escape ht hraw⟩
  | case5 => cases h
  | case6 c r hquote hslash hc ih =>
    obtain ⟨more, rfl, hs⟩ := eq_cons_of_map h
    obtain ⟨raw, rfl, hraw⟩ := ih hs
    exact ⟨c :: raw, rfl, stringSpelled_cons hquote hslash hc hraw⟩

/-- A quoted string is written with the escaped text and the closing quote. -/
theorem stringSpelled_flatMap (text : List Char) :
    StringSpelled text (text.flatMap escapeChar ++ ['"']) := by
  intro rest
  rw [List.append_assoc, List.singleton_append, string_flatMap]

end PageDesign.Json

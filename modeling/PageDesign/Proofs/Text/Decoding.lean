import PageDesign.Proofs.Text.Entity

/-! # Attribute values in a single pass

`unescape` goes over a text once for each entity, and every pass but the first works on what
others have changed.  Still it comes to the same as reading the text once, from the left, each
entity where it stands (`decode`).

A pass can put a character where an entity was.  That makes no entity of what stood around it:
the word behind the ampersand of an entity is spelled with plain characters, and these were
there before (`exists_of_resolve`).  What a pass makes could only be the ampersand in front of
such a word, and the pass that makes ampersands is the last.

Escaping leaves no ampersand but those of entities (`amp_in_escape`), and reading undoes it, so
no two texts are escaped alike (`unescape_in_one_pass`).
-/
namespace PageDesign.Text

/-- The text that stands between the quotes of an attribute value, read from the left: an entity
gives its character, any other character gives itself, and what has been read is left alone. -/
def decode : List Char → List Char
  | [] => []
  | '&' :: 'q' :: 'u' :: 'o' :: 't' :: ';' :: s => '"' :: decode s
  | '&' :: 'l' :: 't' :: ';' :: s => '<' :: decode s
  | '&' :: 'g' :: 't' :: ';' :: s => '>' :: decode s
  | '&' :: 'a' :: 'm' :: 'p' :: ';' :: s => '&' :: decode s
  | c :: s => c :: decode s

/-! ## Passes -/

namespace Entity

/-- A pass leaves a word of plain characters in front only if it stood there before. -/
theorem exists_of_resolve {e : Entity} {word s r : List Char}
    (hword : ∀ c ∈ word, ofChar? c = none) (h : e.resolve s = word ++ r) :
    ∃ rest, s = word ++ rest := by
  induction word generalizing s with
  | nil => exact ⟨s, rfl⟩
  | cons c word ih =>
    obtain ⟨hc, hrest⟩ := List.forall_mem_cons.mp hword
    cases s with
    | nil =>
      rw [resolve_nil] at h
      cases h
    | cons d s =>
      cases hd : after? e.code (d :: s) with
      | some t =>
        -- the pass puts the character of an entity in front, and that is not plain
        rw [after?_eq_some_iff.mp hd, resolve_code] at h
        have hchar : ofChar? c = some e := ofChar?_eq_some_iff.mpr (List.cons.inj h).1.symm
        rw [hc] at hchar
        cases hchar
      | none =>
        rw [resolve_cons hd] at h
        obtain ⟨rfl, hs⟩ := List.cons.inj h
        obtain ⟨rest, rfl⟩ := ih hrest hs
        exact ⟨rest, rfl⟩

/-- An ampersand that begins no entity begins none after a pass over what follows it. -/
theorem after?_resolve {e f : Entity} {s : List Char} (h : after? e.code ('&' :: s) = none) :
    after? e.code ('&' :: f.resolve s) = none := by
  obtain ⟨word, hcode, hword⟩ := e.code_eq
  rw [Option.eq_none_iff_forall_ne_some] at h ⊢
  intro r hr
  rw [after?_eq_some_iff, hcode, List.cons_append] at hr
  obtain ⟨rest, rfl⟩ := exists_of_resolve hword (List.cons.inj hr).2
  refine h rest ?_
  rw [after?_eq_some_iff, hcode, List.cons_append]

end Entity

@[simp] theorem unescape_nil : unescape [] = [] := by
  simp [unescape]

/-- An entity in front is read as its character. -/
theorem unescape_code (e : Entity) (s : List Char) :
    unescape (e.code ++ s) = e.char :: unescape s := by
  simp only [unescape, List.foldl_cons, List.foldl_nil]
  cases e
  case quot =>
    rw [Entity.resolve_code, Entity.resolve_cons_of_ne (by decide),
      Entity.resolve_cons_of_ne (by decide), Entity.resolve_cons_of_ne (by decide)]
  case lt =>
    rw [Entity.resolve_code_of_ne (by decide), Entity.resolve_code,
      Entity.resolve_cons_of_ne (by decide), Entity.resolve_cons_of_ne (by decide)]
  case gt =>
    rw [Entity.resolve_code_of_ne (by decide), Entity.resolve_code_of_ne (by decide),
      Entity.resolve_code, Entity.resolve_cons_of_ne (by decide)]
  case amp =>
    rw [Entity.resolve_code_of_ne (by decide), Entity.resolve_code_of_ne (by decide),
      Entity.resolve_code_of_ne (by decide), Entity.resolve_code]

/-- A character in front that begins no entity is read as itself. -/
theorem unescape_cons {c : Char} {s : List Char}
    (h : ∀ e : Entity, after? e.code (c :: s) = none) : unescape (c :: s) = c :: unescape s := by
  simp only [unescape, List.foldl_cons, List.foldl_nil]
  by_cases hc : c = '&'
  · subst c
    have hlt := Entity.after?_resolve (f := .quot) (h .lt)
    have hgt := Entity.after?_resolve (f := .lt) (Entity.after?_resolve (f := .quot) (h .gt))
    have hamp := Entity.after?_resolve (f := .gt)
      (Entity.after?_resolve (f := .lt) (Entity.after?_resolve (f := .quot) (h .amp)))
    rw [Entity.resolve_cons (h .quot), Entity.resolve_cons hlt, Entity.resolve_cons hgt,
      Entity.resolve_cons hamp]
  · rw [Entity.resolve_cons_of_ne hc, Entity.resolve_cons_of_ne hc, Entity.resolve_cons_of_ne hc,
      Entity.resolve_cons_of_ne hc]

/-- **The passes come to a single one.** -/
theorem unescape_eq_decode (s : List Char) : unescape s = decode s := by
  fun_induction decode s with
  | case1 => exact unescape_nil
  | case2 s ih => exact (unescape_code .quot s).trans (congrArg _ ih)
  | case3 s ih => exact (unescape_code .lt s).trans (congrArg _ ih)
  | case4 s ih => exact (unescape_code .gt s).trans (congrArg _ ih)
  | case5 s ih => exact (unescape_code .amp s).trans (congrArg _ ih)
  | case6 c s hquot hlt hgt hamp ih =>
    have h : ∀ e : Entity, after? e.code (c :: s) = none := by
      intro e
      rw [Option.eq_none_iff_forall_ne_some]
      intro r hr
      rw [after?_eq_some_iff] at hr
      cases e with
      | quot => exact hquot r (List.cons.inj hr).1 (List.cons.inj hr).2
      | lt => exact hlt r (List.cons.inj hr).1 (List.cons.inj hr).2
      | gt => exact hgt r (List.cons.inj hr).1 (List.cons.inj hr).2
      | amp => exact hamp r (List.cons.inj hr).1 (List.cons.inj hr).2
    rw [unescape_cons h, ih]

example : decode "&amp;amp;quot;&lt".toList = "&amp;quot;&lt".toList := by decide

/-! ## Ampersands in an escaped text -/

/-- A character that is escaped gives an entity, and any other gives itself. -/
theorem escapeChar_cases (c : Char) :
    (∃ e : Entity, escapeChar c = e.code) ∨ c ≠ '&' ∧ escapeChar c = [c] := by
  cases hc : Entity.ofChar? c with
  | some e => exact .inl ⟨e, by simp [escapeChar, hc]⟩
  | none => exact .inr ⟨Entity.ne_amp_of_ofChar? hc, by simp [escapeChar, hc]⟩

/-- An ampersand stands behind a word that holds none. -/
theorem exists_behind_word {word behind before rest : List Char} (hword : '&' ∉ word)
    (h : word ++ behind = before ++ '&' :: rest) : ∃ between, behind = between ++ '&' :: rest := by
  rcases List.append_eq_append_iff.mp h with ⟨between, -, hbehind⟩ | ⟨tail, hw, htail⟩
  · exact ⟨between, hbehind⟩
  · cases tail with
    | nil => exact ⟨[], htail.symm⟩
    | cons d tail =>
      obtain rfl := (List.cons.inj htail).1
      exact absurd (hw ▸ List.mem_append_right before List.mem_cons_self) hword

/-- **Every ampersand of an escaped text begins an entity.** -/
theorem amp_in_escape {s before rest : List Char} (h : escape s = before ++ '&' :: rest) :
    ∃ e : Entity, e.code <+: '&' :: rest := by
  induction s generalizing before with
  | nil => simp [escape] at h
  | cons c s ih =>
    have hcons : escapeChar c ++ escape s = before ++ '&' :: rest := h
    rcases escapeChar_cases c with ⟨e, he⟩ | ⟨hne, he⟩
    · rw [he] at hcons
      cases before with
      | nil => exact ⟨e, escape s, hcons⟩
      | cons d before =>
        obtain ⟨word, hcode, hplain⟩ := e.code_eq
        rw [hcode] at hcons
        have hword : '&' ∉ word := fun hm => Entity.ne_amp_of_ofChar? (hplain _ hm) rfl
        obtain ⟨between, hs⟩ := exists_behind_word hword (List.cons.inj hcons).2
        exact ih hs
    · rw [he] at hcons
      have hword : '&' ∉ [c] := fun hm => hne (List.mem_singleton.mp hm).symm
      obtain ⟨between, hs⟩ := exists_behind_word hword hcons
      exact ih hs

/-- **Reading attribute values.**  Resolving the entities one after another comes to the same as
reading the text once, from the left.  An escaped text holds none of the characters that would
end a value or be taken for markup, every ampersand of it begins an entity, and reading it gives
the text that was escaped; so no two texts are escaped alike. -/
theorem unescape_in_one_pass :
    (∀ s, unescape s = decode s) ∧
      (∀ v, ('"' ∉ escape v ∧ '<' ∉ escape v ∧ '>' ∉ escape v) ∧
        (∀ before rest, escape v = before ++ '&' :: rest →
          ∃ e : Entity, e.code <+: '&' :: rest) ∧
        unescape (escape v) = v) ∧
      Function.Injective escape := by
  refine ⟨unescape_eq_decode, fun v => ⟨⟨?_, ?_, ?_⟩, fun _ _ => amp_in_escape, ?_⟩, ?_⟩
  · exact char_not_mem_escape (e := .quot) (by decide) v
  · exact char_not_mem_escape (e := .lt) (by decide) v
  · exact char_not_mem_escape (e := .gt) (by decide) v
  · exact unescape_escape v
  · exact Function.LeftInverse.injective unescape_escape

end PageDesign.Text

import PageDesign.Text.Entity

/-! # Escaping is undone

`unescape` resolves the four entities one after another over the whole text.  What
it works on between two passes is a text in which some of the four characters are
still written by name (`escapeOnly`): each pass brings back one of them
(`resolve_escapeOnly`), and as long as every ampersand is written by name, none of
what an earlier pass brought back can be taken for an entity.
-/
namespace PageDesign.Text
namespace Entity

theorem ofChar?_eq_some_iff {c : Char} {e : Entity} : ofChar? c = some e ↔ c = e.char := by
  constructor
  · intro h
    unfold ofChar? at h
    split at h <;> cases h <;> rfl
  · rintro rfl
    cases e <;> rfl

theorem char_ne_amp {e : Entity} (h : e ≠ amp) : e.char ≠ '&' := by
  cases e <;> simp_all [char]

@[simp] theorem resolve_nil (e : Entity) : e.resolve [] = [] := by rw [resolve]

/-- An entity is replaced where it stands. -/
theorem resolve_code (e : Entity) (s : List Char) :
    e.resolve (e.code ++ s) = e.char :: e.resolve s := by
  have h : after? e.code (e.code ++ s) = some s := after?_append _ _
  obtain ⟨c, rest, hc⟩ : ∃ c rest, e.code ++ s = c :: rest := by cases e <;> exact ⟨_, _, rfl⟩
  rw [hc] at h ⊢
  rw [resolve]
  split
  · next r hr => rw [h] at hr; rw [Option.some.inj hr]
  · next hr => rw [h] at hr; cases hr

theorem resolve_cons {e : Entity} {c : Char} {s : List Char}
    (h : after? e.code (c :: s) = none) : e.resolve (c :: s) = c :: e.resolve s := by
  rw [resolve]
  split
  · next r hr => rw [h] at hr; cases hr
  · rfl

/-- Every entity begins with an ampersand. -/
theorem resolve_cons_of_ne {e : Entity} {c : Char} (h : c ≠ '&') (s : List Char) :
    e.resolve (c :: s) = c :: e.resolve s :=
  resolve_cons (by cases e <;> simp [code, after?, h.symm])

/-- An entity is an ampersand and a word of plain characters. -/
theorem code_eq (e : Entity) : ∃ word, e.code = '&' :: word ∧ ∀ c ∈ word, ofChar? c = none := by
  cases e <;> exact ⟨_, rfl, by simp [ofChar?]⟩

/-- A plain character is no ampersand. -/
theorem ne_amp_of_ofChar? {c : Char} (h : ofChar? c = none) : c ≠ '&' := by
  rintro rfl
  cases h

/-- No entity begins as another one does. -/
theorem after?_code_of_ne {e f : Entity} (h : f ≠ e) (s : List Char) :
    after? e.code (f.code ++ s) = none := by
  cases e <;> cases f <;> simp_all [code, after?]

theorem resolve_append {e : Entity} {word : List Char} (h : ∀ c ∈ word, c ≠ '&')
    (s : List Char) : e.resolve (word ++ s) = word ++ e.resolve s := by
  induction word with
  | nil => rfl
  | cons c word ih =>
    rw [List.cons_append, resolve_cons_of_ne (h c (by simp)),
      ih fun d hd => h d (List.mem_cons_of_mem _ hd), List.cons_append]

/-- A pass leaves the other entities alone. -/
theorem resolve_code_of_ne {e f : Entity} (h : f ≠ e) (s : List Char) :
    e.resolve (f.code ++ s) = f.code ++ e.resolve s := by
  have hnone := after?_code_of_ne h s
  obtain ⟨word, hf, hword⟩ := f.code_eq
  rw [hf, List.cons_append] at hnone ⊢
  rw [resolve_cons hnone, resolve_append fun c hc => ne_amp_of_ofChar? (hword c hc),
    List.cons_append]

end Entity

/-- A character, written by name if its entity is `coded`. -/
def escapeCharOnly (coded : Entity → Bool) (c : Char) : List Char :=
  match Entity.ofChar? c with
  | some e => if coded e then e.code else [c]
  | none => [c]

/-- A text in which just the `coded` entities are written by name. -/
def escapeOnly (coded : Entity → Bool) (s : List Char) : List Char :=
  s.flatMap (escapeCharOnly coded)

/-- **One pass brings back one character**, provided that ampersands are still
written by name. -/
theorem resolve_escapeOnly {coded : Entity → Bool} (hamp : coded .amp = true) {e : Entity}
    (he : coded e = true) (s : List Char) :
    e.resolve (escapeOnly coded s) = escapeOnly (fun f => coded f && f != e) s := by
  induction s with
  | nil => exact Entity.resolve_nil e
  | cons c s ih =>
    simp only [escapeOnly, List.flatMap_cons] at ih ⊢
    cases hc : Entity.ofChar? c with
    | none =>
      -- a plain character begins no entity
      simp only [escapeCharOnly, hc, List.singleton_append]
      rw [Entity.resolve_cons_of_ne (Entity.ne_amp_of_ofChar? hc), ih]
    | some f =>
      have hchar := Entity.ofChar?_eq_some_iff.mp hc
      by_cases hf : coded f = true
      · by_cases hfe : f = e
        · subst f
          simp only [escapeCharOnly, hc, he, if_true, bne_self_eq_false, Bool.and_false,
            Bool.false_eq_true, if_false, List.singleton_append]
          rw [Entity.resolve_code, ih, hchar]
        · simp only [escapeCharOnly, hc, hf, if_true, Bool.true_and, bne_iff_ne, ne_eq, hfe,
            not_false_eq_true]
          rw [Entity.resolve_code_of_ne hfe, ih]
      · have hne : f ≠ .amp := fun h => hf (h ▸ hamp)
        simp only [escapeCharOnly, hc, hf, Bool.false_and, Bool.false_eq_true, if_false,
          List.singleton_append]
        rw [Entity.resolve_cons_of_ne (hchar ▸ Entity.char_ne_amp hne), ih]

theorem escape_eq_escapeOnly (s : List Char) : escape s = escapeOnly (fun _ => true) s := by
  have h : escapeChar = escapeCharOnly fun _ => true := by
    funext c
    cases hc : Entity.ofChar? c <;> simp [escapeChar, escapeCharOnly, hc]
  rw [escape, escapeOnly, h]

theorem escapeOnly_none (s : List Char) : escapeOnly (fun _ => false) s = s := by
  have h : escapeCharOnly (fun _ => false) = fun c => [c] := by
    funext c
    unfold escapeCharOnly
    split <;> rfl
  rw [escapeOnly, h, List.flatMap_singleton']

/-- **Escaping is undone**: the ampersand, which every entity begins with, comes
back last. -/
theorem unescape_escape (s : List Char) : unescape (escape s) = s := by
  rw [escape_eq_escapeOnly, unescape]
  simp only [List.foldl_cons, List.foldl_nil]
  rw [resolve_escapeOnly rfl rfl, resolve_escapeOnly rfl rfl, resolve_escapeOnly rfl rfl,
    resolve_escapeOnly rfl rfl]
  have hnone : (fun f : Entity => (((true && f != .quot) && f != .lt) && f != .gt) && f != .amp) =
      fun _ => false := by
    funext f
    cases f <;> rfl
  rw [hnone, escapeOnly_none]

/-- Escaping leaves none of the characters that are written by name, but for the ampersands
of these names. -/
theorem char_not_mem_escape {e : Entity} (he : e ≠ .amp) (s : List Char) :
    e.char ∉ escape s := by
  intro h
  obtain ⟨c, -, hc⟩ := List.mem_flatMap.mp h
  unfold escapeChar at hc
  split at hc
  · next f _ => cases e <;> cases f <;> simp_all [Entity.code, Entity.char]
  · next hnone =>
    rw [List.mem_singleton] at hc
    rw [← hc, Entity.ofChar?_eq_some_iff.mpr rfl] at hnone
    cases hnone

/-- What stands between the quotes of an attribute value holds no quote. -/
theorem quote_not_mem_escape (s : List Char) : '"' ∉ escape s :=
  char_not_mem_escape (by decide : Entity.quot ≠ .amp) s

end PageDesign.Text

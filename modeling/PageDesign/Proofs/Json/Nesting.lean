import PageDesign.Proofs.Json.Reading

/-! # How deep values are nested

The nesting of a value is the largest number of lists and objects that stand in one another
in it.  The reader of values recurses on the levels that are still allowed, so whatever it
reads is nested no deeper than that (`nesting_le_of_value`), and what a text holds never
exceeds the limit (`nesting_le_of_read`).
-/
namespace PageDesign.Json

mutual

/-- How many lists and objects stand in one another in a value. -/
def nesting : Json → Nat
  | arr items => nestingOfItems items + 1
  | obj members => nestingOfMembers members + 1
  | _ => 0

/-- The nesting of the items of a list. -/
def nestingOfItems : List Json → Nat
  | [] => 0
  | v :: rest => max (nesting v) (nestingOfItems rest)

/-- The nesting of the values of an object. -/
def nestingOfMembers : List (String × Json) → Nat
  | [] => 0
  | (_, v) :: rest => max (nesting v) (nestingOfMembers rest)

end

theorem nestingOfItems_le_iff {items : List Json} {n : Nat} :
    nestingOfItems items ≤ n ↔ ∀ v ∈ items, nesting v ≤ n := by
  induction items with
  | nil => simp [nestingOfItems]
  | cons v rest ih => simp only [nestingOfItems, Nat.max_le, ih, List.forall_mem_cons]

theorem nestingOfMembers_le_iff {members : List (String × Json)} {n : Nat} :
    nestingOfMembers members ≤ n ↔ ∀ m ∈ members, nesting m.2 ≤ n := by
  induction members with
  | nil => simp [nestingOfMembers]
  | cons m rest ih => simp only [nestingOfMembers, Nat.max_le, ih, List.forall_mem_cons]

/-! ## What is read -/

theorem nesting_word {c : Char} {w : List Char} {v : Json} (hw : (c, w, v) ∈ words) :
    nesting v = 0 := by
  rcases value_of_mem_words hw with rfl | ⟨_, rfl⟩ <;> rfl

/-- **No value is read that is nested deeper than allowed.** -/
theorem nesting_le_of_value {depth : Nat} {s rest : List Char} {v : Json}
    (h : Gives (value depth s) v rest) : nesting v ≤ depth := by
  induction depth using Nat.strongRecOn generalizing s v rest with
  | ind depth ih =>
    cases value_gives_iff.mp h with
    | word hw => exact nesting_word hw ▸ Nat.zero_le _
    | str => exact Nat.zero_le _
    | number => exact Nat.zero_le _
    | @list inner _ _ _ hd _ ht =>
      subst hd
      refine Nat.succ_le_succ (nestingOfItems_le_iff.mpr ?_)
      exact ht.forall_mem fun _ _ _ hv => ih inner (Nat.lt_succ_self _) hv
    | @object inner _ _ _ hd _ ht =>
      subst hd
      refine Nat.succ_le_succ (nestingOfMembers_le_iff.mpr ?_)
      refine ht.forall_mem fun _ _ _ hm => ?_
      obtain ⟨_, -, hv⟩ := member_gives_iff.mp hm
      exact ih inner (Nat.lt_succ_self _) hv

/-- No text holds a value that is nested deeper than the limit. -/
theorem nesting_le_of_read {source : String} {v : Json} (h : read source = .ok v) :
    nesting v ≤ nestingLimit := by
  obtain ⟨rest, hf, -⟩ := read_eq_ok_iff_front.mp h
  exact nesting_le_of_value (front_eq_ok_iff.mp hf)

end PageDesign.Json

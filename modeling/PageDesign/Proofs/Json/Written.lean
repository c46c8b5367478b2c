import PageDesign.Json.Writer
import PageDesign.Proofs.Json.Spelling

/-! # Written values are read back

A value is written without spaces or laid out over lines.  Either way the result is a text of
the value (`spelled_compact`, `spelled_prettyAt`), so it is read back, unless the value is
nested deeper than the reader allows (`Written.read`).  The nesting alone decides whether the
text is accepted.

This is said of the values whose numbers are integers of sixty-four bits.
-/
namespace PageDesign.Json
open Text

mutual

/-- Whether all numbers in a value are integers of sixty-four bits. -/
def Exact : Json → Prop
  | number n => n.Exact
  | arr items => ExactItems items
  | obj members => ExactMembers members
  | _ => True

/-- Whether all numbers in the items of a list are integers of sixty-four bits. -/
def ExactItems : List Json → Prop
  | [] => True
  | v :: rest => Exact v ∧ ExactItems rest

/-- Whether all numbers in the values of an object are integers of sixty-four bits. -/
def ExactMembers : List (String × Json) → Prop
  | [] => True
  | (_, v) :: rest => Exact v ∧ ExactMembers rest

end

theorem exactItems_iff {vs : List Json} : ExactItems vs ↔ ∀ v ∈ vs, Exact v := by
  induction vs with
  | nil => simp [ExactItems]
  | cons v rest ih => rw [ExactItems, ih, List.forall_mem_cons]

theorem exactMembers_iff {ms : List (String × Json)} : ExactMembers ms ↔ ∀ m ∈ ms, Exact m.2 := by
  induction ms with
  | nil => simp [ExactMembers]
  | cons m rest ih => rw [ExactMembers, ih, List.forall_mem_cons]

/-! ## Entries -/

section Entries
variable {α : Type} {spells : α → List Char → Prop} {text : α → String} {xs : List α}

/-- Entries with a gap before each of them and one behind the last. -/
theorem entriesSpelled_gaps {before behind : String} (hb : Spaces before.toList)
    (he : Spaces behind.toList) (hne : xs ≠ []) (h : ∀ a ∈ xs, spells a (text a).toList) :
    EntriesSpelled spells xs
      (before ++ ("," ++ before).intercalate (xs.map text) ++ behind).toList := by
  induction xs with
  | nil => exact absurd rfl hne
  | cons a more ih =>
    rw [List.forall_mem_cons] at h
    cases more with
    | nil =>
      have hl := EntriesSpelled.last hb h.1 he
      simpa using hl
    | cons b more =>
      have hm := ih (List.cons_ne_nil b more) h.2
      have hl := EntriesSpelled.cons hb h.1 Spaces.nil hm
      simpa [String.intercalate_cons_cons] using hl

/-- Entries with nothing but commas between them. -/
theorem entriesSpelled_commas (h : ∀ a ∈ xs, spells a (text a).toList) :
    EntriesSpelled spells xs (",".intercalate (xs.map text)).toList := by
  cases xs with
  | nil => exact .none Spaces.nil
  | cons a more =>
    have hnone : Spaces "".toList := Spaces.nil
    have hg := entriesSpelled_gaps hnone hnone (List.cons_ne_nil a more) h
    simpa using hg

theorem spaces_line (depth : Nat) :
    Spaces ("\n" ++ String.join (List.replicate depth "  ")).toList := by
  intro c hc
  rw [String.toList_append, String.toList_join] at hc
  rcases List.mem_append.mp hc with hc | hc
  · exact (by decide : Spaces "\n".toList) c hc
  · obtain ⟨unit, hunit, hc⟩ := List.mem_flatMap.mp hc
    exact (by decide : Spaces "  ".toList) c ((List.eq_of_mem_replicate hunit) ▸ hc)

/-- Entries on lines of their own, or none between the brackets. -/
theorem entriesSpelled_block (opening closing : String) (depth : Nat)
    (h : ∀ a ∈ xs, spells a (text a).toList) :
    ∃ inner, (block opening closing depth (xs.map text)).toList =
      opening.toList ++ (inner ++ closing.toList) ∧ EntriesSpelled spells xs inner := by
  by_cases hne : xs = []
  · subst xs
    exact ⟨[], by simp [block], .none Spaces.nil⟩
  · have hl := entriesSpelled_gaps (spaces_line (depth + 1)) (spaces_line depth) hne h
    refine ⟨_, ?_, hl⟩
    rw [block, if_neg (by simpa using hne)]
    simp

end Entries

/-! ## Values -/

theorem toList_quoteString (s : String) :
    (quoteString s).toList = '"' :: (s.toList.flatMap escapeChar ++ ['"']) := by
  simp [quoteString, quote]

theorem spelled_quoteString (s : String) : Spelled (.str s) (quoteString s).toList := by
  have h := Spelled.str (stringSpelled_flatMap s.toList)
  rwa [String.ofList_toList, ← toList_quoteString] at h

/-- A member that is written with a gap behind its colon. -/
theorem memberSpelled_quoteString {m : String × Json} {gap t : String} (hg : Spaces gap.toList)
    (ht : Spelled m.2 t.toList) :
    MemberSpelled m (quoteString m.1 ++ (":" ++ gap) ++ t).toList := by
  have h := MemberSpelled.mk (stringSpelled_flatMap m.1.toList) Spaces.nil hg ht
  simpa [toList_quoteString] using h

/-- The items of a list without any space. -/
theorem compactItems_eq (vs : List Json) : compactItems vs = vs.map compact := by
  induction vs with
  | nil => rfl
  | cons v rest ih => rw [compactItems, ih, List.map_cons]

theorem compactMembers_eq (ms : List (String × Json)) :
    compactMembers ms = ms.map fun m => quoteString m.1 ++ (":" ++ "") ++ compact m.2 := by
  induction ms with
  | nil => rfl
  | cons m rest ih => rw [compactMembers, ih, List.map_cons, String.append_empty]

theorem prettyItems_eq (depth : Nat) (vs : List Json) :
    prettyItems depth vs = vs.map (prettyAt (depth + 1)) := by
  induction vs with
  | nil => rfl
  | cons v rest ih => rw [prettyItems, ih, List.map_cons]

theorem prettyMembers_eq (depth : Nat) (ms : List (String × Json)) :
    prettyMembers depth ms =
      ms.map fun m => quoteString m.1 ++ (":" ++ " ") ++ prettyAt (depth + 1) m.2 := by
  induction ms with
  | nil => rfl
  | cons m rest ih =>
    rw [prettyMembers, ih, List.map_cons]
    rfl

mutual

/-- **A value that is written without spaces is spelled.** -/
theorem spelled_compact : ∀ {v : Json}, Exact v → Spelled v v.compact.toList
  | .null, _ => .word (.head _)
  | .bool true, _ => .word (.tail _ (.head _))
  | .bool false, _ => .word (.tail _ (.tail _ (.head _)))
  | .number (.int _), hn => .number (numberSpelled_int hn)
  | .number (.float _), hn => hn.elim
  | .str s, _ => spelled_quoteString s
  | .arr vs, hv => by
    have h := Spelled.list (entriesSpelled_commas (spelled_compact_of_items hv))
    rw [compact, compactItems_eq]
    simpa using h
  | .obj ms, hv => by
    have hm := spelled_compact_of_members hv
    have hnone : Spaces "".toList := Spaces.nil
    have h := Spelled.object (entriesSpelled_commas
      fun m hmem => memberSpelled_quoteString hnone (hm m hmem))
    rw [compact, compactMembers_eq]
    simpa using h

theorem spelled_compact_of_items : ∀ {vs : List Json}, ExactItems vs →
    ∀ v ∈ vs, Spelled v v.compact.toList
  | [], _ => by simp
  | _ :: _, hv => List.forall_mem_cons.mpr ⟨spelled_compact hv.1, spelled_compact_of_items hv.2⟩

theorem spelled_compact_of_members : ∀ {ms : List (String × Json)}, ExactMembers ms →
    ∀ m ∈ ms, Spelled m.2 m.2.compact.toList
  | [], _ => by simp
  | (_, _) :: _, hv =>
    List.forall_mem_cons.mpr ⟨spelled_compact hv.1, spelled_compact_of_members hv.2⟩

end

mutual

/-- **A value that is laid out over lines is spelled**, at any depth. -/
theorem spelled_prettyAt (depth : Nat) : ∀ {v : Json}, Exact v →
    Spelled v (prettyAt depth v).toList
  | .null, hv => spelled_compact hv
  | .bool _, hv => spelled_compact hv
  | .number _, hv => spelled_compact hv
  | .str _, hv => spelled_compact hv
  | .arr vs, hv => by
    obtain ⟨inner, ht, h⟩ := entriesSpelled_block "[" "]" depth
      (spelled_prettyAt_of_items (depth + 1) hv)
    rw [prettyAt, prettyItems_eq, ht]
    exact .list h
  | .obj ms, hv => by
    have hm := spelled_prettyAt_of_members (depth + 1) hv
    have hspace : Spaces " ".toList := by decide
    obtain ⟨inner, ht, h⟩ := entriesSpelled_block "\x7b" "\x7d" depth
      fun m hmem => memberSpelled_quoteString hspace (hm m hmem)
    rw [prettyAt, prettyMembers_eq, ht]
    exact .object h

theorem spelled_prettyAt_of_items (depth : Nat) : ∀ {vs : List Json}, ExactItems vs →
    ∀ v ∈ vs, Spelled v (prettyAt depth v).toList
  | [], _ => by simp
  | _ :: _, hv => List.forall_mem_cons.mpr
      ⟨spelled_prettyAt depth hv.1, spelled_prettyAt_of_items depth hv.2⟩

theorem spelled_prettyAt_of_members (depth : Nat) : ∀ {ms : List (String × Json)},
    ExactMembers ms → ∀ m ∈ ms, Spelled m.2 (prettyAt depth m.2).toList
  | [], _ => by simp
  | (_, _) :: _, hv => List.forall_mem_cons.mpr
      ⟨spelled_prettyAt depth hv.1, spelled_prettyAt_of_members depth hv.2⟩

end

/-! ## Texts -/

section Texts
variable {v : Json} {source : String}

/-- Either way in which a value is written. -/
inductive Written (v : Json) : String → Prop
  | compact : Written v v.compact
  | pretty : Written v v.pretty

theorem Written.spelled (h : Written v source) (hv : Exact v) : Spelled v source.toList := by
  cases h with
  | compact => exact spelled_compact hv
  | pretty => exact spelled_prettyAt 0 hv

/-- The value stands at the front of its text, with nothing behind it, or is nested too deep. -/
theorem Written.front (h : Written v source) (hv : Exact v) :
    (nesting v ≤ nestingLimit → Json.front source = .ok (v, [])) ∧
      (nestingLimit < nesting v → ∃ f, Json.front source = .error f ∧ f.cause = .tooDeep) :=
  front_of_spelled Spaces.nil Spaces.nil (h.spelled hv) (by simp)

/-- **The text of a value is accepted if and only if the value is not nested too deep**, and
then it is read back; a text that is refused is refused for its nesting. -/
theorem Written.read (h : Written v source) (hv : Exact v) :
    (nesting v ≤ nestingLimit → Json.read source = .ok v) ∧
      (nestingLimit < nesting v → ∃ f, Json.read source = .error f ∧ f.cause = .tooDeep) :=
  read_of_spelled Spaces.nil Spaces.nil (h.spelled hv) (by simp)

end Texts

end PageDesign.Json

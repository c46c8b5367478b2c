import Mathlib.Data.List.Forall2
import PageDesign.Proofs.Json.Spelling

/-! # The texts of the items of a list

A list is written as the texts of its items, with commas between them.  Separators belong to
the text of the item that they stand next to, so each of these texts can be read alone.  A text
holds a list if and only if it can be taken apart in this way into texts that hold the items
(`read_arr_iff`), and the items are what they hold.
-/
namespace PageDesign.Json
open Text

/-- Some texts with commas between them; where there is none, only separators stand. -/
inductive Joined : List String → List Char → Prop
  | none {gap : List Char} (hg : Spaces gap) : Joined [] gap
  | last {text : String} : Joined [text] text.toList
  | cons {text next : String} {more : List String} {s : List Char} (h : Joined (next :: more) s) :
      Joined (text :: next :: more) (text.toList ++ ',' :: s)

/-- Whether a text is a list of texts: they stand in brackets, with commas between them, and
separators may stand around the brackets. -/
def ListOf (texts : List String) (source : String) : Prop :=
  ∃ gap inner behind, Spaces gap ∧ Spaces behind ∧ Joined texts inner ∧
    source.toList = gap ++ ('[' :: (inner ++ [']']) ++ behind)

variable {texts : List String} {vs : List Json} {source : String}

/-- The text of an item is read alone, along with the separators around it. -/
theorem read_of_entry {v : Json} {before t behind : List Char} (hb : Spaces before)
    (ht : Spelled v t) (he : Spaces behind) (hn : nesting v ≤ nestingLimit) :
    read (String.ofList (before ++ (t ++ behind))) = .ok v :=
  (read_of_spelled hb he ht String.toList_ofList).1 hn

theorem exists_texts {inner : List Char} (h : EntriesSpelled Spelled vs inner)
    (hn : ∀ v ∈ vs, nesting v ≤ nestingLimit) :
    ∃ texts, Joined texts inner ∧ List.Forall₂ (fun t v => read t = .ok v) texts vs := by
  induction h with
  | none hg => exact ⟨[], .none hg, .nil⟩
  | @last _ before t behind hb ht he =>
    rw [List.forall_mem_singleton] at hn
    have hjoined := @Joined.last (String.ofList (before ++ (t ++ behind)))
    rw [String.toList_ofList] at hjoined
    exact ⟨_, hjoined, .cons (read_of_entry hb ht he hn) .nil⟩
  | @cons _ _ _ before t behind _ hb ht he _ ih =>
    obtain ⟨hfirst, hrest⟩ := List.forall_mem_cons.mp hn
    obtain ⟨texts, hjoined, hread⟩ := ih hrest
    refine ⟨String.ofList (before ++ (t ++ behind)) :: texts, ?_,
      .cons (read_of_entry hb ht he hfirst) hread⟩
    cases hread with
    | cons =>
      have hcons := @Joined.cons (String.ofList (before ++ (t ++ behind))) _ _ _ hjoined
      simpa using hcons

theorem entriesSpelled_of_texts {inner : List Char} (hj : Joined texts inner)
    (h : List.Forall₂ (fun t v => read t = .ok v) texts vs) : EntriesSpelled Spelled vs inner := by
  induction hj generalizing vs with
  | none hg =>
    cases h with
    | nil => exact .none hg
  | last =>
    cases h with
    | cons hread hmore =>
      cases hmore with
      | nil =>
        obtain ⟨-, gap, t, behind, hg, hb, ht, hs⟩ := read_eq_ok_iff.mp hread
        rw [hs]
        exact .last hg ht hb
  | cons _ ih =>
    cases h with
    | cons hread hmore =>
      obtain ⟨-, gap, t, behind, hg, hb, ht, hs⟩ := read_eq_ok_iff.mp hread
      have hrest := ih hmore
      cases hmore with
      | cons =>
        rw [hs, List.append_assoc, List.append_assoc]
        exact .cons hg ht hb hrest

/-- **A text holds a list if and only if it is a list of texts that hold the items**, and the
list is not nested too deep. -/
theorem read_arr_iff : read source = .ok (.arr vs) ↔ nesting (.arr vs) ≤ nestingLimit ∧
    ∃ texts, ListOf texts source ∧ List.Forall₂ (fun t v => read t = .ok v) texts vs := by
  rw [read_eq_ok_iff]
  refine and_congr_right fun hn => ?_
  -- alone, an item has one level more at its disposal than in the list
  have hitems : ∀ v ∈ vs, nesting v ≤ nestingLimit := fun v hv =>
    Nat.le_trans (nestingOfItems_le_iff.mp (Nat.le_refl _) v hv) (Nat.le_of_succ_le hn)
  constructor
  · rintro ⟨gap, t, behind, hg, hb, ht, hs⟩
    cases ht with
    | word hw => rcases value_of_mem_words hw with he | ⟨_, he⟩ <;> cases he
    | list h =>
      obtain ⟨texts, hjoined, hread⟩ := exists_texts h hitems
      exact ⟨texts, ⟨gap, _, behind, hg, hb, hjoined, hs⟩, hread⟩
  · rintro ⟨texts, ⟨gap, inner, behind, hg, hb, hjoined, hs⟩, hread⟩
    exact ⟨gap, _, behind, hg, hb, .list (entriesSpelled_of_texts hjoined hread), hs⟩

end PageDesign.Json

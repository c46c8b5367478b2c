import PageDesign.Proofs.Markup.Proper
import PageDesign.Proofs.Markup.Reading

/-! # What a reading yields

Whatever text is read, the nodes that come out are nodes that markup can hold
(`reading_proper`): names are made of the characters that names are read with, texts are
runs without their margins, and behind a run there is a tag or the end, so that no two
texts are ever read in a row.
-/
namespace PageDesign.Markup
open Text Node

/-! ## Names -/

theorem all_of_word? {p : Char → Bool} {s word rest : List Char}
    (h : word? p s = some (word, rest)) : ∀ c ∈ word, p c = true := by
  simp only [word?, Option.ite_none_left_eq_some, Option.some.injEq, Prod.mk.injEq] at h
  obtain ⟨-, rfl, -⟩ := h
  exact fun c hc => List.mem_takeWhile_imp hc

theorem attributeName_of_attribute? {s rest : List Char} {a : Attribute}
    (h : attribute? s = some (a, rest)) : AttributeName a.name := by
  unfold attribute? at h
  split at h
  · cases h
  · next name rest hw =>
    have hn : AttributeName (String.ofList name) := by
      rw [AttributeName, String.toList_ofList]
      exact ⟨ne_nil_of_word? hw, all_of_word? hw⟩
    split at h <;> (obtain ⟨rfl, -⟩ := h; exact hn)

/-- What holds of every attribute that can be read holds of all that are read in a row. -/
theorem forall_mem_attributes {p : Attribute → Prop}
    (hp : ∀ s a rest, attribute? s = some (a, rest) → p a) (s : List Char) :
    ∀ a ∈ (attributes s).1, p a := by
  induction hn : s.length using Nat.strongRecOn generalizing s with
  | ind n ih =>
    rw [attributes_eq]
    cases h : attribute? (skipSpace s) with
    | none => simp
    | some out =>
      obtain ⟨a, rest⟩ := out
      have hl := length_lt_of_attribute? h
      have hs := length_skipSpace_le s
      intro b hb
      rcases List.mem_cons.mp hb with rfl | hb
      · exact hp _ _ _ h
      · exact ih rest.length (by omega) rest rfl b hb

/-- The name in a tag that was read, and its attributes, which were read in a row. -/
theorem parts_of_tagUpTo? {mark s rest : List Char} {tag : String} {attrs : List Attribute}
    (h : tagUpTo? mark s = some (tag, attrs, rest)) :
    TagName tag ∧ ∃ t, attrs = (attributes t).1 := by
  unfold tagUpTo? at h
  split at h
  · cases h
  · next hh =>
    obtain ⟨-, -, ⟨rfl, rfl, -⟩⟩ := Option.map_eq_some_iff.mp h
    unfold heading? at hh
    split at hh
    · split at hh
      · cases hh
      · next hw =>
        obtain ⟨rfl, rfl, -⟩ := hh
        refine ⟨?_, _, rfl⟩
        rw [TagName, String.toList_ofList]
        exact ⟨ne_nil_of_word? hw, all_of_word? hw⟩
    · cases hh

/-- The names in a tag that was read. -/
theorem names_of_tagUpTo? {mark s rest : List Char} {tag : String} {attrs : List Attribute}
    (h : tagUpTo? mark s = some (tag, attrs, rest)) :
    TagName tag ∧ ∀ a ∈ attrs, AttributeName a.name := by
  obtain ⟨htag, t, rfl⟩ := parts_of_tagUpTo? h
  exact ⟨htag, forall_mem_attributes (fun _ _ _ h => attributeName_of_attribute? h) t⟩

/-! ## Texts -/

/-- What trimming leaves of a run is nothing or a text of its own. -/
theorem textNodes_of_noTag {text : List Char} (h : NoTag text) :
    textNodes (String.ofList text) = [] ∨
      ∃ content, textNodes (String.ofList text) = [.text content] ∧ RunText content := by
  unfold textNodes
  rw [String.toList_ofList]
  split
  · exact .inl rfl
  · next hne =>
    refine .inr ⟨_, rfl, ?_, ?_, ?_⟩
    all_goals rw [String.toList_ofList]
    · exact hne
    · exact trim_trim text
    · obtain ⟨before, behind, -, -, he⟩ := exists_pad_trim text
      rw [he] at h
      exact h.of_append_right.of_append_left

/-! ## Pages -/

/-- Nodes that markup can hold, behind a text as well. -/
def ProperBehind (nodes : List Node) : Prop :=
  ProperAll RunText nodes ∧ ∀ m ∈ nodes.head?, m.isText = false

theorem properBehind_element {info : Element} {children nodes : List Node}
    (hn : Proper RunText (.element info children)) (h : ProperAll RunText nodes) :
    ProperBehind (.element info children :: nodes) :=
  ⟨⟨hn, by simp [isText, text?], h⟩, by simp [isText, text?]⟩

/-- **Whatever is read, markup can hold it**, and what is read where a tag begins does not
begin with a text. -/
theorem reading_proper (s : List Char) :
    ProperAll RunText (reading s).nodes ∧ (AtTag s → ProperBehind (reading s).nodes) := by
  induction hn : s.length using Nat.strongRecOn generalizing s with
  | ind n ih =>
    cases step s with
    | stop he hr h =>
      rw [h]
      exact ⟨trivial, fun _ => ⟨trivial, by simp⟩⟩
    | run text rest he hr hl h =>
      obtain ⟨-, htext, hrest⟩ := noTag_of_run? hr
      obtain ⟨hp, hhead⟩ := (ih rest.length (by omega) rest rfl).2 hrest
      constructor
      · rw [h]
        rcases textNodes_of_noTag htext with ht | ⟨content, ht, hc⟩
        · simpa [Reading.prepend, ht] using hp
        · simp only [Reading.prepend, ht]
          exact ⟨hc, fun _ => hhead, hp⟩
      · intro hs
        rw [skipSpace_atTag hs, run?_eq_none hs] at hr
        cases hr
    | single tag attributes rest hs hl h =>
      obtain ⟨htag, ha⟩ := names_of_tagUpTo? hs
      have hn : Proper RunText (.element { tag, attributes, selfClosing := true } []) :=
        ⟨htag, ha, trivial⟩
      have hb := properBehind_element hn (ih rest.length (by omega) rest rfl).1
      rw [h]
      exact ⟨hb.1, fun _ => hb⟩
    | pair tags attributes inner rest hs ho hc hi hl h =>
      obtain ⟨htag, ha⟩ := names_of_tagUpTo? ho
      have hn : Proper RunText
          (.element { tag := tags.opening, attributes } (reading inner).nodes) :=
        ⟨htag, ha, (ih inner.length (by omega) inner rfl).1⟩
      have hb := properBehind_element hn (ih rest.length (by omega) rest rfl).1
      rw [h]
      exact ⟨hb.1, fun _ => hb⟩

/-- Every page that markup describes is one that markup can hold. -/
theorem proper_of_ofMarkup {source : String} {page : Node} (h : Node.ofMarkup source = .ok page) :
    ∃ nodes, page = .root nodes ∧ ProperAll RunText nodes := by
  obtain ⟨-, -, rfl⟩ := ofMarkup_eq_ok_iff.mp h
  exact ⟨_, rfl, (reading_proper _).1⟩

end PageDesign.Markup

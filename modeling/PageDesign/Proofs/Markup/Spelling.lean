import PageDesign.Proofs.Markup.Layout
import PageDesign.Proofs.Markup.Yield

/-! # How an accepted text is spelled

A layout says how a page may be written; a *spelling* says how an accepted text was
written, and there is more to it.  Separators may stand behind the bracket of a tag and
need not stand before an attribute, a text may have any blank margins, and runs that are
blank altogether may stand anywhere.  `NodesSpelled` takes a text apart into such pieces,
from left to right and with nothing left out, and ties each piece to the node it stands
for.

Every reading comes with a spelling (`reading_spelled`), so an accepted text is spelled by
the page that it is read as from its first character to its last (`ofMarkup_spelled`).
-/
namespace PageDesign.Markup
open Text Node

/-! ## What a text can be spelled with -/

/-- Attributes at the front of a text, and what follows them.  Separators may stand before
each of them, and a bare name goes on as far as it can. -/
inductive AttributesSpelled : List Attribute → List Char → List Char → Prop
  | nil (rest : List Char) : AttributesSpelled [] rest rest
  | cons {a : Attribute} {more : List Attribute} {gap s t rest : List Char} (hg : Spaces gap)
      (hn : AttributeName a.name) (ha : AttributeLaid a s t)
      (he : a.value = .flag true → ∀ c ∈ t.head?, isNameChar c = false)
      (hm : AttributesSpelled more t rest) : AttributesSpelled (a :: more) (gap ++ s) rest

/-- A tag that ends in `mark` at the front of a text, and what follows it.  Its name goes on
as far as it can. -/
inductive TagSpelled (mark : List Char) (tag : String) (attributes : List Attribute) :
    List Char → List Char → Prop
  | mk {before behind s rest : List Char} (hb : Spaces before) (ht : TagName tag)
      (hn : ∀ c ∈ s.head?, isTagChar c = false)
      (ha : AttributesSpelled attributes s (behind ++ (mark ++ rest))) (he : Spaces behind) :
      TagSpelled mark tag attributes ('<' :: (before ++ (tag.toList ++ s))) rest

/-- A run of plain text from end to end: no tag may begin inside it, and behind it one
does, or the text ends. -/
structure WholeRun (run rest : List Char) : Prop where
  ne_nil : run ≠ []
  noTag : NoTag run
  atTag : AtTag rest

/-- Nodes spelled out at the front of a text, and what follows them. -/
inductive NodesSpelled : List Node → List Char → List Char → Prop
  | stop {gap : List Char} (hg : Spaces gap) (rest : List Char) :
      NodesSpelled [] (gap ++ rest) rest
  | blank {nodes : List Node} {gap run s rest : List Char} (hg : Spaces gap)
      (hr : WholeRun run s) (ht : trim run = []) (hn : NodesSpelled nodes s rest) :
      NodesSpelled nodes (gap ++ (run ++ s)) rest
  | text {content : String} {nodes : List Node} {gap run s rest : List Char} (hg : Spaces gap)
      (hr : WholeRun run s) (ht : trim run = content.toList) (hc : content ≠ "")
      (hn : NodesSpelled nodes s rest) :
      NodesSpelled (.text content :: nodes) (gap ++ (run ++ s)) rest
  | single {tag : String} {attributes : List Attribute} {nodes : List Node}
      {gap s t rest : List Char} (hg : Spaces gap) (ht : TagSpelled ['/', '>'] tag attributes s t)
      (hn : NodesSpelled nodes t rest) :
      NodesSpelled (.element { tag, attributes, selfClosing := true } [] :: nodes)
        (gap ++ s) rest
  | pair {tag : String} {attributes : List Attribute} {children nodes : List Node}
      {gap s inner behind t rest : List Char} (hg : Spaces gap)
      (ho : TagSpelled ['>'] tag attributes s inner) (hi : NodesSpelled children inner behind)
      (hc : ClosingLaid tag behind t) (hn : NodesSpelled nodes t rest) :
      NodesSpelled (.element { tag, attributes } children :: nodes) (gap ++ s) rest

/-! ## Words -/

/-- A word that was read does not go on. -/
theorem head_of_word? {p : Char → Bool} {s word rest : List Char}
    (h : word? p s = some (word, rest)) : ∀ c ∈ rest.head?, p c = false := by
  simp only [word?, Option.ite_none_left_eq_some, Option.some.injEq, Prod.mk.injEq] at h
  obtain ⟨-, -, rfl⟩ := h
  intro c hc
  have hd := List.head?_dropWhile_not p s
  rw [Option.mem_def.mp hc] at hd
  simpa using hd

/-- What stands before the next mark does not hold it. -/
theorem not_mem_of_upTo? {mark : Char} {s inner rest : List Char}
    (h : upTo? mark s = some (inner, rest)) : mark ∉ inner := by
  unfold upTo? at h
  split at h
  · cases h
  · obtain ⟨rfl, -⟩ := Prod.mk.inj (Option.some.inj h)
    intro hm
    simpa using List.mem_takeWhile_imp hm

/-- A quoted value stands between two quotes of one kind and holds none of them. -/
theorem eq_append_of_quoted? {s inner rest : List Char} (h : quoted? s = some (inner, rest)) :
    ∃ quote, (quote = '"' ∨ quote = '\'') ∧ quote ∉ inner ∧
      s = quote :: (inner ++ quote :: rest) := by
  unfold quoted? at h
  split at h
  · exact ⟨'"', .inl rfl, not_mem_of_upTo? h, by rw [eq_append_of_upTo? h]⟩
  · exact ⟨'\'', .inr rfl, not_mem_of_upTo? h, by rw [eq_append_of_upTo? h]⟩
  · cases h

/-! ## Tags -/

theorem attribute_spelled {s rest : List Char} {a : Attribute}
    (h : attribute? s = some (a, rest)) :
    AttributeLaid a s rest ∧ (a.value = .flag true → ∀ c ∈ rest.head?, isNameChar c = false) := by
  unfold attribute? at h
  split at h
  · cases h
  · next name t hw =>
    have hs : s = (String.ofList name).toList ++ t := by
      rw [String.toList_ofList, ← eq_append_of_word? hw]
    split at h
    · next raw behind ha =>
      obtain ⟨rfl, rfl⟩ := Prod.mk.inj (Option.some.inj h)
      refine ⟨?_, fun hv => by cases hv⟩
      unfold assigned? at ha
      split at ha
      · next u hu =>
        obtain ⟨quote, hq, hraw, hquoted⟩ := eq_append_of_quoted? ha
        obtain ⟨before, hb, ht⟩ := exists_gap t
        obtain ⟨gap, hg, hgap⟩ := exists_gap u
        rw [hu, hgap, hquoted] at ht
        rw [hs, ht]
        exact .text hb hg hq hraw String.toList_ofList.symm behind
      · cases ha
    · obtain ⟨rfl, rfl⟩ := Prod.mk.inj (Option.some.inj h)
      rw [hs]
      exact ⟨.flag _ _, fun _ => head_of_word? hw⟩

theorem attributes_spelled (s : List Char) :
    AttributesSpelled (attributes s).1 s (attributes s).2 := by
  induction hn : s.length using Nat.strongRecOn generalizing s with
  | ind n ih =>
    rw [attributes_eq]
    cases h : attribute? (skipSpace s) with
    | none => exact .nil s
    | some out =>
      obtain ⟨a, rest⟩ := out
      have hl := length_lt_of_attribute? h
      have hs := length_skipSpace_le s
      obtain ⟨gap, hg, hgap⟩ := exists_gap s
      obtain ⟨hlaid, hend⟩ := attribute_spelled h
      have hm := ih rest.length (by omega) rest rfl
      have hspelled := AttributesSpelled.cons hg (attributeName_of_attribute? h) hlaid hend hm
      rwa [← hgap] at hspelled

theorem tag_spelled {mark s rest : List Char} {tag : String} {attrs : List Attribute}
    (h : tagUpTo? mark s = some (tag, attrs, rest)) : TagSpelled mark tag attrs s rest := by
  have ht := (names_of_tagUpTo? h).1
  unfold tagUpTo? at h
  split at h
  · cases h
  · next hh =>
    obtain ⟨t, ha, he⟩ := Option.map_eq_some_iff.mp h
    obtain ⟨rfl, rfl, rfl⟩ : _ ∧ _ ∧ _ := by simpa using he
    rw [after?_eq_some_iff] at ha
    unfold heading? at hh
    split at hh
    · next u =>
      split at hh
      · cases hh
      · next name v hw =>
        obtain ⟨rfl, rfl, hskip⟩ : _ ∧ _ ∧ _ := by simpa using hh
        obtain ⟨before, hb, hu⟩ := exists_gap u
        obtain ⟨behind, hg, hv⟩ := exists_gap (attributes v).2
        rw [hskip, ha] at hv
        have hspelled := attributes_spelled v
        rw [hv] at hspelled
        rw [eq_append_of_word? hw] at hu
        rw [hu]
        have hlaid := TagSpelled.mk hb ht (head_of_word? hw) hspelled hg
        rwa [String.toList_ofList] at hlaid
    · cases hh

theorem closing_laid {s rest : List Char} {tag : String} (h : closing? s = some (tag, rest)) :
    ClosingLaid tag s rest := by
  unfold closing? at h
  split at h
  · cases h
  · next t hs =>
    rw [after?_eq_some_iff] at hs
    split at h
    · cases h
    · next name u hw =>
      obtain ⟨v, ha, he⟩ := Option.map_eq_some_iff.mp h
      obtain ⟨rfl, rfl⟩ := Prod.mk.inj he
      rw [after?_eq_some_iff] at ha
      obtain ⟨before, hb, ht⟩ := exists_gap t
      obtain ⟨behind, hg, hu⟩ := exists_gap u
      rw [eq_append_of_word? hw, hu, ha] at ht
      rw [hs, ht]
      have hlaid : ClosingLaid (String.ofList name) _ v := .mk hb hg v
      rwa [String.toList_ofList] at hlaid

/-! ## Readings -/

/-- The nodes of a run, spelled by the run. -/
theorem run_spelled {run s rest gap : List Char} {nodes : List Node} (hg : Spaces gap)
    (hr : WholeRun run s) (hn : NodesSpelled nodes s rest) :
    NodesSpelled (textNodes (String.ofList run) ++ nodes) (gap ++ (run ++ s)) rest := by
  unfold textNodes
  rw [String.toList_ofList]
  split
  · next ht => exact .blank hg hr ht hn
  · next hne =>
    refine .text hg hr String.toList_ofList.symm ?_ hn
    intro he
    exact hne (by simpa using congrArg String.toList he)

/-- **A reading comes with a spelling** of all that it takes from the front of a text, if
the names in its pairs of tags agree. -/
theorem reading_spelled (s : List Char)
    (hp : ∀ tags ∈ (reading s).pairs, tags.closing = tags.opening) :
    NodesSpelled (reading s).nodes s (reading s).left := by
  induction hn : s.length using Nat.strongRecOn generalizing s with
  | ind n ih =>
    obtain ⟨gap, hg, hgap⟩ := exists_gap s
    cases step s with
    | stop he hr h =>
      rw [h]
      have hs := NodesSpelled.stop hg (skipSpace s)
      rwa [← hgap] at hs
    | run text rest he hr hl h =>
      rw [h] at hp ⊢
      obtain ⟨hne, hno, hat⟩ := noTag_of_run? hr
      have hs := run_spelled hg ⟨hne, hno, hat⟩ (ih rest.length (by omega) rest hp rfl)
      rwa [← eq_append_of_run? hr, ← hgap] at hs
    | single tag attributes rest hs hl h =>
      rw [h] at hp ⊢
      have hs := NodesSpelled.single hg (tag_spelled hs) (ih rest.length (by omega) rest hp rfl)
      rwa [← hgap] at hs
    | pair tags attributes inner rest hs ho hc hi hl h =>
      rw [h] at hp ⊢
      simp only [Reading.pair, List.mem_append, List.mem_cons] at hp ⊢
      -- the names in the pair itself agree too, so the closing tag is that of the element
      have htags := hp tags (.inr (.inl rfl))
      have hinner := ih inner.length (by omega) inner (fun t ht => hp t (.inl ht)) rfl
      have hrest := ih rest.length (by omega) rest (fun t ht => hp t (.inr (.inr ht))) rfl
      have hclose := closing_laid hc
      rw [htags] at hclose
      have hs := NodesSpelled.pair hg (tag_spelled ho) hinner hclose hrest
      rwa [← hgap] at hs

/-- **An accepted text is spelled by its page** from the first character to the last: every
node by a piece of the text of its own, in the order of the page, with nothing but
separators and blank runs between them. -/
theorem ofMarkup_spelled {source : String} {page : Node} (h : Node.ofMarkup source = .ok page) :
    ∃ nodes, page = .root nodes ∧ NodesSpelled nodes source.toList [] := by
  obtain ⟨hleft, hpairs, rfl⟩ := ofMarkup_eq_ok_iff.mp h
  have hs := reading_spelled source.toList hpairs
  rw [hleft] at hs
  exact ⟨_, rfl, hs⟩

/-- Attributes without a gap between them, a text with blank margins, and a name apart from
its bracket. -/
theorem ofMarkup_spelled_loose :
    let source := "<a b='&lt;'c> x\u00a0</ a >< hr/>"
    let a : Element := { tag := "a", attributes := [⟨"b", .text "<"⟩, ⟨"c", .flag true⟩] }
    let hr : Element := { tag := "hr", selfClosing := true }
    let page : Node := .root [.element a [.text "x"], .element hr []]
    Node.ofMarkup source = .ok page ∧
      ∃ nodes, page = .root nodes ∧ NodesSpelled nodes source.toList [] := by
  intro source a hr page
  have hnone : single? (skipSpace source.toList) = none := by decide +kernel
  have hopen : opening? (skipSpace source.toList) =
      some ("a", a.attributes, " x\u00a0</ a >< hr/>".toList) := by decide +kernel
  have hrun : run? (skipSpace " x\u00a0</ a >< hr/>".toList) =
      some ("x\u00a0".toList, "</ a >< hr/>".toList) := by decide +kernel
  have htext : element? (skipSpace " x\u00a0</ a >< hr/>".toList) = none :=
    element?_eq_none (heading?_eq_none_of_ne (by decide) _)
  have hstop : reading "</ a >< hr/>".toList = ⟨[], [], "</ a >< hr/>".toList⟩ :=
    reading_stop (element?_eq_none (by decide +kernel)) (by decide +kernel)
  have hinner : reading " x\u00a0</ a >< hr/>".toList =
      ⟨[.text "x"], [], "</ a >< hr/>".toList⟩ := by
    rw [reading_run htext hrun, hstop]
    rfl
  have hclose : closing? (reading " x\u00a0</ a >< hr/>".toList).left =
      some ("a", "< hr/>".toList) := by
    rw [hinner]
    decide +kernel
  have hsingle : single? (skipSpace "< hr/>".toList) = some ("hr", [], []) := by decide +kernel
  have hend : reading [] = ⟨[], [], []⟩ := Ends.reading (.inl rfl)
  have h : Node.ofMarkup source = .ok page := by
    rw [ofMarkup_eq_ok_iff, reading_pair ⟨"a", "a"⟩ hnone hopen hclose, reading_single hsingle,
      hinner, hend]
    exact ⟨rfl, by simp [Reading.pair, Reading.prepend], rfl⟩
  exact ⟨h, ofMarkup_spelled h⟩

end PageDesign.Markup

import PageDesign.Proofs.Markup.Derivation

/-! # Which closing tag is reported

A markup text is refused for its closing tags only after it has been taken apart, and taking
it apart asks nothing of their names: it does what the grammar says (`nodes_derived`,
`document_derives`).

The elements among the tokens are listed behind all that is inside of them, which is the order
of their closing tags (`MadeOut`).  The error is about the first of them whose names differ,
so it is about the closing tag that comes first in the text, at whatever depth, and whatever
follows (`ofMarkup_by_grammar`).
-/
namespace PageDesign.Markup
open Text Peg

/-- What the tokens of the nodes at the front of a text have to do with its reading: they hold
the same pairs of tags, and the closing tags stand in the order of the list, inside of what
was read. -/
structure MadeOut (s : List Char) (tokens : List (Token Symbol)) (pairs : List Tags)
    (rest : List Char) : Prop where
  node : ∀ t ∈ tokens, t.rule = .element ∨ t.rule = .text
  pairs : (elementsOf tokens).map (·.tags) = pairs
  sorted : (elementsOf tokens).Pairwise fun e later => later.left < e.left
  inside : ∀ e ∈ elementsOf tokens, rest.length < e.left ∧ e.left ≤ s.length

namespace MadeOut
variable {s t u rest : List Char} {x y tokens : List (Token Symbol)} {p q pairs : List Tags}

theorem nil (s : List Char) : MadeOut s [] [] rest where
  node := nofun
  pairs := by rw [elementsOf_nil]; rfl
  sorted := by rw [elementsOf_nil]; exact .nil
  inside := by rw [elementsOf_nil]; exact nofun

/-- One node without tags that could differ. -/
theorem single {t : Token Symbol} (hr : t.rule = .element ∨ t.rule = .text)
    (ht : elementsOf [t] = []) : MadeOut s [t] [] rest where
  node := by simpa using hr
  pairs := by rw [ht]; rfl
  sorted := by rw [ht]; exact .nil
  inside := by rw [ht]; exact nofun

theorem append (hx : MadeOut s x p t) (hy : MadeOut t y q rest)
    (ht : t.length ≤ s.length) (hrest : rest.length ≤ t.length) :
    MadeOut s (x ++ y) (p ++ q) rest where
  node z hz := (List.mem_append.mp hz).elim (hx.node z) (hy.node z)
  pairs := by rw [elementsOf_append, List.map_append, hx.pairs, hy.pairs]
  sorted := by
    rw [elementsOf_append, List.pairwise_append]
    refine ⟨hx.sorted, hy.sorted, fun e he later hl => ?_⟩
    have := (hx.inside e he).1
    have := (hy.inside later hl).2
    omega
  inside e he := by
    rw [elementsOf_append, List.mem_append] at he
    rcases he with he | he
    · have := hx.inside e he
      omega
    · have := hy.inside e he
      omega

theorem mono (h : MadeOut s tokens pairs t) (hs : s.length ≤ u.length)
    (ht : rest.length ≤ t.length) : MadeOut u tokens pairs rest where
  node := h.node
  pairs := h.pairs
  sorted := h.sorted
  inside e he := by
    have := h.inside e he
    omega

end MadeOut

variable {whole s t rest : List Char}

/-- What the grammar makes of the nodes at the front of a text, from any place on that is the
same behind the separators. -/
def NodesDerived (whole s : List Char) : Prop :=
  ∃ tokens rest, skipSpace rest = (reading s).left ∧
    MadeOut s tokens (reading s).pairs (reading s).left ∧
    Derives grammar whole .loose (.rep (.cat .gap (.rule .node))) s (some (tokens, rest))

/-- The nodes behind an opening tag, and what is left behind the separators that follow. -/
theorem NodesDerived.many (h : NodesDerived whole s) : ∃ tokens rest,
    skipSpace rest = (reading s).left ∧
      MadeOut s tokens (reading s).pairs (reading s).left ∧
      Derives grammar whole .loose (.many (.rule .node)) (skipSpace s) (some (tokens, rest)) := by
  obtain ⟨tokens, rest, hrest, hm, hd⟩ := h
  obtain ⟨rest', hr, hmany⟩ := hd.many
  exact ⟨tokens, rest', hr.trans hrest, hm, hmany⟩

theorem single_none (h : single? s = none) :
    Derives grammar whole .loose (.rule .singleTag) s none :=
  tag_none rfl rfl h

theorem opening_none (h : opening? s = none) :
    Derives grammar whole .loose (.rule .openTag) s none :=
  tag_none rfl rfl h

/-- Where no tag can be read with all that belongs to it, the grammar has no element either. -/
theorem element_none (ih : ∀ inner : List Char, inner.length < s.length → NodesDerived whole inner)
    (h : element? s = none) : Derives grammar whole .loose (.rule .element) s none := by
  have he := element?_eq s
  rw [h] at he
  refine .rule_none ?_
  cases hs : single? s with
  | some out =>
    rw [hs] at he
    cases he
  | none =>
    refine .alt_right (single_none hs) ?_
    cases ho : opening? s with
    | none => exact .seq_none_head (opening_none ho)
    | some out =>
      obtain ⟨tag, attributes, inner⟩ := out
      obtain ⟨t, -, -, -, hopen⟩ :=
        tag_some whole (r := .openTag) rfl rfl (by decide) ho
      obtain ⟨tokens, rest, hrest, -, hmany⟩ := (ih inner (length_lt_of_tagUpTo? ho)).many
      refine .seq_none_tail hopen (.seq_none_tail hmany (closing_none ?_))
      change closing? (skipSpace rest) = none
      rw [hrest]
      rw [hs, ho] at he
      simp only at he
      cases hc : closing? (reading inner).left with
      | none => rfl
      | some out =>
        rw [show closing? (skipSpace (pieces inner).1.2) = some out from hc] at he
        cases he

theorem element_single (whole : List Char) {tag : String} {attributes : List Attribute}
    (h : single? s = some (tag, attributes, rest)) : ∃ t, t.rule = .element ∧
      elementsOf [t] = [] ∧ Derives grammar whole .loose (.rule .element) s (some ([t], rest)) := by
  obtain ⟨t, hr, -, ht, hd⟩ :=
    tag_some whole (r := .singleTag) rfl rfl (by decide) h
  have hbody : Derives grammar whole .loose (grammar.body .element) s (some ([t], rest)) :=
    .alt_left hd
  obtain ⟨text, -, hrule⟩ := Derives.exists_rule (m := .loose) (r := Symbol.element) hbody
  refine ⟨_, rfl, ?_, hrule⟩
  rw [elementsOf_singleton, elements, elementsOf_singleton, ht]
  simp [pairedBy, hr]

/-- The tokens of an element with two tags: the nodes inside first, then its own tags. -/
theorem element_pair {tags : Tags} {attributes : List Attribute} {inner : List Char}
    (hs : single? s = none) (ho : opening? s = some (tags.opening, attributes, inner))
    (hc : closing? (reading inner).left = some (tags.closing, rest))
    (hin : NodesDerived whole inner) : ∃ t,
      MadeOut s [t] ((reading inner).pairs ++ [tags]) rest ∧
      Derives grammar whole .loose (.rule .element) s (some ([t], rest)) := by
  obtain ⟨o, hor, hon, hoe, hopen⟩ :=
    tag_some whole (r := .openTag) rfl rfl (by decide) ho
  obtain ⟨tokens, behind, hbehind, hm, hmany⟩ := hin.many
  obtain ⟨c, hcr, hcn, hcl, hce, hclose⟩ := closing_some whole hc
  rw [← hbehind] at hclose
  have hbody : Derives grammar whole .loose (grammar.body .element) s
      (some ([o] ++ (tokens ++ [c]), rest)) :=
    .alt_right (single_none hs) (.seq_cons hopen (.seq_cons hmany hclose))
  obtain ⟨text, -, hrule⟩ := Derives.exists_rule (m := .loose) (r := Symbol.element) hbody
  refine ⟨_, ?_, hrule⟩
  have hpaired : pairedBy ([o] ++ (tokens ++ [c])) = [⟨tags, (reading inner).left.length⟩] := by
    have hfind : ([o] ++ (tokens ++ [c])).find? (·.rule = .closeTag) = some c := by
      have htokens : tokens.find? (·.rule = .closeTag) = none := by
        rw [List.find?_eq_none]
        intro t ht
        rcases hm.node t ht with h | h <;> simp [h]
      simp [List.find?_append, htokens, hor, hcr]
    rw [pairedBy, hfind]
    simp [hor, hon, hcn, hcl]
  have helements : elementsOf [Token.mk Symbol.element text s.length ([o] ++ (tokens ++ [c]))] =
      elementsOf tokens ++ [⟨tags, (reading inner).left.length⟩] := by
    rw [elementsOf_singleton, elements, if_pos rfl, hpaired, elementsOf_append, elementsOf_append,
      elementsOf_singleton, elementsOf_singleton, hoe, hce, List.nil_append, List.append_nil]
  have hlt := length_lt_of_tagUpTo? ho
  have hcl := length_lt_of_closing? hc
  have hle := length_left_le inner
  constructor
  · simp [Token.rule]
  · rw [helements, List.map_append, hm.pairs]
    rfl
  · rw [helements, List.pairwise_append]
    refine ⟨hm.sorted, List.pairwise_singleton _ _, fun e he later hl => ?_⟩
    rw [List.mem_singleton.mp hl]
    exact (hm.inside e he).1
  · intro e he
    rw [helements, List.mem_append, List.mem_singleton] at he
    rcases he with he | rfl
    · have := hm.inside e he
      omega
    · exact ⟨hcl, by simp only; omega⟩

/-- **The grammar makes out what a reading does**, by the ways in which a reading goes on. -/
theorem nodes_derived (whole s : List Char) : NodesDerived whole s := by
  induction hn : s.length using Nat.strongRecOn generalizing s with
  | ind n ih =>
    have hskip := length_skipSpace_le s
    have hnone (he : element? (skipSpace s) = none) :
        Derives grammar whole .loose (.rule .element) (skipSpace s) none :=
      element_none (fun inner hlt => ih inner.length (by omega) inner rfl) he
    have hnode {out : Outcome Symbol} (h : Derives grammar whole .loose (grammar.body .node)
        (skipSpace s) out) : Derives grammar whole .loose (.rule .node) (skipSpace s) out := by
      cases out with
      | none => exact .rule_none h
      | some out =>
        obtain ⟨text, -, hr⟩ := Derives.exists_rule (m := .loose) (r := Symbol.node) h
        exact hr
    cases step s with
    | stop he hr h =>
      refine ⟨[], s, by rw [h], by rw [h]; exact .nil s, .rep_stop (.cat_none_right .gap ?_)⟩
      exact hnode (.alt_right (hnone he) (text_none hr))
    | run text rest he hr hl h =>
      obtain ⟨tokens, behind, hb, hm, hd⟩ := ih rest.length (by omega) rest rfl
      have hnd := hnode (.alt_right (hnone he) (text_some hr))
      refine ⟨_, behind, by rw [h]; exact hb, ?_, .rep_more (.cat .gap hnd) hd⟩
      rw [h]
      refine MadeOut.append (p := []) (.single (.inr rfl) ?_) hm (by omega) (length_left_le rest)
      exact elementsOf_leaf (by decide) elementsOf_nil
    | single tag attributes rest hs hl h =>
      obtain ⟨tokens, behind, hb, hm, hd⟩ := ih rest.length (by omega) rest rfl
      obtain ⟨t, ht, hte, htd⟩ := element_single whole hs
      refine ⟨_, behind, by rw [h]; exact hb, ?_,
        .rep_more (.cat .gap (hnode (.alt_left htd))) hd⟩
      rw [h]
      exact MadeOut.append (p := []) (.single (.inl ht) hte) hm (by omega) (length_left_le rest)
    | pair tags attributes inner rest hs ho hc hi hl h =>
      obtain ⟨tokens, behind, hb, hm, hd⟩ := ih rest.length (by omega) rest rfl
      obtain ⟨t, htm, htd⟩ := element_pair hs ho hc (ih inner.length (by omega) inner rfl)
      refine ⟨_, behind, by rw [h]; exact hb, ?_,
        .rep_more (.cat .gap (hnode (.alt_left htd))) hd⟩
      rw [h]
      have happ := (htm.mono (u := s) hskip le_rfl).append hm (by omega) (length_left_le rest)
      simpa [Reading.pair] using happ

/-- **The grammar matches a text just when its reading leaves nothing over.** -/
theorem document_derives (s : List Char) : ∃ tokens,
    (elementsOf tokens).map (·.tags) = (reading s).pairs ∧
    ((elementsOf tokens).Pairwise fun e later => later.left < e.left) ∧
    Derives grammar s .loose (.rule .document) s
      (if (reading s).left = [] then some (tokens, []) else none) := by
  obtain ⟨x, rest, hrest, hm, hmany⟩ := (nodes_derived s s).many
  have hstart : Derives grammar s .loose .start s (some ([], s)) := .start rfl
  by_cases hl : (reading s).left = []
  · have hend : Derives grammar s .loose (.rule .endOfInput) (skipSpace rest)
        (some ([.mk .endOfInput [] 0 []], [])) := by
      rw [hrest, hl]
      exact .rule (.finish rfl) (List.nil_append []).symm
    have hbody : Derives grammar s .loose (grammar.body .document) s _ :=
      .seq_cons hstart (.seq_cons hmany hend)
    obtain ⟨text, -, hrule⟩ := Derives.exists_rule (m := .loose) (r := Symbol.document) hbody
    have helements : elementsOf [Token.mk Symbol.document text s.length
        ([] ++ (x ++ [.mk .endOfInput [] 0 []]))] = elementsOf x := by
      rw [elementsOf_singleton, elements, elementsOf_append, elementsOf_append,
        elementsOf_leaf (by decide) elementsOf_nil]
      simp
    refine ⟨_, ?_, ?_, by rw [if_pos hl]; exact hrule⟩
    · exact (congrArg _ helements).trans hm.pairs
    · exact helements ▸ hm.sorted
  · refine ⟨x, hm.pairs, hm.sorted, ?_⟩
    rw [if_neg hl]
    refine .rule_none (.seq_none_tail hstart (.seq_none_tail hmany (.rule_none ?_)))
    refine .finish_none fun h => hl ?_
    rw [← hrest]
    exact h

/-! ## The three outcomes -/

/-- In a list in the order of the closing tags, the first element of a kind is the one whose
closing tag comes first. -/
theorem find?_tags_eq_some_iff {es : List Paired} {p : Tags → Bool} (tags : Tags)
    (h : es.Pairwise fun e later => later.left < e.left) :
    (es.map (·.tags)).find? p = some tags ↔ ∃ e ∈ es, e.tags = tags ∧ p e.tags = true ∧
      ∀ other ∈ es, p other.tags = true → other = e ∨ other.left < e.left := by
  -- what comes before the first has another kind, what comes behind it has less left
  have first {e : Paired} (hf : es.find? (p ∘ (·.tags)) = some e) : e ∈ es ∧ p e.tags = true ∧
      ∀ other ∈ es, p other.tags = true → other = e ∨ other.left < e.left := by
    obtain ⟨hp, before, behind, rfl, hb⟩ := List.find?_eq_some_iff_append.mp hf
    refine ⟨by simp, hp, fun other ho hpo => ?_⟩
    rcases List.mem_append.mp ho with ho | ho
    · have := hb other ho
      simp [hpo] at this
    · rcases List.mem_cons.mp ho with rfl | ho
      · exact .inl rfl
      · have hs := (List.pairwise_append.mp h).2.1
        exact .inr ((List.pairwise_cons.mp hs).1 other ho)
  rw [List.find?_map, Option.map_eq_some_iff]
  constructor
  · rintro ⟨e, hf, rfl⟩
    obtain ⟨he, hp, hfirst⟩ := first hf
    exact ⟨e, he, rfl, hp, hfirst⟩
  · rintro ⟨e, he, rfl, hp, hfirst⟩
    cases hf : es.find? (p ∘ (·.tags)) with
    | none => exact absurd hp (by simpa using List.find?_eq_none.mp hf e he)
    | some e' =>
      obtain ⟨he', hp', hfirst'⟩ := first hf
      refine ⟨e', rfl, congrArg _ ?_⟩
      rcases hfirst e' he' hp' with h | h
      · exact h
      · rcases hfirst' e he hp with h' | h'
        · exact h'.symm
        · omega

/-- **Which error a text is refused with.**  The grammar has exactly one outcome on a text.
If it does not match, the text is unreadable; if it does and the names in all its elements
agree, there is a page; else the error names the two tags of the element whose closing tag
comes first among those that differ. -/
theorem ofMarkup_by_grammar (source : String) :
    (∃! out, Derives grammar source.toList .loose (.rule .document) source.toList out) ∧
    ((∃ snag, Node.ofMarkup source = .error (.unreadable snag)) ↔
      ¬ ∃ tokens, Matches source.toList tokens) ∧
    ((∃ page, Node.ofMarkup source = .ok page) ↔ ∃ tokens, Matches source.toList tokens ∧
      ∀ e ∈ elementsOf tokens, e.tags.closing = e.tags.opening) ∧
    ∀ tags, Node.ofMarkup source = .error (.mismatch tags) ↔
      ∃ tokens, Matches source.toList tokens ∧ ∃ e ∈ elementsOf tokens, e.tags = tags ∧
        e.tags.closing ≠ e.tags.opening ∧ ∀ other ∈ elementsOf tokens,
          other.tags.closing ≠ other.tags.opening → other = e ∨ other.left < e.left := by
  obtain ⟨tokens, hpairs, hsorted, hd⟩ := document_derives source.toList
  refine ⟨⟨_, hd, fun out h => h.unique hd⟩, ?_⟩
  rw [ofMarkup_eq, ← hpairs]
  by_cases hl : (reading source.toList).left = []
  · rw [if_pos hl] at hd ⊢
    have hex (p : List (Token Symbol) → Prop) :
        (∃ found, Matches source.toList found ∧ p found) ↔ p tokens := by
      refine ⟨fun ⟨found, hm, hp⟩ => ?_, fun hp => ⟨tokens, hd, hp⟩⟩
      obtain ⟨rfl, -⟩ := Prod.mk.inj (Option.some.inj (Derives.unique hm hd))
      exact hp
    refine ⟨iff_of_false ?_ fun h => h ⟨tokens, hd⟩, (Iff.trans ?_ (hex _).symm),
      fun tags => Iff.trans ?_ (hex _).symm⟩
    · rintro ⟨snag, h⟩
      split at h <;> cases h
    · have hnone : ((elementsOf tokens).map (·.tags)).find?
          (fun tags => tags.closing ≠ tags.opening) = none ↔
          ∀ e ∈ elementsOf tokens, e.tags.closing = e.tags.opening := by
        simp [List.find?_eq_none]
      rw [← hnone]
      generalize List.find? _ _ = found
      cases found <;> simp
    · have hsome := find?_tags_eq_some_iff (p := fun tags => tags.closing ≠ tags.opening) tags
        hsorted
      simp only [decide_eq_true_iff] at hsome
      rw [← hsome]
      generalize List.find? _ _ = found
      cases found <;> simp
  · rw [if_neg hl] at hd ⊢
    have hno (p : List (Token Symbol) → Prop) :
        ¬ ∃ found, Matches source.toList found ∧ p found := by
      rintro ⟨found, hm, -⟩
      cases Derives.unique hm hd
    refine ⟨iff_of_true ⟨_, rfl⟩ fun ⟨found, hm⟩ => hno (fun _ => True) ⟨found, hm, trivial⟩,
      iff_of_false (fun ⟨page, h⟩ => nomatch h) (hno _),
      fun tags => iff_of_false (fun h => nomatch h) (hno _)⟩

end PageDesign.Markup

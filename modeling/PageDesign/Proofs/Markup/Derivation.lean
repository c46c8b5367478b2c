import PageDesign.Proofs.Markup.Reading
import PageDesign.Proofs.Text.Peg

/-! # The grammar of markup

The rules of markup, written down as a grammar whose alternatives are tried in order
(`grammar`).  It asks nothing of the names in closing tags.  The tokens of a document hold its
elements, each with the names in its two tags and the place of its closing tag
(`elementsOf`).

Each reader takes what its rule takes and refuses what its rule refuses: words and runs of
text, quoted values, attributes, tags.  An attribute without a value takes the separators
behind it as well, so that what is left agrees only from the next character on that is no
separator; every rule that follows begins behind them.
-/
namespace PageDesign.Markup
open Text Peg

/-- What the grammar of markup has rules for. -/
inductive Symbol where
  | document | node | element | singleTag | openTag | closeTag | tagName
  | attribute | attributeName | quoted | inDouble | inSingle | text | endOfInput
  deriving DecidableEq

open Expr in
/-- The grammar of markup. -/
def grammar : Grammar Symbol where
  separator := isSpace
  kind
    | .node => .silent
    | .tagName | .attributeName | .inDouble | .inSingle | .text => .atomic
    | .quoted => .compound
    | _ => .plain
  body
    | .document => seq [start, many (rule .node), rule .endOfInput]
    | .node => alt (rule .element) (rule .text)
    | .element =>
      alt (rule .singleTag) (seq [rule .openTag, many (rule .node), rule .closeTag])
    | .singleTag => seq [mark ['<'], rule .tagName, many (rule .attribute), mark ['/', '>']]
    | .openTag => seq [mark ['<'], rule .tagName, many (rule .attribute), mark ['>']]
    | .closeTag => seq [mark ['<', '/'], rule .tagName, mark ['>']]
    | .tagName =>
      more (choice [one Char.isAlphanum, mark ['-'], mark ['_'], mark [':'], mark ['.']])
    | .attribute => seq [rule .attributeName, optional (seq [mark ['='], rule .quoted])]
    | .attributeName =>
      more (seq [not (choice [one isSpace, mark ['='], mark ['>'], mark ['/'], mark ['<'],
        mark ['"'], mark ['\'']]), one fun _ => true])
    | .quoted =>
      alt (seq [mark ['"'], rule .inDouble, mark ['"']])
        (seq [mark ['\''], rule .inSingle, mark ['\'']])
    | .inDouble => many (seq [not (mark ['"']), one fun _ => true])
    | .inSingle => many (seq [not (mark ['\'']), one fun _ => true])
    | .text =>
      more (seq [not (seq [mark ['<'], choice [mark ['/'], rule .tagName]]), one fun _ => true])
    | .endOfInput => finish

/-- A text is a document with these tokens. -/
def Matches (s : List Char) (tokens : List (Token Symbol)) : Prop :=
  Derives grammar s .loose (.rule .document) s (some (tokens, []))

/-! ## Elements among the tokens -/

/-- An element with two tags: their names, and how many characters are left where the closing
tag begins. -/
structure Paired where
  tags : Tags
  left : Nat

/-- The name in a tag. -/
def nameIn (tag : Token Symbol) : String :=
  match tag.inner.find? (·.rule = .tagName) with
  | some name => String.ofList name.text
  | none => ""

/-- The tags among the tokens of an element; nothing if it is a single tag. -/
def pairedBy (inner : List (Token Symbol)) : List Paired :=
  match inner.find? (·.rule = .openTag), inner.find? (·.rule = .closeTag) with
  | some opening, some closing => [⟨⟨nameIn opening, nameIn closing⟩, closing.left⟩]
  | _, _ => []

mutual

/-- The elements with two tags in a token, at any depth. -/
def elements : Token Symbol → List Paired
  | .mk rule _ _ inner => elementsOf inner ++ if rule = .element then pairedBy inner else []

/-- The elements with two tags in a list of tokens, at any depth. -/
def elementsOf : List (Token Symbol) → List Paired
  | [] => []
  | t :: rest => elements t ++ elementsOf rest

end

@[simp] theorem elementsOf_nil : elementsOf [] = [] := by rw [elementsOf]

@[simp] theorem elementsOf_append (x y : List (Token Symbol)) :
    elementsOf (x ++ y) = elementsOf x ++ elementsOf y := by
  induction x with
  | nil => rw [elementsOf_nil]; rfl
  | cons t x ih => rw [List.cons_append, elementsOf, elementsOf, ih, List.append_assoc]

theorem elementsOf_singleton (t : Token Symbol) : elementsOf [t] = elements t := by
  rw [elementsOf, elementsOf_nil, List.append_nil]

/-- A token of another rule has no elements but those in it. -/
theorem elementsOf_leaf {r : Symbol} {text : List Char} {left : Nat}
    {inner : List (Token Symbol)} (hr : r ≠ .element) (hi : elementsOf inner = []) :
    elementsOf [.mk r text left inner] = [] := by
  rw [elementsOf_singleton, elements, hi, if_neg hr]
  rfl

/-! ## Words -/

section Words
variable {whole s w rest : List Char}

theorem takesOne_tagChar : TakesOne grammar whole
    (.choice [.one Char.isAlphanum, .mark ['-'], .mark ['_'], .mark [':'], .mark ['.']])
    fun c _ => isTagChar c := by
  have h : TakesOne grammar whole _ _ := (TakesOne.one Char.isAlphanum).alt
    ((TakesOne.mark '-').alt ((TakesOne.mark '_').alt ((TakesOne.mark ':').alt (.mark '.'))))
  simp only [isTagChar, Bool.or_assoc]
  exact h

theorem takesOne_nameChar : TakesOne grammar whole
    (.seq [.not (.choice [.one isSpace, .mark ['='], .mark ['>'], .mark ['/'], .mark ['<'],
      .mark ['"'], .mark ['\'']]), .one fun _ => true]) fun c _ => isNameChar c := by
  have h : TakesOne grammar whole _ _ := (TakesOne.one isSpace).alt
    ((TakesOne.mark '=').alt ((TakesOne.mark '>').alt ((TakesOne.mark '/').alt
      ((TakesOne.mark '<').alt ((TakesOne.mark '"').alt (.mark '\''))))))
  simp only [isNameChar, Bool.or_assoc]
  exact h.except_one

/-- A word is what a rule takes that asks for one character of a kind or more. -/
theorem word_some {m : Mode} {r : Symbol} {a : Expr Symbol} {p : Char → Bool}
    (hk : grammar.kind r = .atomic) (hb : grammar.body r = .more a)
    (ha : TakesOne grammar whole a fun c _ => p c) (h : word? p s = some (w, rest)) :
    Derives grammar whole m (.rule r) s (some (grammar.leave m r w s.length [], rest)) := by
  have hs := eq_append_of_word? h
  refine .rule ?_ hs
  rw [hk, hb]
  cases s with
  | nil => cases h
  | cons c s =>
    simp only [word?, Option.ite_none_left_eq_some, Option.some.injEq, Prod.mk.injEq] at h
    obtain ⟨hne, -, rfl⟩ := h
    have hc : p c = true := by
      by_contra hc
      simp [hc] at hne
    rw [← dropRun_eq_dropWhile]
    exact ha.more hc

theorem word_none {m : Mode} {r : Symbol} {a : Expr Symbol} {p : Char → Bool}
    (hk : grammar.kind r = .atomic) (hb : grammar.body r = .more a)
    (ha : TakesOne grammar whole a fun c _ => p c) (h : word? p s = none) :
    Derives grammar whole m (.rule r) s none := by
  refine .rule_none ?_
  rw [hk, hb]
  refine ha.more_none ?_
  rintro c s rfl
  by_contra hc
  simp [word?, hc] at h

theorem tagName_some {m : Mode} (h : word? isTagChar s = some (w, rest)) :
    Derives grammar whole m (.rule .tagName) s
      (some (grammar.leave m .tagName w s.length [], rest)) :=
  word_some rfl rfl takesOne_tagChar h

theorem tagName_none {m : Mode} (h : word? isTagChar s = none) :
    Derives grammar whole m (.rule .tagName) s none :=
  word_none rfl rfl takesOne_tagChar h

/-- What begins a tag ends a run of text. -/
theorem takesOne_textChar : TakesOne grammar whole
    (.seq [.not (.seq [.mark ['<'], .choice [.mark ['/'], .rule .tagName]]), .one fun _ => true])
    fun c s => !startsTag (c :: s) := by
  refine .except (.seq_none_head (.mark_none rfl)) ?_ ?_
  · intro c s h
    obtain ⟨d, rest, hs, hd⟩ := startsTag_iff.mp h
    obtain ⟨rfl, rfl⟩ := List.cons.inj hs
    have hlt : Derives grammar whole .atomic (.mark ['<']) ('<' :: d :: rest)
      (some ([], d :: rest)) := .mark rfl
    rcases hd with rfl | hd
    · exact ⟨_, .seq_cons hlt (.alt_left (.mark rfl))⟩
    · by_cases hslash : d = '/'
      · subst hslash
        exact ⟨_, .seq_cons hlt (.alt_left (.mark rfl))⟩
      · have hw : word? isTagChar (d :: rest) =
            some ((d :: rest).takeWhile isTagChar, (d :: rest).dropWhile isTagChar) := by
          simp [word?, hd]
        have hm : Derives grammar whole .atomic (.mark ['/']) (d :: rest) none :=
          .mark_none (by rw [after?, if_neg (Ne.symm hslash)])
        exact ⟨_, .seq_cons hlt (.alt_right hm (tagName_some hw))⟩
  · intro c s h
    by_cases hc : c = '<'
    · subst hc
      have hlt : Derives grammar whole .atomic (.mark ['<']) ('<' :: s) (some ([], s)) :=
        .mark rfl
      refine .seq_none_tail hlt (.alt_right (.mark_none ?_) (tagName_none ?_))
      · cases s with
        | nil => rfl
        | cons d s =>
          have hd : d ≠ '/' := by rintro rfl; simp [startsTag] at h
          show after? ['/'] (d :: s) = none
          rw [after?, if_neg (Ne.symm hd)]
      · refine word?_eq_none ?_
        intro d hd
        cases s with
        | nil => cases hd
        | cons e s =>
          obtain rfl := Option.some.inj hd
          simp only [startsTag, Bool.or_eq_false_iff] at h
          exact h.2
    · exact .seq_none_head (.mark_none (by rw [after?, if_neg (Ne.symm hc)]))

theorem dropRun_splitRun (s : List Char) :
    dropRun (fun c s => !startsTag (c :: s)) s = (splitRun s).2 := by
  induction s with
  | nil => rfl
  | cons c s ih => by_cases h : startsTag (c :: s) <;> simp [dropRun, splitRun, h, ih]

theorem text_some (h : run? s = some (w, rest)) :
    Derives grammar whole .loose (.rule .text) s (some ([.mk .text w s.length []], rest)) := by
  have hs := eq_append_of_run? h
  refine .rule ?_ hs
  simp only [run?, Option.ite_none_left_eq_some, Option.some.injEq] at h
  obtain ⟨hne, hsplit⟩ := h
  cases s with
  | nil => simp [splitRun] at hne
  | cons c s =>
    have hc : startsTag (c :: s) = false := by
      by_contra hc
      rw [splitRun, if_pos (by simpa using hc)] at hne
      exact hne rfl
    have hm : Derives grammar whole .atomic (grammar.body .text) (c :: s) _ :=
      takesOne_textChar.more (by simpa using hc)
    rw [dropRun_splitRun, hsplit] at hm
    exact hm

theorem text_none (h : run? s = none) : Derives grammar whole .loose (.rule .text) s none := by
  refine .rule_none (takesOne_textChar.more_none ?_)
  rintro c s rfl
  by_contra hc
  have hc' : startsTag (c :: s) = false := by simpa using hc
  simp [run?, splitRun, hc'] at h

end Words

/-! ## Attributes -/

section Attributes
variable {whole s t rest : List Char}

/-- Between two quotes stands what is up to the second. -/
theorem quotes_derives (whole : List Char) {q : Char} {r : Symbol} (hk : grammar.kind r = .atomic)
    (hb : grammar.body r = .many (.seq [.not (.mark [q]), .one fun _ => true]))
    (hr : r ≠ .element) (s : List Char) : ∃ tokens, elementsOf tokens = [] ∧
      Derives grammar whole .tight (.seq [.mark [q], .rule r, .mark [q]]) (q :: s)
        ((upTo? q s).map fun out => (tokens, out.2)) := by
  have hm : Derives grammar whole .atomic _ s _ := (TakesOne.mark q).except_one.many s
  rw [show dropRun (fun c _ => !(c == q)) s = s.dropWhile (· != q) from
    dropRun_eq_dropWhile (· != q) s, ← hb] at hm
  obtain ⟨text, -, hd⟩ := Derives.exists_rule (m := .tight) (r := r) (by rw [hk]; exact hm)
  rw [Grammar.leave, hk] at hd
  refine ⟨[.mk r text s.length []], elementsOf_leaf hr elementsOf_nil, ?_⟩
  have hopen : Derives grammar whole .tight (.mark [q]) (q :: s) (some ([], s)) :=
    .mark (after?_append [q] s)
  cases hu : s.dropWhile (· != q) with
  | nil =>
    rw [hu] at hd
    rw [show upTo? q s = none by rw [upTo?, hu]]
    exact .seq_none_tail hopen (.seq_none_tail hd (.mark_none rfl))
  | cons c rest =>
    have hc : c = q := by
      have := List.head?_dropWhile_not (· != q) s
      simpa [hu] using this
    subst hc
    rw [hu] at hd
    rw [show upTo? c s = some (s.takeWhile (· != c), rest) by rw [upTo?, hu]]
    exact .seq_cons hopen (.seq_cons hd (.mark (after?_append [c] rest)))

theorem quoted_derives (whole s : List Char) : ∃ tokens, elementsOf tokens = [] ∧
    Derives grammar whole .loose (.rule .quoted) s
      ((quoted? s).map fun out => (tokens, out.2)) := by
  -- the rule adds a token around those of its expression
  suffices h : ∃ tokens, elementsOf tokens = [] ∧
      Derives grammar whole .tight (grammar.body .quoted) s
        ((quoted? s).map fun out => (tokens, out.2)) by
    obtain ⟨tokens, ht, h⟩ := h
    cases hq : quoted? s with
    | none =>
      rw [hq] at h
      exact ⟨tokens, ht, .rule_none h⟩
    | some out =>
      rw [hq] at h
      obtain ⟨text, -, hd⟩ := Derives.exists_rule (m := .loose) (r := Symbol.quoted) h
      exact ⟨_, elementsOf_leaf (by decide) ht, hd⟩
  have other {d : Char} {e : Expr Symbol} {l : List (Expr Symbol)} {s : List Char}
      (h : ∀ t, s ≠ d :: t) : Derives grammar whole .tight (.seq (.mark [d] :: e :: l)) s none := by
    refine .seq_none_head (.mark_none ?_)
    cases s with
    | nil => rfl
    | cons c s => rw [after?, if_neg fun hd => h s (by rw [hd])]
  unfold quoted?
  split
  · next s =>
    obtain ⟨tokens, ht, hd⟩ :=
      quotes_derives whole (q := '"') (r := .inDouble) rfl rfl (by decide) s
    refine ⟨tokens, ht, ?_⟩
    cases hu : upTo? '"' s with
    | none =>
      rw [hu] at hd
      exact .alt_right hd (other fun t ht => by cases ht)
    | some out =>
      rw [hu] at hd
      exact .alt_left hd
  · next s =>
    obtain ⟨tokens, ht, hd⟩ :=
      quotes_derives whole (q := '\'') (r := .inSingle) rfl rfl (by decide) s
    exact ⟨tokens, ht, .alt_right (other fun t ht => by cases ht) hd⟩
  · next h1 h2 =>
    exact ⟨[], elementsOf_nil, .alt_right (other h1) (other h2)⟩

/-- The part behind the name of an attribute: a value, or nothing. -/
theorem assigned_derives (whole s : List Char) : ∃ tokens, elementsOf tokens = [] ∧
    Derives grammar whole .loose (.optional (.seq [.mark ['='], .rule .quoted])) s
      (some (tokens, ((assigned? s).map Prod.snd).getD s)) := by
  unfold assigned?
  split
  · next s =>
    obtain ⟨tokens, ht, hd⟩ := quoted_derives whole (skipSpace s)
    have heq : Derives grammar whole .loose (.mark ['=']) ('=' :: s) (some ([], s)) := .mark rfl
    cases hq : quoted? (skipSpace s) with
    | none =>
      rw [hq] at hd
      exact ⟨[], elementsOf_nil, .optional_none (.seq_none_tail heq hd)⟩
    | some out =>
      rw [hq] at hd
      exact ⟨tokens, ht, .optional (.seq_cons heq hd)⟩
  · next h =>
    refine ⟨[], elementsOf_nil, .optional_none (.seq_none_head (.mark_none ?_))⟩
    cases s with
    | nil => rfl
    | cons c s => rw [after?, if_neg fun hd => h s (by rw [← hd])]

theorem attribute_none (h : attribute? s = none) :
    Derives grammar whole .loose (.rule .attribute) s none := by
  refine .rule_none (.seq_none_head (word_none rfl rfl takesOne_nameChar ?_))
  unfold attribute? at h
  split at h
  · assumption
  · split at h <;> cases h

/-- An attribute without a value also takes the separators behind it. -/
theorem attribute_some (whole : List Char) {a : Attribute} (h : attribute? s = some (a, rest)) :
    ∃ tokens rest', elementsOf tokens = [] ∧ skipSpace rest' = skipSpace rest ∧
      Derives grammar whole .loose (.rule .attribute) s (some (tokens, rest')) := by
  unfold attribute? at h
  split at h
  · cases h
  · next name behind hw =>
    have hn : Derives grammar whole .loose (.rule .attributeName) s _ :=
      word_some rfl rfl takesOne_nameChar hw
    obtain ⟨tokens, ht, hd⟩ := assigned_derives whole (skipSpace behind)
    have hbody : Derives grammar whole .loose (grammar.body .attribute) s _ :=
      .seq_cons hn hd
    obtain ⟨text, -, hr⟩ := Derives.exists_rule (m := .loose) (r := Symbol.attribute) hbody
    refine ⟨_, _, ?_, ?_, hr⟩
    · refine elementsOf_leaf (by decide) ?_
      rw [elementsOf_append, ht, List.append_nil]
      exact elementsOf_leaf (by decide) elementsOf_nil
    · split at h
      · next ha =>
        obtain ⟨-, rfl⟩ := Prod.mk.inj (Option.some.inj h)
        rw [ha]
        rfl
      · next ha =>
        obtain ⟨-, rfl⟩ := Prod.mk.inj (Option.some.inj h)
        rw [ha]
        exact grammar.skip_skip .loose behind

theorem attributes_derive (whole s : List Char) (hs : skipSpace t = skipSpace s) :
    ∃ tokens rest, elementsOf tokens = [] ∧ skipSpace rest = skipSpace (attributes s).2 ∧
      Derives grammar whole .loose (.rep (.cat .gap (.rule .attribute))) t
        (some (tokens, rest)) := by
  induction hn : s.length using Nat.strongRecOn generalizing s t with
  | ind n ih =>
    rw [attributes_eq]
    cases ha : attribute? (skipSpace s) with
    | none =>
      rw [← hs] at ha
      exact ⟨[], t, elementsOf_nil, hs, .rep_stop (.cat_none_right .gap (attribute_none ha))⟩
    | some out =>
      obtain ⟨x, behind, hx, hb, hd⟩ := attribute_some whole ha
      have hlt := length_lt_of_attribute? ha
      have hle := length_skipSpace_le s
      obtain ⟨y, rest, hy, hrest, hr⟩ := ih out.2.length (by omega) out.2 hb rfl
      rw [← hs] at hd
      exact ⟨x ++ y, rest, by rw [elementsOf_append, hx, hy]; rfl, hrest,
        .rep_more (.cat .gap hd) hr⟩

end Attributes

/-! ## Tags -/

section Tags
variable {whole s rest : List Char} {r : Symbol} {mark : List Char} {name : String}

theorem nameIn_cons {r : Symbol} {text w : List Char} {left at' : Nat}
    (tokens : List (Token Symbol)) :
    nameIn (.mk r text left (.mk .tagName w at' [] :: tokens)) = String.ofList w := by
  simp [nameIn, Token.inner, Token.rule, Token.text]

/-- A tag up to the mark at its end leaves a token with its name. -/
theorem tag_some (whole : List Char) {attrs : List Attribute} (hk : grammar.kind r = .plain)
    (hb : grammar.body r =
      .seq [.mark ['<'], .rule .tagName, .many (.rule .attribute), .mark mark])
    (hr : r ≠ .element) (h : tagUpTo? mark s = some (name, attrs, rest)) :
    ∃ t, t.rule = r ∧ nameIn t = name ∧ elements t = [] ∧
      Derives grammar whole .loose (.rule r) s (some ([t], rest)) := by
  unfold tagUpTo? heading? at h
  split at h
  · cases h
  · next n as behind hh =>
    split at hh
    · next s =>
      split at hh
      · cases hh
      · next w r' hw =>
        simp only [Option.some.injEq, Prod.mk.injEq] at hh
        simp only [Option.map_eq_some_iff, Prod.mk.injEq] at h
        obtain ⟨rfl, rfl, rfl⟩ := hh
        obtain ⟨end', hm, rfl, rfl, rfl⟩ := h
        obtain ⟨x, u, hx, hu, hd⟩ := attributes_derive whole (t := r') r' rfl
        obtain ⟨u', hu', hmany⟩ := hd.many
        have hn : Derives grammar whole .loose (.rule .tagName) (skipSpace s) _ :=
          tagName_some hw
        have hmark : Derives grammar whole .loose (.mark mark) (skipSpace u')
            (some ([], end')) := .mark (by rw [show skipSpace u' = _ from hu'.trans hu]; exact hm)
        have hbody : Derives grammar whole .loose (grammar.body r) ('<' :: s)
            (some ([] ++ ([.mk .tagName w (skipSpace s).length []] ++ (x ++ [])), end')) := by
          rw [hb]
          exact .seq_cons (.mark rfl) (.seq_cons hn (.seq_cons hmany hmark))
        obtain ⟨text, -, hrule⟩ := Derives.exists_rule (m := .loose) (r := r)
          (by rw [hk]; exact hbody)
        rw [Grammar.leave, hk] at hrule
        refine ⟨_, rfl, nameIn_cons _, ?_, hrule⟩
        rw [← elementsOf_singleton]
        refine elementsOf_leaf hr ?_
        have hword : elementsOf [Token.mk Symbol.tagName w (skipSpace s).length []] = [] :=
          elementsOf_leaf (by decide) elementsOf_nil
        change elementsOf ([_] ++ (x ++ [])) = []
        rw [elementsOf_append, elementsOf_append, hword, hx, elementsOf_nil]
        rfl
    · cases hh

theorem tag_none (hk : grammar.kind r = .plain)
    (hb : grammar.body r =
      .seq [.mark ['<'], .rule .tagName, .many (.rule .attribute), .mark mark])
    (h : tagUpTo? mark s = none) : Derives grammar whole .loose (.rule r) s none := by
  refine .rule_none ?_
  rw [hk, hb]
  by_cases hs : ∃ t, s = '<' :: t
  · obtain ⟨s, rfl⟩ := hs
    have hlt : Derives grammar whole .loose (.mark ['<']) ('<' :: s) (some ([], s)) := .mark rfl
    refine .seq_none_tail hlt ?_
    cases hw : word? isTagChar (skipSpace s) with
    | none => exact .seq_none_head (tagName_none hw)
    | some out =>
      obtain ⟨w, behind⟩ := out
      obtain ⟨x, u, -, hu, hd⟩ := attributes_derive whole (t := behind) behind rfl
      obtain ⟨u', hu', hmany⟩ := hd.many
      refine .seq_none_tail (tagName_some hw) (.seq_none_tail hmany (.mark_none ?_))
      change after? mark (skipSpace u') = none
      rw [show skipSpace u' = _ from hu'.trans hu]
      simpa [tagUpTo?, heading?, hw] using h
  · refine .seq_none_head (.mark_none ?_)
    cases s with
    | nil => rfl
    | cons c s => rw [after?, if_neg fun hc => hs ⟨s, by rw [hc]⟩]

theorem closing_some (whole : List Char) (h : closing? s = some (name, rest)) :
    ∃ t, t.rule = .closeTag ∧ nameIn t = name ∧ t.left = s.length ∧ elements t = [] ∧
      Derives grammar whole .loose (.rule .closeTag) s (some ([t], rest)) := by
  unfold closing? at h
  split at h
  · cases h
  · next behind ha =>
    split at h
    · cases h
    · next w behind' hw =>
      simp only [Option.map_eq_some_iff, Prod.mk.injEq] at h
      obtain ⟨end', hm, rfl, rfl⟩ := h
      have hbody : Derives grammar whole .loose (grammar.body .closeTag) s _ :=
        .seq_cons (.mark ha) (.seq_cons (tagName_some (m := .loose) hw) (.mark hm))
      obtain ⟨text, -, hrule⟩ := Derives.exists_rule (m := .loose) (r := Symbol.closeTag) hbody
      refine ⟨_, rfl, nameIn_cons _, rfl, ?_, hrule⟩
      rw [← elementsOf_singleton]
      exact elementsOf_leaf (by decide) (elementsOf_leaf (by decide) elementsOf_nil)

theorem closing_none (h : closing? s = none) :
    Derives grammar whole .loose (.rule .closeTag) s none := by
  refine .rule_none ?_
  unfold closing? at h
  split at h
  · next ha => exact .seq_none_head (.mark_none ha)
  · next behind ha =>
    refine .seq_none_tail (.mark ha) ?_
    split at h
    · next hw => exact .seq_none_head (tagName_none hw)
    · next w behind' hw =>
      exact .seq_none_tail (tagName_some hw) (.mark_none (Option.map_eq_none_iff.mp h))

end Tags
end PageDesign.Markup

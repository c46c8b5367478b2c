import PageDesign.Proofs.Markup.RoundTrip
import PageDesign.Proofs.Markup.Unique
import PageDesign.Proofs.Markup.Yield

/-! # Formatting twice

A hand-written text is formatted by reading it and printing the page again.  Texts are
printed as they are, and between tags a reading trims off more than it skips: a text that
was no tag where it was written, because something blank stood before it, may be one where
it is printed.  Then the printed markup is read as another page, or not at all.

A page is `Firm` in a style if this does not happen to any of its texts.  Just the markup
of firm pages can be formatted again without a change (`reformat_iff`).  A page in which no
text begins as a tag does whose name stands apart from its bracket is firm in every style.
-/
namespace PageDesign.Markup
open Text Node

/-- Whether no tag can be read where a text of the page stands in its markup. -/
def Firm (style : Style) (page : Node) : Prop :=
  NodesLaid Blanks Stands (visibleAll page.children) (page.markup style).toList []

theorem firm_of_safeText {style : Style} (hs : style.Blank) {children : List Node}
    (hp : ProperAll SafeText children) : Firm style (.root children) :=
  (markup_laid hs hp).stands (fun _ => id) hp.visible (.inl rfl)

/-- The markup of a page is that of its visible form. -/
theorem markup_visibleAll (style : Style) (children : List Node) :
    (Node.root (visibleAll children)).markup style = (Node.root children).markup style := by
  have h := print_visible style.effective (.root children) 0
  rwa [Node.visible] at h

/-- Where a text was read first, no tag can be read. -/
theorem stands_of_visible_text {s : List Char} {content : String} {nodes : List Node}
    (hv : visibleAll (reading s).nodes = .text content :: nodes) : Stands s := by
  cases step s with
  | stop he hr h => exact he
  | run text rest he hr hl h => exact he
  | single tag attributes rest hs hl h =>
    rw [h] at hv
    cases visible_eq_text (List.cons.inj hv).1
  | pair tags attributes inner rest hs ho hc hi hl h =>
    rw [h] at hv
    cases visible_eq_text (List.cons.inj hv).1

/-- **If a layout is read as a page that looks like what it lays out, then each of its
texts stands where no tag can be read.** -/
theorem NodesLaid.stands_of_reading {nodes : List Node} {s rest : List Char}
    (h : Printed nodes s rest) (hp : ProperAll RunText nodes) (hr : Ends rest)
    (hv : visibleAll (reading s).nodes = nodes) : NodesLaid Blanks Stands nodes s rest := by
  induction h with
  | nil hb rest => exact .nil hb rest
  | @text content nodes before s rest hb ht hn ih =>
    obtain ⟨hc, hnext, hp⟩ := hp
    have hpause := hn.pause (fun _ => id) hp (hnext rfl) hr.atTag
    have hstands : Stands (before ++ (content.toList ++ s)) := stands_of_visible_text hv
    rw [reading_text hc hb hpause hstands] at hv
    exact .text hb hstands (ih hp hr (List.cons.inj hv).2)
  | @single tag attributes nodes before s t rest hb ht hn ih =>
    obtain ⟨⟨htag, ha, -⟩, -, hp⟩ := hp
    have hat : AtTag s := .inr (ht.startsTag htag)
    have h1 := single?_of_laid ht htag ha
    rw [← skipSpace_atTag hat] at h1
    rw [reading_gap hb hat, reading_single h1] at hv
    exact .single hb ht (ih hp hr (List.cons.inj hv).2)
  | @pair tag attributes children nodes before s inner behind t rest hb ho hi hc hn ihi ihn =>
    obtain ⟨⟨htag, ha, hchildren⟩, -, hp⟩ := hp
    have hat : AtTag s := .inr (ho.startsTag htag)
    rw [reading_gap hb hat] at hv
    obtain ⟨closing, rest', hc', h⟩ := ho.reading_opening htag ha fun hnone => by
      rw [hnone] at hv
      cases hv
    rw [h] at hv
    obtain ⟨hfirst, hrest⟩ := List.cons.inj hv
    -- between the tags, too, a page is read that looks like what is laid out there, so the
    -- reading stops where the closing tag was laid out
    have hbehind : Ends behind := .inr ⟨_, _, hc⟩
    have hinner := ihi hchildren hbehind (visibleAll_of_pair hfirst rfl)
    obtain ⟨pairs, hread, -⟩ := reading_of_laid (fun _ => id) hinner hchildren hbehind
    rw [hread, closing?_of_laid hc htag] at hc'
    obtain ⟨-, rfl⟩ : tag = closing ∧ t = rest' := by simpa using hc'
    exact .pair hb ho hinner hc (ihn hp hr hrest)

/-! ## Stability -/

section Stability
variable {source : String} {page : Node} {a b : Style}

/-- **Formatting is stable where the page is firm, and nowhere else**: what is printed of an
accepted text is accepted again and prints as before if and only if the page is firm, and it
is if no text in it begins as a tag does whose name stands apart from its bracket. -/
theorem reformat_iff (h : Node.ofMarkup source = .ok page) (ha : a.Blank) (hb : b.Blank) :
    ((∃ again, Node.ofMarkup (page.markup a) = .ok again ∧ again.markup b = page.markup b) ↔
        Firm a page) ∧
      (ProperAll SafeText page.children → Firm a page) := by
  obtain ⟨nodes, rfl, hp⟩ := proper_of_ofMarkup h
  refine ⟨⟨?_, ?_⟩, firm_of_safeText ha⟩
  · rintro ⟨again, hagain, heq⟩
    obtain ⟨nodes', rfl, hp'⟩ := proper_of_ofMarkup hagain
    obtain ⟨-, -, hread⟩ := ofMarkup_eq_ok_iff.mp hagain
    have hend : Ends [] := .inl rfl
    -- what is printed in the other style shows that the two pages look alike
    have hl := markup_laid hb hp
    have hl' := markup_laid hb hp'
    rw [heq] at hl'
    obtain ⟨hv, -⟩ := hl'.unique (fun _ => id) hp'.visible hend hl hp.visible hend
    rw [Node.root.inj hread] at hv
    exact (markup_laid ha hp).stands_of_reading hp.visible hend hv
  · intro hfirm
    exact ⟨_, ofMarkup_of_laid (fun _ => id) hfirm hp.visible, markup_visibleAll b nodes⟩

end Stability

/-- A paragraph that is laid out by hand is changed by the first formatting only. -/
theorem reformat_iff_paragraph :
    let page : Node := .root [.element { tag := "p" } [.text "a < b"]]
    (Node.ofMarkup "<p\t> a < b\n</ p>" = .ok page ∧ Style.compact.Blank ∧ ({} : Style).Blank) ∧
      ∃ again, Node.ofMarkup (page.markup .compact) = .ok again ∧
        again.markup {} = page.markup {} := by
  intro page
  have nothing : Spaces [] := by decide
  have space : Spaces [' '] := by decide
  have tab : Spaces ['\t'] := by decide
  have newline : Spaces ['\n'] := by decide
  have hp : ProperAll SafeText page.children :=
    ⟨⟨by decide, by decide, (by decide : SafeText "a < b"), by simp, trivial⟩, by simp, trivial⟩
  have hopen : TagLaid ['>'] "p" [] "<p\t> a < b\n</ p>".toList " a < b\n</ p>".toList :=
    .mk tab (.nil _)
  have hclose : ClosingLaid "p" "</ p>".toList [] := .mk space nothing []
  have htext : NodesLaid Spaces (fun _ => True) [.text "a < b"] " a < b\n</ p>".toList
      "</ p>".toList := .text space trivial (.nil newline _)
  have hl : NodesLaid Spaces (fun _ => True) page.children "<p\t> a < b\n</ p>".toList [] :=
    .pair nothing hopen htext hclose (.nil nothing [])
  have hgap : ∀ g, Spaces g → Blanks g := fun _ => Spaces.blanks
  have hsource := ofMarkup_of_laid hgap (hl.stands hgap hp (.inl rfl))
    (ProperAll.mono (fun _ h => h.toRunText) hp)
  have ha : Style.compact.Blank := fun h => by cases h
  have hb : ({} : Style).Blank := fun _ => (by decide : Blanks "  ".toList)
  have h := reformat_iff hsource ha hb
  exact ⟨⟨hsource, ha, hb⟩, h.1.mpr (h.2 hp)⟩

/-- A text behind a no-break space that begins as a tag does whose name stands apart. -/
theorem ofMarkup_loose : Node.ofMarkup "\u00a0< b />" = .ok (.root [.text "< b />"]) := by
  have hb : Blanks ['\u00a0'] := by decide
  have hs : Stands (['\u00a0'] ++ ("< b />".toList ++ [])) :=
    element?_eq_none (heading?_blank hb _)
  have hl : NodesLaid Blanks Stands [.text "< b />"] "\u00a0< b />".toList [] :=
    .text hb hs (.nil Blanks.nil [])
  exact ofMarkup_of_laid (fun _ => id) hl ⟨(by decide : RunText "< b />"), by simp, trivial⟩

/-- The same text where nothing stands before it. -/
theorem ofMarkup_loose_again :
    Node.ofMarkup "< b />" = .ok (.root [.element { tag := "b", selfClosing := true } []]) := by
  have ha : attributes [' ', '/', '>'] = ([], [' ', '/', '>']) := by
    rw [attributes_eq]
    rfl
  have hs : single? (skipSpace "< b />".toList) = some ("b", [], []) := by
    show single? ['<', ' ', 'b', ' ', '/', '>'] = _
    unfold single? tagUpTo? heading?
    have hw : word? isTagChar (skipSpace [' ', 'b', ' ', '/', '>']) =
        some (['b'], [' ', '/', '>']) := by decide
    simp only [hw, ha]
    rfl
  have hnil : reading [] = ⟨[], [], []⟩ := Ends.reading (.inl rfl)
  rw [ofMarkup_eq_ok_iff, reading_single hs, hnil]
  exact ⟨rfl, by simp [Reading.prepend], rfl⟩

/-- **Formatting is not always stable.** -/
theorem not_reformat_loose :
    ¬ ∀ (source : String) (page : Node) (a b : Style), Node.ofMarkup source = .ok page →
      a.Blank → b.Blank →
        ∃ again, Node.ofMarkup (page.markup a) = .ok again ∧ again.markup b = page.markup b := by
  intro h
  have hs : Style.compact.Blank := fun h => by cases h
  obtain ⟨again, hagain, hmarkup⟩ := h _ _ _ _ ofMarkup_loose hs hs
  have hm : (Node.root [.text "< b />"]).markup .compact = "< b />" := by decide
  rw [hm, ofMarkup_loose_again] at hagain
  obtain rfl := Except.ok.inj hagain
  rw [hm] at hmarkup
  exact absurd hmarkup (by decide)

end PageDesign.Markup

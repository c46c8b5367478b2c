import PageDesign.Proofs.Markup.Layout
import PageDesign.Proofs.Node.Visible
import PageDesign.Proofs.Text.Entity

/-! # Printed markup is read back

What is printed is a layout of the visible form of the page (`markup_laid`): tags are
written with single spaces, values in double quotes and escaped, and nothing but
indentation and line breaks stands between the nodes.  Indentation may consist of any
blank characters, of which a reading skips some and trims the others.

So printed markup is read like any other layout, and the reading gives back all of the
page that its markup shows (`ofMarkup_markup`).
-/
namespace PageDesign
open Text Markup Node

/-- A style whose indentation is blank. -/
def Style.Blank (style : Style) : Prop := style.multiline = true → Blanks style.indent.toList

instance (style : Style) : Decidable style.Blank := inferInstanceAs (Decidable (_ → _))

namespace Style.Blank
variable {style : Style}

theorem effective (h : style.Blank) : style.effective.Blank := by
  unfold Style.effective
  split
  · exact fun _ => (by decide : Blanks "  ".toList)
  · exact h

theorem margin (h : style.Blank) (depth : Nat) : Blanks (style.margin depth).toList := by
  unfold Style.margin
  split
  · next hm =>
    intro c hc
    rw [String.toList_join] at hc
    obtain ⟨line, hline, hc⟩ := List.mem_flatMap.mp hc
    exact h hm c ((List.eq_of_mem_replicate hline) ▸ hc)
  · exact Blanks.nil

end Style.Blank

theorem Style.blanks_lineBreak (style : Style) : Blanks style.lineBreak.toList := by
  unfold Style.lineBreak
  split <;> decide

namespace Markup

/-! ## Tags -/

theorem attribute_laid {a : Attribute} (h : a.shown = true) (rest : List Char) :
    AttributeLaid a (a.markup.toList ++ rest) rest := by
  obtain ⟨name, value⟩ := a
  match value, h with
  | .flag true, _ => exact .flag name rest
  | .text content, _ =>
    have hv : unescape (escape content.toList) = content.toList := unescape_escape _
    have hl : AttributeLaid ⟨name, .text content⟩ _ rest :=
      .text Spaces.nil Spaces.nil (.inl rfl) (quote_not_mem_escape _) hv rest
    simpa [Attribute.markup] using hl

theorem markup_ne_empty {a : Attribute} (h : a.shown = true) (hn : AttributeName a.name) :
    a.markup ≠ "" := by
  obtain ⟨t, ht⟩ := (attribute_laid h []).exists_name
  intro hm
  rw [hm] at ht
  simp [hn.1] at ht

/-- The attributes that are shown are laid out, each behind a space. -/
theorem attributes_laid {attributes : List Attribute} (h : ∀ a ∈ attributes, AttributeName a.name)
    (rest : List Char) : AttributesLaid (attributes.filter (·.shown))
      ((attributesMarkup attributes).toList ++ rest) rest := by
  induction attributes with
  | nil => exact .nil rest
  | cons a more ih =>
    have ih := ih fun b hb => h b (List.mem_cons_of_mem _ hb)
    by_cases hs : a.shown = true
    · have hne := markup_ne_empty hs (h a (by simp))
      rw [List.filter_cons_of_pos hs, attributesMarkup_cons, if_neg hne]
      have hl := AttributesLaid.cons (by simp) (by decide : Spaces [' ']) (attribute_laid hs _) ih
      simpa using hl
    · rw [List.filter_cons_of_neg hs, attributesMarkup_cons,
        if_pos (Attribute.markup_of_not_shown hs)]
      simpa using ih

section Tags
variable {info : Element} (h : ∀ a ∈ info.attributes, AttributeName a.name) (rest : List Char)
include h

theorem openTag_laid : TagLaid ['>'] info.tag (info.attributes.filter (·.shown))
    (info.openTag.toList ++ rest) rest := by
  have hl : TagLaid ['>'] info.tag _ _ rest := .mk Spaces.nil (attributes_laid h (['>'] ++ rest))
  simpa [Element.openTag, Element.heading] using hl

theorem singleTag_laid : TagLaid ['/', '>'] info.tag (info.attributes.filter (·.shown))
    (info.singleTag.toList ++ rest) rest := by
  have hl : TagLaid ['/', '>'] info.tag _ _ rest :=
    .mk (by decide : Spaces [' ']) (attributes_laid h ([' '] ++ (['/', '>'] ++ rest)))
  simpa [Element.singleTag, Element.heading] using hl

end Tags

theorem closeTag_laid (info : Element) (rest : List Char) :
    ClosingLaid info.tag (info.closeTag.toList ++ rest) rest := by
  have hl : ClosingLaid info.tag _ rest := .mk Spaces.nil Spaces.nil rest
  simpa [Element.closeTag] using hl

/-! ## Nodes -/

/-- Nodes that are printed one behind the other, in a style with blank indentation. -/
abbrev Printed := NodesLaid Blanks fun _ => True

section Nodes
variable {p : String → Prop} {style : Style}

mutual

/-- A node is printed behind its margin. -/
theorem print_laid (hs : style.Blank) : ∀ {n : Node}, Proper p n → ∀ (depth : Nat)
    {before : List Char} {nodes : List Node} {s rest : List Char}, Blanks before →
      Printed nodes s rest →
      Printed (n.visible :: nodes) (before ++ ((print style depth n).toList ++ s)) rest
  | .text content, _, depth, before, nodes, s, rest, hb, hn => by
    have hl : Printed (.text content :: nodes) _ rest :=
      .text (hb.append (hs.margin depth)) trivial hn
    unfold Node.visible print
    simpa using hl
  | .element info children, ⟨_, ha, hc⟩, depth, before, nodes, s, rest, hb, hn => by
    have hm := hb.append (hs.margin depth)
    by_cases h : Single info children
    · have hl : Printed (.element (info.visible true) [] :: nodes) _ rest :=
        .single hm (singleTag_laid ha s) hn
      rw [visible_single h, print_single style depth h]
      simpa using hl
    · have hclose := closeTag_laid info s
      by_cases hlone : ∃ content, children = [.text content]
      · obtain ⟨content, rfl⟩ := hlone
        have hsc : info.selfClosing = false := by simpa [Single] using h
        have hi : Printed [.text content] _ (info.closeTag.toList ++ s) :=
          .text Blanks.nil trivial (.nil Blanks.nil _)
        have hl : Printed (.element (info.visible false) [.text content] :: nodes) _ rest :=
          .pair hm (openTag_laid ha _) hi hclose hn
        rw [visible_pair h, print_lone style depth hsc]
        simpa [visibleAll, Node.visible] using hl
      · have hbreak := style.blanks_lineBreak
        have hi := printAll_laid hs hc (depth + 1) hbreak (hbreak.append (hs.margin depth))
          (info.closeTag.toList ++ s)
        have hl : Printed (.element (info.visible false) (visibleAll children) :: nodes) _ rest :=
          .pair hm (openTag_laid ha _) hi hclose hn
        rw [visible_pair h, print_block style depth h fun content he => hlone ⟨content, he⟩]
        simpa using hl

/-- The nodes of a list are printed with line breaks between them. -/
theorem printAll_laid (hs : style.Blank) : ∀ {nodes : List Node}, ProperAll p nodes →
    ∀ (depth : Nat) {before behind : List Char}, Blanks before → Blanks behind →
      ∀ (rest : List Char),
      Printed (visibleAll nodes) (before ++
        ((style.lineBreak.intercalate (printAll style depth nodes)).toList ++
          (behind ++ rest))) rest
  | [], _, _, before, behind, hb, he, rest => by
    have hl : Printed [] _ rest := .nil (hb.append he) rest
    simpa [visibleAll, printAll] using hl
  | [n], ⟨hn, _, _⟩, depth, before, behind, hb, he, rest => by
    have hl := print_laid hs hn depth hb (.nil he rest)
    simpa [visibleAll, printAll] using hl
  | n :: m :: more, ⟨hn, _, hr⟩, depth, before, behind, hb, he, rest => by
    have hmore := printAll_laid hs hr depth style.blanks_lineBreak he rest
    have hl := print_laid hs hn depth hb hmore
    simpa [visibleAll, printAll, String.intercalate_cons_cons] using hl

end

end Nodes

/-- The markup of a page is a layout of its visible form, with anything blank behind it. -/
theorem markup_laid_append {p : String → Prop} {style : Style} (hs : style.Blank)
    {children : List Node} (hp : ProperAll p children) {behind : List Char} (hb : Blanks behind) :
    Printed (visibleAll children) (((Node.root children).markup style).toList ++ behind) [] := by
  have hl := printAll_laid hs.effective hp 0 Blanks.nil hb []
  unfold Node.markup print
  simpa using hl

/-- **The markup of a page is a layout of its visible form.** -/
theorem markup_laid {p : String → Prop} {style : Style} (hs : style.Blank) {children : List Node}
    (hp : ProperAll p children) :
    Printed (visibleAll children) ((Node.root children).markup style).toList [] := by
  have hl := markup_laid_append hs hp Blanks.nil
  rwa [List.append_nil] at hl

/-- A file that holds markup may end in anything blank, as in a line break. -/
theorem ofMarkup_append {style : Style} (hs : style.Blank) {children : List Node}
    (hp : ProperAll SafeText children) {behind : String} (hb : Blanks behind.toList) :
    Node.ofMarkup ((Node.root children).markup style ++ behind) =
      .ok (Node.root children).visible := by
  have hv := hp.visible
  have hl := (markup_laid_append hs hp hb).stands (fun _ => id) hv (.inl rfl)
  rw [← String.toList_append] at hl
  rw [Node.visible]
  exact ofMarkup_of_laid (fun _ => id) hl (ProperAll.mono (fun _ h => h.toRunText) hv)

/-! ## Round trip -/

/-- **Printed markup is read back** as all of the page that markup shows, in every style
with blank indentation. -/
theorem ofMarkup_markup {style : Style} (hs : style.Blank) {children : List Node}
    (hp : ProperAll SafeText children) :
    Node.ofMarkup ((Node.root children).markup style) = .ok (Node.root children).visible := by
  have hv := hp.visible
  have hl := (markup_laid hs hp).stands (fun _ => id) hv (.inl rfl)
  rw [Node.visible]
  exact ofMarkup_of_laid (fun _ => id) hl (ProperAll.mono (fun _ h => h.toRunText) hv)

/-- A row that is indented by no-break spaces: its id and its false flag are lost, and so
is the text that a single tag hides. -/
theorem ofMarkup_markup_row :
    let style : Style := { indent := "\u00a0" }
    let row : Element :=
      { id := some "r1", tag := "row"
        attributes := [⟨"off", .flag false⟩, ⟨"on", .flag true⟩, ⟨"a", .text "\"<&"⟩] }
    let img : Element := { tag := "img", selfClosing := true }
    let children : List Node :=
      [.element row [.text "a < b", .element img [.text "hidden"], .element { tag := "p" } []]]
    (style.Blank ∧ ProperAll SafeText children) ∧
      Node.ofMarkup ((Node.root children).markup style) = .ok (Node.root children).visible ∧
      (Node.root children).visible = .root [.element
        { tag := "row", attributes := [⟨"on", .flag true⟩, ⟨"a", .text "\"<&"⟩] }
        [.text "a < b", .element img [], .element { tag := "p", selfClosing := true } []]] := by
  intro style row img children
  have hs : style.Blank := fun _ => (by decide : Blanks "\u00a0".toList)
  have himg : Proper SafeText (.element img [.text "hidden"]) :=
    ⟨by decide, by decide, (by decide : SafeText "hidden"), by simp, trivial⟩
  have hp : ProperAll SafeText children :=
    ⟨⟨by decide, by decide, (by decide : SafeText "a < b"), by simp [isText, text?],
      himg, by simp [isText, text?], ⟨by decide, by decide, trivial⟩, by simp, trivial⟩,
      by simp, trivial⟩
  exact ⟨⟨hs, hp⟩, ofMarkup_markup hs hp, by decide +kernel⟩

end Markup
end PageDesign

import PageDesign.Proofs.Markup.Reformat
import PageDesign.Proofs.Markup.Yield

/-! # Texts with margins

A reading trims the texts it finds and drops those that are blank.  `tidy` does the same
to a page, so printing a page and reading the markup gives the tidied form of what the
markup shows, whatever margins its texts have: a margin that is moved out of a text
becomes part of the gap beside it (`NodesLaid.tidy`).

So the markup that is printed after a reading need not be the markup that was read.
Printing a tidied page gives no more than printing the page, node by node, and gives the
same where nothing was lost (`Shrinks`).  That is so where each text is trimmed, and none
is empty where it would be missed: as all that stands between two tags, or on a line of
its own (`Kept`).
-/
namespace PageDesign
open Text Markup

namespace Node

mutual

/-- What a reading leaves of a node: its texts without margins, and no blank ones. -/
def tidy : Node → List Node
  | root children => [root (tidyAll children)]
  | element info children => [element info (tidyAll children)]
  | text content => textNodes content
  | attr item => [attr item]

/-- What a reading leaves of the nodes of a list. -/
def tidyAll : List Node → List Node
  | [] => []
  | n :: rest => tidy n ++ tidyAll rest

end

mutual

/-- Whether tidying a node leaves its markup as it is, with texts on lines of their own or
not. -/
def Kept (multiline : Bool) : Node → Prop
  | root children => KeptAll multiline children
  | element info children =>
    Single info children ∨ children ≠ [text ""] ∧ KeptAll multiline children
  | text content =>
    trim content.toList = content.toList ∧ (multiline = true → content ≠ "")
  | attr _ => True

/-- Whether tidying the nodes of a list leaves their markup as it is. -/
def KeptAll (multiline : Bool) : List Node → Prop
  | [] => True
  | n :: rest => Kept multiline n ∧ KeptAll multiline rest

end

/-- Whether tidying a page leaves its markup as it is: an empty text that is the whole page
leaves no trace in it. -/
def Settled (style : Style) (children : List Node) : Prop :=
  KeptAll style.multiline children ∨ children = [text ""]

/-! ## What is visible -/

theorem visibleAll_eq_lone {nodes : List Node} {content : String} :
    visibleAll nodes = [text content] ↔ nodes = [text content] := by
  constructor
  · intro h
    match nodes with
    | [] => simp [visibleAll] at h
    | [n] =>
      rw [visibleAll, visibleAll, List.cons.injEq] at h
      rw [visible_eq_text h.1]
    | _ :: _ :: _ => simp [visibleAll] at h
  · rintro rfl
    rfl

mutual

/-- Whether tidying tells depends on what the markup shows only. -/
theorem kept_visible (multiline : Bool) : ∀ n : Node, Kept multiline n.visible ↔ Kept multiline n
  | root children => by
    rw [visible, Kept, Kept]
    exact keptAll_visibleAll multiline children
  | element info children => by
    by_cases h : Single info children
    · rw [visible_single h, Kept, Kept]
      exact iff_of_true (.inl (.inr rfl)) (.inl h)
    · rw [visible_pair h, Kept, Kept, or_iff_right h, or_iff_right (not_single_visible h), ne_eq,
        ne_eq, visibleAll_eq_lone, keptAll_visibleAll multiline children]
  | text content => by rw [visible]
  | attr item => by rw [visible]

theorem keptAll_visibleAll (multiline : Bool) : ∀ nodes : List Node,
    KeptAll multiline (visibleAll nodes) ↔ KeptAll multiline nodes
  | [] => Iff.rfl
  | n :: rest => by
    rw [visibleAll, KeptAll, KeptAll, kept_visible multiline n, keptAll_visibleAll multiline rest]

end

theorem settled_visibleAll {style : Style} {nodes : List Node} :
    Settled style (visibleAll nodes) ↔ Settled style nodes := by
  rw [Settled, Settled, keptAll_visibleAll, visibleAll_eq_lone]

end Node

namespace Markup
open Node

/-! ## Tidied texts -/

/-- What a reading makes of a text: nothing if it is blank, else the text without its
margins. -/
inductive Tidied (content : String) : Prop
  | blank (hb : Blanks content.toList) (h : textNodes content = [])
  | trimmed (kept : String) (before behind : List Char) (hb : Blanks before) (he : Blanks behind)
      (hne : kept.toList ≠ []) (ht : trim kept.toList = kept.toList)
      (hc : content.toList = before ++ (kept.toList ++ behind))
      (h : textNodes content = [.text kept])

theorem tidied (content : String) : Tidied content := by
  obtain ⟨before, behind, hb, he, hc⟩ := exists_pad_trim content.toList
  cases ht : trim content.toList with
  | nil =>
    rw [ht, List.nil_append] at hc
    refine .blank (hc ▸ hb.append he) ?_
    rw [textNodes, ht]
  | cons c s =>
    have hl : (String.ofList (c :: s)).toList = trim content.toList := by
      rw [String.toList_ofList, ht]
    refine .trimmed (String.ofList (c :: s)) before behind hb he ?_ ?_ (hl ▸ hc) ?_
    · rw [String.toList_ofList]
      exact List.cons_ne_nil c s
    · rw [hl, trim_trim]
    · rw [textNodes, ht]

/-- Whether a text has no `<` in it. -/
def Unbracketed (content : String) : Prop := '<' ∉ content.toList

instance (content : String) : Decidable (Unbracketed content) :=
  inferInstanceAs (Decidable (_ ∉ _))

theorem noTag_of_not_mem {s : List Char} (h : '<' ∉ s) : NoTag s := by
  induction s with
  | nil => exact noTag_nil
  | cons c s ih =>
    obtain ⟨hc, hs⟩ : '<' ≠ c ∧ '<' ∉ s := by simpa using h
    exact noTag_cons.mpr ⟨startsTag_cons_of_ne (Ne.symm hc) s, ih hs⟩

theorem not_loose_of_not_mem {s : List Char} (h : '<' ∉ s) : loose s = false := by
  unfold loose
  split
  · exact absurd (List.mem_cons_self ..) h
  · rfl

/-- Tidying keeps an element that stands first. -/
theorem head_tidyAll {p : String → Prop} {nodes : List Node} (hp : ProperAll p nodes)
    (h : ∀ m ∈ nodes.head?, m.isText = false) : ∀ m ∈ (tidyAll nodes).head?, m.isText = false := by
  match nodes, hp with
  | [], _ => exact h
  | .element info children :: rest, _ => simp [tidyAll, tidy, isText, text?]
  | .text content :: rest, _ => exact absurd (h _ rfl) (by simp [isText, text?])

mutual

/-- A tidied node is one that is read back as it is. -/
theorem proper_tidy : ∀ {n : Node}, Proper Unbracketed n →
    ∀ m ∈ tidy n, Proper SafeText m
  | .element info children, ⟨ht, ha, hc⟩, m, hm => by
    obtain rfl : m = .element info (tidyAll children) := by simpa [tidy] using hm
    exact ⟨ht, ha, properAll_tidyAll hc⟩
  | .text content, h, m, hm => by
    cases tidied content with
    | blank _ ht => simp [tidy, ht] at hm
    | trimmed kept before behind _ _ hne htrim hc ht =>
      obtain rfl : m = .text kept := by simpa [tidy, ht] using hm
      have hno : '<' ∉ kept.toList := fun hk => h (by simp [hc, hk])
      exact { ne_nil := hne, trimmed := htrim, noTag := noTag_of_not_mem hno
              not_loose := not_loose_of_not_mem hno }

theorem properAll_tidyAll : ∀ {nodes : List Node}, ProperAll Unbracketed nodes →
    ProperAll SafeText (tidyAll nodes)
  | [], _ => trivial
  | .element info children :: rest, ⟨hn, _, hr⟩ =>
    ⟨proper_tidy hn _ (by simp [tidy]), by simp [isText, text?], properAll_tidyAll hr⟩
  | .text content :: rest, ⟨hn, hnext, hr⟩ => by
    have hrest := properAll_tidyAll hr
    cases tidied content with
    | blank _ ht => simpa [tidyAll, tidy, ht] using hrest
    | trimmed kept _ _ _ _ _ _ _ ht =>
      have hkept := proper_tidy hn (.text kept) (by simp [tidy, ht])
      have hhead := head_tidyAll hr (hnext rfl)
      rw [tidyAll, tidy, ht]
      exact ⟨hkept, fun _ => hhead, hrest⟩

end

/-! ## Layouts -/

/-- The gap before a layout can be as wide as one likes. -/
theorem NodesLaid.widen {nodes : List Node} {s rest : List Char} (h : Printed nodes s rest)
    {gap : List Char} (hg : Blanks gap) : Printed nodes (gap ++ s) rest := by
  cases h with
  | nil hb rest =>
    rw [← List.append_assoc]
    exact .nil (hg.append hb) rest
  | text hb ht hn =>
    rw [← List.append_assoc]
    exact .text (hg.append hb) trivial hn
  | single hb ht hn =>
    rw [← List.append_assoc]
    exact .single (hg.append hb) ht hn
  | pair hb ho hi hc hn =>
    rw [← List.append_assoc]
    exact .pair (hg.append hb) ho hi hc hn

/-- **Margins belong to the gaps**: a layout of some nodes is one of what tidying leaves of
them. -/
theorem NodesLaid.tidy {nodes : List Node} {s rest : List Char} (h : Printed nodes s rest) :
    Printed (tidyAll nodes) s rest := by
  induction h with
  | nil hb rest => exact .nil hb rest
  | @text content nodes before s rest hb _ _ ih =>
    rw [tidyAll, Node.tidy]
    cases tidied content with
    | blank hc ht =>
      rw [ht, List.nil_append, ← List.append_assoc]
      exact ih.widen (hb.append hc)
    | trimmed kept lead behind hl he _ _ hc ht =>
      have hn : Printed (.text kept :: tidyAll nodes) _ rest :=
        .text (hb.append hl) trivial (ih.widen he)
      simpa [ht, hc] using hn
  | single hb ht _ ih => exact .single hb ht ih
  | pair hb ho _ hc _ ihi ihn => exact .pair hb ho ihi hc ihn

/-- **Printed markup is read as the tidied form of what it shows.** -/
theorem ofMarkup_tidy {style : Style} (hs : style.Blank) {children : List Node}
    (hp : ProperAll Unbracketed children) :
    Node.ofMarkup ((Node.root children).markup style) =
      .ok (.root (tidyAll (visibleAll children))) := by
  have ht := properAll_tidyAll hp.visible
  have hl := (markup_laid hs hp).tidy.stands (fun _ => id) ht (.inl rfl)
  exact ofMarkup_of_laid (fun _ => id) hl (ProperAll.mono (fun _ h => h.toRunText) ht)

/-! ## What tidying takes away -/

/-- Two texts of which the first is the second if `kept` holds, and shorter if not. -/
inductive Shrinks (kept : Prop) (s t : String) : Prop
  | same (h : kept) (he : s = t)
  | less (h : ¬ kept) (hl : s.length < t.length)

namespace Shrinks
variable {kept kept' : Prop} {s s' t t' : String}

theorem refl (h : kept) (s : String) : Shrinks kept s s := .same h rfl

theorem congr (h : Shrinks kept s t) (hk : kept ↔ kept') : Shrinks kept' s t := by
  cases h with
  | same h he => exact .same (hk.mp h) he
  | less h hl => exact .less (fun h' => h (hk.mpr h')) hl

theorem append (h : Shrinks kept s t) (h' : Shrinks kept' s' t') :
    Shrinks (kept ∧ kept') (s ++ s') (t ++ t') := by
  cases h with
  | same hk he =>
    cases h' with
    | same hk' he' => exact .same ⟨hk, hk'⟩ (by rw [he, he'])
    | less hk' hl' =>
      exact .less (fun h => hk' h.2) (by simp only [he, String.length_append]; omega)
  | less hk hl =>
    refine .less (fun h => hk h.1) ?_
    cases h' with
    | same _ he' => simp only [he', String.length_append]; omega
    | less _ hl' => simp only [String.length_append]; omega

/-- What stands around both texts makes no difference. -/
theorem between (h : Shrinks kept s t) (before behind : String) :
    Shrinks kept (before ++ s ++ behind) (before ++ t ++ behind) :=
  (((refl trivial before).append h).append (refl trivial behind)).congr (by simp)

theorem eq_iff (h : Shrinks kept s t) : s = t ↔ kept := by
  cases h with
  | same h he => exact iff_of_true he h
  | less h hl =>
    refine iff_of_false ?_ h
    rintro rfl
    exact absurd hl (Nat.lt_irrefl _)

end Shrinks

/-- A text shrinks by its margins. -/
theorem shrinks_trimmed {kept content : String} {before behind : List Char} (hb : Blanks before)
    (he : Blanks behind) (hne : kept.toList ≠ []) (ht : trim kept.toList = kept.toList)
    (hc : content.toList = before ++ (kept.toList ++ behind)) :
    Shrinks (trim content.toList = content.toList) kept content := by
  have htrim : trim content.toList = kept.toList := hc ▸ trim_pad hb ht hne he
  rw [htrim, String.toList_inj]
  by_cases h : kept = content
  · exact .same h h
  · refine .less h ?_
    have hl := congrArg List.length hc
    simp only [List.length_append, String.length_toList] at hl
    by_contra hle
    have hbefore : before = [] := List.eq_nil_of_length_eq_zero (by omega)
    have hbehind : behind = [] := List.eq_nil_of_length_eq_zero (by omega)
    rw [hbefore, hbehind, List.nil_append, List.append_nil, String.toList_inj] at hc
    exact h hc.symm

theorem eq_empty_of_trim {content : String} (hb : Blanks content.toList)
    (h : trim content.toList = content.toList) : content = "" := by
  rw [trim_blanks hb] at h
  exact String.toList_eq_nil_iff.mp h.symm

section Printing
variable (style : Style) {p : String → Prop}

/-- The lines that some nodes are printed on, each behind a line break. -/
def lines (depth : Nat) (nodes : List Node) : String :=
  String.join ((printAll style depth nodes).map (style.lineBreak ++ ·))

@[simp] theorem lines_nil (depth : Nat) : lines style depth [] = "" := rfl

theorem lines_cons (depth : Nat) (n : Node) (rest : List Node) :
    lines style depth (n :: rest) =
      style.lineBreak ++ print style depth n ++ lines style depth rest := by
  simp [lines, printAll]

theorem lines_append (depth : Nat) (nodes more : List Node) :
    lines style depth (nodes ++ more) = lines style depth nodes ++ lines style depth more := by
  induction nodes with
  | nil => simp
  | cons n rest ih => simp only [List.cons_append, lines_cons, ih, String.append_assoc]

/-- A block of lines begins with a line break. -/
theorem lineBreak_intercalate (depth : Nat) {nodes : List Node} (h : nodes ≠ []) :
    style.lineBreak ++ style.lineBreak.intercalate (printAll style depth nodes) =
      lines style depth nodes := by
  induction nodes with
  | nil => exact absurd rfl h
  | cons n rest ih =>
    by_cases hr : rest = []
    · simp [hr, printAll, lines]
    · have hne : printAll style depth rest ≠ [] := by
        cases rest with
        | nil => exact absurd rfl hr
        | cons => exact List.cons_ne_nil _ _
      rw [lines_cons, ← ih hr, printAll, String.intercalate_cons_of_ne_nil hne]
      simp only [String.append_assoc]

/-- A text on a line of its own. -/
theorem shrinks_line (depth : Nat) (content : String) :
    Shrinks (Kept style.multiline (.text content)) (lines style depth (textNodes content))
      (lines style depth [.text content]) := by
  have hline (content : String) : lines style depth [.text content] =
      style.lineBreak ++ style.margin depth ++ content ++ "" := by
    simp [lines_cons, print, String.append_assoc]
  cases tidied content with
  | blank hb ht =>
    rw [ht, hline, lines_nil]
    by_cases hshown : content = "" ∧ style.multiline = false
    · obtain ⟨rfl, hm⟩ := hshown
      refine .same ⟨rfl, by simp [hm]⟩ ?_
      simp [Style.lineBreak, Style.margin, hm]
    · refine .less ?_ ?_
      · rintro ⟨htrim, hne⟩
        have hc := eq_empty_of_trim hb htrim
        exact hshown ⟨hc, by simpa [hc] using hne⟩
      · by_cases hc : content = ""
        · have hm : style.multiline = true := by simpa [hc] using hshown
          have hbreak : style.lineBreak.length = 1 := by
            rw [Style.lineBreak, if_pos hm]
            rfl
          simp only [String.length_append, String.length_empty]
          omega
        · have hlen : content.length ≠ 0 := by simpa using hc
          simp only [String.length_append, String.length_empty]
          omega
  | trimmed kept before behind hb he hne htrim hc ht =>
    rw [ht, hline, hline]
    refine ((shrinks_trimmed hb he hne htrim hc).between _ _).congr ?_
    rw [Kept]
    refine (and_iff_left fun _ => ?_).symm
    rintro rfl
    simp [hne] at hc

/-- A text between two tags. -/
theorem shrinks_lone (depth : Nat) {info : Element} (h : info.selfClosing = false)
    (content : String) :
    Shrinks (trim content.toList = content.toList ∧ content ≠ "")
      (print style depth (.element info (textNodes content)))
      (print style depth (.element info [.text content])) := by
  cases tidied content with
  | blank hb ht =>
    refine .less (fun ⟨htrim, hne⟩ => hne (eq_empty_of_trim hb htrim)) ?_
    rw [ht, print_single style depth (.inr rfl), print_lone style depth h, Element.singleTag,
      Element.openTag, Element.closeTag]
    have hslash : " />".length = 3 := rfl
    have hclose : "</".length = 2 := rfl
    have hend : ">".length = 1 := rfl
    simp only [String.length_append]
    omega
  | trimmed kept before behind hb he hne htrim hc ht =>
    rw [ht, print_lone style depth h, print_lone style depth h]
    refine ((shrinks_trimmed hb he hne htrim hc).between _ _).congr (and_iff_left ?_).symm
    rintro rfl
    simp [hne] at hc

/-- Nodes that are not a lone text have an element among them. -/
theorem exists_isElement {nodes : List Node} (hp : ProperAll p nodes) (hne : nodes ≠ [])
    (hl : ∀ content, nodes ≠ [.text content]) : ∃ n ∈ nodes, n.isElement = true := by
  match nodes, hp with
  | .element info children :: rest, _ => exact ⟨_, List.mem_cons_self .., rfl⟩
  | [.text content], _ => exact absurd rfl (hl content)
  | .text content :: .element info children :: rest, _ =>
    exact ⟨.element info children, by simp, rfl⟩
  | .text _ :: .text _ :: _, ⟨_, hnext, _⟩ =>
    exact absurd (hnext rfl _ rfl) (by simp [isText, text?])

theorem isElement_tidyAll {nodes : List Node} (h : ∃ n ∈ nodes, n.isElement = true) :
    ∃ n ∈ tidyAll nodes, n.isElement = true := by
  induction nodes with
  | nil => exact h
  | cons m rest ih =>
    obtain ⟨n, hn, he⟩ := h
    rcases List.mem_cons.mp hn with rfl | hn
    · match n, he with
      | .element info children, _ =>
        exact ⟨.element info (tidyAll children), by simp [tidyAll, tidy], rfl⟩
    · obtain ⟨n, hn, he⟩ := ih ⟨n, hn, he⟩
      exact ⟨n, by rw [tidyAll]; exact List.mem_append_right _ hn, he⟩

/-- What has an element in it is neither empty nor a lone text. -/
theorem ne_lone_of_isElement {nodes : List Node} (h : ∃ n ∈ nodes, n.isElement = true) :
    nodes ≠ [] ∧ ∀ content, nodes ≠ [.text content] := by
  obtain ⟨n, hn, he⟩ := h
  constructor
  · rintro rfl
    cases hn
  · rintro content rfl
    obtain rfl := List.mem_singleton.mp hn
    cases he

mutual

/-- Tidying a node shrinks the lines it is printed on. -/
theorem shrinks_tidy : ∀ {n : Node}, Proper p n → ∀ depth : Nat,
    Shrinks (Kept style.multiline n) (lines style depth (tidy n)) (lines style depth [n])
  | .text content, _, depth => shrinks_line style depth content
  | .element info children, ⟨_, _, hc⟩, depth => by
    have hline (children : List Node) : lines style depth [.element info children] =
        style.lineBreak ++ print style depth (.element info children) ++ "" := by
      rw [lines_cons, lines_nil]
    rw [tidy, Kept, hline, hline]
    by_cases hs : Single info children
    · have hs' : Single info (tidyAll children) := by
        refine hs.imp_right ?_
        rintro rfl
        rfl
      rw [print_single style depth hs, print_single style depth hs']
      exact .refl (.inl hs) _
    · rw [or_iff_right hs]
      refine Shrinks.between ?_ _ _
      by_cases hlone : ∃ content, children = [.text content]
      · obtain ⟨content, rfl⟩ := hlone
        have hsc : info.selfClosing = false := by simpa [Single] using hs
        have hl := shrinks_lone style depth hsc content
        rw [tidyAll, tidyAll, tidy, List.append_nil]
        refine hl.congr ?_
        simp [KeptAll, Kept]
        tauto
      · have hne : children ≠ [] := fun h => hs (.inr h)
        have hblock := exists_isElement hc hne fun content he => hlone ⟨content, he⟩
        obtain ⟨hne', hlone'⟩ := ne_lone_of_isElement (isElement_tidyAll hblock)
        have hs' : ¬ Single info (tidyAll children) := fun h =>
          h.elim (fun h => hs (.inl h)) hne'
        have hi := shrinks_tidyAll hc (depth + 1)
        rw [← lineBreak_intercalate style _ hne, ← lineBreak_intercalate style _ hne'] at hi
        rw [print_block style depth hs fun content he => hlone ⟨content, he⟩,
          print_block style depth hs' hlone']
        have hb := hi.between (style.margin depth ++ info.openTag)
          (style.lineBreak ++ style.margin depth ++ info.closeTag)
        simp only [String.append_assoc] at hb ⊢
        exact hb.congr (and_iff_right fun he => hlone ⟨_, he⟩).symm

/-- Tidying the nodes of a list shrinks the lines they are printed on. -/
theorem shrinks_tidyAll : ∀ {nodes : List Node}, ProperAll p nodes → ∀ depth : Nat,
    Shrinks (KeptAll style.multiline nodes) (lines style depth (tidyAll nodes))
      (lines style depth nodes)
  | [], _, _ => .refl trivial _
  | n :: rest, ⟨hn, _, hr⟩, depth => by
    have h := (shrinks_tidy hn depth).append (shrinks_tidyAll hr depth)
    rwa [← lines_append, ← lines_append] at h

end

/-- **Tidying a page leaves its markup as it is if and only if the page is settled.** -/
theorem markup_tidyAll_iff {nodes : List Node} (hp : ProperAll p nodes) :
    (Node.root (tidyAll nodes)).markup style = (Node.root nodes).markup style ↔
      Settled style nodes := by
  have hm := style.multiline_effective
  have hmarkup (nodes : List Node) : (Node.root nodes).markup style =
      style.lineBreak.intercalate (printAll style.effective 0 nodes) := by
    unfold Node.markup print Style.lineBreak
    rw [hm]
  by_cases hne : nodes = []
  · subst nodes
    exact iff_of_true rfl (.inl trivial)
  by_cases hlone : ∃ content, nodes = [.text content]
  · obtain ⟨content, rfl⟩ := hlone
    have hmargin : style.effective.margin 0 = "" := by simp [Style.margin]
    have hsettled : Settled style [.text content] ↔
        trim content.toList = content.toList := by
      by_cases hc : content = ""
      · subst hc
        exact iff_of_true (.inr rfl) rfl
      · simp [Settled, KeptAll, Kept, hc]
    rw [hsettled, hmarkup, hmarkup, tidyAll, tidyAll, tidy, List.append_nil]
    cases tidied content with
    | blank hb ht =>
      rw [ht, trim_blanks hb, List.nil_eq, String.toList_eq_nil_iff]
      simp [printAll, print, hmargin, eq_comm]
    | trimmed kept before behind hb he hne' htrim hc ht =>
      rw [ht, ← (shrinks_trimmed hb he hne' htrim hc).eq_iff]
      simp [printAll, print, hmargin]
  · have hblock := exists_isElement hp hne fun content he => hlone ⟨content, he⟩
    obtain ⟨hne', -⟩ := ne_lone_of_isElement (isElement_tidyAll hblock)
    have hsettled : Settled style nodes ↔ KeptAll style.multiline nodes :=
      or_iff_left fun he => hlone ⟨_, he⟩
    have hbreak : style.effective.lineBreak = style.lineBreak := by
      unfold Style.lineBreak
      rw [hm]
    have h := (shrinks_tidyAll style.effective hp 0).eq_iff
    rw [← lineBreak_intercalate _ _ hne, ← lineBreak_intercalate _ _ hne', hm, hbreak,
      String.append_right_inj] at h
    rw [hsettled, hmarkup, hmarkup]
    exact h

end Printing

/-! ## Printing again -/

/-- **Printed markup is always read back, and prints the same once more if and only if the
page is settled**: what was read is what the markup shows, its texts without their margins
and the blank ones dropped. -/
theorem reprint_iff {style : Style} (hs : style.Blank) {children : List Node}
    (hp : ProperAll Unbracketed children) :
    ∃ again, Node.ofMarkup ((Node.root children).markup style) = .ok again ∧
      again = .root (tidyAll (visibleAll children)) ∧
      (again.markup style = (Node.root children).markup style ↔ Settled style children) := by
  refine ⟨_, ofMarkup_tidy hs hp, rfl, ?_⟩
  rw [← markup_visibleAll style children, markup_tidyAll_iff style hp.visible,
    settled_visibleAll]

/-- A row of three paragraphs in the compact style: no margins, and no texts that are missed
when they are dropped. -/
theorem reprint_iff_row :
    let p : Element := { id := some "p1", tag := "p", attributes := [⟨"off", .flag false⟩] }
    let children : List Node := [.element p [.text "a > b"], .text "", .element p []]
    (Style.compact.Blank ∧ ProperAll Unbracketed children ∧ Settled .compact children) ∧
      ∃ again, Node.ofMarkup ((Node.root children).markup .compact) = .ok again ∧
        again = .root (tidyAll (visibleAll children)) ∧
        (again.markup .compact = (Node.root children).markup .compact ↔
          Settled .compact children) := by
  intro p children
  have hs : Style.compact.Blank := by decide
  have hp : ProperAll Unbracketed children :=
    ⟨⟨by decide, by decide, (by decide : Unbracketed "a > b"), by simp, trivial⟩,
      by simp [isText, text?], (by decide : Unbracketed ""), by simp [isText, text?],
      ⟨by decide, by decide, trivial⟩, by simp, trivial⟩
  have hset : Settled .compact children :=
    .inl ⟨.inr ⟨by simp, ⟨by decide, by simp [Style.compact]⟩, trivial⟩,
      ⟨rfl, by simp [Style.compact]⟩, .inl (.inr rfl), trivial⟩
  exact ⟨⟨hs, hp, hset⟩, reprint_iff hs hp⟩

/-- A text with a margin is printed with it, and without it the second time. -/
theorem not_reprint_margin :
    ¬ ∀ (style : Style) (children : List Node), style = {} ∨ style = .compact →
      ProperAll Unbracketed children →
        ∃ again, Node.ofMarkup ((Node.root children).markup style) = .ok again ∧
          again.markup style = (Node.root children).markup style := by
  intro h
  have hs : ({} : Style).Blank := by decide
  have hp : ProperAll Unbracketed [.element { tag := "p" } [.text " a"]] :=
    ⟨⟨by decide, by decide, (by decide : Unbracketed " a"), by simp, trivial⟩, by simp, trivial⟩
  obtain ⟨again, hagain, heq⟩ := h {} _ (.inl rfl) hp
  rw [ofMarkup_tidy hs hp] at hagain
  obtain rfl := Except.ok.inj hagain
  exact absurd heq (by decide +kernel)

end Markup
end PageDesign

import PageDesign.Proofs.Component.Stored
import PageDesign.Proofs.Json.Listed

/-! # One configuration or a list of them

A text that is accepted as a design holds an object or a list.  An object is one configuration,
and the page has a single child.  A list is accepted as one of configurations if and only if
the text of each item is accepted alone, and as one configuration (`Design.read_many_iff`); the
page has a child for each of them, the one that the text of the item gives alone.

There is an exception.  A configuration may be stored as the list of its fields, and then the
list begins with the tag, a string.  No configuration is a string, so such a list cannot be a
list of configurations, and it is accepted as a single one.  The exception is the only one
(`Design.one_or_many`).
-/
namespace PageDesign
open Json

/-! ## What can be a configuration -/

/-- Whether the first item of a list is a string. -/
def StringFirst (items : List Json) : Prop := ∃ text rest, items = .str text :: rest

namespace Config
variable {v : Json} {config : Config} {items : List Json}

/-- The list of the fields of a configuration begins with its tag. -/
theorem stringFirst_of_ofJson? (h : ofJson? (.arr items) = some config) : StringFirst items := by
  obtain ⟨found, hc, -⟩ := Option.map_eq_some_iff.mp h
  obtain ⟨ps, hps, hc⟩ := Option.bind_eq_some_iff.mp hc
  have hvalues := values_of_record?_arr rfl hps
  split at hc
  · next tag _ _ _ =>
    -- the tag comes first and may not be left out, so there is a first item, and it is a string
    obtain ⟨text, htag, -⟩ := Option.bind_eq_some_iff.mp hc
    cases items with
    | nil =>
      obtain rfl : tag = none := Option.map_eq_none_iff.mp (List.cons.inj hvalues).1
      cases htag
    | cons v rest =>
      have hfirst : tag.map (·.1) = some v := (List.cons.inj hvalues).1
      rw [@required_eq _ _ _ _ str? hfirst] at htag
      cases v with
      | str text => exact ⟨text, rest, rfl⟩
      | _ => cases htag
  · cases hc

/-- A configuration is stored as an object, or as a list that begins with a string. -/
theorem cases_of_ofJson? (h : ofJson? v = some config) :
    (∃ members, v = .obj members) ∨ ∃ items, v = .arr items ∧ StringFirst items := by
  cases v with
  | obj members => exact .inl ⟨members, rfl⟩
  | arr items => exact .inr ⟨items, rfl, stringFirst_of_ofJson? h⟩
  | _ => cases h

/-- No list that begins with a string is a list of configurations. -/
theorem listOfJson?_of_stringFirst (h : StringFirst items) : listOfJson? (.arr items) = none := by
  obtain ⟨text, rest, rfl⟩ := h
  rfl

/-- No configuration can be taken for a list of them. -/
theorem listOfJson?_eq_none (h : ofJson? v = some config) : listOfJson? v = none := by
  rcases cases_of_ofJson? h with ⟨members, rfl⟩ | ⟨items, rfl, hfirst⟩
  · rfl
  · exact listOfJson?_of_stringFirst hfirst

end Config

namespace Design
variable {v : Json} {source : String} {design : Design} {config : Config} {configs : List Config}

theorem ofJson?_one_iff : ofJson? v = some (.one config) ↔ Config.ofJson? v = some config := by
  unfold ofJson?
  constructor
  · intro h
    split at h
    · cases h
    · obtain ⟨found, hfound, he⟩ := Option.map_eq_some_iff.mp h
      cases he
      exact hfound
  · intro h
    rw [Config.listOfJson?_eq_none h, h]
    rfl

theorem ofJson?_many_iff :
    ofJson? v = some (.many configs) ↔ Config.listOfJson? v = some configs := by
  unfold ofJson?
  constructor
  · intro h
    split at h
    · next hlist =>
      cases h
      exact hlist
    · obtain ⟨found, -, he⟩ := Option.map_eq_some_iff.mp h
      cases he
  · intro h
    rw [h]

theorem read_iff_ofJson? (hv : Json.read source = .ok v) :
    read source = .ok design ↔ ofJson? v = some design := by
  rw [read_eq_ok_iff]
  constructor
  · rintro ⟨w, hw, hdesign⟩
    obtain rfl := Except.ok.inj (hw.symm.trans hv)
    exact hdesign
  · exact fun hdesign => ⟨v, hv, hdesign⟩

/-! ## Lists of configurations -/

section Lists
variable {texts : List String} {items : List Json}

/-- **A list is accepted as a list if and only if the text of each item is accepted alone**, as
a single configuration, and then it is the list of these. -/
theorem read_many_iff (hv : Json.read source = .ok (.arr items))
    (hread : List.Forall₂ (fun t v => Json.read t = .ok v) texts items) :
    read source = .ok (.many configs) ↔
      List.Forall₂ (fun t config => read t = .ok (.one config)) texts configs := by
  rw [read_iff_ofJson? hv, ofJson?_many_iff, Config.listOfJson?, mapM_eq_some_iff]
  clear hv
  -- by induction on the items: each is a configuration if and only if its text alone gives one
  induction hread generalizing configs with
  | nil => rw [List.forall₂_nil_left_iff, List.forall₂_nil_left_iff]
  | cons ht _ ih =>
    rw [List.forall₂_cons_left_iff, List.forall₂_cons_left_iff]
    simp only [ih, read_iff_ofJson? ht, ofJson?_one_iff]

/-- Whether some nodes are what texts give alone, each a page with a single child. -/
def ReadAlone (texts : List String) (children : List Node) : Prop :=
  List.Forall₂ (fun text child => ∃ design, read text = .ok design ∧ design.page = .root [child])
    texts children

theorem readAlone_configs
    (h : List.Forall₂ (fun t config => read t = .ok (.one config)) texts configs) :
    ReadAlone texts (configs.map Config.toNode) :=
  List.forall₂_map_right_iff.mpr (h.imp fun _ config ht => ⟨.one config, ht, rfl⟩)

/-- A string gives nothing alone. -/
theorem not_readAlone {children : List Node}
    (hread : List.Forall₂ (fun t v => Json.read t = .ok v) texts items) (h : StringFirst items) :
    ¬ ReadAlone texts children := by
  intro halone
  obtain ⟨text, rest, rfl⟩ := h
  cases hread with
  | cons ht _ =>
    cases halone with
    | cons hfirst _ =>
      obtain ⟨design, hdesign, -⟩ := hfirst
      cases (read_iff_ofJson? ht).mp hdesign

end Lists

/-! ## Texts that are accepted -/

/-- **One configuration or a list of them.**  A text that is accepted holds an object, and the
page has a single child, or it holds a list.  Then the children of the page are what the texts
of the items give alone, one for each item, unless the first item is a string.  If it is, the
list passes for one configuration, and the page has a single child. -/
theorem one_or_many (h : read source = .ok design) :
    (∃ members child, Json.read source = .ok (.obj members) ∧ design.page = .root [child]) ∨
    ∃ items children, Json.read source = .ok (.arr items) ∧ design.page = .root children ∧
      (∃ texts, ListOf texts source ∧
        List.Forall₂ (fun t v => Json.read t = .ok v) texts items) ∧
      (∀ texts, List.Forall₂ (fun t v => Json.read t = .ok v) texts items →
        (ReadAlone texts children ↔ ¬ StringFirst items)) ∧
      (StringFirst items → ∃ child, children = [child]) := by
  obtain ⟨v, hv, hdesign⟩ := read_eq_ok_iff.mp h
  cases design with
  | one config =>
    rcases Config.cases_of_ofJson? (ofJson?_one_iff.mp hdesign) with
      ⟨members, rfl⟩ | ⟨items, rfl, hfirst⟩
    · exact .inl ⟨members, config.toNode, hv, rfl⟩
    · refine .inr ⟨items, _, hv, rfl, (read_arr_iff.mp hv).2, fun texts hread => ?_,
        fun _ => ⟨_, rfl⟩⟩
      exact iff_of_false (not_readAlone hread hfirst) (not_not.mpr hfirst)
  | many configs =>
    have hlist := ofJson?_many_iff.mp hdesign
    cases v with
    | arr items =>
      -- a list that begins with a string would not be one of configurations
      have hfirst : ¬ StringFirst items := by
        intro hstring
        rw [Config.listOfJson?_of_stringFirst hstring] at hlist
        cases hlist
      refine .inr ⟨items, _, hv, rfl, (read_arr_iff.mp hv).2, fun texts hread => ?_,
        fun hstring => absurd hstring hfirst⟩
      exact iff_of_true (readAlone_configs ((read_many_iff hv hread).mp h)) hfirst
    | _ => cases hlist

/-- A list of two configurations is a list of two texts, which give the two children alone. -/
theorem one_or_many_pair :
    let design : Design := .many [Config.new "ul", Config.new "p"]
    read design.toJson.compact = .ok design ∧
      ∃ texts children, ListOf texts design.toJson.compact ∧ design.page = .root children ∧
        ReadAlone texts children := by
  intro design
  have hnew : ∀ tag : String, (Config.new tag).toChild.Exact := fun _ =>
    ⟨List.forall_mem_nil _, trivial⟩
  have hexact : Json.Exact design.toJson := by
    refine exact_toJson (List.forall_mem_cons.mpr ⟨hnew "ul", ?_⟩)
    exact List.forall_mem_singleton.mpr (hnew "p")
  have hread : read design.toJson.compact = .ok design :=
    read_written .compact hexact (by decide)
  refine ⟨hread, ?_⟩
  rcases one_or_many hread with ⟨members, child, -, hpage⟩ |
    ⟨items, children, hitems, hpage, ⟨texts, hlist, htexts⟩, halone, -⟩
  · cases hpage
  · have hstored : Json.read design.toJson.compact = .ok design.toJson :=
      (Written.compact.read hexact).1 (by decide)
    obtain rfl := Json.arr.inj (Except.ok.inj (hitems.symm.trans hstored))
    refine ⟨texts, children, hlist, hpage, (halone texts htexts).mpr ?_⟩
    rintro ⟨text, rest, he⟩
    cases he

/-- A list of a string and an object is accepted as one configuration: of two items, the page
has a single child. -/
theorem not_one_or_many_listed :
    ¬ ∀ source design items, read source = .ok design → Json.read source = .ok (.arr items) →
      ∃ children, design.page = .root children ∧ children.length = items.length := by
  intro h
  have hexact : Json.Exact (.arr [.str "div", .obj []]) := ⟨trivial, trivial, trivial⟩
  have hread : Json.read (Json.arr [.str "div", .obj []]).compact = .ok _ :=
    (Written.compact.read hexact).1 (by decide)
  have hdesign : read (Json.arr [.str "div", .obj []]).compact = .ok (.one (Config.new "div")) :=
    read_eq_ok_iff.mpr ⟨_, hread, rfl⟩
  obtain ⟨children, hpage, hlength⟩ := h _ _ _ hdesign hread
  cases hpage
  cases hlength

end Design
end PageDesign

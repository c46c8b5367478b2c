import PageDesign.Component.Stored
import PageDesign.Proofs.Json.Shape

/-! # The stored form of designs is read back

A configuration is read back from its stored form with its props in their order
(`Config.ofJson?_toJson`), and a design as what it was, one configuration or a list
(`Design.ofJson?_toJson`): a list is never stored as an object, so the two forms cannot be
taken for one another.

A design without floating-point numbers is hence read back from its text, as long as it is
not nested too deep (`Design.read_written`).  A component costs two levels of nesting, its
object and the list of its children, and its props never cost more (`Child.nesting_toJson`):
the limit is met as long as no more than 63 components stand in one another
(`Design.loads_written`).
-/
namespace PageDesign
open Json

/-! ## Props -/

theorem Scalar.ofJson?_toJson (x : Scalar) : ofJson? x.toJson = some x := by
  cases x <;> rfl

theorem setEntry_of_notMem {α : Type} {name : String} {value : α} {entries : List (String × α)}
    (h : name ∉ entries.map Prod.fst) :
    setEntry name value entries = entries ++ [(name, value)] := by
  induction entries with
  | nil => rfl
  | cons e rest ih =>
    rw [List.map_cons, List.mem_cons, not_or] at h
    rw [setEntry, if_neg (Ne.symm h.1), ih h.2, List.cons_append]

namespace Props

theorem entries_foldl (props : Props) (entries : List (String × Scalar))
    (h : ((props.entries ++ entries).map Prod.fst).Nodup) :
    (entries.foldl (fun props entry => props.set entry.1 entry.2) props).entries =
      props.entries ++ entries := by
  induction entries generalizing props with
  | nil => simp
  | cons e rest ih =>
    have hnew : e.1 ∉ props.entries.map Prod.fst := by
      rw [List.map_append, List.nodup_append] at h
      exact fun hm => h.2.2 e.1 hm e.1 (by simp) rfl
    have hset : (props.set e.1 e.2).entries = props.entries ++ [e] := setEntry_of_notMem hnew
    rw [List.foldl_cons, ih, hset, List.append_assoc, List.singleton_append]
    rwa [hset, List.append_assoc, List.singleton_append]

theorem eq_of_entries {a b : Props} (h : a.entries = b.entries) : a = b := by
  cases a
  cases b
  cases h
  rfl

/-- Props that are set in their order are the same props. -/
theorem ofList_entries (props : Props) : ofList props.entries = props :=
  eq_of_entries (entries_foldl .empty props.entries (by simpa [empty] using props.distinct))

theorem ofJson?_toJson (props : Props) : ofJson? props.toJson = some props := by
  have h : (props.entries.map fun entry => (entry.1, entry.2.toJson)).mapM
      (fun m => (Scalar.ofJson? m.2).map (m.1, ·)) = some props.entries :=
    mapM_eq fun entry _ => by rw [Scalar.ofJson?_toJson]; rfl
  rw [toJson, ofJson?, h, Option.map_some, ofList_entries]

end Props

/-! ## Components -/

/-- The fields of a stored component, its children given. -/
def Component.fields (c : Component) (children : List Json) : List (String × Option Json) :=
  [("tag", some (.str c.tag)), ("props", some c.props.toJson), ("children", some (.arr children)),
    ("isSelfClosing", c.selfClosing.map .bool)]

theorem Component.members_eq (c : Component) (children : List Json) :
    c.members children = presentMembers (c.fields children) := rfl

theorem Component.ofJson?_members {c : Component} {children : List Child} {enc : Child → Json}
    {read : Json → Option Child} (hread : ∀ x ∈ children, read (enc x) = some x) :
    ofJson? (.obj (c.members (children.map enc))) (read ·.1) = some (c, children) := by
  obtain ⟨ps, hps, hvalues⟩ := @record?_obj (.obj (c.members (children.map enc)))
    (c.fields (children.map enc)) ["tag", "props", "children", "isSelfClosing"] rfl rfl (by decide)
  simp only [fields, List.map_cons, List.map_nil, List.map_eq_cons_iff, List.map_eq_nil_iff]
    at hvalues
  obtain ⟨tag, _, rfl, htag, props, _, rfl, hprops, children, _, rfl, hchildren, closing, _, rfl,
    hclosing, rfl⟩ := hvalues
  rw [ofJson?, hps]
  simp only [Option.bind_eq_bind, Option.bind_some, @required_eq _ _ _ _ str? htag,
    @orElse_eq _ _ _ _ Props.ofJson? _ hprops, Props.ofJson?_toJson, listOf_eq hchildren hread,
    @optional_eq _ _ _ bool? _ _ hclosing (fun _ => Json.noConfusion) fun _ _ => rfl]
  rfl

namespace Child

theorem toJsonList_eq (children : List Child) : toJsonList children = children.map toJson := by
  induction children with
  | nil => rfl
  | cons c rest ih => rw [toJsonList, ih, List.map_cons]

mutual

/-- **A child is read back from its stored form**: a string as a text, an object as a
component. -/
theorem ofJson?_toJson : ∀ c : Child, ofJson? c.toJson = some c
  | text content => by
    rw [toJson, ofJson?]
    rfl
  | component info children => by
    rw [toJson, toJsonList_eq, ofJson?]
    simp only [str?, Component.ofJson?_members (ofJson?_toJson_of_mem children)]
    rfl

theorem ofJson?_toJson_of_mem : ∀ children : List Child, ∀ c ∈ children, ofJson? c.toJson = some c
  | [] => by simp
  | c :: rest => List.forall_mem_cons.mpr ⟨ofJson?_toJson c, ofJson?_toJson_of_mem rest⟩

end

end Child

/-! ## Designs -/

theorem Config.ofJson?_toJson (c : Config) : ofJson? c.toJson = some c := by
  have h := @Component.ofJson?_members c.info c.children Child.toJson Child.ofJson?
    fun x _ => x.ofJson?_toJson
  rw [← Child.toJsonList_eq] at h
  exact congrArg (Option.map _) h

namespace Design

/-- **A design is read back from its stored form** as what it was, one configuration or a
list of them. -/
theorem ofJson?_toJson (design : Design) : ofJson? design.toJson = some design := by
  cases design with
  | one config =>
    have h : Config.listOfJson? config.toJson = none := rfl
    rw [toJson, ofJson?, h, Config.ofJson?_toJson]
    rfl
  | many configs =>
    have h : Config.listOfJson? (.arr (configs.map Config.toJson)) = some configs :=
      mapM_eq fun config _ => config.ofJson?_toJson
    rw [toJson, ofJson?, h]

variable {design : Design} {source : String}

/-- A text is accepted as a design if and only if it holds the value of one. -/
theorem read_eq_ok_iff : read source = .ok design ↔
    ∃ v, Json.read source = .ok v ∧ ofJson? v = some design := by
  simp only [Json.read_eq_ok_iff_front]
  unfold read
  constructor
  · intro h
    split at h
    · cases h
    · next v rest hf =>
      split at h
      · cases h
      · next hv =>
        split at h
        · cases h
        · next hrest =>
          cases h
          exact ⟨v, ⟨rest, hf, hrest⟩, hv⟩
  · rintro ⟨v, ⟨rest, hf, hrest⟩, hv⟩
    simp only [hf, hv, hrest]

/-- A design without floating-point numbers is read back from its text, unless it is nested
too deep. -/
theorem read_written (h : Written design.toJson source) (he : Exact design.toJson)
    (hn : nesting design.toJson ≤ nestingLimit) : read source = .ok design :=
  read_eq_ok_iff.mpr ⟨_, (h.read he).1 hn, design.ofJson?_toJson⟩

end Design

/-! ## Numbers and levels of the stored form -/

/-- Whether a scalar is no number, or an integer of sixty-four bits. -/
def Scalar.Exact : Scalar → Prop
  | number n => n.Exact
  | _ => True

theorem Scalar.exact_toJson {x : Scalar} (h : x.Exact) : Json.Exact x.toJson := by
  cases x <;> exact h

theorem Scalar.nesting_toJson (x : Scalar) : nesting x.toJson = 0 := by
  cases x <;> rfl

/-- Whether all numbers among the props of a component are integers of sixty-four bits. -/
def Component.Exact (c : Component) : Prop := ∀ entry ∈ c.props.entries, entry.2.Exact

theorem Component.exact_members {c : Component} (h : c.Exact) {children : List Json}
    (hc : ExactItems children) : ExactMembers (c.members children) := by
  have hprops : Json.Exact c.props.toJson := by
    refine exactMembers_iff.mpr (List.forall_mem_map.mpr fun entry hentry => ?_)
    exact Scalar.exact_toJson (h entry hentry)
  rw [exactMembers_iff, members_eq, forall_mem_presentMembers]
  simp only [fields, List.forall_mem_cons, Option.forall_mem_map, Option.mem_some_iff,
    forall_eq', List.not_mem_nil]
  exact ⟨trivial, hprops, hc, fun _ _ => trivial, by simp⟩

/-- The list of children is what is nested deepest in a component. -/
theorem Component.nesting_members (c : Component) (children : List Json) :
    nestingOfMembers (c.members children) = nestingOfItems children + 1 := by
  have hprops : nesting c.props.toJson ≤ 1 := by
    refine Nat.succ_le_succ (nestingOfMembers_le_iff.mpr (List.forall_mem_map.mpr ?_))
    intro entry _
    exact Nat.le_of_eq entry.2.nesting_toJson
  rw [members_eq]
  -- an object of scalars is nested no deeper than an empty list of children
  apply Nat.le_antisymm
  · refine nestingOfMembers_present_le_iff.mpr ?_
    simp only [fields, List.forall_mem_cons, Option.forall_mem_map, Option.mem_some_iff,
      forall_eq', List.not_mem_nil]
    exact ⟨Nat.zero_le _, Nat.le_trans hprops (Nat.succ_le_succ (Nat.zero_le _)), Nat.le_refl _,
      fun _ _ => Nat.zero_le _, by simp⟩
  · have hmember : ("children", Json.arr children) ∈ presentMembers (c.fields children) := by
      simp [fields, presentMembers]
    exact nestingOfMembers_le_iff.mp (Nat.le_refl _) _ hmember

namespace Child

mutual

/-- Whether all numbers among the props of a child, and of all below it, are integers of
sixty-four bits. -/
def Exact : Child → Prop
  | text _ => True
  | component info children => info.Exact ∧ ExactAll children

/-- Whether all numbers among the props of children, and of all below them, are integers of
sixty-four bits. -/
def ExactAll : List Child → Prop
  | [] => True
  | c :: rest => Exact c ∧ ExactAll rest

end

mutual

/-- How many components stand in one another in a child. -/
def depth : Child → Nat
  | text _ => 0
  | component _ children => depthAll children + 1

/-- How many components stand in one another in the children of a list. -/
def depthAll : List Child → Nat
  | [] => 0
  | c :: rest => max (depth c) (depthAll rest)

end

mutual

theorem exact_toJson : ∀ c : Child, c.Exact → Json.Exact c.toJson
  | text _, _ => trivial
  | component _ children, ⟨hinfo, hchildren⟩ =>
    Component.exact_members hinfo (exact_toJsonList children hchildren)

theorem exact_toJsonList : ∀ children : List Child, ExactAll children →
    ExactItems (toJsonList children)
  | [], _ => trivial
  | c :: rest, ⟨hc, hrest⟩ => ⟨exact_toJson c hc, exact_toJsonList rest hrest⟩

end

mutual

/-- **Each component costs two levels of nesting**: its object and the list of its children. -/
theorem nesting_toJson : ∀ c : Child, nesting c.toJson = 2 * c.depth
  | text _ => rfl
  | component info children => by
    have ih := nesting_toJsonList children
    have hm := info.nesting_members (toJsonList children)
    simp only [toJson, depth, nesting]
    omega

theorem nesting_toJsonList : ∀ children : List Child,
    nestingOfItems (toJsonList children) = 2 * depthAll children
  | [] => rfl
  | c :: rest => by
    have hc := nesting_toJson c
    have ih := nesting_toJsonList rest
    simp only [toJsonList, depthAll, nestingOfItems]
    omega

end

end Child

namespace Design

/-- The configurations of a design. -/
def configs : Design → List Config
  | one config => [config]
  | many configs => configs

variable {design : Design} {source : String}

theorem exact_toJson (h : ∀ config ∈ design.configs, config.toChild.Exact) :
    Json.Exact design.toJson := by
  cases design with
  | one config => exact config.toChild.exact_toJson (h config (List.mem_singleton_self config))
  | many configs =>
    refine exactItems_iff.mpr (List.forall_mem_map.mpr fun config hconfig => ?_)
    exact config.toChild.exact_toJson (h config hconfig)

/-- Lists of configurations cost a level more, but the limit leaves room for it. -/
theorem nesting_toJson_le_iff :
    nesting design.toJson ≤ nestingLimit ↔
      ∀ config ∈ design.configs, config.toChild.depth ≤ 63 := by
  have hlevels : ∀ config : Config, nesting config.toJson = 2 * config.toChild.depth :=
    fun config => config.toChild.nesting_toJson
  cases design with
  | one config =>
    have hconfig := hlevels config
    simp only [toJson, configs, List.forall_mem_singleton, nestingLimit]
    omega
  | many configs =>
    simp only [toJson, Design.configs, nesting, nestingLimit]
    rw [Nat.succ_le_succ_iff, nestingOfItems_le_iff, List.forall_mem_map]
    refine forall₂_congr fun config _ => ?_
    have hconfig := hlevels config
    omega

/-- **A design is read and loaded from either text that is written for it** if no more than 63
of its components stand in one another, and is refused as nested too deep if more of them do. -/
theorem loads_written (h : Written design.toJson source)
    (he : ∀ config ∈ design.configs, config.toChild.Exact) :
    ((∀ config ∈ design.configs, config.toChild.depth ≤ 63) →
      read source = .ok design ∧ load source = .ok design) ∧
    ((∃ config ∈ design.configs, 63 < config.toChild.depth) →
      ∃ f, f.cause = .tooDeep ∧ read source = .error (.fault f) ∧ load source = .error f) := by
  have hexact := exact_toJson he
  constructor
  · intro hdepth
    have hn := nesting_toJson_le_iff.mpr hdepth
    exact ⟨read_written h hexact hn,
      Json.load_eq_ok_iff.mpr ⟨_, (h.read hexact).1 hn, design.ofJson?_toJson⟩⟩
  · rintro ⟨config, hconfig, hdepth⟩
    have hn : nestingLimit < nesting design.toJson := by
      by_contra hle
      have hall := nesting_toJson_le_iff.mp (Nat.not_lt.mp hle) config hconfig
      omega
    obtain ⟨f, hf, hcause⟩ := (h.front hexact).2 hn
    refine ⟨f, hcause, ?_, ?_⟩
    · simp only [read, hf]
    · simp only [load, Json.load, Json.read, hf]

end Design
end PageDesign

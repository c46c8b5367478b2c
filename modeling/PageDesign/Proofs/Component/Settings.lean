import PageDesign.Proofs.Component.Fields
import PageDesign.Proofs.Component.OneOrMany

/-! # Settings made one after another

Props are set by name, one after another, and so are the attributes of an element.  Whatever
the names and however often they recur, what comes of the settings can be said at once: the
names in the order in which they first came up, each with the value that it was given last
(`settled`).

Setting an entry of a table is one step of this (`setEntry_settled`), and both the props of a
component and the attributes of an element are such tables.  A design that is read from a text
sets its props in the order of the text.  So a component that is built by setting props, one
that is read from a text with the same props, and an element whose attributes are set come to
the same attributes (`settings_agree`).
-/
namespace PageDesign
open Json

section Settled
variable {α β : Type}

/-- The value that a name is given last. -/
def lastOf? (name : String) (settings : List (String × α)) : Option α :=
  (settings.filter (·.1 == name)).getLast?.map (·.2)

/-- The table of names with the values that `value` gives them. -/
def tableOf (value : String → Option α) (names : List String) : List (String × α) :=
  names.filterMap fun name => (value name).map (name, ·)

/-- What settings come to: their names in the order in which they first came up, each with
the value that it was given last. -/
def settled (settings : List (String × α)) : List (String × α) :=
  tableOf (lastOf? · settings) (settings.map (·.1)).eraseDups

/-! ## One more setting -/

theorem lastOf?_append (name : String) (settings : List (String × α)) (next : String × α) :
    lastOf? name (settings ++ [next]) =
      if name = next.1 then some next.2 else lastOf? name settings := by
  rw [lastOf?, List.filter_append, List.getLast?_append, List.filter_singleton]
  by_cases h : name = next.1
  · simp [h]
  · have hne : (next.1 == name) = false := beq_false_of_ne (Ne.symm h)
    simp [h, hne, lastOf?]

theorem isSome_lastOf? {name : String} {settings : List (String × α)}
    (h : name ∈ settings.map (·.1)) : (lastOf? name settings).isSome = true := by
  obtain ⟨entry, hentry, rfl⟩ := List.mem_map.mp h
  have hne : settings.filter (·.1 == entry.1) ≠ [] :=
    List.ne_nil_of_mem (List.mem_filter.mpr ⟨hentry, beq_self_eq_true _⟩)
  rw [lastOf?, List.getLast?_eq_some_getLast hne]
  rfl

/-- A name is listed at the end when it first comes up. -/
theorem eraseDups_concat (names : List String) (name : String) :
    (names ++ [name]).eraseDups =
      if name ∈ names then names.eraseDups else names.eraseDups ++ [name] := by
  rw [List.eraseDups_append, List.removeAll, List.filter_singleton]
  by_cases h : name ∈ names <;> simp [h, List.eraseDups_cons]

theorem nodup_eraseDups (names : List String) : names.eraseDups.Nodup := by
  induction names using List.reverseRecOn with
  | nil => simp
  | append_singleton names name ih =>
    rw [eraseDups_concat]
    split
    · exact ih
    · next h =>
      have hnew : name ∉ names.eraseDups := fun hm => h (List.mem_eraseDups.mp hm)
      exact List.nodup_append.mpr ⟨ih, List.nodup_singleton name, by
        rintro a ha b hb rfl
        exact hnew (List.mem_singleton.mp hb ▸ ha)⟩

theorem tableOf_cons {value : String → Option α} {first : String} {x : α}
    (h : value first = some x) (rest : List String) :
    tableOf value (first :: rest) = (first, x) :: tableOf value rest := by
  rw [tableOf, List.filterMap_cons, h]
  rfl

/-- An entry is set in its place if its name is in a table, and at the end if it is not. -/
theorem setEntry_tableOf {value : String → Option α} {names : List String} (hn : names.Nodup)
    (hv : ∀ name ∈ names, (value name).isSome = true) (name : String) (x : α) :
    setEntry name x (tableOf value names) =
      tableOf (fun n => if n = name then some x else value n)
        (if name ∈ names then names else names ++ [name]) := by
  induction names with
  | nil => simp [tableOf, setEntry]
  | cons first rest ih =>
    obtain ⟨hfirst, hrest⟩ := List.nodup_cons.mp hn
    obtain ⟨hsome, hv⟩ := List.forall_mem_cons.mp hv
    obtain ⟨y, hy⟩ := Option.isSome_iff_exists.mp hsome
    rw [tableOf_cons hy, setEntry]
    by_cases h : first = name
    · -- the name does not recur, so the entries behind its place stay as they are
      subst h
      have hsame : tableOf (fun n => if n = first then some x else value n) rest =
          tableOf value rest := by
        refine List.filterMap_congr fun n hmem => ?_
        simp only [if_neg (ne_of_mem_of_not_mem hmem hfirst)]
      rw [if_pos rfl, if_pos List.mem_cons_self, tableOf_cons (if_pos rfl), hsame]
    · have hvalue : (fun n => if n = name then some x else value n) first = some y := by
        simp only [if_neg h, hy]
      have hnames : (if name ∈ first :: rest then first :: rest else first :: rest ++ [name]) =
          first :: if name ∈ rest then rest else rest ++ [name] := by
        by_cases hmem : name ∈ rest <;> simp [hmem, Ne.symm h]
      rw [if_neg h, ih hrest hv, hnames, tableOf_cons hvalue]

/-- **Setting an entry is one more setting.** -/
theorem setEntry_settled (settings : List (String × α)) (next : String × α) :
    setEntry next.1 next.2 (settled settings) = settled (settings ++ [next]) := by
  have hset := setEntry_tableOf (nodup_eraseDups (settings.map (·.1)))
    (fun name h => isSome_lastOf? (List.mem_eraseDups.mp h)) next.1 next.2
  have hvalues : (fun n => if n = next.1 then some next.2 else lastOf? n settings) =
      fun n => lastOf? n (settings ++ [next]) :=
    funext fun n => (lastOf?_append n settings next).symm
  rw [hvalues] at hset
  simp only [List.mem_eraseDups] at hset
  rw [← eraseDups_concat] at hset
  rw [settled, settled, hset, List.map_append, List.map_singleton]

theorem foldl_setEntry (settings : List (String × α)) :
    settings.foldl (fun entries next => setEntry next.1 next.2 entries) [] = settled settings := by
  induction settings using List.reverseRecOn with
  | nil => rfl
  | append_singleton settings next ih =>
    rw [List.foldl_append, ih, List.foldl_cons, List.foldl_nil, setEntry_settled]

end Settled

/-! ## Props -/

theorem Props.entries_foldl_set (settings : List (String × Scalar)) (props : Props) :
    (settings.foldl (fun props next => props.set next.1 next.2) props).entries =
      settings.foldl (fun entries next => setEntry next.1 next.2 entries) props.entries := by
  induction settings generalizing props with
  | nil => rfl
  | cons next rest ih => rw [List.foldl_cons, ih, List.foldl_cons, Props.set]

theorem Props.entries_ofList (settings : List (String × Scalar)) :
    (ofList settings).entries = settled settings :=
  (entries_foldl_set settings .empty).trans (foldl_setEntry settings)

/-- Props that are set on a configuration are set on its component alone. -/
theorem Config.foldl_prop (settings : List (String × Scalar)) (config : Config) :
    settings.foldl (fun c next => c.prop next.1 next.2) config =
      { config with
        info := { config.info with
          props := settings.foldl (fun props next => props.set next.1 next.2)
            config.info.props } } := by
  induction settings generalizing config with
  | nil => rfl
  | cons next rest ih => rw [List.foldl_cons, ih, List.foldl_cons, Config.prop]

/-! ## Attributes -/

/-- The attributes that the entries of props become. -/
def attributesOf (entries : List (String × Scalar)) : List Attribute :=
  entries.map fun entry => ⟨entry.1, entry.2.toValue⟩

theorem setAttribute_attributesOf (next : String × Scalar) (entries : List (String × Scalar)) :
    setAttribute next.1 next.2.toValue (attributesOf entries) =
      attributesOf (setEntry next.1 next.2 entries) := by
  induction entries with
  | nil => rfl
  | cons entry rest ih =>
    obtain ⟨key, old⟩ := entry
    show (if key = next.1 then _ else _) = attributesOf (if key = next.1 then _ else _)
    by_cases h : key = next.1
    · rw [if_pos h, if_pos h]
      rfl
    · rw [if_neg h, if_neg h]
      exact congrArg _ ih

theorem Element.foldl_set (settings entries : List (String × Scalar)) (e : Element) :
    settings.foldl (fun e next => e.set next.1 next.2.toValue)
        { e with attributes := attributesOf entries } =
      { e with
        attributes := attributesOf (settings.foldl (fun es next => setEntry next.1 next.2 es)
          entries) } := by
  induction settings generalizing entries with
  | nil => rfl
  | cons next rest ih =>
    rw [List.foldl_cons, Element.set, setAttribute_attributesOf, List.foldl_cons]
    exact ih _

/-! ## Designs -/

/-- The members of an object that stores settings of props. -/
def Props.settingsJson (settings : List (String × Scalar)) : Json :=
  .obj (settings.map fun next => (next.1, next.2.toJson))

theorem Props.ofJson?_settingsJson (settings : List (String × Scalar)) :
    ofJson? (settingsJson settings) = some (ofList settings) := by
  have h : (settings.map fun next => (next.1, next.2.toJson)).mapM
      (fun m => (Scalar.ofJson? m.2).map (m.1, ·)) = some settings :=
    mapM_eq fun next _ => by rw [Scalar.ofJson?_toJson]; rfl
  rw [settingsJson, ofJson?, h, Option.map_some]

/-- The element that settings of attributes come to. -/
def Element.ofSettings (tag : String) (settings : List (String × Scalar)) : Element :=
  { tag, attributes := attributesOf (settled settings) }

theorem Config.page_ofList (tag : String) (settings : List (String × Scalar)) :
    Config.page { info := { tag, props := .ofList settings } } =
      .root [.element (.ofSettings tag settings) []] := by
  have hattributes : (Props.ofList settings).attributes = attributesOf (settled settings) :=
    congrArg attributesOf (Props.entries_ofList settings)
  rw [Element.ofSettings, ← hattributes]
  rfl

section Stored
variable {members : List (String × Json)} {tag : String} {settings : List (String × Scalar)}
variable {source : String}

/-- An object with a tag and with settings of props is a configuration with these props. -/
theorem Design.ofJson?_settings (htag : valuesOf "tag" members = [.str tag])
    (hprops : valuesOf "props" members = [Props.settingsJson settings])
    (hchildren : valuesOf "children" members = [])
    (hclosing : valuesOf "isSelfClosing" members = []) :
    ofJson? (.obj members) = some (.one { info := { tag, props := .ofList settings } }) := by
  have hfound : Component.FoundIn members Child.ofJson? { tag, props := .ofList settings } [] := by
    refine ⟨?_, ?_, ?_, ?_, ?_⟩
    · simp [Component.keys, htag, hprops, hchildren, hclosing]
    · rw [htag]; rfl
    · rw [hprops]; exact Props.ofJson?_settingsJson settings
    · rw [hclosing]; rfl
    · rw [hchildren]; rfl
  exact ofJson?_one_iff.mpr (congrArg (Option.map _) (Component.ofJson?_obj.mpr hfound))

/-- What is written for an object of a tag and of settings of props is read as it was. -/
theorem Props.read_settingsJson (h : ∀ next ∈ settings, next.2.Exact)
    (hs : Written (.obj [("tag", .str tag), ("props", settingsJson settings)]) source) :
    Json.read source = .ok (.obj [("tag", .str tag), ("props", settingsJson settings)]) := by
  have hexact : Json.Exact (settingsJson settings) :=
    exactMembers_iff.mpr <| List.forall_mem_map.mpr fun next hnext =>
      Scalar.exact_toJson (h next hnext)
  have hlevels : nesting (settingsJson settings) ≤ 1 := by
    refine Nat.succ_le_succ (nestingOfMembers_le_iff.mpr (List.forall_mem_map.mpr ?_))
    exact fun next _ => Nat.le_of_eq next.2.nesting_toJson
  refine (hs.read ⟨trivial, hexact, trivial⟩).1 ?_
  simp only [nesting, nestingOfMembers, nestingLimit]
  omega

end Stored

/-- **Settings come to the same attributes in three ways**: on a configuration, on an element,
and from a text that stores them in their order, repeated names included.  The names stand in
the order in which they first came up, each with the value that it was given last, and a value
becomes an attribute as it is, a number by its digits, and `null` as a flag that is off. -/
theorem settings_agree (tag : String) (settings : List (String × Scalar)) :
    (settings.foldl (fun c next => c.prop next.1 next.2) (Config.new tag)).page =
        .root [.element (.ofSettings tag settings) []] ∧
      settings.foldl (fun e next => e.set next.1 next.2.toValue) { tag } =
        Element.ofSettings tag settings ∧
      (∀ source members, Json.read source = .ok (.obj members) →
        valuesOf "tag" members = [.str tag] →
        valuesOf "props" members = [Props.settingsJson settings] →
        valuesOf "children" members = [] → valuesOf "isSelfClosing" members = [] →
        ∃ design, Design.read source = .ok design ∧
          design.page = .root [.element (.ofSettings tag settings) []]) ∧
      ((∀ next ∈ settings, next.2.Exact) → ∀ source,
        Written (.obj [("tag", .str tag), ("props", Props.settingsJson settings)]) source →
        ∃ design, Design.read source = .ok design ∧
          design.page = .root [.element (.ofSettings tag settings) []]) ∧
      (∀ content, (Scalar.text content).toValue = .text content) ∧
      (∀ on, (Scalar.flag on).toValue = .flag on) ∧
      (∀ n : Int, (Scalar.number (.int n)).toValue = .text (toString n)) ∧
      Scalar.null.toValue = .flag false := by
  have hread : ∀ source members, Json.read source = .ok (.obj members) →
      valuesOf "tag" members = [.str tag] →
      valuesOf "props" members = [Props.settingsJson settings] →
      valuesOf "children" members = [] → valuesOf "isSelfClosing" members = [] →
      ∃ design, Design.read source = .ok design ∧
        design.page = .root [.element (.ofSettings tag settings) []] := by
    intro source members hjson htag hprops hchildren hclosing
    have hdesign := Design.ofJson?_settings htag hprops hchildren hclosing
    exact ⟨_, Design.read_eq_ok_iff.mpr ⟨_, hjson, hdesign⟩, Config.page_ofList tag settings⟩
  refine ⟨?_, ?_, hread, ?_, fun _ => rfl, fun _ => rfl, fun _ => rfl, rfl⟩
  · rw [Config.foldl_prop]
    exact Config.page_ofList tag settings
  · have hset := Element.foldl_set settings [] { tag }
    rwa [foldl_setEntry] at hset
  · intro hexact source hwritten
    exact hread source _ (Props.read_settingsJson hexact hwritten) rfl rfl rfl rfl

/-- A prop that is set to `null` and later to a text keeps its place among the others. -/
theorem settings_agree_repeated :
    let settings : List (String × Scalar) :=
      [("a", .null), ("b", .number (.int (-5))), ("a", .text "x"), ("c", .flag true), ("b", .null)]
    (∀ next ∈ settings, next.2.Exact) ∧
      Element.ofSettings "p" settings =
        { tag := "p", attributes := [⟨"a", .text "x"⟩, ⟨"b", .flag false⟩, ⟨"c", .flag true⟩] } ∧
      ∃ design, Design.read
          (Json.obj [("tag", .str "p"), ("props", Props.settingsJson settings)]).compact =
            .ok design ∧
        design.page = .root [.element (.ofSettings "p" settings) []] := by
  intro settings
  have hexact : ∀ next ∈ settings, next.2.Exact := by
    simp [settings, Scalar.Exact, Number.Exact]
  obtain ⟨-, -, -, hwritten, -⟩ := settings_agree "p" settings
  exact ⟨hexact, by decide, hwritten hexact _ .compact⟩

end PageDesign

/-! # Paths

A path is a way through directories: the names between its slashes, as they are
written, and whether it starts at the root.  Empty names and single dots lead
nowhere; at the end of a path they are no component of it.
-/
namespace PageDesign

/-- A path. -/
structure Path where
  absolute : Bool
  names : List String
  deriving Repr, DecidableEq

namespace Path

/-- The parts of a text between its slashes. -/
def splitSlashes : List Char → List (List Char)
  | [] => [[]]
  | c :: rest =>
    if c = '/' then [] :: splitSlashes rest
    else
      match splitSlashes rest with
      | [] => [[c]]
      | part :: parts => (c :: part) :: parts

/-- The names of a text that is a path from where one stands. -/
def namesOf : List Char → List String
  | [] => []
  | s => (splitSlashes s).map String.ofList

/-- The path that a text writes. -/
def ofText (text : String) : Path :=
  match text.toList with
  | '/' :: rest => ⟨true, namesOf rest⟩
  | s => ⟨false, namesOf s⟩

/-- A path as it is written. -/
def text (p : Path) : String := (if p.absolute then "/" else "") ++ "/".intercalate p.names

/-- Whether the path leads nowhere at all. -/
def isEmpty (p : Path) : Bool := !p.absolute && p.names.isEmpty

/-- Whether the path ends in a slash. -/
def endsInSlash (p : Path) : Bool := p.names.getLast? == some ""

/-- The names that stand before the last one; slashes at the end are no names. -/
def leading (p : Path) : List String :=
  ((p.names.reverse.dropWhile (· == "")).drop 1).reverse

/-- Whether the path holds a character with the number zero, which no path may. -/
def hasNull (p : Path) : Bool := p.names.any fun name => name.toList.contains '\x00'

/-- The names up to the last component.  A dot is a component only where a path
that does not start at the root begins with it. -/
def components (p : Path) : List String :=
  let kept := (p.names.reverse.dropWhile fun name => name == "" || name == ".").reverse
  if kept.isEmpty && !p.absolute then (p.names.take 1).filter (· == ".") else kept

theorem length_components_le (p : Path) : p.components.length ≤ p.names.length := by
  unfold components
  simp only
  split
  · exact Nat.le_trans List.filter_sublist.length_le (by rw [List.length_take]; omega)
  · have h : ∀ names : List String,
        (names.dropWhile fun name => name == "" || name == ".").length ≤ names.length :=
      fun names => (List.dropWhile_sublist _).length_le
    simpa using h p.names.reverse

/-- The path without its last component. -/
def parent? (p : Path) : Option Path :=
  match p.components with
  | [] => none
  | names => some { p with names := components { p with names := names.dropLast } }

theorem length_names_lt_of_parent? {p q : Path} (h : p.parent? = some q) :
    q.names.length < p.names.length := by
  unfold parent? at h
  split at h
  · simp at h
  · next names hne =>
    have h1 := length_components_le p
    have h2 := length_components_le { p with names := p.components.dropLast }
    have h3 : 0 < p.components.length := List.length_pos_iff.mpr hne
    simp only [Option.some.injEq] at h
    rw [← h]
    simp only [List.length_dropLast] at h2 ⊢
    omega

end Path
end PageDesign

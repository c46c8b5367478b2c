import PageDesign.Files.Store

/-! # A disk

A disk is a store of files that is a plain value: what there is at each location.
A location is reached from the directory one stands in, from a directory above it,
or from the root; these are always there, and nothing else is known of what lies
outside.

A name can be followed only from a directory.  An operation that meets an
obstacle leaves the disk as it is, except that the directories made before it
remain.
-/
namespace PageDesign

/-- What there can be at a location. -/
inductive Entry where
  | file (content : ByteArray)
  | directory

/-- Where the way to a location starts. -/
inductive Origin where
  /-- So many levels above the directory one stands in. -/
  | above (levels : Nat)
  | root
  deriving Repr, DecidableEq

/-- A location: where the way starts, and the names that lead on. -/
structure Location where
  origin : Origin
  names : List String
  deriving Repr, DecidableEq

/-- What there is at each location. -/
structure Disk where
  entry : Location → Option Entry

/-- The longest name of an entry, in bytes. -/
def longestName : Nat := 255

/-- The longest path, in bytes. -/
def longestPath : Nat := 4095

namespace Origin

/-- The directory that holds this one; the root holds itself. -/
def parent : Origin → Origin
  | above levels => above (levels + 1)
  | root => root

end Origin

namespace Location

/-- The location that a name leads to. -/
def step (place : Location) (name : String) : Location :=
  if name = "" ∨ name = "." then place
  else if name = ".." then
    if place.names.isEmpty then { place with origin := place.origin.parent }
    else { place with names := place.names.dropLast }
  else { place with names := place.names ++ [name] }

end Location

namespace Disk

/-- A disk with nothing on it but the directories where ways start. -/
def empty : Disk := ⟨fun place => if place.names = [] then some .directory else none⟩

/-- The disk with an entry at a location. -/
def put (d : Disk) (place : Location) (e : Entry) : Disk :=
  ⟨fun other => if other = place then some e else d.entry other⟩

/-- The location that names lead to, each followed from a directory. -/
def follow (d : Disk) (place : Location) : List String → Except Obstacle Location
  | [] => .ok place
  | name :: rest =>
    match d.entry place with
    | none => .error .missing
    | some (.file _) => .error .notDirectory
    | some .directory =>
      if longestName < name.utf8ByteSize then .error .tooLong
      else follow d (place.step name) rest

/-- Where the way of a path starts, if it can be a path at all. -/
def start (p : Path) : Except Obstacle Location :=
  if p.hasNull then .error .nullInPath
  else if p.isEmpty then .error .missing
  else if longestPath < p.text.utf8ByteSize then .error .tooLong
  else .ok ⟨if p.absolute then .root else .above 0, []⟩

/-- The location that a path leads to. -/
def locate (d : Disk) (p : Path) : Except Obstacle Location :=
  match start p with
  | .error obstacle => .error obstacle
  | .ok place => d.follow place p.names

/-- The directory that the last name of a path stands in. -/
def locateHolder (d : Disk) (p : Path) : Except Obstacle Location :=
  match start p with
  | .error obstacle => .error obstacle
  | .ok place => d.follow place (p.leading ++ [""])

/-- Whether a path leads to a directory. -/
def isDirectory (d : Disk) (p : Path) : Bool :=
  match d.locate p with
  | .error _ => false
  | .ok place =>
    match d.entry place with
    | some .directory => true
    | _ => false

/-- The text of a file. -/
def read (d : Disk) (p : Path) : Except Obstacle String :=
  match d.locate p with
  | .error obstacle => .error obstacle
  | .ok place =>
    match d.entry place with
    | none => .error .missing
    | some .directory => .error .isDirectory
    | some (.file content) =>
      match String.fromUTF8? content with
      | none => .error .notText
      | some text => .ok text

/-- The disk after a directory is made. -/
def makeDirectory (d : Disk) (p : Path) : Except Obstacle Disk :=
  match d.locate p with
  | .error obstacle => .error obstacle
  | .ok place =>
    match d.entry place with
    | some _ => .error .exists
    | none => .ok (d.put place .directory)

/-- Makes a directory that may already be there. -/
def ensureDirectory (d : Disk) (p : Path) : Except Obstacle Unit × Disk :=
  match d.makeDirectory p with
  | .ok d => (.ok (), d)
  | .error obstacle => (if d.isDirectory p then .ok () else .error obstacle, d)

/-- Makes a directory, and first those above it if one of them is missing. -/
def makeDirectories (d : Disk) (p : Path) : Except Obstacle Unit × Disk :=
  if p.isEmpty then (.ok (), d)
  else
    match d.makeDirectory p with
    | .error .missing =>
      match _h : p.parent? with
      | none => (.error .missing, d)
      | some parent =>
        match d.makeDirectories parent with
        | (.ok (), d) => d.ensureDirectory p
        | (.error obstacle, d) => (.error obstacle, d)
    | _ => d.ensureDirectory p
termination_by p.names.length
decreasing_by exact Path.length_names_lt_of_parent? _h

/-- The disk after a file is given a text.  What ends in a slash can only be a
directory, whatever its last name leads to. -/
def write (d : Disk) (p : Path) (text : String) : Except Obstacle Disk :=
  if p.endsInSlash then
    match d.locateHolder p with
    | .error obstacle => .error obstacle
    | .ok _ => .error .isDirectory
  else
    match d.locate p with
    | .error obstacle => .error obstacle
    | .ok place =>
      match d.entry place with
      | some .directory => .error .isDirectory
      | _ => .ok (d.put place (.file text.toUTF8))

/-- The disk with a file put where a path leads, and with the directories that are
missing on the way. -/
def place (d : Disk) (p : Path) (content : ByteArray) : Disk :=
  let (_, d) :=
    match p.parent? with
    | some parent => d.makeDirectories parent
    | none => (.ok (), d)
  match d.locate p with
  | .ok place => d.put place (.file content)
  | .error _ => d

instance : FileStore (StateM Disk) where
  read p := do return (← get).read p
  makeDirectories p := modifyGet fun d => d.makeDirectories p
  write p text := modifyGet fun d =>
    match d.write p text with
    | .ok d => (.ok (), d)
    | .error obstacle => (.error obstacle, d)

end Disk
end PageDesign

import PageDesign.Command.Request
import PageDesign.Component.Stored
import PageDesign.Files.Store
import PageDesign.Markup.Printer
import PageDesign.Markup.Reader
import PageDesign.Node.Search
import PageDesign.Palette.Stored

/-! # Commands

The commands read a design or a page from a file, and print or write markup.
They work on any store of files.  A command stops at the first failure; the only
command that changes files is `build`, and it does so last.
-/
namespace PageDesign
namespace Command

/-- Why a command fails. -/
inductive Failure where
  | read (path : String) (obstacle : Obstacle)
  /-- The text of a file is no design. -/
  | design (path source : String) (error : Design.Error)
  /-- The text of a file is no markup. -/
  | markup (path : String) (error : Markup.Error)
  | makeDirectories (path : String) (obstacle : Obstacle)
  | write (path : String) (obstacle : Obstacle)

/-- The failure as it is reported: what was tried, and its causes. -/
def Failure.message : Failure → String
  | read path obstacle => "failed to read " ++ path ++ ": " ++ obstacle.message
  | design path source error =>
    "failed to parse " ++ path ++ ": " ++ error.message source ++ ": " ++ error.detail source
  | markup path error => "failed to parse " ++ path ++ ": " ++ error.message
  | makeDirectories path obstacle => "failed to create " ++ path ++ ": " ++ obstacle.message
  | write path obstacle => "failed to write " ++ path ++ ": " ++ obstacle.message

/-- The size of a page. -/
structure Stats where
  nodes : Nat
  depth : Nat
  elements : Nat
  deriving Repr, DecidableEq

/-- The size of a page. -/
def Stats.ofPage (page : Node) : Stats :=
  { nodes := page.count, depth := page.depth, elements := page.elementCount }

section
variable {m : Type → Type} [Monad m] [FileStore m] {α : Type}

/-- Goes on with the result of a task, or fails because of its obstacle. -/
def overcome (failure : Obstacle → Failure) (task : m (Except Obstacle α)) :
    ExceptT Failure m α := do
  match ← task with
  | .ok a => return a
  | .error obstacle => throw (failure obstacle)

/-- The page of the design in a file. -/
def load (input : String) : ExceptT Failure m Node := do
  let source ← overcome (.read input) (FileStore.read (.ofText input))
  match Design.read source with
  | .ok design => return design.page
  | .error error => throw (.design input source error)

/-- Writes a text to a file and makes the directories above it. -/
def save (out text : String) : ExceptT Failure m Unit := do
  if let some dir := (Path.ofText out).parent? then
    if !dir.isEmpty then
      overcome (.makeDirectories dir.text) (FileStore.makeDirectories dir)
  overcome (.write out) (FileStore.write (.ofText out) text)

/-- The markup of the design in a file, which is written to `out` if it is given. -/
def build (input : String) (out : Option String) (style : Style) : ExceptT Failure m String := do
  let page ← load input
  let markup := page.markup style
  if let some out := out then
    save out (markup ++ "\n")
  return markup

/-- The size of the page of the design in a file. -/
def stats (input : String) : ExceptT Failure m Stats := return Stats.ofPage (← load input)

/-- The markup of each element with a tag in the design in a file. -/
def find (input tag : String) (style : Style) : ExceptT Failure m (List String) :=
  return ((← load input).findAll (Node.hasTag tag)).map (Node.markup style)

/-- The markup in a file, laid out anew. -/
def reformat (input : String) (style : Style) : ExceptT Failure m String := do
  let source ← overcome (.read input) (FileStore.read (.ofText input))
  match Node.ofMarkup source with
  | .ok page => return page.markup style
  | .error error => throw (.markup input error)

/-- Lines of output. -/
def linesText (lines : List String) : String := String.join (lines.map (· ++ "\n"))

/-- What a request prints. -/
def perform : Request → ExceptT Failure m String
  | .build input out style => do
    let markup ← build input out style
    match out with
    | some path => return linesText ["Generated: " ++ path]
    | none => return linesText [markup]
  | .stats input => do
    let s ← stats input
    return linesText ["nodes: " ++ toString s.nodes, "elements: " ++ toString s.elements,
      "depth: " ++ toString s.depth]
  | .find input tag style => return linesText (← find input tag style)
  | .reformat input style => return linesText [← reformat input style]
  | .palette true => return linesText [Palette.stock.text]
  | .palette false => return linesText Palette.stock.lines

/-- What a run of the program leaves: its exit code, and what it printed. -/
structure Outcome where
  code : Nat
  output : String := ""
  /-- What was reported beside the output. -/
  report : String := ""
  deriving Repr, DecidableEq

/-- How the program is called. -/
def usage : String :=
  "usage: designer [--log FILTER] build INPUT [--out FILE] [--indent UNIT] [--compact]\n" ++
  "       designer [--log FILTER] stats INPUT\n" ++
  "       designer [--log FILTER] find INPUT --tag TAG [--indent UNIT] [--compact]\n" ++
  "       designer [--log FILTER] fmt INPUT [--indent UNIT] [--compact]\n" ++
  "       designer [--log FILTER] catalog [--json]\n"

/-- The variable of the environment that holds the unit of indentation to use unless
the arguments give one. -/
def indentVariable : String := "DESIGNER_INDENT"

/-- Runs the program on its arguments; `indent` is the value of `indentVariable`. -/
def run (indent : Option String) (args : List String) : m Outcome := do
  match Request.ofArguments indent args with
  | .help => return { code := 0, output := usage }
  | .version => return { code := 0, output := linesText ["designer 0.1.0"] }
  | .misuse => return { code := 2, report := usage }
  | .run request =>
    match ← (perform request).run with
    | .ok output => return { code := 0, output }
    | .error failure => return { code := 1, report := linesText [failure.message] }

end

end Command
end PageDesign

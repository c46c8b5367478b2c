import PageDesign.Markup.Style

/-! # Command lines

A command line names a command, the file it works on and how markup is laid out.
Arguments are taken one after another: the first that cannot be accepted settles
that the line is misused, and a call for help or for the version is answered as
soon as it is reached.

An option takes a value, in the same argument behind an equals sign or in the
next argument, which then must not look like an option.  Options and switches
may be given once.  Behind `--` all arguments are operands.
-/
namespace PageDesign

/-- What a command line asks for. -/
inductive Request where
  /-- Markup for a design, printed or written to a file. -/
  | build (input : String) (out : Option String) (style : Style)
  /-- The size of the page of a design. -/
  | stats (input : String)
  /-- The markup of each element of a design with a tag. -/
  | find (input tag : String) (style : Style)
  /-- The markup of a page, laid out anew. -/
  | reformat (input : String) (style : Style)
  /-- The stock palette, as lines or as JSON. -/
  | palette (json : Bool)
  deriving Repr, DecidableEq

/-- How a command line is understood. -/
inductive Invocation where
  | run (request : Request)
  | help
  | version
  | misuse
  deriving Repr, DecidableEq

namespace Request

/-! ## Arguments -/

/-- An argument by its form. -/
inductive Argument where
  /-- `--`. -/
  | endOfOptions
  /-- `--name` or `--name=value`. -/
  | long (name : String) (value : Option String)
  /-- `-letters`. -/
  | short (letters : List Char)
  | operand (text : String)
  deriving Repr, DecidableEq

/-- The form of an argument. -/
def Argument.ofText (text : String) : Argument :=
  match text.toList with
  | ['-', '-'] => endOfOptions
  | '-' :: '-' :: s =>
    match s.dropWhile (· != '=') with
    | [] => long (String.ofList s) none
    | _ :: value => long (String.ofList (s.takeWhile (· != '='))) (some (String.ofList value))
  | '-' :: c :: s => short (c :: s)
  | _ => operand text

/-- Whether an argument can be the value of the option before it. -/
def canBeValue (text : String) : Bool :=
  match Argument.ofText text with
  | .operand _ => true
  | _ => false

/-! ## Options and operands of a command -/

/-- What a command accepts. -/
structure Accepted where
  /-- The options, and whether their values are paths. -/
  options : List (String × Bool) := [("log", false)]
  switches : List String := []
  /-- How many operands there are at most; all of them are paths. -/
  operands : Nat := 1

/-- What a command was given. -/
structure Given where
  options : List (String × String) := []
  switches : List String := []
  operands : List String := []

namespace Given

/-- The value of an option. -/
def option? (g : Given) (name : String) : Option String := g.options.lookup name

/-- One more option, if the command accepts it with that value and does not have
it yet. -/
def addOption? (g : Given) (a : Accepted) (name value : String) : Option Given :=
  match a.options.lookup name with
  | none => none
  | some isPath =>
    if (isPath && value.isEmpty) || (g.option? name).isSome then none
    else some { g with options := g.options ++ [(name, value)] }

/-- One more switch, if the command accepts it and does not have it yet. -/
def addSwitch? (g : Given) (a : Accepted) (name : String) : Option Given :=
  if a.switches.contains name && !g.switches.contains name then
    some { g with switches := g.switches ++ [name] }
  else none

/-- One more operand, if the command accepts it. -/
def addOperand? (g : Given) (a : Accepted) (text : String) : Option Given :=
  if text.isEmpty || a.operands ≤ g.operands.length then none
  else some { g with operands := g.operands ++ [text] }

/-- The markup style that was asked for. -/
def style (g : Given) (indent : Option String) : Style :=
  let plain : Style := {}
  { indent := (g.option? "indent").getD (indent.getD plain.indent)
    multiline := !g.switches.contains "compact" }

end Given

/-- The operands behind `--`. -/
def takeOperands (a : Accepted) (g : Given) : List String → Except Invocation Given
  | [] => .ok g
  | text :: rest =>
    match g.addOperand? a text with
    | none => .error .misuse
    | some g => takeOperands a g rest

/-- The arguments behind the name of a command. -/
def take (a : Accepted) (g : Given) : List String → Except Invocation Given
  | [] => .ok g
  | text :: rest =>
    match Argument.ofText text with
    | .endOfOptions => takeOperands a g rest
    | .short letters => .error (if letters.head? = some 'h' then .help else .misuse)
    | .operand text =>
      match g.addOperand? a text with
      | none => .error .misuse
      | some g => take a g rest
    | .long name (some value) =>
      match g.addOption? a name value with
      | none => .error .misuse
      | some g => take a g rest
    | .long name none =>
      if name = "help" then .error .help
      else if (a.options.lookup name).isSome then
        match rest with
        | [] => .error .misuse
        | value :: rest =>
          if canBeValue value then
            match g.addOption? a name value with
            | none => .error .misuse
            | some g => take a g rest
          else .error .misuse
      else
        match g.addSwitch? a name with
        | none => .error .misuse
        | some g => take a g rest

/-! ## Commands -/

/-- The commands. -/
inductive Name where
  | build | stats | find | reformat | palette
  deriving Repr, DecidableEq

namespace Name

/-- What the commands are called. -/
def all : List (String × Name) :=
  [("build", build), ("stats", stats), ("find", find), ("fmt", reformat), ("catalog", palette)]

/-- What a command accepts. -/
def accepted : Name → Accepted
  | build =>
    { options := [("log", false), ("indent", false), ("out", true)], switches := ["compact"] }
  | stats => {}
  | find =>
    { options := [("log", false), ("indent", false), ("tag", false)], switches := ["compact"] }
  | reformat => { options := [("log", false), ("indent", false)], switches := ["compact"] }
  | palette => { switches := ["json"], operands := 0 }

/-- The request that a command makes of what it was given; `none` if something is
missing. -/
def request? (name : Name) (indent : Option String) (g : Given) : Option Request :=
  match name, g.operands with
  | palette, _ => some (.palette (g.switches.contains "json"))
  | build, input :: _ => some (.build input (g.option? "out") (g.style indent))
  | stats, input :: _ => some (.stats input)
  | find, input :: _ => (g.option? "tag").map fun tag => .find input tag (g.style indent)
  | reformat, input :: _ => some (.reformat input (g.style indent))
  | _, [] => none

end Name

/-- How the arguments behind the name of a command are understood. -/
def ofCommand (indent : Option String) (name : Name) (args : List String) : Invocation :=
  match take name.accepted {} args with
  | .error invocation => invocation
  | .ok g =>
    match name.request? indent g with
    | none => .misuse
    | some request => .run request

/-- How a call for help on commands is understood. -/
def ofHelp : List String → Invocation
  | [] => .help
  | [name] => if (Name.all.lookup name).isSome || name == "help" then .help else .misuse
  | _ => .misuse

/-- How the arguments from the name of a command on are understood. -/
def ofName (indent : Option String) (text : String) (rest : List String) : Invocation :=
  if text = "help" then ofHelp rest
  else
    match Name.all.lookup text with
    | none => .misuse
    | some name => ofCommand indent name rest

/-- How the arguments are understood, before which `--log` was or was not given. -/
def ofArgumentsAfter (indent : Option String) (logged : Bool) : List String → Invocation
  | [] => .misuse
  | text :: rest =>
    match Argument.ofText text with
    | .endOfOptions => .misuse
    | .short ('h' :: _) => .help
    | .short ('V' :: _) => .version
    | .short _ => .misuse
    | .long "help" none => .help
    | .long "version" none => .version
    | .long "log" (some _) => if logged then .misuse else ofArgumentsAfter indent true rest
    | .long "log" none =>
      match rest with
      | [] => .misuse
      | value :: rest =>
        if canBeValue value && !logged then ofArgumentsAfter indent true rest else .misuse
    | .long _ _ => .misuse
    | .operand name => ofName indent name rest

/-- How a command line is understood; `indent` is the unit of indentation to use
unless the line gives one.  The option `--log` may stand once before the name of the
command and once behind it. -/
def ofArguments (indent : Option String) (args : List String) : Invocation :=
  ofArgumentsAfter indent false args

end Request
end PageDesign

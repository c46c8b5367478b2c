import PageDesign.Command.Run

/-! # The program

The commands run on the files of the machine.  Output goes to the standard output,
and reports go to the standard error.
-/
namespace PageDesign

/-- What stands in the way, by the number of the error. -/
def obstacleOf (error : IO.Error) : Obstacle :=
  match error with
  | .noFileOrDirectory .. => .missing
  | .alreadyExists .. => .exists
  | .inappropriateType _ 20 _ => .notDirectory
  | .inappropriateType _ 21 _ => .isDirectory
  | .invalidArgument _ 36 _ => .tooLong
  | _ => .other (toString error)

/-- Tells an obstacle from a result. -/
def attempt {α : Type} (task : IO α) : IO (Except Obstacle α) := do
  try
    return .ok (← task)
  catch error =>
    return .error (obstacleOf error)

instance : FileStore IO where
  read p := do
    match ← attempt (IO.FS.readBinFile p.text) with
    | .error obstacle => return .error obstacle
    | .ok bytes =>
      match String.fromUTF8? bytes with
      | none => return .error .notText
      | some text => return .ok text
  makeDirectories p := attempt (IO.FS.createDirAll p.text)
  write p text := attempt (IO.FS.writeFile p.text text)

end PageDesign

open PageDesign in
/-- Runs the program. -/
def main (args : List String) : IO UInt32 := do
  let indent ← IO.getEnv Command.indentVariable
  let outcome : Command.Outcome ← Command.run indent args
  IO.print outcome.output
  IO.eprint outcome.report
  return UInt32.ofNat outcome.code

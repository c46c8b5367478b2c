import PageDesign.Files.Path

/-! # Stores of files

A command reads and writes files through a `FileStore`.  It asks for three things
only, and each either succeeds or meets one of a few obstacles.
-/
namespace PageDesign

/-- What may stand in the way of using a file. -/
inductive Obstacle where
  | missing
  | exists
  | notDirectory
  | isDirectory
  /-- The bytes of the file are no text. -/
  | notText
  /-- A name, or the whole path, is too long. -/
  | tooLong
  /-- The path holds a character with the number zero. -/
  | nullInPath
  /-- Anything else, in the words of the store. -/
  | other (description : String)
  deriving Repr, DecidableEq

/-- The obstacle as it is reported. -/
def Obstacle.message : Obstacle → String
  | missing => "No such file or directory (os error 2)"
  | «exists» => "File exists (os error 17)"
  | notDirectory => "Not a directory (os error 20)"
  | isDirectory => "Is a directory (os error 21)"
  | notText => "stream did not contain valid UTF-8"
  | tooLong => "File name too long (os error 36)"
  | nullInPath => "file name contained an unexpected NUL byte"
  | other description => description

/-- Access to files. -/
class FileStore (m : Type → Type) where
  /-- The text of a file. -/
  read : Path → m (Except Obstacle String)
  /-- Makes a directory and all directories above it that do not exist yet. -/
  makeDirectories : Path → m (Except Obstacle Unit)
  /-- Gives a file, new or not, a text. -/
  write : Path → String → m (Except Obstacle Unit)

end PageDesign

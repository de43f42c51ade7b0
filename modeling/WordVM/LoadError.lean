/-!
# Load errors

A program image is refused if its file cannot be read or if it does not fit in memory.
-/

namespace WordVM

/-- Why the system could not read a file: its own words for the reason, and its code. -/
structure FileError where
  /-- The system's description of the error. -/
  reason : String
  /-- The system's number for the error. -/
  code : Nat
deriving DecidableEq, Repr

namespace FileError

/-- No file has the given path. -/
def notFound : FileError := ⟨"No such file or directory", 2⟩

/-- The given path leads to a directory. -/
def isDirectory : FileError := ⟨"Is a directory", 21⟩

/-- The text that reports a file error. -/
def message (e : FileError) : String := s!"{e.reason} (os error {e.code})"

end FileError

/-- Why a program image was not loaded. -/
inductive LoadError
  /-- The file with the image cannot be read. -/
  | unreadable (cause : FileError)
  /-- The image has this many bytes, which is more than memory has. -/
  | imageTooLarge (size : Nat)
deriving DecidableEq, Repr

/-- The text that reports a load error. -/
def LoadError.message : LoadError → String
  | .unreadable cause => cause.message
  | .imageTooLarge size => s!"program image is {size} bytes, more than fits in memory"

end WordVM

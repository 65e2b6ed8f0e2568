/-!
# File faults

Why an operation on files is refused, and what is said about it.
-/

namespace SiteCompiler

/-- The cause of a refusal. -/
inductive FileFault where
  | notFound
  | isDirectory
  | notDirectory
  | alreadyExists
  | nameTooLong
  /-- A path with the character of code zero in it. -/
  | nulInPath
  | notText
  deriving DecidableEq, Repr

namespace FileFault

/-- What a cause is called. -/
def reason : FileFault → String
  | notFound => "No such file or directory"
  | isDirectory => "Is a directory"
  | notDirectory => "Not a directory"
  | alreadyExists => "File exists"
  | nameTooLong => "File name too long"
  | nulInPath => "file name contained an unexpected NUL byte"
  | notText => "stream did not contain valid UTF-8"

/-- The number of a cause that the file system itself reports. -/
def code? : FileFault → Option Nat
  | notFound => some 2
  | alreadyExists => some 17
  | notDirectory => some 20
  | isDirectory => some 21
  | nameTooLong => some 36
  | nulInPath | notText => none

/-- The cause of a number. -/
def ofCode? (code : Nat) : Option FileFault :=
  [notFound, alreadyExists, notDirectory, isDirectory, nameTooLong].find? fun fault =>
    fault.code? = some code

theorem code?_of_ofCode? {code : Nat} {fault : FileFault} (h : ofCode? code = some fault) :
    fault.code? = some code := by
  simpa using List.find?_some h

theorem ofCode?_of_code? {code : Nat} {fault : FileFault} (h : fault.code? = some code) :
    ofCode? code = some fault := by
  cases fault <;> cases h <;> rfl

/-- The wording of a reason with the number behind it, if there is one. -/
def numbered (reason : String) : Option Nat → String
  | some code => reason ++ " (os error " ++ toString code ++ ")"
  | none => reason

/-- The wording of a cause. -/
def detail (fault : FileFault) : String :=
  numbered fault.reason fault.code?

end FileFault

/-- A cause and the path that it concerns. -/
structure FileError where
  path : String
  fault : FileFault
  deriving DecidableEq, Repr

/-- The wording of a detail about a path. -/
def fileReport (path detail : String) : String :=
  "I/O error on " ++ path ++ ": " ++ detail

/-- The message of a file error. -/
def FileError.message (error : FileError) : String :=
  fileReport error.path error.fault.detail

end SiteCompiler

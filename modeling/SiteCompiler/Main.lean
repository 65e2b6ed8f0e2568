import SiteCompiler.CommandLine

/-!
# The program

The command line on a real disk.  What is decided is decided by the library;
this module only reads the source file, writes the files of its site and prints
the reply.
-/

namespace SiteCompiler

/-- The number of a failed call; some calls report it negated. -/
def systemCode (code : UInt32) : Nat :=
  (min code (0 - code)).toNat

/-- The wording of a failed call to the system. -/
def systemDetail : IO.Error → String
  | .noFileOrDirectory _ code details
  | .alreadyExists _ code details
  | .permissionDenied _ code details
  | .inappropriateType _ code details
  | .invalidArgument _ code details
  | .resourceExhausted _ code details
  | .otherError code details =>
    match FileFault.ofCode? (systemCode code) with
    | some fault => fault.detail
    | none => FileFault.numbered details (some (systemCode code))
  | error => toString error

/-- Run an action on a path; a failure becomes its message. -/
def onPath {α : Type} (path : String) (action : IO α) : ExceptT String IO α :=
  ExceptT.mk do
    try
      return .ok (← action)
    catch error =>
      return .error (fileReport path (systemDetail error))

/-- Write the files of a site, the first failure ending the work. -/
def writeSite (site : Site) : ExceptT String IO Unit := do
  onPath Reply.siteDirectory (IO.FS.createDirAll Reply.siteDirectory)
  for (name, text) in site.files .standard do
    let path := Path.join Reply.siteDirectory name
    onPath path (IO.FS.writeFile path text)

/-- Build the site of a source file. -/
def buildOnDisk (input : String) : IO Reply := do
  match ← (onPath input (IO.FS.readBinFile input)).run with
  | .error message => return .ofBuild [] (some message)
  | .ok content =>
    match String.fromUTF8? content with
    | none => return .ofBuild [] (some (FileError.message ⟨input, .notText⟩))
    | some source =>
      let compiled := compilation source
      match compiled.result with
      | .error error => return .ofBuild compiled.records (some error.message)
      | .ok site =>
        match ← (writeSite site).run with
        | .error message => return .ofBuild compiled.records (some message)
        | .ok () => return .ofBuild compiled.records none

/-- Do what is asked. -/
def Request.run : Request → IO Reply
  | help => return .help
  | version => return .version
  | misuse => return .misuse
  | build input => buildOnDisk input

end SiteCompiler

/-- Answer the arguments of the command line. -/
def main (arguments : List String) : IO UInt32 := do
  let reply ← (SiteCompiler.Request.ofArguments arguments).run
  IO.print reply.output
  IO.eprint reply.errors
  return reply.exit.toUInt32

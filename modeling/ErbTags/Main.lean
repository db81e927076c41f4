import ErbTags.Cli.Command

/-!
# The program

Runs the commands on real files: gives the file operations in `IO`, reads the arguments and the
environment, prints what a command comes to and returns its exit code.
-/

namespace ErbTags

/-- The number and the text that the system gives for an error. -/
def systemError? : IO.Error → Option (UInt32 × String)
  | .alreadyExists _ code details | .noFileOrDirectory _ code details
  | .inappropriateType _ code details | .permissionDenied _ code details
  | .resourceExhausted _ code details | .invalidArgument _ code details
  | .noSuchThing _ code details | .interrupted _ code details
  | .otherError code details | .resourceBusy code details | .resourceVanished code details
  | .unsupportedOperation code details | .hardwareFault code details
  | .unsatisfiedConstraints code details | .illegalOperation code details
  | .protocolError code details | .timeExpired code details => some (code, details)
  | .unexpectedEof | .userError _ => none

/-- The fault that an error number of the system stands for. -/
def FileFault.ofNumber (number : UInt32) (details : String) : FileFault :=
  if number = 2 then .missing
  else if number = 17 then .alreadyExists
  else if number = 20 then .notDirectory
  else if number = 21 then .isDirectory
  else if number = 36 then .nameTooLong
  else .other (details.capitalize ++ " (os error " ++ toString number ++ ")")

/-- The fault that an error stands for. Some actions give the number of the system negated. -/
def FileFault.ofError (e : IO.Error) : FileFault :=
  match systemError? e with
  | some (code, details) => .ofNumber (if code < 0x80000000 then code else 0 - code) details
  | none => .other (toString e)

/-- Runs an action on a path and gives its error as a fault. -/
def onPath {α : Type} (path : String) (action : IO α) : IO (Except FileFault α) := do
  match FileFault.ofPath? path with
  | some e => return .error e
  | none =>
    match ← action.toBaseIO with
    | .ok a => return .ok a
    | .error e => return .error (.ofError e)

/-- The text of a file. -/
def readTextFile (path : String) : IO (Except FileFault String) := do
  match ← onPath path (IO.FS.readBinFile path) with
  | .error e => return .error e
  | .ok bytes =>
    match String.fromUTF8? bytes with
    | some text => return .ok text
    | none => return .error .notText

/-- Makes an empty file with a random name in a directory. A name that is used already is not taken;
then another one is tried. -/
def createTemporaryFile (directory : String) : Nat → IO (Except FileFault String)
  | 0 => return .error .alreadyExists
  | attempts + 1 => do
    let path := Path.join directory (".tmp" ++ toString (← IO.rand 0 1000000000000000000))
    match ← onPath path (discard (IO.FS.Handle.mk path .writeNew)) with
    | .ok () => return .ok path
    | .error .alreadyExists => createTemporaryFile directory attempts
    | .error e => return .error e

/-- The names of the files in a directory; none if there is no such directory. -/
def listFiles (path : String) : IO (List String) := do
  let directory := (← IO.currentDir) / path
  match ← onPath path directory.readDir with
  | .error _ => return []
  | .ok found =>
    let files ← found.filterM fun entry => do
      return (← entry.path.pathExists) && !(← entry.path.isDir)
    return files.toList.map fun entry => entry.fileName

instance : FileSystem IO where
  currentDirectory := do return (← IO.currentDir).toString
  isPresent path := do
    let present ← onPath path (do ((← IO.currentDir) / path).pathExists)
    return present.toOption.getD false
  isDirectory path := do
    let directory ← onPath path (do ((← IO.currentDir) / path).isDir)
    return directory.toOption.getD false
  readText := readTextFile
  writeText path text := onPath path (IO.FS.writeFile path text)
  createDirectory path := onPath path (IO.FS.createDir path)
  fileNames := listFiles
  createTemporary directory := createTemporaryFile directory 65536
  rename source path := onPath path (IO.FS.rename source path)
  removeFile path := onPath path (IO.FS.removeFile path)

end ErbTags

/-- The program: does what its arguments ask for. -/
def main (arguments : List String) : IO UInt32 := do
  match ErbTags.Cli.Request.ofArguments? (← IO.getEnv "ERBX_CONFIG") arguments with
  | none =>
    IO.eprint ErbTags.Cli.usageText
    return 2
  | some .version =>
    IO.print ErbTags.Cli.versionText
    return 0
  | some .help =>
    IO.print ErbTags.Cli.usageText
    return 0
  | some (.run invocation) =>
    let outcome : ErbTags.Cli.Outcome ← invocation.run
    let filter := ErbTags.Cli.logFilter (← IO.getEnv "RUST_LOG") invocation.verbose
    IO.print outcome.output
    IO.eprint (outcome.logText filter ++ outcome.failureText)
    return outcome.exitCode.toUInt32

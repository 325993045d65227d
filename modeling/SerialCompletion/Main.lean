import SerialCompletion.CommandLine.Program

/-!
# The program

The outer layer: file access on the disk, and a run for the arguments of the
process.
-/

namespace SerialCompletion.Main

open Files

/-- The fault that an error of the system stands for.  One kind of error covers a file in the
place of a directory, which has the number 20, and a directory in the place of a file. -/
def faultOf : IO.Error → Fault
  | .noFileOrDirectory .. => .notFound
  | .inappropriateType _ number _ => if number = 20 then .notDirectory else .isDirectory
  | .alreadyExists .. => .alreadyExists
  | error => .other (toString error).toList

def attempt (operation : IO α) : IO (Except Fault α) := do
  try return .ok (← operation)
  catch error => return .error (faultOf error)

def diskPath (path : Text) :=
  (IO.FS.DirEntry.mk (String.ofList path) "").root

def entryOf (found : IO.FS.DirEntry) : IO Entry :=
  return ⟨found.fileName.toList, ← found.path.isDir⟩

def listDirectory (path : Text) : IO (List Entry) := do
  match ← attempt ((diskPath path).readDir) with
  | .ok found => found.toList.mapM entryOf
  | .error _ => return []

/-- Append nothing to a file, which makes it if it is not there. -/
def touchFile (path : Text) : IO Unit := do
  let handle ← IO.FS.Handle.mk (diskPath path) .append
  handle.flush

def createParents (path : Text) : IO Unit := do
  match (diskPath path).parent with
  | none => return ()
  | some parent => IO.FS.createDirAll parent

def diskAccess : Access IO where
  contains path := (diskPath path).pathExists
  read path := attempt do return (← IO.FS.readFile (diskPath path)).toList
  write path content := attempt (IO.FS.writeFile (diskPath path) (String.ofList content))
  touch path := attempt (touchFile path)
  createParents path := attempt (createParents path)
  list path := listDirectory path

/-- The home directory of the process, or the working directory. -/
def homeDirectory : IO Text := do
  match ← IO.getEnv "HOME" with
  | some home => return if home.isEmpty then ['.'] else home.toList
  | none => return ['.']

end SerialCompletion.Main

open SerialCompletion in
def main (arguments : List String) : IO UInt32 := do
  let home ← Main.homeDirectory
  let outcome ← CommandLine.run Main.diskAccess home (arguments.map String.toList)
  (← IO.getStdout).putStr (String.ofList outcome.output)
  (← IO.getStderr).putStr (String.ofList (CommandLine.writeLines outcome.notes))
  return outcome.exitCode.toUInt32

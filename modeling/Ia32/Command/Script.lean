import Ia32.Text.Utf8

/-!
# Scripts

A script is what a command does to the outside: it prints, reads files and
writes files, and ends with a result. It can be carried out on a real file
system, or on a `Folder` of named contents, where nothing outside is touched.
-/

namespace Ia32.Command

/-- Why a file cannot be read or written. -/
inductive FileError where
  | missing
  | directory
  | notDirectory
  | notText
  | other (reason : String)
  deriving DecidableEq, Repr

/-- The system's words for a file error. -/
def FileError.message : FileError → String
  | .missing => "No such file or directory (os error 2)"
  | .directory => "Is a directory (os error 21)"
  | .notDirectory => "Not a directory (os error 20)"
  | .notText => "stream did not contain valid UTF-8"
  | .other reason => reason

/-- Printing and access to files, with a result at the end. -/
inductive Script (α : Type) where
  | done (a : α)
  | print (text : String) (next : Script α)
  | read (path : String) (next : Except FileError Bytes → Script α)
  | write (path : String) (contents : Bytes) (next : Except FileError Unit → Script α)

namespace Script

variable {α β : Type}

/-- Goes on with the result of a script. -/
def bind (script : Script α) (f : α → Script β) : Script β :=
  match script with
  | .done a => f a
  | .print text next => .print text (next.bind f)
  | .read path next => .read path fun result => (next result).bind f
  | .write path contents next => .write path contents fun result => (next result).bind f

/-- Scripts in sequence. -/
instance : Monad Script where
  pure := .done
  bind := bind

end Script

/-- Files by name, in one directory. -/
structure Folder where
  files : List (String × Bytes) := []

namespace Folder

/-- The parts of a path that do not name the directory itself. -/
def pieces (path : String) : List String :=
  (path.splitOn "/").filter fun piece => piece != "" && piece != "."

/-- The name of the file that a path leads to. There are no directories below
this one, so a path of more parts leads nowhere. -/
def fileName (folder : Folder) (path : String) : Except FileError String :=
  match pieces path with
  | [] => .error (if path = "" then .missing else .directory)
  | [name] => .ok name
  | first :: _ =>
      .error (if (folder.files.lookup first).isSome then .notDirectory else .missing)

/-- The contents of a file. A path that ends with a slash is that of a
directory. -/
def read (folder : Folder) (path : String) : Except FileError Bytes := do
  match folder.files.lookup (← folder.fileName path) with
  | some contents => if path.endsWith "/" then throw .notDirectory else return contents
  | none => throw .missing

/-- Replaces the contents of a file. -/
def write (folder : Folder) (path : String) (contents : Bytes) : Except FileError Folder := do
  let name ← folder.fileName path
  if path.endsWith "/" then throw .directory
  return ⟨(name, contents) :: folder.files.filter fun (other, _) => other != name⟩

end Folder

/-- Carries out a script on a folder: the result, the printed pieces behind those
given (the latest first), and the folder at the end. -/
def Script.runFrom {α : Type} (printed : List String) (folder : Folder) :
    Script α → α × List String × Folder
  | .done a => (a, printed, folder)
  | .print text next => next.runFrom (text :: printed) folder
  | .read path next => (next (folder.read path)).runFrom printed folder
  | .write path contents next =>
      match folder.write path contents with
      | .ok folder => (next (.ok ())).runFrom printed folder
      | .error e => (next (.error e)).runFrom printed folder

/-- Carries out a script on a folder: the result, the printed text, and the
folder at the end. -/
def Script.runIn {α : Type} (folder : Folder) (script : Script α) : α × String × Folder :=
  match script.runFrom [] folder with
  | (a, printed, folder) => (a, String.join printed.reverse, folder)

end Ia32.Command

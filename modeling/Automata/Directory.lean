namespace Automata

/-- Why a file or a directory cannot be read or made. -/
inductive FileError where
  | notFound
  | alreadyExists
  | notDirectory
  | isDirectory
  | nameTooLong
  /-- Anything else, in the words of the system. -/
  | other (reason : String)
deriving DecidableEq

/-- The sentence that reports the cause, with the number that the system gives it. -/
def FileError.message : FileError → String
  | notFound => "No such file or directory (os error 2)"
  | alreadyExists => "File exists (os error 17)"
  | notDirectory => "Not a directory (os error 20)"
  | isDirectory => "Is a directory (os error 21)"
  | nameTooLong => "File name too long (os error 36)"
  | other reason => reason

/-- The text of a file by its path, or why it cannot be read. -/
abbrev Files := String → Except FileError String

/-- Texts under paths, which are lists of names, and directories that need not
hold any. Of what lies outside it is only known that it is made of
directories. -/
structure Directory where
  files : List (List String × String) := []
  folders : List (List String) := []

namespace Directory

/-- What a path leads to. -/
inductive Node where
  | outside
  | folder (path : List String)
  | file (text : String)
deriving DecidableEq

/-- How many bytes a name may have. -/
def maxNameSize : Nat := 255

/-- How many bytes a path may have. -/
def maxPathSize : Nat := 4095

/-- What there is under a list of names. -/
def at? (d : Directory) (path : List String) : Option Node :=
  match d.files.lookup path with
  | some text => some (.file text)
  | none =>
    if path = [] || path ∈ d.folders || d.files.any (fun (other, _) => path.isPrefixOf other) then
      some (.folder path)
    else none

/-- Follows a name. An empty name stays where it is, as a single point does. -/
def follow (d : Directory) (node : Node) (name : String) : Except FileError Node :=
  match node with
  | .file _ => .error .notDirectory
  | .outside =>
    if name = "" || name = "." || name = ".." then .ok .outside
    else if maxNameSize < name.utf8ByteSize then .error .nameTooLong
    else .error .notFound
  | .folder path =>
    if name = "" || name = "." then .ok node
    else if name = ".." then .ok (if path = [] then .outside else .folder path.dropLast)
    else if maxNameSize < name.utf8ByteSize then .error .nameTooLong
    else
      match d.at? (path ++ [name]) with
      | some node => .ok node
      | none => .error .notFound

/-- Follows all names of a path. A path that begins with a slash leads outside. -/
def followAll (d : Directory) (names : List String) : Except FileError Node :=
  names.foldlM d.follow (if names.head? = some "" then .outside else .folder [])

/-- Reads a file. -/
def read (d : Directory) : Files := fun path =>
  if path = "" then .error .notFound
  else if maxPathSize < path.utf8ByteSize then .error .nameTooLong
  else
    match d.followAll (path.splitOn "/") with
    | .ok (.file text) => .ok text
    | .ok _ => .error .isDirectory
    | .error cause => .error cause

/-- Whether a file can be written at a path. A path must not have the character with number zero. -/
def canWrite (d : Directory) (path : String) : Bool :=
  let names := path.splitOn "/"
  let name := names.getLast?.getD ""
  path.utf8ByteSize ≤ maxPathSize && !path.contains '\x00' && name ≠ "" &&
    match d.followAll names.dropLast with
    | .ok (.folder above) =>
      match d.follow (.folder above) name with
      | .ok (.file _) | .error .notFound => true
      | _ => false
    | _ => false

/-- Makes a directory, or keeps the one that is there. -/
def makeFolder (d : Directory) (name : String) : Except FileError Directory :=
  match d.at? [name] with
  | some (.file _) => .error .alreadyExists
  | _ => .ok { d with folders := [name] :: d.folders }

/-- The directory that holds texts under the given paths. -/
def ofFiles (files : List (String × String)) : Directory where
  files := files.map fun (path, text) =>
    ((path.splitOn "/").filter fun name => name ≠ "" && name ≠ ".", text)

end Directory

end Automata

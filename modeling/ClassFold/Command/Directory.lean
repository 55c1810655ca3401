import ClassFold.Command.Run

/-!
# A directory with files

A model of the directory that a run works in. A path is followed part by part, and every part but the
last must name a directory. Nothing is known of what lies outside the directory but that the directories
above it are there; all else outside is taken to be missing.
-/

set_option autoImplicit false

namespace ClassFold.Command

inductive Entry where
  | file (bytes : ByteArray)
  | directory

/-- Entries under their paths from the directory, each path a list of names. -/
structure Directory where
  entries : List (List Text × Entry) := []

/-- Where a path ends: at a directory that is there, or at a name under one. A slash behind the name is
remembered, for only a directory can have it. -/
inductive Place where
  | directory
  | named (parent : List Text) (name : Text) (slashed : Bool)

/-- Parts that lead to a directory from any directory. -/
def staysAbove (part : Text) : Bool := part = [] || part = ['.'] || part = ['.', '.']

namespace Directory

def entry? (d : Directory) (names : List Text) : Option Entry := d.entries.lookup names

def put (d : Directory) (names : List Text) (bytes : ByteArray) : Directory :=
  if (d.entry? names).isSome then
    ⟨d.entries.map fun (n, e) => if n = names then (n, .file bytes) else (n, e)⟩
  else ⟨d.entries ++ [(names, .file bytes)]⟩

def outside (parts : List Text) : Except Cause Place :=
  if parts.all staysAbove then .ok .directory else .error .missing

def longestName : Nat := 255

def longestPath : Nat := 4095

def follow (d : Directory) (here : List Text) : List Text → Except Cause Place
  | [] => .ok .directory
  | part :: rest =>
    if part = [] ∨ part = ['.'] then follow d here rest
    else if part = ['.', '.'] then
      if here = [] then outside rest else follow d here.dropLast rest
    else if rest.all (·.isEmpty) then .ok (.named here part !rest.isEmpty)
    else if longestName < part.size then .error .nameTooLong
    else
      match d.entry? (here ++ [part]) with
      | some .directory => follow d (here ++ [part]) rest
      | some (.file _) => .error .notDirectory
      | none => .error .missing

def place (d : Directory) (path : Text) : Except Cause Place :=
  let parts := path.splitOnP (· == '/')
  if longestPath < path.size then .error .nameTooLong
  else
    match path with
    | [] => .error .missing
    | '/' :: _ => outside parts
    | _ => d.follow [] parts

def read (d : Directory) (path : Text) : Except Cause ByteArray := do
  match ← d.place path with
  | .directory => throw .isDirectory
  | .named parent name slashed =>
    if longestName < name.size then throw .nameTooLong
    match d.entry? (parent ++ [name]) with
    | none => throw .missing
    | some .directory => throw .isDirectory
    | some (.file bytes) => if slashed then throw .notDirectory else return bytes

/-- A refused write changes nothing. No file is made under a name with a slash behind it, whatever the
name stands for. -/
def write (d : Directory) (path : Text) (bytes : ByteArray) : Except Cause Directory := do
  match ← d.place path with
  | .directory => throw .isDirectory
  | .named parent name slashed =>
    if slashed then throw .isDirectory
    if longestName < name.size then throw .nameTooLong
    match d.entry? (parent ++ [name]) with
    | some .directory => throw .isDirectory
    | _ => return d.put (parent ++ [name]) bytes

def files : Files (StateM Directory) where
  read path := do return (← get).read path
  write path bytes := do
    match (← get).write path bytes with
    | .ok d => set d; return .ok ()
    | .error cause => return .error cause

def topFiles (d : Directory) : List (Text × ByteArray) :=
  d.entries.filterMap fun
    | ([name], .file bytes) => some (name, bytes)
    | _ => none

end Directory

def runIn (d : Directory) (args : List Text) : Report × Directory :=
  (run Directory.files args).run d

end ClassFold.Command

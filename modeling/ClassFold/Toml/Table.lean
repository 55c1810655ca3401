import ClassFold.Toml.Value

/-!
# Building tables

A table is found, or made, by a path of keys from another table. A header may lead through any table
that has no braces, and through the last element of an array of tables; a dotted key may not lead
through a table that has a header. No key is given twice.
-/

set_option autoImplicit false

namespace ClassFold.Toml

namespace Table

def replace (key : Text) (value : Value) : Table → Table
  | [] => []
  | (k, v) :: rest => if k = key then (k, value) :: rest else (k, v) :: replace key value rest

def erase (key : Text) (t : Table) : Table := t.filter (·.1 != key)

/-- Whether a path may lead through a table, when the path makes tables of origin `making`. -/
def passes (making through : Origin) : Bool :=
  match making, through with
  | _, .braces => false
  | .dotted, .header => false
  | _, _ => true

/-- What `act` does to the table at the end of a path, which is made if it is missing, and the whole
with that table in its new state. -/
def visit {α : Type} (making : Origin) (act : Origin → Table → Option (α × Table)) :
    List Text → Origin → Table → Option (α × Table)
  | [], origin, t => act origin t
  | key :: path, _, t =>
    match t.lookup key with
    | none => do
      let (a, sub) ← visit making act path making []
      return (a, t ++ [(key, .table making sub)])
    | some (.table origin sub) => do
      guard (passes making origin)
      let (a, sub) ← visit making act path origin sub
      return (a, replace key (.table origin sub) t)
    | some (.tables items) => do
      let last ← items.getLast?
      let (a, sub) ← visit making act path .header last
      return (a, replace key (.tables (items.dropLast ++ [sub])) t)
    | some _ => none

/-- A table with a value under a dotted key. A dotted key ends in a table that dotted keys made, and a
plain key in one that they did not. -/
def add (t : Table) (path : List Text) (key : Text) (value : Value) : Option Table := do
  let ((), t) ← visit .dotted
    (fun origin t => do
      guard ((origin == .dotted) != path.isEmpty)
      guard (t.lookup key).isNone
      return ((), t ++ [(key, value)]))
    path .header t
  return t

def ofPairs (pairs : List ((List Text × Text) × Value)) : Option Table :=
  pairs.foldlM (fun t ((path, key), value) => t.add path key value) []

/-- Takes the table that only the way to other headers has made so far from under a key, or an empty one
if the key is free. -/
def reopen (t : Table) (path : List Text) (key : Text) : Option (Table × Table) :=
  visit .implied
    (fun _ t =>
      match t.lookup key with
      | none => some ([], t)
      | some (.table .implied sub) => some (sub, erase key t)
      | some _ => none)
    path .header t

def put (t : Table) (path : List Text) (key : Text) (sub : Table) : Option Table := do
  let ((), t) ← visit .implied
    (fun _ t => do
      guard (t.lookup key).isNone
      return ((), t ++ [(key, .table .header sub)]))
    path .header t
  return t

def openArray (t : Table) (path : List Text) (key : Text) : Option Table := do
  let ((), t) ← visit .implied
    (fun _ t =>
      match t.lookup key with
      | none => some ((), t ++ [(key, .tables [])])
      | some (.tables _) => some ((), t)
      | some _ => none)
    path .header t
  return t

def push (t : Table) (path : List Text) (key : Text) (sub : Table) : Option Table := do
  let ((), t) ← visit .implied
    (fun _ t =>
      match t.lookup key with
      | some (.tables items) => some ((), replace key (.tables (items ++ [sub])) t)
      | _ => none)
    path .header t
  return t

end Table

/-- The part of a document that is being written: the table that a header opened, or the document
itself before the first header. -/
inductive Section where
  | document
  | table (path : List Text) (key : Text)
  | element (path : List Text) (key : Text)

structure Builder where
  closed : Table := []
  target : Section := .document
  current : Table := []

namespace Builder

def close (b : Builder) : Option Table :=
  match b.target with
  | .document => some b.current
  | .table path key => b.closed.put path key b.current
  | .element path key => b.closed.push path key b.current

def openTable (b : Builder) (path : List Text) (key : Text) : Option Builder := do
  let all ← b.close
  let (current, rest) ← all.reopen path key
  return ⟨rest, .table path key, current⟩

def openElement (b : Builder) (path : List Text) (key : Text) : Option Builder := do
  let all ← b.close
  let rest ← all.openArray path key
  return ⟨rest, .element path key, []⟩

def add (b : Builder) (path : List Text) (key : Text) (value : Value) : Option Builder := do
  let current ← b.current.add path key value
  return { b with current }

end Builder

end ClassFold.Toml

import ClassFold.Toml.Number
import ClassFold.Toml.Table

/-!
# TOML documents

A document is a list of statements, one a line: pairs of a dotted key and a value, headers of tables
and headers of elements of arrays. Arrays and tables in braces nest less than `depthLimit` deep, and a
dotted key has fewer than `depthLimit` parts.
-/

set_option autoImplicit false

namespace ClassFold.Toml

def depthLimit : Nat := 80

inductive Statement where
  | pair (path : List Text) (key : Text) (value : Value)
  | table (path : List Text) (key : Text)
  | element (path : List Text) (key : Text)

namespace Reader

/-- The parts of a dotted key: the way, and the last one. -/
def dottedKey : Reader (List Text × Text) := do
  let parts ← separated (spaces *> simpleKey <* spaces) (char '.')
  guard (parts.length < depthLimit)
  match parts.reverse with
  | [] => failure
  | key :: path => return (path.reverse, key)

def pairOf (value : Reader Value) : Reader ((List Text × Text) × Value) := do
  let key ← dottedKey
  let _ ← char '='
  spaces
  return (key, ← value)

/-- The items between the brackets of an array, with gaps and a last comma allowed. -/
def items (value : Reader Value) : Reader (List Value) := do
  let found ← optional (separated (gap *> value <* gap) (char ','))
  match found with
  | none => gap
  | some _ => do let _ ← optional (char ',' *> gap)
  return found.getD []

def array (value : Reader Value) : Reader Value := do
  let _ ← char '['
  let found ← items value
  let _ ← char ']'
  return .array found

/-- A table in braces, all on one line and without a last comma. -/
def bracedTable (value : Reader Value) : Reader Value := do
  let _ ← char '{'
  let pairs ← optional (separated (pairOf value <* spaces) (char ','))
  spaces
  let _ ← char '}'
  return .table .braces (← liftM (Table.ofPairs (pairs.getD [])))

def boolean : Reader Value :=
  (do exactly "true".toList; return .boolean true) <|>
    (do exactly "false".toList; return .boolean false)

def plainValue : Reader Value := (do return .string (← string)) <|> boolean <|> number

/-- A value with at most `depth` arrays and tables in braces around another. -/
def valueWithin : Nat → Reader Value
  | 0 => plainValue
  | depth + 1 => plainValue <|> array (valueWithin depth) <|> bracedTable (valueWithin depth)

def value : Reader Value := valueWithin (depthLimit - 1)

def headerKey (opening closing : Text) : Reader (List Text × Text) := do
  exactly opening
  let key ← dottedKey
  exactly closing
  return key

def statement : Reader Statement :=
  (do
    let (path, key) ← headerKey ['[', '['] [']', ']']
    lineEnd
    return .element path key) <|>
  (do
    let (path, key) ← headerKey ['['] [']']
    lineEnd
    return .table path key) <|>
  (do
    let ((path, key), v) ← pairOf value
    lineEnd
    return .pair path key v)

def emptyLine : Reader Unit := newline <|> (comment *> (newline <|> atEnd))

def statements : Reader (List Statement) := do
  let _ ← optional (char '\ufeff')
  spaces
  let lines ← many (((do emptyLine; return none) <|> (do return some (← statement))) <* spaces)
  atEnd
  return lines.reduceOption

end Reader

def Builder.apply (b : Builder) : Statement → Option Builder
  | .pair path key value => b.add path key value
  | .table path key => b.openTable path key
  | .element path key => b.openElement path key

/-- The table of a document, keys in the order in which they came up. -/
def document? (source : Text) : Option Table := do
  let (statements, _) ← Reader.statements source
  let b ← statements.foldlM Builder.apply {}
  b.close

end ClassFold.Toml

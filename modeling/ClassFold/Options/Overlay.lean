import ClassFold.Decimal.Shortest
import ClassFold.Options.Basic
import ClassFold.Text.Quoted
import ClassFold.Toml.Document

/-!
# Options from a table

A table of options is laid over the defaults: each key sets one field, and a field without a key keeps
its default. The first key in order that is unknown or has a value of the wrong type is the error, and
then nothing is set.
-/

set_option autoImplicit false

namespace ClassFold

inductive Expected where
  | string
  | boolean
  | sequence
deriving DecidableEq, Repr

inductive Misfit where
  | unknownKey (key : Text)
  | wrongType (found : Toml.Value) (expected : Expected)

def Expected.text : Expected → Text
  | string => "a string".toList
  | boolean => "a boolean".toList
  | sequence => "a sequence".toList

/-- A value as a message names it: with its content, unless it is made of other values. -/
def Toml.Value.described : Toml.Value → Text
  | .string s => "string ".toList ++ s.shown
  | .integer n => "integer \x60".toList ++ (toString n).toList ++ ['\x60']
  | .float x => "floating point \x60".toList ++ x.text ++ ['\x60']
  | .boolean b => "boolean \x60".toList ++ (if b then "true" else "false").toList ++ ['\x60']
  | .array _ => "sequence".toList
  | .tables _ => "sequence".toList
  | .moment _ => "map".toList
  | .table _ _ => "map".toList

namespace Options

def keys : List Text :=
  ["prefix", "prefixedOnly", "nonValuedAttribute", "ignoreAttributes", "deleteClass"].map
    String.toList

def readString : Toml.Value → Except Misfit Text
  | .string s => .ok s
  | v => .error (.wrongType v .string)

def readBoolean : Toml.Value → Except Misfit Bool
  | .boolean b => .ok b
  | v => .error (.wrongType v .boolean)

def readStrings : Toml.Value → Except Misfit (List Text)
  | .array items => items.mapM readString
  | .tables items => (items.map (Toml.Value.table .header)).mapM readString
  | v => .error (.wrongType v .sequence)

def set (o : Options) (key : Text) (value : Toml.Value) : Except Misfit Options :=
  if key = "prefix".toList then return { o with namePrefix := ← readString value }
  else if key = "prefixedOnly".toList then return { o with prefixedOnly := ← readBoolean value }
  else if key = "nonValuedAttribute".toList then
    return { o with bareAttributes := ← readBoolean value }
  else if key = "ignoreAttributes".toList then
    return { o with ignoredNames := ← readStrings value }
  else if key = "deleteClass".toList then return { o with deleteFolded := ← readBoolean value }
  else .error (.unknownKey key)

def ofTable (t : Toml.Table) : Except Misfit Options :=
  t.foldlM (fun o (key, value) => o.set key value) {}

def toTable (o : Options) : Toml.Table :=
  [("prefix".toList, .string o.namePrefix),
    ("prefixedOnly".toList, .boolean o.prefixedOnly),
    ("nonValuedAttribute".toList, .boolean o.bareAttributes),
    ("ignoreAttributes".toList, .array (o.ignoredNames.map .string)),
    ("deleteClass".toList, .boolean o.deleteFolded)]

end Options

def listKeys (keys : List Text) : Text :=
  ", ".toList.intercalate (keys.map fun key => '\x60' :: (key ++ ['\x60']))

def Misfit.message : Misfit → Text
  | unknownKey key =>
    "unknown field \x60".toList ++ key ++ "\x60, expected one of ".toList ++ listKeys Options.keys
  | wrongType found expected =>
    "invalid type: ".toList ++ found.described ++ ", expected ".toList ++ expected.text

inductive OptionsError where
  | notToml
  | misfit (misfit : Misfit)

def Options.ofToml (source : Text) : Except OptionsError Options :=
  match Toml.document? source with
  | none => .error .notToml
  | some t => (Options.ofTable t).mapError .misfit

end ClassFold

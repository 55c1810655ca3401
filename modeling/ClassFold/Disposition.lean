import ClassFold.Markup.Attribute
import ClassFold.Fragment
import ClassFold.Options.Basic
import ClassFold.Engine

/-!
# What an attribute is good for

Before anything is asked, an attribute gets its effective name and its disposition. The configured
prefix is taken out of the name, wherever it first occurs; then names on the ignore list drop out; then
one binding decoration is stripped. The candidates that the engine will be asked for follow from the two.
-/

set_option autoImplicit false

namespace ClassFold

inductive Disposition where
  | ignored
  /-- The attribute holds the classes that the element has already. -/
  | existingClass
  | bareCandidate
  | valuedCandidate
deriving DecidableEq, Repr

structure Classified where
  name : Text
  disposition : Disposition
deriving DecidableEq, Repr

def removeFirst (pattern : Text) (s : Text) : Text :=
  match s with
  | [] => []
  | c :: r =>
    match pattern.isPrefixOf? (c :: r) with
    | some rest => rest
    | none => c :: removeFirst pattern r

/-- A name without its binding decoration, `v-bind:` or else `:`. -/
def stripBinding (name : Text) : Text :=
  match "v-bind:".toList.isPrefixOf? name with
  | some rest => rest
  | none =>
    match name with
    | ':' :: rest => rest
    | _ => name

/-- Whether a value under this effective name lists classes. A colon in the name as written makes the
attribute a binding, whose value is no list of classes. -/
def namesClassList (written effective : Text) : Bool :=
  (effective = "class".toList || effective = "className".toList) && !written.contains ':'

def Options.plainName (o : Options) (name : Text) : Text :=
  if o.prefixedOnly then removeFirst o.namePrefix name else name

def classify (engine : Engine) (o : Options) (a : Attribute) : Classified :=
  let plain := o.plainName a.name
  if o.ignores plain then ⟨plain, .ignored⟩
  else
    let name := stripBinding plain
    match a.value? with
    | none =>
      if o.bareAttributes && engine.selects name then ⟨name, .bareCandidate⟩ else ⟨name, .ignored⟩
    | some _ =>
      if namesClassList a.name name then ⟨name, .existingClass⟩ else ⟨name, .valuedCandidate⟩

def candidates (engine : Engine) (o : Options) (a : Attribute) : List Text :=
  let c := classify engine o a
  match c.disposition with
  | .ignored | .existingClass => []
  | .bareCandidate => [c.name]
  | .valuedCandidate => valuedCandidates c.name (a.value?.getD [])

end ClassFold

import ClassFold.Plan

/-!
# The transformation of a document

The elements of a document are resolved in order, and every element with a confirmed token becomes an
entry of the plan. The plan is applied to the document as it was; on the first failure of the engine
there is no output.
-/

set_option autoImplicit false

namespace ClassFold

def Ask.placing {α : Type} (result : Except Edit α) : Ask α :=
  match result with
  | .ok a => pure a
  | .error e => throw (.misplaced e)

def Element.plan (engine : Engine) (o : Options) (e : Element) : Ask (Option Edit) := do
  let c ← e.toTag.resolve engine o
  Ask.placing (e.entry? c)

def planOf (engine : Engine) (o : Options) (source : Text) : Ask Plan := do
  let entries ← (elements source).mapM (·.plan engine o)
  return entries.filterMap id

structure Outcome where
  output : Text
  asked : List Text
deriving DecidableEq, Repr

def runOn (engine : Engine) (o : Options) (source : Text) : Ask Text := do
  let plan ← planOf engine o source
  Ask.placing (plan.apply source)

def outcome (engine : Engine) (o : Options) (source : Text) : Except Error Outcome := do
  let (output, asked) ← (runOn engine o source).run []
  return ⟨output, asked.reverse⟩

def transform (engine : Engine) (o : Options) (source : Text) : Except Error Text :=
  (outcome engine o source).map (·.output)

end ClassFold

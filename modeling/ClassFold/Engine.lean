import ClassFold.Edit

/-!
# The engine that knows utility classes

Whether a token is a utility class is for an engine to say. Its answer may depend on what it was asked
before; questions are kept in a record, the latest first. An engine may also fail on a token, and then
the run stops.
-/

set_option autoImplicit false

namespace ClassFold

inductive Error where
  | engine (token reason : Text)
  | misplaced (edit : Edit)
deriving DecidableEq, Repr

def Error.message : Error → String
  | .engine token _ => "utility engine failed on token \x60" ++ String.ofList token ++ "\x60"
  | .misplaced e => "misplaced edit of bytes " ++ toString e.span.start ++ " to " ++ toString e.span.stop

/-- A name may be a class selector once it holds one character that a class can be made of. -/
def isValidSelector (name : Text) : Bool :=
  name.any fun c =>
    c.isAlphanum || c == '_' || ('%' ≤ c && c ≤ '?') || ('\u00a0' ≤ c && c ≤ '\uffff')

structure Engine where
  /-- The answer to a token, given the tokens asked before, the latest first. -/
  answer : List Text → Text → Except Text Bool
  /-- Asked for bare attributes only. -/
  selects : Text → Bool := isValidSelector

def Engine.fixed (answer : Text → Except Text Bool) (selects : Text → Bool := isValidSelector) :
    Engine :=
  ⟨fun _ => answer, selects⟩

/-- Runs that may ask an engine: the record of questions is their state. -/
abbrev Ask := StateT (List Text) (Except Error)

namespace Engine

def ask (engine : Engine) (token : Text) : Ask Bool := fun asked =>
  match engine.answer asked token with
  | .ok yes => .ok (yes, token :: asked)
  | .error reason => .error (.engine token reason)

def confirmed (engine : Engine) : List Text → Ask (List Text)
  | [] => pure []
  | t :: ts => do
    let yes ← engine.ask t
    let rest ← engine.confirmed ts
    return if yes then t :: rest else rest

end Engine

end ClassFold

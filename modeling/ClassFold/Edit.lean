import ClassFold.Text.Basic

/-!
# Edits of a text

An edit puts a text in the place of a span. A list of edits is applied in one pass, in the order of
the spans, and everything between the spans is copied. An edit that starts before the one before it
has ended, or whose ends do not stand between characters of the text, is misplaced.
-/

set_option autoImplicit false

namespace ClassFold

structure Edit where
  span : Span
  text : Text
deriving DecidableEq, Repr

namespace Edit

/-- The order of starts; edits that start together keep their places. -/
def startsBefore (a b : Edit) : Bool := a.span.start ≤ b.span.start

def standsBefore (a b : Edit) : Bool :=
  a.span.start < b.span.start || (a.span.start == b.span.start && a.span.stop ≤ b.span.stop)

/-- What stands before the span and what stands behind it, in a text that starts at `offset`. -/
def around? (offset : Nat) (e : Edit) (s : Text) : Option (Text × Text) :=
  if offset ≤ e.span.start then do
    let (before, rest) ← Text.splitAt? (e.span.start - offset) s
    let (_, behind) ← Text.splitAt? (e.span.stop - e.span.start) rest
    return (before, behind)
  else none

/-- Edits applied in the given order to a text that starts at `offset`. The first misplaced edit is
the error. -/
def applyFrom (offset : Nat) : List Edit → Text → Except Edit Text
  | [], s => .ok s
  | e :: es, s =>
    match around? offset e s with
    | none => .error e
    | some (before, behind) => do
      let edited ← applyFrom e.span.stop es behind
      return before ++ (e.text ++ edited)

end Edit

end ClassFold

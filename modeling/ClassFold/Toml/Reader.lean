import ClassFold.Text.Basic

/-!
# Readers

A reader takes a value from the front of a text, or fails and takes nothing. A step that is repeated
takes at least one character, so a text has room for every step on it.
-/

set_option autoImplicit false

namespace ClassFold.Toml

abbrev Reader (α : Type) := StateT Text Option α

namespace Reader

variable {α β : Type}

def satisfying (p : Char → Bool) : Reader Char := fun s =>
  match s with
  | c :: rest => if p c then some (c, rest) else none
  | [] => none

def char (c : Char) : Reader Char := satisfying (· == c)

def exactly (t : Text) : Reader Unit := fun s => (t.isPrefixOf? s).map ((), ·)

def run (p : Char → Bool) : Reader Text := fun s => some (s.takeWhile p, s.dropWhile p)

def run1 (p : Char → Bool) : Reader Text := do
  let t ← run p
  guard (!t.isEmpty)
  return t

def times (p : Char → Bool) : Nat → Reader Text
  | 0 => return []
  | n + 1 => do
    let c ← satisfying p
    let t ← times p n
    return c :: t

/-- As many steps of a reader as succeed, but no more than `bound` has characters. -/
def repeated (r : Reader α) (bound : Text) (s : Text) : List α × Text :=
  match bound with
  | [] => ([], s)
  | _ :: bound =>
    match r s with
    | none => ([], s)
    | some (a, rest) =>
      let (as, last) := repeated r bound rest
      (a :: as, last)

/-- As many steps as succeed. The text itself bounds the steps of a reader that never takes nothing. -/
def many (r : Reader α) : Reader (List α) := fun s => some (repeated r s s)

def optional (r : Reader α) : Reader (Option α) := some <$> r <|> return none

def separated (r : Reader α) (separator : Reader β) : Reader (List α) := do
  let a ← r
  let as ← many (separator *> r)
  return a :: as

def atEnd : Reader Unit := fun s => if s.isEmpty then some ((), s) else none

end Reader

end ClassFold.Toml

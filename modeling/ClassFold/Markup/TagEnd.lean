import ClassFold.Markup.Tag

/-!
# The end of a tag

The closing `>` of a tag is the first one outside every string and every `{…}` binding. A quote opens a
string inside a binding, or where a value may start: when the last character before it that is no
blank is `=`. A text that never gets outside again is closed at its first `>`.
-/

set_option autoImplicit false

namespace ClassFold.TagEnd

/-- Where a reader of an attribute region stands. -/
structure State where
  /-- The quote of the open string. -/
  quote : Option Char
  /-- The number of open braces. -/
  depth : Nat
  /-- The last character that is no blank and not inside a string. -/
  last : Char
deriving DecidableEq, Repr

namespace State

def start : State := ⟨none, 0, ' '⟩

def isOutside (σ : State) : Bool := σ.quote.isNone && σ.depth == 0

def admitsString (σ : State) : Bool := 0 < σ.depth || σ.last == '='

def step (σ : State) (c : Char) : State :=
  match σ.quote with
  | some q => if c == q then { σ with quote := none, last := c } else σ
  | none =>
    if isQuote c && σ.admitsString then { σ with quote := some c }
    else if c == '{' then { σ with depth := σ.depth + 1, last := c }
    else if c == '}' && 0 < σ.depth then { σ with depth := σ.depth - 1, last := c }
    else if isBlank c then σ
    else { σ with last := c }

end State

/-- The texts before and after the first `>` met outside, from a state and with the characters
behind it in reverse. -/
def cutAfter? (σ : State) (behind : Text) : Text → Option (Text × Text)
  | [] => none
  | c :: s =>
    if c == '>' && σ.isOutside then some (behind.reverse, s)
    else cutAfter? (σ.step c) (c :: behind) s

/-- The cut at the closing `>`, minding strings and bindings. -/
def cut? (s : Text) : Option (Text × Text) := cutAfter? .start [] s

def plainCut? (s : Text) : Option (Text × Text) :=
  match s.dropWhile (· != '>') with
  | [] => none
  | _ :: rest => some (s.takeWhile (· != '>'), rest)

/-- The attribute region at the front of a text and what follows its closing `>`. -/
def region? (s : Text) : Option (Text × Text) := (cut? s).or (plainCut? s)

theorem eq_of_cutAfter? {σ : State} {behind s a b : Text} (h : cutAfter? σ behind s = some (a, b)) :
    behind.reverse ++ s = a ++ '>' :: b := by
  induction s generalizing σ behind with
  | nil => simp [cutAfter?] at h
  | cons c s ih =>
    rw [cutAfter?] at h
    split at h
    · rename_i hc
      simp only [Bool.and_eq_true, beq_iff_eq] at hc
      cases h
      rw [hc.1]
    · simpa using ih h

theorem eq_of_plainCut? {s a b : Text} (h : plainCut? s = some (a, b)) : s = a ++ '>' :: b := by
  unfold plainCut? at h
  split at h
  · cases h
  · rename_i c rest hd
    cases h
    have hc : c = '>' := by
      have := List.head?_dropWhile_not (· != '>') s
      simpa [hd] using this
    subst hc
    rw [← hd, List.takeWhile_append_dropWhile]

theorem eq_of_region? {s a b : Text} (h : region? s = some (a, b)) : s = a ++ '>' :: b := by
  unfold region? at h
  cases hc : cut? s with
  | some p =>
    rw [hc] at h
    cases h
    simpa using eq_of_cutAfter? hc
  | none =>
    rw [hc] at h
    exact eq_of_plainCut? h

end ClassFold.TagEnd

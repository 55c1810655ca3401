import ClassFold.Toml.Lexeme
import ClassFold.Toml.Value

/-!
# Numbers, dates and times of TOML

Underscores may stand between two digits. A decimal number has no leading zero; with a fraction or an
exponent it is a floating point number. Integers fit into 64 bits, and a floating point number is not
beyond the greatest one.
-/

set_option autoImplicit false

namespace ClassFold.Toml.Reader

def digits (p : Char → Bool) : Reader Text := do
  let first ← satisfying p
  let rest ← many (optional (char '_') *> satisfying p)
  return first :: rest

/-- A sign, true for minus. -/
def sign : Reader Bool := (char '-' *> pure true) <|> (char '+' *> pure false)

def wholeDigits : Reader Text :=
  (do let _ ← char '0'; return ['0']) <|> digits Char.isDigit

def fraction : Reader Text := char '.' *> digits Char.isDigit

def exponent : Reader Int := do
  let _ ← char 'e' <|> char 'E'
  let negative ← optional sign
  let n := numberOf 10 (← digits Char.isDigit)
  return if negative = some true then -n else n

def isInt64 (n : Int) : Bool :=
  Int64.minValue.toInt ≤ n && n ≤ Int64.maxValue.toInt

def boundedInteger (n : Int) : Reader Value := do
  guard (isInt64 n)
  return .integer n

def boundedFloat (x : Binary64) : Reader Value := do
  guard (x ≠ .infinite false)
  return .float x

def basedInteger (letter : Char) (base : Nat) (p : Char → Bool) : Reader Value := do
  exactly ['0', letter]
  boundedInteger (numberOf base (← digits p))

def decimal : Reader Value := do
  let negative := (← optional sign) = some true
  let whole ← wholeDigits
  let places ← optional fraction
  let power ← optional exponent
  if places.isNone ∧ power.isNone then
    let n : Int := numberOf 10 whole
    boundedInteger (if negative then -n else n)
  else
    let shown := whole ++ places.getD []
    boundedFloat
      (.ofDecimal negative (numberOf 10 shown) shown.length
        (power.getD 0 - (places.getD []).length))

def specialFloat : Reader Value := do
  let negative := (← optional sign) = some true
  (do exactly "inf".toList; return .float (.infinite negative)) <|>
    (do exactly "nan".toList; return .float .nan)

def numeral (length low high : Nat) : Reader Nat := do
  let n := numberOf 10 (← times Char.isDigit length)
  guard (low ≤ n ∧ n ≤ high)
  return n

def isLeapYear (year : Nat) : Bool := year % 4 == 0 && (year % 100 != 0 || year % 400 == 0)

def daysInMonth (year month : Nat) : Nat :=
  if month == 2 then (if isLeapYear year then 29 else 28)
  else if month == 4 || month == 6 || month == 9 || month == 11 then 30
  else 31

def date : Reader Date := do
  let year ← numeral 4 0 9999
  let _ ← char '-'
  let month ← numeral 2 1 12
  let _ ← char '-'
  let day ← numeral 2 1 (daysInMonth year month)
  return ⟨year, month, day⟩

def time : Reader Time := do
  let hour ← numeral 2 0 23
  let _ ← char ':'
  let minute ← numeral 2 0 59
  let _ ← char ':'
  let second ← numeral 2 0 60
  let fraction ← optional (char '.' *> run1 Char.isDigit)
  return ⟨hour, minute, second, fraction.getD []⟩

def offset : Reader Offset :=
  (do let _ ← char 'Z' <|> char 'z'; return .utc) <|>
  (do
    let negative ← sign
    let hour ← numeral 2 0 23
    let _ ← char ':'
    let minute ← numeral 2 0 59
    let n : Int := hour * 60 + minute
    return .minutes (if negative then -n else n))

def timeOfDate : Reader (Time × Option Offset) := do
  let _ ← char 'T' <|> char 't' <|> char ' '
  let t ← time
  let o ← optional offset
  return (t, o)

def moment : Reader Moment :=
  (do
    let d ← date
    match ← optional timeOfDate with
    | some (t, o) => return .dateTime d t o
    | none => return .date d) <|>
  (do return .time (← time))

def number : Reader Value :=
  (do return .moment (← moment)) <|> basedInteger 'x' 16 isHexDigit <|>
    basedInteger 'o' 8 (fun c => '0' ≤ c && c ≤ '7') <|>
    basedInteger 'b' 2 (fun c => c == '0' || c == '1') <|> decimal <|> specialFloat

end ClassFold.Toml.Reader

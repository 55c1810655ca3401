import ClassFold.Toml.Reader

/-!
# Characters, blanks and strings of TOML

A string is in double quotes, with escapes, or in single quotes, without. Three quotes instead of one
let it run over several lines; a line break right behind them does not count, and up to two quotes in
a row may stand inside and before the closing three.
-/

set_option autoImplicit false

namespace ClassFold.Toml

def isSpace (c : Char) : Bool := c == ' ' || c == '\t'

/-- Anything but a control character; the tab is none. -/
def isPlain (c : Char) : Bool := c == '\t' || (' ' ≤ c && c != '\x7f')

def isBareKeyChar (c : Char) : Bool := c.isAlphanum || c == '_' || c == '-'

def isBasicChar (c : Char) : Bool := isPlain c && c != '\x22' && c != '\\'

def isLiteralChar (c : Char) : Bool := isPlain c && c != '\x27'

def isHexDigit (c : Char) : Bool :=
  c.isDigit || ('a' ≤ c && c ≤ 'f') || ('A' ≤ c && c ≤ 'F')

def digitValue (c : Char) : Nat :=
  if c.isDigit then c.toNat - '0'.toNat
  else if c.isLower then c.toNat - 'a'.toNat + 10
  else c.toNat - 'A'.toNat + 10

def numberOf (base : Nat) (digits : Text) : Nat :=
  digits.foldl (fun n d => n * base + digitValue d) 0

namespace Reader

def spaces : Reader Unit := do let _ ← run isSpace

def newline : Reader Unit := exactly ['\n'] <|> exactly ['\r', '\n']

def comment : Reader Unit := do
  let _ ← char '#'
  let _ ← run isPlain

def lineEnd : Reader Unit := do
  spaces
  let _ ← optional comment
  newline <|> atEnd

def gap : Reader Unit := do
  let _ ← many ((do let _ ← run1 isSpace) <|> (do let _ ← optional comment; newline))

def scalar (digits : Nat) : Reader Char := do
  let n := numberOf 16 (← times isHexDigit digits)
  guard n.isValidChar
  return Char.ofNat n

def escape : Reader Char := do
  let _ ← char '\\'
  match ← satisfying fun _ => true with
  | 'b' => return '\x08'
  | 't' => return '\t'
  | 'n' => return '\n'
  | 'f' => return '\x0c'
  | 'r' => return '\r'
  | '\x22' => return '\x22'
  | '\\' => return '\\'
  | 'u' => scalar 4
  | 'U' => scalar 8
  | _ => failure

def basicString : Reader Text := do
  let _ ← char '\x22'
  let text ← many (satisfying isBasicChar <|> escape)
  let _ ← char '\x22'
  return text

def literalString : Reader Text := do
  let _ ← char '\x27'
  let text ← run isLiteralChar
  let _ ← char '\x27'
  return text

/-- A backslash that takes the line break behind it away, and all space up to the next character. -/
def lineJoin : Reader Unit := do
  let _ ← char '\\'
  spaces
  newline
  let _ ← many ((do let _ ← run1 isSpace) <|> newline)

def fewQuotes (q : Char) : Reader Text := do
  let quotes ← run (· == q)
  guard (quotes.length = 1 ∨ quotes.length = 2)
  return quotes

/-- The quotes that close a string of several lines, and before them those that belong to it. -/
def closingQuotes (q : Char) : Reader Text := do
  let quotes ← run (· == q)
  guard (3 ≤ quotes.length ∧ quotes.length ≤ 5)
  return quotes.drop 3

def threeQuotes (q : Char) : Reader Unit := do
  exactly [q, q, q]
  let _ ← optional newline

/-- A string of several lines, given what one step of it may be besides quotes. -/
def longString (q : Char) (step : Reader Text) : Reader Text := do
  threeQuotes q
  let parts ← many (step <|> fewQuotes q)
  let last ← closingQuotes q
  return parts.flatten ++ last

def longBasicString : Reader Text :=
  longString '\x22'
    ((do return [← satisfying isBasicChar]) <|> (do lineJoin; return []) <|>
      (do return [← escape]) <|> (do newline; return ['\n']))

def longLiteralString : Reader Text :=
  longString '\x27' ((do return [← satisfying isLiteralChar]) <|> (do newline; return ['\n']))

def string : Reader Text :=
  longBasicString <|> basicString <|> longLiteralString <|> literalString

def simpleKey : Reader Text := basicString <|> literalString <|> run1 isBareKeyChar

end Reader

end ClassFold.Toml

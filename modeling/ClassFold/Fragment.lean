import ClassFold.Text.Blank

/-!
# Fragments of a value

The value of an attribute is cut at white space, quotes and semicolons. Each fragment makes one
candidate for a utility class: the name and the fragment joined by a hyphen, or the name itself.
-/

set_option autoImplicit false

namespace ClassFold

def isSeparator (c : Char) : Bool :=
  isWhite c || c == '\x27' || c == '\x22' || c == '\x60' || c == ';'

/-- The maximal runs of characters that are no separators, in order, duplicates included. -/
def fragments (value : Text) : List Text :=
  (value.splitOnP isSeparator).filter (!·.isEmpty)

/-- The fragment `~` stands for the name itself. -/
def candidate (name fragment : Text) : Text :=
  if fragment = ['~'] then name else name ++ '-' :: fragment

def valuedCandidates (name value : Text) : List Text :=
  (fragments value).map (candidate name)

end ClassFold

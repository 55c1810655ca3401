import Std.Data.HashSet
import ClassFold.Engine
import ClassFold.Text.Blank

/-!
# Sets of known utility classes

A word list names one class per line. Blank lines and lines that start with `#` name none, and white
space around a class does not count.
-/

set_option autoImplicit false

namespace ClassFold

structure WordSet where
  words : Std.HashSet String

namespace WordSet

def ofList (words : List Text) : WordSet := ⟨Std.HashSet.ofList (words.map String.ofList)⟩

def wordOfLine? (line : Text) : Option Text :=
  match line.trim with
  | [] => none
  | '#' :: _ => none
  | word => some word

def wordsOfList (source : Text) : List Text :=
  (source.splitOnP (· == '\n')).filterMap wordOfLine?

def ofWordList (source : Text) : WordSet := ofList (wordsOfList source)

def contains (set : WordSet) (word : Text) : Bool := set.words.contains (String.ofList word)

def size (set : WordSet) : Nat := set.words.size

def isEmpty (set : WordSet) : Bool := set.words.isEmpty

def engine (set : WordSet) : Engine := .fixed fun token => .ok (set.contains token)

@[simp] theorem contains_ofList (words : List Text) (word : Text) :
    (ofList words).contains word = words.contains word := by
  rw [Bool.eq_iff_iff]
  simp [ofList, contains, String.ofList_inj]

end WordSet

end ClassFold

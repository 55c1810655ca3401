import ClassFold.Text.Basic
import ClassFold.Text.Printable

/-!
# Texts shown in quotes

A text is shown between double quotes, with short escapes for the quote, the backslash and the common
control characters, and with the code of every other character that is not printable.
-/

set_option autoImplicit false

namespace ClassFold.Text

def shownChar : Char → Text
  | '\x22' => ['\\', '\x22']
  | '\\' => ['\\', '\\']
  | '\n' => ['\\', 'n']
  | '\r' => ['\\', 'r']
  | '\t' => ['\\', 't']
  | '\x00' => ['\\', '0']
  | c =>
    if isPrintable c then [c] else "\\u\x7b".toList ++ Nat.toDigits 16 c.toNat ++ ['\x7d']

def shown (s : Text) : Text := '\x22' :: (s.flatMap shownChar ++ ['\x22'])

end ClassFold.Text

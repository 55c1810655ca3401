import ClassFold.Text.Basic

/-!
# White space

Markup is cut at the white space of ASCII; attribute values and word lists at the characters of the
Unicode property White_Space. Every blank is white.
-/

set_option autoImplicit false

namespace ClassFold

/-- Space, tab, line feed, form feed and carriage return; the vertical tab is none. -/
def isBlank (c : Char) : Bool :=
  c == ' ' || c == '\t' || c == '\n' || c == '\x0c' || c == '\r'

def whiteRanges : List (Nat × Nat) :=
  [(0x09, 0x0d), (0x20, 0x20), (0x85, 0x85), (0xa0, 0xa0), (0x1680, 0x1680), (0x2000, 0x200a),
    (0x2028, 0x2029), (0x202f, 0x202f), (0x205f, 0x205f), (0x3000, 0x3000)]

def isWhite (c : Char) : Bool :=
  whiteRanges.any fun (lo, hi) => lo ≤ c.toNat && c.toNat ≤ hi

theorem isBlank_eq_true_iff {c : Char} :
    isBlank c = true ↔ c = ' ' ∨ c = '\t' ∨ c = '\n' ∨ c = '\x0c' ∨ c = '\r' := by
  simp [isBlank, or_assoc]

theorem isWhite_of_isBlank {c : Char} (h : isBlank c = true) : isWhite c = true := by
  rcases isBlank_eq_true_iff.1 h with rfl | rfl | rfl | rfl | rfl <;> decide

theorem utf8Size_of_isBlank {c : Char} (h : isBlank c = true) : c.utf8Size = 1 := by
  rcases isBlank_eq_true_iff.1 h with rfl | rfl | rfl | rfl | rfl <;> decide

def Text.trim (s : Text) : Text :=
  ((s.dropWhile isWhite).reverse.dropWhile isWhite).reverse

end ClassFold

/-!
# Text measured in bytes

A text is the list of its characters. Offsets count the bytes of its UTF-8 form, so an offset stands
between two characters exactly when it is the size of a front part: `splitAt?_eq_some_iff`.
-/

set_option autoImplicit false

namespace ClassFold

abbrev Text := List Char

namespace Text

def size : Text → Nat
  | [] => 0
  | c :: s => c.utf8Size + size s

@[simp] theorem size_nil : size [] = 0 := rfl

@[simp] theorem size_cons (c : Char) (s : Text) : size (c :: s) = c.utf8Size + size s := rfl

@[simp] theorem size_append (s t : Text) : size (s ++ t) = size s + size t := by
  induction s with
  | nil => simp
  | cons c s ih => simp [ih, Nat.add_assoc]

theorem size_eq_zero_iff {s : Text} : size s = 0 ↔ s = [] := by
  cases s with
  | nil => simp
  | cons c s => simpa using fun h => absurd h (Nat.ne_of_gt c.utf8Size_pos)

theorem utf8ByteSize_ofList (s : Text) : (String.ofList s).utf8ByteSize = size s := by
  induction s with
  | nil => simp
  | cons c s ih => simp [String.ofList_cons, ih]

/-- The split walks with the characters behind it in reverse. -/
def splitAfter? (behind : Text) : Nat → Text → Option (Text × Text)
  | 0, s => some (behind.reverse, s)
  | _ + 1, [] => none
  | n + 1, c :: s =>
    if c.utf8Size ≤ n + 1 then splitAfter? (c :: behind) (n + 1 - c.utf8Size) s else none

/-- The two parts of a text around a byte offset, if the offset stands between characters. -/
def splitAt? (n : Nat) (s : Text) : Option (Text × Text) := splitAfter? [] n s

theorem splitAfter?_eq_some_iff {n : Nat} {behind s a b : Text} :
    splitAfter? behind n s = some (a, b) ↔ ∃ t, a = behind.reverse ++ t ∧ s = t ++ b ∧ size t = n := by
  induction s generalizing n behind with
  | nil =>
    cases n with
    | zero =>
      simp only [splitAfter?, Option.some.injEq, Prod.mk.injEq]
      constructor
      · rintro ⟨rfl, rfl⟩
        exact ⟨[], by simp, rfl, rfl⟩
      · rintro ⟨t, rfl, h, -⟩
        obtain ⟨rfl, rfl⟩ := List.append_eq_nil_iff.1 h.symm
        simp
    | succ n =>
      simp only [splitAfter?, reduceCtorEq, List.nil_eq, List.append_eq_nil_iff, false_iff]
      rintro ⟨t, -, ⟨rfl, -⟩, h⟩
      simp at h
  | cons c s ih =>
    cases n with
    | zero =>
      simp only [splitAfter?, Option.some.injEq, Prod.mk.injEq, size_eq_zero_iff]
      constructor
      · rintro ⟨rfl, rfl⟩
        exact ⟨[], by simp, rfl, rfl⟩
      · rintro ⟨t, rfl, h, rfl⟩
        exact ⟨by simp, h⟩
    | succ n =>
      rw [splitAfter?]
      split
      · rw [ih]
        constructor
        · rintro ⟨t, rfl, rfl, h⟩
          exact ⟨c :: t, by simp, rfl, by simp only [size_cons]; omega⟩
        · rintro ⟨t, rfl, h, hn⟩
          cases t with
          | nil => simp at hn
          | cons d t =>
            simp only [List.cons_append, List.cons.injEq] at h
            obtain ⟨rfl, rfl⟩ := h
            exact ⟨t, by simp, rfl, by simp only [size_cons] at hn; omega⟩
      · rename_i hc
        simp only [reduceCtorEq, false_iff]
        rintro ⟨t, -, h, hn⟩
        cases t with
        | nil => simp at hn
        | cons d t =>
          simp only [List.cons_append, List.cons.injEq] at h
          obtain ⟨rfl, rfl⟩ := h
          simp only [size_cons] at hn
          omega

theorem splitAt?_eq_some_iff {n : Nat} {s a b : Text} :
    splitAt? n s = some (a, b) ↔ s = a ++ b ∧ size a = n := by
  simp [splitAt?, splitAfter?_eq_some_iff]

@[simp] theorem splitAt?_size_append (a b : Text) : splitAt? (size a) (a ++ b) = some (a, b) :=
  splitAt?_eq_some_iff.2 ⟨rfl, rfl⟩

end Text

/-- The bytes from `start` up to `stop`, the byte at `stop` excluded. -/
structure Span where
  start : Nat
  stop : Nat
  start_le_stop : start ≤ stop := by omega
deriving DecidableEq, Repr

namespace Span

def isEmpty (r : Span) : Bool := r.start == r.stop

def shift (r : Span) (offset : Nat) : Span :=
  ⟨offset + r.start, offset + r.stop, Nat.add_le_add_left r.start_le_stop offset⟩

/-- The part of a text that a span covers, if both its ends stand between characters. -/
def slice? (r : Span) (s : Text) : Option Text := do
  let (_, rest) ← Text.splitAt? r.start s
  let (part, _) ← Text.splitAt? (r.stop - r.start) rest
  return part

@[simp] theorem start_shift (r : Span) (n : Nat) : (r.shift n).start = n + r.start := rfl

@[simp] theorem stop_shift (r : Span) (n : Nat) : (r.shift n).stop = n + r.stop := rfl

end Span

end ClassFold

import Mathlib.Data.List.Induction
import Mathlib.Data.List.TakeWhile
import ClassFold.Proofs.Bytes.Encoding
import ClassFold.Proofs.Text.Split

/-!
# Checked readers of bytes

A reader walks over the bytes of a text by offset. Every access and every subtraction is checked, and a
failed check is a fault; so is a step that does not move on. On a text cut in two, a reader that starts
between the two parts is at the first byte of the second: each reader gives what `takeWhile` gives on
the characters.
-/

set_option autoImplicit false

namespace ClassFold

inductive Fault where
  | outOfBounds (offset : Nat)
  /-- The ends are out of order, out of bounds or inside a character. -/
  | badSlice (start stop : Nat)
  | underflow (a b : Nat)
  | stalled (offset : Nat)
deriving DecidableEq, Repr

abbrev Checked := Except Fault

namespace Checked

variable {α β : Type}

@[simp] theorem ok_bind (a : α) (f : α → Checked β) : (Except.ok a : Checked α) >>= f = f a := rfl

@[simp] theorem pure_eq_ok (a : α) : (pure a : Checked α) = .ok a := rfl

def byteAt (s : List UInt8) (i : Nat) : Checked Char :=
  match s[i]? with
  | some b => .ok (ofByte b)
  | none => .error (.outOfBounds i)

def minus (a b : Nat) : Checked Nat := if b ≤ a then .ok (a - b) else .error (.underflow a b)

def byteSlice (s : List UInt8) (start stop : Nat) : Checked (List UInt8) :=
  if start ≤ stop ∧ stop ≤ s.length then .ok ((s.drop start).take (stop - start))
  else .error (.badSlice start stop)

def slice (s : Text) (start stop : Nat) : Checked Text :=
  if h : start ≤ stop then
    match (Span.mk start stop h).slice? s with
    | some x => .ok x
    | none => .error (.badSlice start stop)
  else .error (.badSlice start stop)

def skipWhile (p : Char → Bool) (s : List UInt8) (i : Nat) : Checked Nat :=
  if i < s.length then do
    let c ← byteAt s i
    if p c then skipWhile p s (i + 1) else return i
  else return i
termination_by s.length - i

/-- The offset of the first byte `q` at `i` or behind it. -/
def find (q : Char) (s : List UInt8) (i : Nat) : Checked (Option Nat) :=
  if i ≤ s.length then do
    let j ← skipWhile (· != q) s i
    return if j < s.length then some j else none
  else .error (.badSlice i s.length)

/-- From the offset `i` back over bytes that pass the test, but not before `floor`. -/
def skipBack (p : Char → Bool) (s : List UInt8) (floor : Nat) : Nat → Checked Nat
  | 0 => return 0
  | i + 1 =>
    if floor < i + 1 then do
      let c ← byteAt s i
      if p c then skipBack p s floor i else return i + 1
    else return i + 1

inductive Step (α : Type) where
  | done
  | move (found : Option α) (next : Nat)

/-- All that is found from `i` on, in a text of `n` bytes. -/
def collect (n : Nat) (step : Nat → Checked (Step α)) (i : Nat) : Checked (List α) := do
  match ← step i with
  | .done => return []
  | .move found next =>
    if i < next ∧ next ≤ n then do
      let rest ← collect n step next
      return found.toList ++ rest
    else throw (.stalled i)
termination_by n - i

theorem byteAt_append {x y : List UInt8} {b : UInt8} : byteAt (x ++ b :: y) x.length = .ok (ofByte b) := by
  simp [byteAt]

theorem byteAt_bytes (a : Text) (c : Char) (r : Text) : byteAt (a ++ c :: r).bytes a.size = .ok (firstByte c) := by
  cases hBytes : String.utf8EncodeChar c with
  | nil => exact absurd hBytes String.utf8EncodeChar_ne_nil
  | cons b bs =>
    rw [Text.bytes_append, Text.bytes_cons, hBytes, ← Text.length_bytes, List.cons_append, byteAt_append, firstByte,
      hBytes]
    rfl

theorem byteAt_eq_ok_iff {s : List UInt8} {i : Nat} {c : Char} :
    byteAt s i = .ok c ↔ ∃ b, s[i]? = some b ∧ ofByte b = c := by
  rw [byteAt]
  cases s[i]? <;> simp

/-- An ASCII byte of a text is a character of it, and stands between characters. -/
theorem exists_of_byteAt_bytes {s : Text} {i : Nat} {c : Char} (h : byteAt s.bytes i = .ok c)
    (hc : c.toNat < 128) : ∃ a r, s = a ++ c :: r ∧ Text.size a = i := by
  obtain ⟨b, hb, rfl⟩ := byteAt_eq_ok_iff.1 h
  clear h
  rw [toNat_ofByte] at hc
  induction s generalizing i with
  | nil => cases hb
  | cons d s ih =>
    have hLength := String.length_utf8EncodeChar d
    rw [Text.bytes_cons] at hb
    by_cases hi : i < (String.utf8EncodeChar d).length
    · rw [List.getElem?_append_left hi] at hb
      by_cases hd : d.toNat < 128
      · obtain ⟨b', hBytes, hb'⟩ := exists_utf8EncodeChar_eq_singleton hd
        rw [hBytes, List.length_singleton, Nat.lt_one_iff] at hi
        rw [hBytes, hi, List.getElem?_cons_zero, Option.some.injEq] at hb
        exact ⟨[], s, by rw [← hb, hb', List.nil_append], hi.symm⟩
      · have hMem := List.mem_of_getElem? hb
        exact absurd (le_toNat_of_mem_utf8EncodeChar (Nat.le_of_not_lt hd) hMem) (Nat.not_le_of_lt hc)
    · rw [List.getElem?_append_right (Nat.le_of_not_lt hi)] at hb
      obtain ⟨a, r, hs, ha⟩ := ih hb
      refine ⟨d :: a, r, by rw [hs, List.cons_append], ?_⟩
      rw [Text.size_cons, ha]
      omega

theorem minus_eq_ok {a b : Nat} (h : b ≤ a) : minus a b = .ok (a - b) := if_pos h

theorem slice_append (a x b : Text) {start stop : Nat} (hStart : a.size = start)
    (hStop : a.size + x.size = stop) : slice (a ++ (x ++ b)) start stop = .ok x := by
  have hle : start ≤ stop := by omega
  rw [slice, dif_pos hle, Span.slice?_append a x b hStart hStop]

theorem skipWhile_of_le {p : Char → Bool} {s : List UInt8} {i : Nat} (h : s.length ≤ i) :
    skipWhile p s i = .ok i := by
  rw [skipWhile, if_neg (Nat.not_lt_of_le h)]
  rfl

/-- What is the same before and behind every byte of a run is the same before and behind the run. -/
theorem eq_of_step {s : List UInt8} {f : Nat → α} (x y z : List UInt8) (hs : s = x ++ (y ++ z))
    (h : ∀ x' b z', s = x' ++ b :: z' → b ∈ y → f x'.length = f (x'.length + 1)) :
    f x.length = f (x.length + y.length) := by
  induction y generalizing x with
  | nil => rfl
  | cons b y ih =>
    have hFirst := h x b (y ++ z) hs List.mem_cons_self
    have hRest := ih (x ++ [b]) (by rw [hs]; simp) fun x' b' z' hs' hb' =>
      h x' b' z' hs' (List.mem_cons_of_mem _ hb')
    rw [List.length_append, List.length_singleton] at hRest
    rw [hFirst, hRest, List.length_cons, Nat.add_assoc, Nat.add_comm 1]

theorem eq_of_byte_step {p : Char → Bool} (hp : AsciiTest p) {a r : Text} {c : Char} (hc : p c = true)
    {f : Nat → α} (h : ∀ x b z, (a ++ c :: r).bytes = x ++ b :: z → p (ofByte b) = true →
      f x.length = f (x.length + 1)) : f a.size = f (a ++ [c]).size := by
  have hBytes : (a ++ c :: r).bytes = a.bytes ++ (String.utf8EncodeChar c ++ Text.bytes r) := by simp
  have hRun := eq_of_step (f := f) a.bytes (String.utf8EncodeChar c) (Text.bytes r) hBytes fun x b z hs hb =>
    h x b z hs (by rw [hp.apply_ofByte hb, hc])
  rw [Text.length_bytes, String.length_utf8EncodeChar] at hRun
  rw [hRun, Text.size_append, Text.size_cons, Text.size_nil, Nat.add_zero]

theorem size_lt_length_bytes (a : Text) (c : Char) (r : Text) : a.size < (a ++ c :: r).bytes.length := by
  have hPos := c.utf8Size_pos
  simp only [Text.length_bytes, Text.size_append, Text.size_cons]
  omega

theorem skipWhile_bytes {p : Char → Bool} (hp : AsciiTest p) (a r : Text) :
    skipWhile p (a ++ r).bytes a.size = .ok (a ++ r.takeWhile p).size := by
  induction r generalizing a with
  | nil =>
    rw [skipWhile_of_le (by simp)]
    simp
  | cons c r ih =>
    by_cases hc : p c = true
    · have hStep : skipWhile p (a ++ c :: r).bytes a.size = skipWhile p (a ++ c :: r).bytes (a ++ [c]).size := by
        apply eq_of_byte_step hp hc (f := fun i => skipWhile p (a ++ c :: r).bytes i)
        intro x b z hs hb
        rw [hs, skipWhile, if_pos (by simp), byteAt_append]
        simp [hb]
      have hNext := ih (a ++ [c])
      rw [List.append_assoc, List.append_assoc, List.singleton_append, List.singleton_append] at hNext
      rw [hStep, hNext, List.takeWhile_cons_of_pos hc]
    · rw [List.takeWhile_cons_of_neg hc, skipWhile, if_pos (size_lt_length_bytes a c r), byteAt_bytes]
      simp [hp.apply_firstByte, hc]

theorem find_bytes {q : Char} (hq : q.toNat < 128) (a r : Text) :
    find q (a ++ r).bytes a.size =
      .ok (if r.dropWhile (· != q) = [] then none else some (a ++ r.takeWhile (· != q)).size) := by
  have hle : a.size ≤ (a ++ r).bytes.length := by simp
  rw [find, if_pos hle, skipWhile_bytes (.bne hq)]
  have hSplit := List.takeWhile_append_dropWhile (p := (· != q)) (l := r)
  have hSize : (a ++ r).bytes.length =
      (a ++ r.takeWhile (· != q)).size + Text.size (r.dropWhile (· != q)) := by
    rw [Text.length_bytes, Text.size_append, Text.size_append, Nat.add_assoc, ← Text.size_append (r.takeWhile _),
      hSplit]
  simp only [ok_bind, pure_eq_ok]
  by_cases hNil : r.dropWhile (· != q) = []
  · rw [if_pos hNil, if_neg]
    rw [hSize, hNil, Text.size_nil]
    omega
  · have hPos := Text.size_pos hNil
    rw [if_neg hNil, if_pos]
    omega

theorem skipBack_of_le {p : Char → Bool} {s : List UInt8} {floor i : Nat} (h : i ≤ floor) :
    skipBack p s floor i = .ok i := by
  cases i with
  | zero => rfl
  | succ i =>
    rw [skipBack, if_neg (Nat.not_lt_of_le h)]
    rfl

theorem skipBack_succ {p : Char → Bool} {x y : List UInt8} {b : UInt8} {floor : Nat} (h : floor ≤ x.length) :
    skipBack p (x ++ b :: y) floor (x.length + 1) =
      if p (ofByte b) then skipBack p (x ++ b :: y) floor x.length else .ok (x.length + 1) := by
  rw [skipBack, if_pos (Nat.lt_succ_of_le h), byteAt_append]
  rfl

theorem exists_last_byte (a : Text) (c : Char) (r : Text) :
    ∃ bs b, String.utf8EncodeChar c = bs ++ [b] ∧ (a ++ c :: r).bytes = (a.bytes ++ bs) ++ b :: Text.bytes r ∧
      (a.bytes ++ bs).length + 1 = (a ++ [c]).size := by
  obtain ⟨bs, b, hEncode⟩ : ∃ bs b, String.utf8EncodeChar c = bs ++ [b] :=
    ⟨_, _, (List.dropLast_concat_getLast String.utf8EncodeChar_ne_nil).symm⟩
  refine ⟨bs, b, hEncode, by simp [hEncode], ?_⟩
  have hSize := String.length_utf8EncodeChar c
  rw [hEncode, List.length_append, List.length_singleton] at hSize
  simp only [List.length_append, Text.length_bytes, Text.size_append, Text.size_cons, Text.size_nil]
  omega

/-- Going back stays on the boundaries of characters if the test passes ASCII only. -/
theorem skipBack_bytes {p : Char → Bool} (hp : ∀ c, p c = true → c.toNat < 128) (a x r : Text) :
    skipBack p (a ++ (x ++ r)).bytes a.size (a ++ x).size =
      .ok (a ++ (x.reverse.dropWhile p).reverse).size := by
  induction x using List.reverseRecOn generalizing r with
  | nil =>
    rw [List.append_nil]
    simpa using skipBack_of_le (Nat.le_refl _)
  | append_singleton x c ih =>
    obtain ⟨bs, b, hEncode, hBytes, hLength⟩ := exists_last_byte (a ++ x) c r
    have hFloor : a.size ≤ ((a ++ x).bytes ++ bs).length := by
      simp only [List.length_append, Text.length_bytes, Text.size_append]
      omega
    have hTest : p (ofByte b) = p c := by
      apply (AsciiTest.of_lt hp).apply_ofByte
      rw [hEncode]
      exact List.mem_append_right _ List.mem_cons_self
    have hText : a ++ (x ++ [c] ++ r) = a ++ x ++ c :: r := by simp
    rw [hText, ← List.append_assoc a x [c], hBytes, ← hLength, skipBack_succ hFloor, hTest, List.reverse_append,
      List.reverse_singleton, List.singleton_append, List.dropWhile_cons]
    by_cases hc : p c = true
    · have hNil : bs = [] := by
        obtain ⟨b', hSingle, -⟩ := exists_utf8EncodeChar_eq_singleton (hp c hc)
        rw [hEncode] at hSingle
        have hLast := congrArg List.length hSingle
        rw [List.length_append, List.length_singleton, List.length_singleton] at hLast
        exact List.length_eq_zero_iff.1 (by omega)
      have hPrev := ih (c :: r)
      have hStart : ((a ++ x).bytes ++ bs).length = (a ++ x).size := by simp [hNil]
      rw [if_pos hc, if_pos hc, ← hBytes, hStart, List.append_assoc, hPrev]
    · rw [if_neg hc, if_neg hc, hLength]
      simp

theorem byteSlice_bytes (a x r : Text) :
    byteSlice (a ++ (x ++ r)).bytes a.size (a ++ x).size = .ok x.bytes := by
  have hLength : x.bytes.length = (a ++ x).size - a.size := by simp
  rw [byteSlice, if_pos (by simp), Text.bytes_append, Text.bytes_append, ← Text.length_bytes a,
    List.drop_left, Text.length_bytes a, ← hLength, List.take_left]

theorem collect_of_done {n i : Nat} {step : Nat → Checked (Step α)} (h : step i = .ok .done) :
    collect n step i = .ok [] := by
  rw [collect, h]
  rfl

theorem collect_of_move {n i next : Nat} {step : Nat → Checked (Step α)} {found : Option α} {rest : List α}
    (h : step i = .ok (.move found next)) (hlt : i < next) (hle : next ≤ n)
    (hRest : collect n step next = .ok rest) : collect n step i = .ok (found.toList ++ rest) := by
  rw [collect, h, ok_bind]
  simp only [hlt, hle, and_self, if_true, hRest, ok_bind, pure_eq_ok]

end Checked

end ClassFold

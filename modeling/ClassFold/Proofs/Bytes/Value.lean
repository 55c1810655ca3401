import ClassFold.Proofs.Bytes.Cursor

/-!
# Checked readers of values

The checked reader of what follows a name finds a value where the reader of characters does, with all
its offsets between characters. The depth of an expression is at least one until its last brace, so it
is never counted below zero.
-/

set_option autoImplicit false

namespace ClassFold

namespace Checked

/-- The offset behind the string that is opened at `i`, or the end. -/
def skipQuoted (s : List UInt8) (i : Nat) : Checked Nat := do
  let q ← byteAt s i
  match ← find q s (i + 1) with
  | some j => return j + 1
  | none => return s.length

/-- The offset behind the brace that closes the expression, or the end. -/
def skipBinding (s : List UInt8) (depth i : Nat) : Checked Nat :=
  if i < s.length then do
    let c ← byteAt s i
    if c == '{' then skipBinding s (depth + 1) (i + 1)
    else if c == '}' then do
      let depth ← minus depth 1
      if depth == 0 then return i + 1 else skipBinding s depth (i + 1)
    else if isQuote c then do
      let j ← skipQuoted s i
      if i < j then skipBinding s depth j else throw (.stalled i)
    else skipBinding s depth (i + 1)
  else return s.length
termination_by s.length - i

inductive Value where
  | none
  | quoted (quote : Char) (start stop finish : Nat)
  | sealed (finish : Nat)
deriving DecidableEq, Repr

def straightQuoteAt? (s : List UInt8) (i : Nat) : Checked (Option Char) :=
  if i < s.length then do
    let q ← byteAt s i
    return if isStraightQuote q then some q else none
  else return none

def skipBrace (opened : Bool) (s : List UInt8) (i : Nat) : Checked Nat :=
  if opened && i < s.length then do
    let c ← byteAt s i
    return if c == '}' then i + 1 else i
  else return i

def skipSealed (s : List UInt8) (i : Nat) : Checked Nat := do
  let c ← byteAt s i
  if c == '{' then skipBinding s 0 i
  else if isQuote c then skipQuoted s i
  else skipWhile (!isBlank ·) s i

def quotedAt? (opened : Bool) (s : List UInt8) (i : Nat) : Checked (Option Value) := do
  match ← straightQuoteAt? s i with
  | some q =>
    match ← find q s (i + 1) with
    | some close => return some (.quoted q (i + 1) close (← skipBrace opened s (close + 1)))
    | none => return some .none
  | none => return none

def valueAt (s : List UInt8) (i : Nat) : Checked Value := do
  let c ← byteAt s i
  match ← quotedAt? (c == '{') s (if c == '{' then i + 1 else i) with
  | some v => return v
  | none => return .sealed (← skipSealed s i)

/-- The value behind a name that ends at `i`. -/
def valueBehind (s : List UInt8) (i : Nat) : Checked Value := do
  let i ← skipWhile isBlank s i
  if s.length ≤ i then return .none
  else
    let c ← byteAt s i
    if c == '=' then
      let j ← skipWhile isBlank s (i + 1)
      if s.length ≤ j then return .sealed s.length else valueAt s j
    else return .none

theorem size_append_singleton {a : Text} {q : Char} (hq : q.toNat < 128) : (a ++ [q]).size = a.size + 1 := by
  obtain ⟨b, hEncode, -⟩ := exists_utf8EncodeChar_eq_singleton hq
  have hSize := String.length_utf8EncodeChar q
  rw [hEncode, List.length_singleton] at hSize
  rw [Text.size_append, Text.size_cons, Text.size_nil, ← hSize]

theorem skipQuoted_bytes {q : Char} (hq : q.toNat < 128) (a r : Text) :
    skipQuoted (a ++ q :: r).bytes a.size = .ok (a ++ q :: (readString q r).1).size := by
  have hFind := find_bytes hq (a ++ [q]) r
  rw [List.append_assoc, List.singleton_append, size_append_singleton hq] at hFind
  rw [skipQuoted, byteAt_bytes, firstByte_of_lt hq, ok_bind, hFind, ok_bind]
  unfold readString
  cases hRest : r.dropWhile (· != q) with
  | nil => simp
  | cons c rest =>
    have hc : c = q := by
      have hHead := List.head?_dropWhile_not (· != q) r
      simpa [hRest] using hHead
    have hOne := size_append_singleton (a := a ++ [q] ++ r.takeWhile (· != q)) hq
    simp only [reduceCtorEq, if_false, hc, pure_eq_ok, ← hOne]
    simp

theorem skipBinding_bytes_cons (a : Text) (c : Char) (r : Text) (depth : Nat) :
    skipBinding (a ++ c :: r).bytes depth a.size =
      if c == '{' then skipBinding (a ++ c :: r).bytes (depth + 1) (a ++ [c]).size
      else if c == '}' then do
        let depth ← minus depth 1
        if depth == 0 then return (a ++ [c]).size else skipBinding (a ++ c :: r).bytes depth (a ++ [c]).size
      else if isQuote c then do
        let j ← skipQuoted (a ++ c :: r).bytes a.size
        if a.size < j then skipBinding (a ++ c :: r).bytes depth j else throw (.stalled a.size)
      else skipBinding (a ++ c :: r).bytes depth (a ++ [c]).size := by
  have hOpen : (firstByte c == '{') = (c == '{') := (AsciiTest.beq (by decide)).apply_firstByte c
  have hClose : (firstByte c == '}') = (c == '}') := (AsciiTest.beq (by decide)).apply_firstByte c
  have hQuote := asciiTest_isQuote.apply_firstByte c
  by_cases hPlain : (!((c == '{' || c == '}') || isQuote c)) = true
  · have hTest : AsciiTest fun c => !((c == '{' || c == '}') || isQuote c) :=
      (((AsciiTest.beq (by decide)).or (.beq (by decide))).or asciiTest_isQuote).not
    have hStep : skipBinding (a ++ c :: r).bytes depth a.size =
        skipBinding (a ++ c :: r).bytes depth (a ++ [c]).size := by
      apply eq_of_byte_step hTest hPlain (f := fun i => skipBinding (a ++ c :: r).bytes depth i)
      intro x b z hs hb
      simp only [Bool.not_eq_true', Bool.or_eq_false_iff] at hb
      rw [hs, skipBinding, if_pos (by simp), byteAt_append]
      simp only [hb.1.1, hb.1.2, hb.2, ok_bind, Bool.false_eq_true, if_false]
    simp only [Bool.not_eq_true', Bool.or_eq_false_iff] at hPlain
    rw [hStep]
    simp [hPlain.1.1, hPlain.1.2, hPlain.2]
  · have hc : c.toNat < 128 := by
      simp only [Bool.not_eq_true', Bool.not_eq_false, Bool.or_eq_true, beq_iff_eq] at hPlain
      rcases hPlain with (rfl | rfl) | hq
      · decide
      · decide
      · exact lt_of_isQuote hq
    rw [skipBinding, if_pos (size_lt_length_bytes a c r), byteAt_bytes, ok_bind, hOpen, hClose, hQuote,
      size_append_singleton hc]

theorem skipBinding_bytes (depth : Nat) (a r : Text) :
    skipBinding (a ++ r).bytes (depth + 1) a.size =
      .ok ((readInside? depth r).elim (a ++ r).size fun p => (a ++ p.1).size) := by
  fun_induction readInside? depth r generalizing a with
  | case1 depth =>
    rw [skipBinding, if_neg (by simp)]
    simp
  | case2 depth c r hc ih =>
    have hNext := ih (a ++ [c])
    rw [List.append_assoc, List.singleton_append] at hNext
    rw [skipBinding_bytes_cons, if_pos hc, hNext]
    cases readInside? (depth + 1) r <;> simp
  | case3 c r hc hc' =>
    rw [skipBinding_bytes_cons, if_neg hc, if_pos hc', minus_eq_ok (Nat.le_refl _)]
    rfl
  | case4 c r hc hc' depth ih =>
    have hNext := ih (a ++ [c])
    rw [List.append_assoc, List.singleton_append] at hNext
    rw [skipBinding_bytes_cons, if_neg hc, if_pos hc', minus_eq_ok (Nat.le_add_left _ _)]
    simp only [ok_bind, Nat.add_sub_cancel, hNext]
    cases readInside? depth r <;> simp
  | case5 depth c r hc hc' hq ih =>
    have hText : a ++ c :: r = (a ++ c :: (readString c r).1) ++ (readString c r).2 := by
      rw [List.append_assoc, List.cons_append, readString_append]
    have hNext := ih (a ++ c :: (readString c r).1)
    rw [← hText] at hNext
    have hlt : a.size < (a ++ c :: (readString c r).1).size := by
      have hPos := c.utf8Size_pos
      simp only [Text.size_append, Text.size_cons]
      omega
    rw [skipBinding_bytes_cons, if_neg hc, if_neg hc', if_pos hq, skipQuoted_bytes (lt_of_isQuote hq), ok_bind,
      if_pos hlt, hNext]
    cases readInside? depth (readString c r).2 <;> simp
  | case6 depth c r hc hc' hq ih =>
    have hNext := ih (a ++ [c])
    rw [List.append_assoc, List.singleton_append] at hNext
    rw [skipBinding_bytes_cons, if_neg hc, if_neg hc', if_neg hq, hNext]
    cases readInside? depth r <;> simp

theorem skipSealed_bytes (a : Text) (c : Char) (r : Text) :
    skipSealed (a ++ c :: r).bytes a.size = .ok (a ++ (readSealed (c :: r)).1).size := by
  have hOpen : (firstByte c == '{') = (c == '{') := (AsciiTest.beq (by decide)).apply_firstByte c
  rw [skipSealed, byteAt_bytes, ok_bind, hOpen, asciiTest_isQuote.apply_firstByte, readSealed]
  by_cases hc : (c == '{') = true
  · have hInside := skipBinding_bytes 0 (a ++ ['{']) r
    rw [List.append_assoc, List.singleton_append] at hInside
    rw [if_pos hc, if_pos hc, beq_iff_eq.1 hc, skipBinding_bytes_cons]
    simp only [beq_self_eq_true, if_true, Nat.zero_add] at hInside ⊢
    rw [hInside, readBinding?]
    cases readInside? 0 r <;> simp
  · rw [if_neg hc, if_neg hc]
    by_cases hq : isQuote c = true
    · rw [if_pos hq, if_pos hq, skipQuoted_bytes (lt_of_isQuote hq)]
    · rw [if_neg hq, if_neg hq, skipWhile_bytes asciiTest_isBlank.not]

theorem straightQuoteAt?_bytes (a s : Text) :
    straightQuoteAt? (a ++ s).bytes a.size = .ok (s.head?.filter isStraightQuote) := by
  cases s with
  | nil =>
    rw [straightQuoteAt?, if_neg (by simp)]
    rfl
  | cons q s =>
    rw [straightQuoteAt?, if_pos (size_lt_length_bytes a q s), byteAt_bytes, ok_bind,
      asciiTest_isStraightQuote.apply_firstByte]
    by_cases hq : isStraightQuote q = true
    · rw [if_pos hq, firstByte_of_lt (lt_of_isStraightQuote hq)]
      simp [Option.filter, hq]
    · rw [if_neg hq]
      simp [Option.filter, hq]

theorem skipBrace_bytes (opened a s : Text) :
    skipBrace (!opened.isEmpty) (a ++ s).bytes a.size = .ok (a ++ (closeBrace opened s).1).size := by
  cases opened with
  | nil => simp [skipBrace, closeBrace]
  | cons b opened =>
    cases s with
    | nil => simp [skipBrace, closeBrace]
    | cons c s =>
      have hlt := size_lt_length_bytes a c s
      have hClose : (firstByte c == '}') = (c == '}') := (AsciiTest.beq (by decide)).apply_firstByte c
      rw [skipBrace, if_pos (by simpa using hlt), byteAt_bytes, ok_bind, hClose]
      by_cases hc : c = '}'
      · subst hc
        rw [closeBrace, size_append_singleton (by decide)]
        rfl
      · rw [if_neg (by simpa using hc)]
        simp [closeBrace, hc]

end Checked

/-- Where the parts of a value stand if its text starts at `offset`. -/
def Quoted.located (offset : Nat) (v : Quoted) : Checked.Value :=
  .quoted v.quote (offset + v.lead.size + v.quote.utf8Size)
    (offset + v.lead.size + v.quote.utf8Size + v.value.size) (offset + v.text.size)

namespace Checked

theorem quotedAt?_bytes (a lead s : Text) :
    quotedAt? (!(splitBrace s).1.isEmpty) (a ++ (lead ++ s)).bytes (a ++ (lead ++ (splitBrace s).1)).size =
      .ok (if opensQuoted s then some ((readQuoted? lead s).elim .none fun p => p.1.located a.size)
        else none) := by
  have hText : a ++ (lead ++ s) = (a ++ (lead ++ (splitBrace s).1)) ++ (splitBrace s).2 := by
    rw [List.append_assoc, List.append_assoc, splitBrace_append]
  rw [quotedAt?, hText, straightQuoteAt?_bytes, ok_bind]
  unfold opensQuoted readQuoted?
  cases hRest : (splitBrace s).2 with
  | nil => rfl
  | cons q r =>
    by_cases hq : isStraightQuote q = true
    · have hFilter : (q :: r).head?.filter isStraightQuote = some q := by simp [Option.filter, hq]
      have hAscii := lt_of_isStraightQuote hq
      have hFind := find_bytes hAscii (a ++ (lead ++ (splitBrace s).1) ++ [q]) r
      rw [List.append_assoc, List.singleton_append, size_append_singleton hAscii] at hFind
      rw [hFilter]
      simp only [hFind, ok_bind, List.head?_cons, Option.any_some, hq, if_true]
      cases hAfter : r.dropWhile (· != q) with
      | nil => simp
      | cons c after =>
        have hClose := skipBrace_bytes (splitBrace s).1
          (a ++ (lead ++ (splitBrace s).1) ++ q :: (r.takeWhile (· != q) ++ [q])) after
        have hSize : (a ++ (lead ++ (splitBrace s).1) ++ q :: (r.takeWhile (· != q) ++ [q])).size =
            (a ++ (lead ++ (splitBrace s).1) ++ [q] ++ r.takeWhile (· != q)).size + 1 := by
          rw [← size_append_singleton hAscii]
          simp
        have hAll : a ++ (lead ++ (splitBrace s).1) ++ q :: r =
            (a ++ (lead ++ (splitBrace s).1) ++ q :: (r.takeWhile (· != q) ++ [q])) ++ after := by
          conv => lhs; rw [eq_of_dropWhile_ne hAfter]
          simp
        rw [← hAll, hSize] at hClose
        have hOne : q.utf8Size = 1 := by
          have hEncode := size_append_singleton (a := []) hAscii
          simpa using hEncode
        simp only [reduceCtorEq, if_false, ok_bind, hClose, pure_eq_ok, Option.elim]
        simp only [Quoted.located, Quoted.text, Text.size_append, Text.size_cons, Text.size_nil, hOne]
        congr 3
        omega
    · simp [Option.filter, hq]

theorem valueAt_bytes (a lead : Text) (c : Char) (r : Text) :
    valueAt (a ++ (lead ++ c :: r)).bytes (a ++ lead).size =
      .ok (if opensQuoted (c :: r) then
          (readQuoted? lead (c :: r)).elim .none fun p => p.1.located a.size
        else .sealed (a ++ (lead ++ (readSealed (c :: r)).1)).size) := by
  have hOpen : (firstByte c == '{') = (c == '{') := (AsciiTest.beq (by decide)).apply_firstByte c
  have hQuoted : quotedAt? (c == '{') (a ++ (lead ++ c :: r)).bytes
      (if c == '{' then (a ++ lead).size + 1 else (a ++ lead).size) =
        .ok (if opensQuoted (c :: r) then
            some ((readQuoted? lead (c :: r)).elim .none fun p => p.1.located a.size)
          else none) := by
    rw [← quotedAt?_bytes]
    by_cases hc : c = '{'
    · have hOne : '{'.utf8Size = 1 := by decide
      simp [splitBrace, hc, hOne, Nat.add_assoc]
    · have hNot : (c == '{') = false := by simpa using hc
      simp [splitBrace, hc, hNot]
  have hSealed := skipSealed_bytes (a ++ lead) c r
  rw [List.append_assoc, List.append_assoc] at hSealed
  rw [valueAt, ← List.append_assoc, byteAt_bytes, ok_bind, hOpen, List.append_assoc, hQuoted, ok_bind]
  by_cases hOpens : opensQuoted (c :: r) = true
  · rw [if_pos hOpens, if_pos hOpens]
    rfl
  · rw [if_neg hOpens, if_neg hOpens]
    simp only [hSealed, ok_bind, pure_eq_ok]

end Checked

def Piece.located (offset : Nat) : Piece → Checked.Value
  | valued _ value => value.located offset
  | sealed _ lead value => .sealed (offset + (lead ++ value).size)
  | _ => .none

namespace Checked

theorem valueBehind_bytes (name a rest : Text) :
    valueBehind (a ++ rest).bytes a.size = .ok ((Piece.ofName name rest).1.located a.size) := by
  have hRest := List.takeWhile_append_dropWhile (p := isBlank) (l := rest)
  rw [valueBehind, skipWhile_bytes asciiTest_isBlank, ok_bind]
  unfold Piece.ofName
  cases hBehind : rest.dropWhile isBlank with
  | nil =>
    rw [hBehind, List.append_nil] at hRest
    rw [hRest, if_pos (by simp)]
    rfl
  | cons c r =>
    rw [hBehind] at hRest
    have hAll : a ++ rest = (a ++ rest.takeWhile isBlank) ++ c :: r := by
      rw [List.append_assoc, hRest]
    have hlt := size_lt_length_bytes (a ++ rest.takeWhile isBlank) c r
    have hEq : (firstByte c == '=') = (c == '=') := (AsciiTest.beq (by decide)).apply_firstByte c
    rw [hAll, if_neg (Nat.not_le_of_lt hlt), byteAt_bytes, ok_bind, hEq]
    by_cases hc : c = '='
    · subst hc
      have hBody := List.takeWhile_append_dropWhile (p := isBlank) (l := r)
      have hSkip := skipWhile_bytes asciiTest_isBlank (a ++ rest.takeWhile isBlank ++ ['=']) r
      rw [size_append_singleton (by decide), List.append_assoc _ ['='] r, List.singleton_append] at hSkip
      have hLead : a ++ rest.takeWhile isBlank ++ ['='] ++ r.takeWhile isBlank =
          a ++ (rest.takeWhile isBlank ++ '=' :: r.takeWhile isBlank) := by simp
      have hText : a ++ rest.takeWhile isBlank ++ '=' :: r =
          a ++ ((rest.takeWhile isBlank ++ '=' :: r.takeWhile isBlank) ++ r.dropWhile isBlank) := by
        conv => lhs; rw [← hBody]
        simp
      rw [if_pos (by decide), hSkip, ok_bind, hLead]
      simp only
      -- Of what stands before the value only the size matters from here on.
      generalize rest.takeWhile isBlank ++ '=' :: r.takeWhile isBlank = lead at hText ⊢
      rw [hText]
      cases hStart : r.dropWhile isBlank with
      | nil =>
        rw [List.append_nil, if_pos (by simp)]
        simp [opensQuoted, splitBrace, readSealed, Piece.located]
      | cons b body =>
        have hlt := size_lt_length_bytes (a ++ lead) b body
        rw [List.append_assoc] at hlt
        rw [if_neg (Nat.not_le_of_lt hlt), valueAt_bytes]
        by_cases hOpens : opensQuoted (b :: body) = true
        · rw [if_pos hOpens, if_pos hOpens]
          cases readQuoted? lead (b :: body) <;> rfl
        · rw [if_neg hOpens, if_neg hOpens]
          simp [Piece.located]
    · rw [if_neg (by simpa using hc)]
      split
      · rename_i hCons
        exact absurd (List.cons.inj hCons).1 hc
      · rfl

end Checked

end ClassFold

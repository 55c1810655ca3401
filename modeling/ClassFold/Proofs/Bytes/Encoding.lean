import ClassFold.Markup.Piece

/-!
# Texts as bytes

A reader of bytes tests one byte at a time, and takes it for the character with the same code. A test
that tells no two characters beyond ASCII apart gives on every byte of a character what it gives on the
character, so it may be made on the bytes: `AsciiTest.apply_ofByte`.
-/

set_option autoImplicit false

namespace ClassFold

def Text.bytes (s : Text) : List UInt8 := s.flatMap String.utf8EncodeChar

namespace Text

@[simp] theorem bytes_nil : bytes [] = [] := rfl

@[simp] theorem bytes_cons (c : Char) (s : Text) : bytes (c :: s) = String.utf8EncodeChar c ++ bytes s :=
  rfl

@[simp] theorem bytes_append (s t : Text) : bytes (s ++ t) = bytes s ++ bytes t :=
  List.flatMap_append

@[simp] theorem length_bytes (s : Text) : (bytes s).length = s.size := by
  induction s with
  | nil => rfl
  | cons c s ih => rw [bytes_cons, List.length_append, String.length_utf8EncodeChar, ih, size_cons]

end Text

def ofByte (b : UInt8) : Char := Char.ofNat b.toNat

theorem toNat_ofByte (b : UInt8) : (ofByte b).toNat = b.toNat := by
  have hb := b.toNat_lt
  have hValid : b.toNat.isValidChar := Or.inl (by omega)
  rw [ofByte, Char.ofNat, dif_pos hValid]
  rfl

theorem exists_utf8EncodeChar_eq_singleton {c : Char} (h : c.toNat < 128) :
    ∃ b, String.utf8EncodeChar c = [b] ∧ ofByte b = c := by
  have hVal : c.val.toNat ≤ 0x7f := Nat.le_of_lt_succ h
  have hSmall : c.toNat < UInt8.size := Nat.lt_trans h (by decide)
  refine ⟨UInt8.ofNat c.toNat, ?_, ?_⟩
  · unfold String.utf8EncodeChar
    exact if_pos hVal
  · rw [ofByte, UInt8.toNat_ofNat_of_lt' hSmall, Char.ofNat_toNat]

theorem le_toNat_of_mem_utf8EncodeChar {c : Char} (h : 128 ≤ c.toNat) {b : UInt8}
    (hb : b ∈ String.utf8EncodeChar c) : 128 ≤ b.toNat := by
  have hVal : ¬ c.val.toNat ≤ 0x7f := Nat.not_le_of_lt h
  have hByte : ∀ n, 128 ≤ n → n < 256 → 128 ≤ (UInt8.ofNat n).toNat := by
    intro n hLow hHigh
    rw [UInt8.toNat_ofNat_of_lt' hHigh]
    exact hLow
  unfold String.utf8EncodeChar at hb
  simp only [if_neg hVal] at hb
  split at hb
  · simp only [List.mem_cons, List.not_mem_nil, or_false] at hb
    rcases hb with rfl | rfl
    all_goals exact hByte _ (by omega) (by omega)
  · split at hb
    all_goals simp only [List.mem_cons, List.not_mem_nil, or_false] at hb
    · rcases hb with rfl | rfl | rfl
      all_goals exact hByte _ (by omega) (by omega)
    · rcases hb with rfl | rfl | rfl | rfl
      all_goals exact hByte _ (by omega) (by omega)

/-- A test that does not tell characters beyond ASCII apart. -/
def AsciiTest (p : Char → Bool) : Prop := ∀ c d : Char, 128 ≤ c.toNat → 128 ≤ d.toNat → p c = p d

namespace AsciiTest

variable {p p' : Char → Bool}

theorem of_lt (h : ∀ c, p c = true → c.toNat < 128) : AsciiTest p := by
  have hFalse : ∀ c : Char, 128 ≤ c.toNat → p c = false := by
    intro c hc
    apply Bool.eq_false_iff.2
    intro hp
    exact absurd (h c hp) (Nat.not_lt_of_le hc)
  intro c d hc hd
  rw [hFalse c hc, hFalse d hd]

theorem not (h : AsciiTest p) : AsciiTest (!p ·) := fun c d hc hd => congrArg Bool.not (h c d hc hd)

theorem or (h : AsciiTest p) (h' : AsciiTest p') : AsciiTest fun c => p c || p' c :=
  by
  intro c d hc hd
  simp only [h c d hc hd, h' c d hc hd]

theorem beq {q : Char} (hq : q.toNat < 128) : AsciiTest (· == q) := by
  apply of_lt
  intro c hc
  rw [beq_iff_eq.1 hc]
  exact hq

theorem bne {q : Char} (hq : q.toNat < 128) : AsciiTest (· != q) := (beq hq).not

theorem apply_ofByte (h : AsciiTest p) {c : Char} {b : UInt8} (hb : b ∈ String.utf8EncodeChar c) :
    p (ofByte b) = p c := by
  by_cases hc : c.toNat < 128
  · obtain ⟨b', hBytes, hb'⟩ := exists_utf8EncodeChar_eq_singleton hc
    rw [hBytes] at hb
    rw [List.mem_singleton.1 hb, hb']
  · apply h
    · rw [toNat_ofByte]
      exact le_toNat_of_mem_utf8EncodeChar (Nat.le_of_not_lt hc) hb
    · exact Nat.le_of_not_lt hc

end AsciiTest

theorem lt_of_isBlank {c : Char} (hc : isBlank c = true) : c.toNat < 128 := by
  rcases isBlank_eq_true_iff.1 hc with rfl | rfl | rfl | rfl | rfl <;> decide

theorem asciiTest_isBlank : AsciiTest isBlank := .of_lt fun _ => lt_of_isBlank

theorem lt_of_isQuote {c : Char} (hc : isQuote c = true) : c.toNat < 128 := by
  simp only [isQuote, Bool.or_eq_true, beq_iff_eq] at hc
  rcases hc with (rfl | rfl) | rfl <;> decide

theorem asciiTest_isQuote : AsciiTest isQuote := .of_lt fun _ => lt_of_isQuote

theorem lt_of_isStraightQuote {c : Char} (hc : isStraightQuote c = true) : c.toNat < 128 := by
  simp only [isStraightQuote, Bool.or_eq_true, beq_iff_eq] at hc
  rcases hc with rfl | rfl <;> decide

theorem asciiTest_isStraightQuote : AsciiTest isStraightQuote := .of_lt fun _ => lt_of_isStraightQuote

theorem asciiTest_isDigit : AsciiTest Char.isDigit := by
  apply AsciiTest.of_lt
  intro c hc
  simp only [Char.isDigit, Bool.and_eq_true, decide_eq_true_eq, UInt32.le_iff_toNat_le] at hc
  exact Nat.lt_of_le_of_lt hc.2 (by decide)

theorem lt_of_isWordChar {c : Char} (hc : isWordChar c = true) : c.toNat < 128 := by
  change (((decide (c.val ≥ 'A'.val ∧ c.val ≤ 'Z'.val) ||
    (decide (c.val ≥ 'a'.val) && decide (c.val ≤ 'z'.val))) ||
    (decide (c.val ≥ '0'.val) && decide (c.val ≤ '9'.val))) || c == '_') = true at hc
  simp only [Bool.or_eq_true, Bool.and_eq_true, decide_eq_true_eq, UInt32.le_iff_toNat_le, beq_iff_eq] at hc
  rcases hc with ((⟨-, hc⟩ | ⟨-, hc⟩) | ⟨-, hc⟩) | rfl
  all_goals first | decide | exact Nat.lt_of_le_of_lt hc (by decide)

theorem asciiTest_isWordChar : AsciiTest isWordChar := .of_lt fun _ => lt_of_isWordChar

theorem asciiTest_isTagNameChar : AsciiTest isTagNameChar :=
  (((asciiTest_isWordChar.or (.beq (by decide))).or (.beq (by decide))).or (.beq (by decide))).or
    (.beq (by decide))

theorem asciiTest_isNameChar : AsciiTest isNameChar :=
  ((((asciiTest_isBlank.or asciiTest_isQuote).or (.beq (by decide))).or (.beq (by decide))).or
    (.beq (by decide))).not

def firstByte (c : Char) : Char := ofByte ((String.utf8EncodeChar c).headD 0)

theorem AsciiTest.apply_firstByte {p : Char → Bool} (h : AsciiTest p) (c : Char) : p (firstByte c) = p c := by
  apply h.apply_ofByte
  cases hBytes : String.utf8EncodeChar c with
  | nil => exact absurd hBytes String.utf8EncodeChar_ne_nil
  | cons b bs => exact List.mem_cons_self

theorem firstByte_of_lt {c : Char} (h : c.toNat < 128) : firstByte c = c := by
  obtain ⟨b, hBytes, hb⟩ := exists_utf8EncodeChar_eq_singleton h
  rw [firstByte, hBytes]
  exact hb

end ClassFold

import ClassFold.Proofs.Bytes.Value
import ClassFold.Proofs.Markup.Region

/-!
# Checked readers of attributes

The checked reader of a region never faults, and its records are those of the attributes that the
region has: `collect_attributeStep`. One step of it takes the blanks and one piece behind them.
-/

set_option autoImplicit false

namespace ClassFold

namespace Checked

/-- An attribute with all that is cut out of the region for it. -/
structure Record where
  raw : Text
  name : Text
  quote? : Option Char
  value? : Option Text
  span : Nat × Nat
  valueSpan? : Option (Nat × Nat)
deriving DecidableEq, Repr

def flagRecord (region : Text) (start stop : Nat) : Checked Record := do
  let name ← slice region start stop
  return ⟨name, name, none, none, (start, stop), none⟩

def valuedRecord (region : Text) (start i : Nat) (quote : Char) (first last finish : Nat) :
    Checked Record := do
  let raw ← slice region start finish
  let name ← slice region start i
  let value ← slice region first last
  return ⟨raw, name, some quote, some value, (start, finish), some (first, last)⟩

def nameStep (region : Text) (start i : Nat) : Checked (Step Record) := do
  let stop ← skipBack (· == '/') region.bytes start i
  if stop == start then return .move none i
  else
    let name ← byteSlice region.bytes start stop
    if isRefusedName (name.map ofByte) then return .move none i
    else if stop < i then return .move (some (← flagRecord region start stop)) i
    else
      match ← valueBehind region.bytes i with
      | .none => return .move (some (← flagRecord region start i)) i
      | .sealed finish => return .move none finish
      | .quoted quote first last finish =>
        return .move (some (← valuedRecord region start i quote first last finish)) finish

def pieceStep (region : Text) (i : Nat) : Checked (Step Record) := do
  let c ← byteAt region.bytes i
  if isQuote c then return .move none (← skipQuoted region.bytes i)
  else if isNameChar c then nameStep region i (← skipWhile isNameChar region.bytes i)
  else return .move none (i + 1)

def attributeStep (region : Text) (i : Nat) : Checked (Step Record) := do
  let i ← skipWhile isBlank region.bytes i
  if region.bytes.length ≤ i then return .done else pieceStep region i

end Checked

def Attribute.record (a : Attribute) : Checked.Record :=
  ⟨a.raw, a.name, a.quote?, a.value?, (a.span.start, a.span.stop),
    a.valueSpan?.map fun r => (r.start, r.stop)⟩

theorem isDigit_firstByte (c : Char) : (firstByte c).isDigit = c.isDigit :=
  asciiTest_isDigit.apply_firstByte c

theorem exists_map_bytes_cons (c : Char) (s : Text) :
    ∃ t, (Text.bytes (c :: s)).map ofByte = firstByte c :: t ∧ (c.toNat < 128 → t = s.bytes.map ofByte) := by
  cases hEncode : String.utf8EncodeChar c with
  | nil => exact absurd hEncode String.utf8EncodeChar_ne_nil
  | cons b bs =>
    refine ⟨(bs ++ s.bytes).map ofByte, by simp [hEncode, firstByte], ?_⟩
    intro hc
    obtain ⟨b', hSingle, -⟩ := exists_utf8EncodeChar_eq_singleton hc
    rw [hSingle] at hEncode
    rw [← (List.cons.inj hEncode).2, List.nil_append]

theorem isRefusedName_map_bytes (name : Text) : isRefusedName (name.bytes.map ofByte) = isRefusedName name := by
  have hDash (c : Char) : (firstByte c == '-') = (c == '-') := (AsciiTest.beq (by decide)).apply_firstByte c
  cases name with
  | nil => rfl
  | cons c s =>
    obtain ⟨t, hBytes, hTail⟩ := exists_map_bytes_cons c s
    rw [hBytes]
    by_cases hc : c = '-'
    · subst hc
      rw [hTail (by decide), firstByte_of_lt (by decide)]
      cases s with
      | nil => rfl
      | cons d s =>
        obtain ⟨t', hBytes', -⟩ := exists_map_bytes_cons d s
        rw [hBytes', isRefusedName_dash, isRefusedName_dash, hDash, isDigit_firstByte]
    · have hNot : firstByte c ≠ '-' := by
        have hNe := hDash c
        simpa [hc] using hNe
      rw [isRefusedName_cons hc, isRefusedName_cons hNot, isDigit_firstByte]

namespace Checked

def stepOver (offset : Nat) (p : Piece) : Step Record :=
  .move ((p.attribute? offset).map Attribute.record) (offset + p.text.size)

theorem flagRecord_eq (a name post : Text) :
    flagRecord (a ++ (name ++ post)) a.size (a ++ name).size = .ok (Attribute.record ⟨a.size, name, none⟩) := by
  rw [flagRecord, slice_append a name post rfl (by rw [Text.size_append])]
  simp [Attribute.record, Attribute.raw, Attribute.quote?, Attribute.value?, Attribute.valueSpan?,
    Attribute.span]

theorem valuedRecord_eq (a name post : Text) (v : Quoted) :
    valuedRecord (a ++ (name ++ (v.text ++ post))) a.size (a ++ name).size v.quote
      ((a ++ name).size + v.lead.size + v.quote.utf8Size)
      ((a ++ name).size + v.lead.size + v.quote.utf8Size + v.value.size) ((a ++ name).size + v.text.size) =
        .ok (Attribute.record ⟨a.size, name, some v⟩) := by
  have hName : slice (a ++ (name ++ (v.text ++ post))) a.size (a ++ name).size = .ok name :=
    slice_append a name (v.text ++ post) rfl (by rw [Text.size_append])
  have hRaw : slice (a ++ (name ++ (v.text ++ post))) a.size ((a ++ name).size + v.text.size) =
      .ok (name ++ v.text) := by
    rw [← List.append_assoc name]
    apply slice_append a (name ++ v.text) post rfl
    simp only [Text.size_append, Nat.add_assoc]
  have hValue : slice (a ++ (name ++ (v.text ++ post))) ((a ++ name).size + v.lead.size + v.quote.utf8Size)
      ((a ++ name).size + v.lead.size + v.quote.utf8Size + v.value.size) = .ok v.value := by
    have hText : a ++ (name ++ (v.text ++ post)) =
        (a ++ (name ++ (v.lead ++ [v.quote]))) ++ (v.value ++ (v.quote :: v.tail ++ post)) := by
      simp [Quoted.text]
    rw [hText]
    apply slice_append
    · simp only [Text.size_append, Text.size_cons, Text.size_nil]
      omega
    · simp only [Text.size_append, Text.size_cons, Text.size_nil]
      omega
  rw [valuedRecord, hName, hRaw, hValue]
  simp [Attribute.record, Attribute.raw, Attribute.quote?, Attribute.value?, Attribute.valueSpan?,
    Attribute.span, Nat.add_assoc]

theorem ofName_cases (name rest : Text) :
    (Piece.ofName name rest).1 = .flag name [] ∨ (∃ v, (Piece.ofName name rest).1 = .valued name v) ∨
      ∃ lead value, (Piece.ofName name rest).1 = .sealed name lead value := by
  unfold Piece.ofName
  split
  · dsimp only
    split
    · split
      · exact Or.inr (Or.inl ⟨_, rfl⟩)
      · exact Or.inl rfl
    · exact Or.inr (Or.inr ⟨_, _, rfl⟩)
  · exact Or.inl rfl

theorem nameStep_bytes (a run rest : Text) :
    nameStep (a ++ (run ++ rest)) a.size (a ++ run).size =
      .ok (stepOver a.size
        (if (splitSlashes run).1.isEmpty || isRefusedName (splitSlashes run).1 then .dropped run
        else if (splitSlashes run).2.isEmpty then (Piece.ofName (splitSlashes run).1 rest).1
        else .flag (splitSlashes run).1 (splitSlashes run).2)) := by
  obtain ⟨name, slashes, hSplit⟩ : ∃ name slashes, splitSlashes run = (name, slashes) := ⟨_, _, rfl⟩
  have hText : run = name ++ slashes := by rw [← splitSlashes_append run, hSplit]
  have hBack : skipBack (· == '/') (a ++ (run ++ rest)).bytes a.size (a ++ run).size = .ok (a ++ name).size := by
    have hSlash : ∀ c : Char, (c == '/') = true → c.toNat < 128 := by
      intro c hc
      rw [beq_iff_eq.1 hc]
      decide
    have hName : (run.reverse.dropWhile (· == '/')).reverse = name := congrArg Prod.fst hSplit
    rw [skipBack_bytes hSlash, hName]
  rw [nameStep, hBack, ok_bind, hSplit]
  simp only
  by_cases hNil : name = []
  · subst hNil
    simp [stepOver, Piece.attribute?, Piece.text]
  · have hPos := Text.size_pos hNil
    have hSlice : byteSlice (a ++ (run ++ rest)).bytes a.size (a ++ name).size = .ok name.bytes := by
      rw [hText, List.append_assoc]
      exact byteSlice_bytes a name (slashes ++ rest)
    have hStart : ¬ ((a ++ name).size == a.size) = true := by
      simp only [Text.size_append, beq_iff_eq]
      omega
    rw [if_neg hStart, hSlice, ok_bind, isRefusedName_map_bytes]
    by_cases hRefused : isRefusedName name = true
    · rw [if_pos hRefused]
      simp [hRefused, stepOver, Piece.attribute?, Piece.text]
    · rw [if_neg hRefused]
      have hKeep : ¬ (name.isEmpty || isRefusedName name) = true := by simp [hNil, hRefused]
      rw [if_neg hKeep]
      by_cases hSlashes : slashes = []
      · subst hSlashes
        rw [List.append_nil] at hText
        subst hText
        have hValue := valueBehind_bytes run (a ++ run) rest
        have hPiece := Piece.text_ofName run rest
        rw [List.append_assoc] at hValue
        rw [if_neg (by simp), hValue, ok_bind]
        simp only [List.isEmpty_nil, if_true]
        rcases ofName_cases run rest with hCase | ⟨v, hCase⟩ | ⟨lead, value, hCase⟩
        · rw [hCase]
          simp only [Piece.located, flagRecord_eq, ok_bind]
          simp [stepOver, Piece.attribute?, Piece.text]
        · rw [hCase, Piece.text, List.append_assoc] at hPiece
          rw [hCase, ← hPiece]
          simp only [Piece.located, Quoted.located, valuedRecord_eq, ok_bind]
          simp [stepOver, Piece.attribute?, Piece.text, Nat.add_assoc]
        · rw [hCase]
          simp [Piece.located, stepOver, Piece.attribute?, Piece.text, Nat.add_assoc]
      · have hSize := Text.size_pos hSlashes
        have hlt : (a ++ name).size < (a ++ run).size := by
          rw [hText]
          simp only [Text.size_append]
          omega
        have hFlag := flagRecord_eq a name (slashes ++ rest)
        rw [← List.append_assoc name, ← hText] at hFlag
        rw [if_pos hlt, hFlag]
        simp [hSlashes, stepOver, Piece.attribute?, Piece.text, hText]

theorem pieceStep_bytes (a : Text) {c : Char} (s : Text) (hBlank : isBlank c = false) :
    pieceStep (a ++ c :: s) a.size = .ok (stepOver a.size (Piece.read c s).1) := by
  rw [pieceStep, byteAt_bytes, ok_bind, asciiTest_isQuote.apply_firstByte, asciiTest_isNameChar.apply_firstByte]
  by_cases hQuote : isQuote c = true
  · rw [if_pos hQuote, skipQuoted_bytes (lt_of_isQuote hQuote)]
    simp [Piece.read, hBlank, hQuote, stepOver, Piece.attribute?, Piece.text]
  · rw [if_neg hQuote]
    by_cases hName : isNameChar c = true
    · have hRun := nameStep_bytes a (c :: s.takeWhile isNameChar) (s.dropWhile isNameChar)
      rw [List.cons_append, List.takeWhile_append_dropWhile] at hRun
      rw [if_pos hName, skipWhile_bytes asciiTest_isNameChar, ok_bind, List.takeWhile_cons_of_pos hName, hRun]
      simp only [Piece.read, hBlank, hQuote, hName, if_true, if_false, Bool.false_eq_true]
      split
      · rfl
      · split <;> rfl
    · have hAscii : c.utf8Size = 1 := by
        rcases eq_of_not_isNameChar hBlank (Bool.eq_false_iff.2 hQuote) (Bool.eq_false_iff.2 hName) with
          rfl | rfl | rfl <;> decide
      rw [if_neg hName]
      simp [Piece.read, hBlank, hQuote, hName, stepOver, Piece.attribute?, Piece.text, hAscii]

theorem attributeStep_bytes_of_nil (a : Text) {r : Text} (hRest : r.dropWhile isBlank = []) :
    attributeStep (a ++ r) a.size = .ok .done := by
  have hBlanks : r.takeWhile isBlank = r := by
    rw [List.takeWhile_eq_self_iff, ← List.dropWhile_eq_nil_iff]
    exact hRest
  rw [attributeStep, skipWhile_bytes asciiTest_isBlank, ok_bind, hBlanks, if_pos (by simp)]
  rfl

theorem attributeStep_bytes_of_cons (a : Text) {c : Char} {r s : Text} (hRest : r.dropWhile isBlank = c :: s) :
    attributeStep (a ++ r) a.size = .ok (stepOver (a ++ r.takeWhile isBlank).size (Piece.read c s).1) := by
  have hBlank : isBlank c = false := by
    have hHead := List.head?_dropWhile_not isBlank r
    simpa [hRest] using hHead
  have hText : a ++ r = (a ++ r.takeWhile isBlank) ++ c :: s := by
    rw [List.append_assoc, ← hRest, List.takeWhile_append_dropWhile]
  have hlt := size_lt_length_bytes (a ++ r.takeWhile isBlank) c s
  rw [attributeStep, skipWhile_bytes asciiTest_isBlank, ok_bind, hText, if_neg (Nat.not_le_of_lt hlt),
    pieceStep_bytes _ _ hBlank]

/-- A step from between two characters is the last one, or goes on to between two later ones. -/
theorem attributeStep_bytes (a r : Text) :
    (attributeStep (a ++ r) a.size = .ok .done ∧ attributesFrom a.size (pieces r) = []) ∨
      ∃ x s, ∃ found? : Option Attribute, r = x ++ s ∧ x ≠ [] ∧
        attributeStep (a ++ r) a.size = .ok (.move (found?.map Attribute.record) (a ++ x).size) ∧
        attributesFrom a.size (pieces r) = found?.toList ++ attributesFrom (a ++ x).size (pieces s) := by
  rw [attributesFrom_pieces]
  cases hRest : r.dropWhile isBlank with
  | nil =>
    refine Or.inl ⟨attributeStep_bytes_of_nil a hRest, ?_⟩
    rw [pieces]
    rfl
  | cons c s =>
    refine Or.inr ⟨r.takeWhile isBlank ++ (Piece.read c s).1.text, (Piece.read c s).2,
      (Piece.read c s).1.attribute? (a ++ r.takeWhile isBlank).size, ?_, ?_, ?_, ?_⟩
    · rw [List.append_assoc, Piece.text_read, ← hRest, List.takeWhile_append_dropWhile]
    · exact List.append_ne_nil_of_right_ne_nil _ (Piece.text_read_ne_nil c s)
    · rw [attributeStep_bytes_of_cons a hRest, stepOver, ← List.append_assoc, Text.size_append _ (Piece.text _)]
    · rw [attributesFrom_pieces_cons, ← List.append_assoc, Text.size_append _ (Piece.text _), Text.size_append]

theorem collect_attributeStep_append (a r : Text) :
    collect (a ++ r).bytes.length (attributeStep (a ++ r)) a.size =
      .ok ((attributesFrom a.size (pieces r)).map Attribute.record) := by
  induction hn : r.length using Nat.strong_induction_on generalizing a r with
  | _ n ih =>
    obtain ⟨hStep, hNone⟩ | ⟨x, s, found?, rfl, hNe, hStep, hFrom⟩ := attributeStep_bytes a r
    · rw [collect_of_done hStep, hNone]
      rfl
    · have hLength := List.length_pos_iff.2 hNe
      have hSize := Text.size_pos hNe
      have hNext := ih s.length (by rw [← hn, List.length_append]; omega) (a ++ x) s rfl
      rw [List.append_assoc] at hNext
      rw [collect_of_move hStep _ _ hNext, hFrom, List.map_append]
      · cases found? <;> rfl
      · rw [Text.size_append]
        omega
      · simp only [Text.length_bytes, Text.size_append]
        omega

end Checked

theorem collect_attributeStep (region : Text) :
    Checked.collect region.bytes.length (Checked.attributeStep region) 0 =
      .ok ((attributes region).map Attribute.record) :=
  Checked.collect_attributeStep_append [] region

end ClassFold

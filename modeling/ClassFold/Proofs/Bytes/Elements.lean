import ClassFold.Proofs.Bytes.Value
import ClassFold.Proofs.Document.Elements

/-!
# Checked readers of elements

The checked scanner of a document never faults, and it finds the elements of the document, each cut out
between characters: `collect_elementStep`. On the way to the end of a tag it may stand inside a
character, but what it remembers of the character is no more than that it is neither `=` nor a brace.
-/

set_option autoImplicit false

namespace ClassFold

namespace Checked

/-- The offset of the `>` that closes a tag, minding strings and bindings. -/
def tagEnd? (s : List UInt8) (σ : TagEnd.State) (i : Nat) : Checked (Option Nat) :=
  if i < s.length then do
    let c ← byteAt s i
    match σ.quote with
    | some q => tagEnd? s (if c == q then { σ with quote := none, last := c } else σ) (i + 1)
    | none =>
      if isQuote c && (0 < σ.depth || σ.last == '=' || σ.last == '{') then
        tagEnd? s { σ with quote := some c } (i + 1)
      else if c == '{' then tagEnd? s { σ with depth := σ.depth + 1, last := c } (i + 1)
      else if c == '}' && 0 < σ.depth then do
        let depth ← minus σ.depth 1
        tagEnd? s { σ with depth := depth, last := c } (i + 1)
      else if c == '>' && σ.depth == 0 then return some i
      else tagEnd? s (if isBlank c then σ else { σ with last := c }) (i + 1)
  else return none
termination_by s.length - i

/-- The ends of the attribute region of the tag whose `<` is at `i`. -/
def regionAt? (s : List UInt8) (i : Nat) : Checked (Option (Nat × Nat)) := do
  match ← tagEnd? s .start i with
  | some gt => return some (i, gt)
  | none => return (← find '>' s i).map (i, ·)

def tagAt? (s : List UInt8) (i : Nat) : Checked (Option (Nat × Nat)) :=
  if i + 1 < s.length then do
    let c ← byteAt s (i + 1)
    if isWordChar c then
      let j ← skipWhile isTagNameChar s (i + 2)
      if j < s.length then
        let b ← byteAt s j
        if isBlank b then regionAt? s (j + 1) else return none
      else return none
    else return none
  else return none

structure TagRecord where
  start : Nat
  text : Text
  attrs : Text
  attrsOffset : Nat
deriving DecidableEq, Repr

def elementStep (source : Text) (i : Nat) : Checked (Step TagRecord) :=
  if i < source.bytes.length then do
    match ← find '<' source.bytes i with
    | none => return .done
    | some lt =>
      match ← tagAt? source.bytes lt with
      | none => return .move none (lt + 1)
      | some (first, gt) =>
        let text ← slice source lt (gt + 1)
        let attrs ← slice source first gt
        let attrsOffset ← minus first lt
        return .move (some ⟨lt, text, attrs, attrsOffset⟩) (gt + 1)
  else return .done

/-- What the state of the reader of bytes tells is what the state of the reader of characters tells. -/
structure Follows (τ σ : TagEnd.State) : Prop where
  quote : τ.quote = σ.quote
  string : ∀ q, σ.quote = some q → isQuote q = true
  depth : τ.depth = σ.depth
  equals : (τ.last == '=') = (σ.last == '=')
  brace : τ.last = '{' → 0 < σ.depth

theorem Follows.start : Follows .start .start := ⟨rfl, by simp [TagEnd.State.start], rfl, rfl, by decide⟩

theorem Follows.admits {τ σ : TagEnd.State} (h : Follows τ σ) :
    (decide (0 < σ.depth) || τ.last == '=' || τ.last == '{') = σ.admitsString := by
  rw [TagEnd.State.admitsString, ← h.equals]
  by_cases hBrace : τ.last = '{'
  · have hPos := h.brace hBrace
    simp [hPos]
  · simp [hBrace]

theorem tagEnd?_byte {x z : List UInt8} {b : UInt8} {c : Char} (hb : ofByte b = c) {τ σ : TagEnd.State}
    (h : Follows τ σ) (hOpen : ¬ (c == '>' && σ.isOutside) = true) :
    ∃ τ', Follows τ' (σ.step c) ∧
      tagEnd? (x ++ b :: z) τ x.length = tagEnd? (x ++ b :: z) τ' (x.length + 1) := by
  rw [tagEnd?, if_pos (by simp), byteAt_append, hb, ok_bind, TagEnd.State.step, h.quote, h.depth]
  cases hq : σ.quote with
  | some q =>
    refine ⟨_, ?_, rfl⟩
    simp only
    by_cases hcq : (c == q) = true
    · rw [if_pos hcq, if_pos hcq]
      refine ⟨rfl, by simp, rfl, rfl, ?_⟩
      intro hBrace
      have hQuote := h.string q hq
      rw [← beq_iff_eq.1 hcq, show c = '{' from hBrace] at hQuote
      exact absurd hQuote (by decide)
    · rw [if_neg hcq, if_neg hcq]
      exact h
  | none =>
    have hNone : ∀ q : Char, none = some q → isQuote q = true := by simp
    simp only [h.admits]
    by_cases hString : (isQuote c && σ.admitsString) = true
    · rw [if_pos hString, if_pos hString]
      refine ⟨_, ?_, rfl⟩
      refine ⟨rfl, ?_, rfl, h.equals, h.brace⟩
      intro q hSome
      rw [← Option.some.inj hSome]
      exact (Bool.and_eq_true_iff.1 hString).1
    · rw [if_neg hString, if_neg hString]
      by_cases hLeft : (c == '{') = true
      · rw [if_pos hLeft, if_pos hLeft]
        refine ⟨_, ?_, rfl⟩
        exact ⟨rfl, hNone, rfl, rfl, fun _ => Nat.succ_pos _⟩
      · rw [if_neg hLeft, if_neg hLeft]
        have hNot : c = '{' → 0 < σ.depth := fun hc => absurd hc (by simpa using hLeft)
        by_cases hRight : (c == '}' && decide (0 < σ.depth)) = true
        · have hPos : 1 ≤ σ.depth := by
            simp only [Bool.and_eq_true, decide_eq_true_eq] at hRight
            exact hRight.2
          rw [if_pos hRight, if_pos hRight, minus_eq_ok hPos, ok_bind]
          refine ⟨_, ?_, rfl⟩
          exact ⟨rfl, hNone, rfl, rfl, fun hc => absurd hc (by simpa using hLeft)⟩
        · rw [if_neg hRight, if_neg hRight]
          have hStay : ¬ (c == '>' && σ.depth == 0) = true := by
            simpa [TagEnd.State.isOutside, hq] using hOpen
          rw [if_neg hStay]
          by_cases hBlank : isBlank c = true
          · rw [if_pos hBlank, if_pos hBlank]
            exact ⟨_, h, rfl⟩
          · rw [if_neg hBlank, if_neg hBlank]
            refine ⟨_, ?_, rfl⟩
            exact ⟨rfl, hNone, rfl, rfl, hNot⟩

theorem ne_of_le_toNat {c d : Char} (hc : 128 ≤ c.toNat) (hd : d.toNat < 128) : (c == d) = false := by
  apply beq_false_of_ne
  rintro rfl
  omega

/-- A character beyond ASCII is kept in mind as the last one, and changes nothing else. -/
theorem step_of_le {σ : TagEnd.State} (hQuote : ∀ q, σ.quote = some q → isQuote q = true) {c : Char}
    (hc : 128 ≤ c.toNat) : σ.step c = if σ.quote.isSome then σ else { σ with last := c } := by
  have hNot : isQuote c = false ∧ isBlank c = false := by
    constructor
    · apply Bool.eq_false_iff.2
      intro h
      exact absurd (lt_of_isQuote h) (Nat.not_lt_of_le hc)
    · apply Bool.eq_false_iff.2
      intro h
      exact absurd (lt_of_isBlank h) (Nat.not_lt_of_le hc)
  rw [TagEnd.State.step]
  cases hq : σ.quote with
  | some q =>
    have hNe := ne_of_le_toNat hc (lt_of_isQuote (hQuote q hq))
    simp [hNe]
  | none =>
    have hLeft : (c == '{') = false := ne_of_le_toNat hc (by decide)
    have hRight : (c == '}') = false := ne_of_le_toNat hc (by decide)
    simp [hNot.1, hNot.2, hLeft, hRight]

theorem Follows.step_of_le {τ σ : TagEnd.State} (hQuote : ∀ q, σ.quote = some q → isQuote q = true)
    {c d : Char} (hc : 128 ≤ c.toNat) (hd : 128 ≤ d.toNat) (h : Follows τ (σ.step d)) :
    Follows τ (σ.step c) := by
  rw [Checked.step_of_le hQuote hd] at h
  rw [Checked.step_of_le hQuote hc]
  split
  · rename_i hSome
    rwa [if_pos hSome] at h
  · rename_i hNone
    rw [if_neg hNone] at h
    refine ⟨h.quote, h.string, h.depth, ?_, h.brace⟩
    have hEquals := h.equals
    simp only [ne_of_le_toNat hd (show '='.toNat < 128 by decide)] at hEquals
    simp only [hEquals, ne_of_le_toNat hc (show '='.toNat < 128 by decide)]

theorem step_step_of_le {σ : TagEnd.State} (hQuote : ∀ q, σ.quote = some q → isQuote q = true) {c : Char}
    (hc : 128 ≤ c.toNat) : (σ.step c).step c = σ.step c := by
  have hStep := step_of_le hQuote hc
  by_cases hSome : σ.quote.isSome = true
  · rw [if_pos hSome] at hStep
    rw [hStep, hStep]
  · rw [if_neg hSome] at hStep
    have hAgain : ({ σ with last := c } : TagEnd.State).step c = { σ with last := c } := by
      rw [step_of_le _ hc, if_neg hSome]
      exact hQuote
    rw [hStep, hAgain]

theorem tagEnd?_run {c : Char} (hc : 128 ≤ c.toNat) {y : List UInt8} (hy : ∀ b ∈ y, 128 ≤ b.toNat) (hNe : y ≠ [])
    (x z : List UInt8) {τ σ : TagEnd.State} (h : Follows τ σ) :
    ∃ τ', Follows τ' (σ.step c) ∧
      tagEnd? (x ++ (y ++ z)) τ x.length = tagEnd? (x ++ (y ++ z)) τ' (x ++ y).length := by
  induction y generalizing x τ σ with
  | nil => exact absurd rfl hNe
  | cons b y ih =>
    have hb : 128 ≤ (ofByte b).toNat := by
      rw [toNat_ofByte]
      exact hy b List.mem_cons_self
    have hOpen : ¬ (ofByte b == '>' && σ.isOutside) = true := by
      simp [ne_of_le_toNat hb (show '>'.toNat < 128 by decide)]
    obtain ⟨τ₁, hFollows, hEq⟩ := tagEnd?_byte (x := x) (z := y ++ z) rfl h hOpen
    have hFirst := hFollows.step_of_le h.string hc hb
    rw [List.cons_append, hEq]
    cases y with
    | nil => exact ⟨τ₁, hFirst, by simp⟩
    | cons b' y =>
      obtain ⟨τ', hLast, hRun⟩ := ih (fun b'' hb'' => hy b'' (List.mem_cons_of_mem _ hb'')) (by simp)
        (x ++ [b]) hFirst
      rw [step_step_of_le h.string hc] at hLast
      refine ⟨τ', hLast, ?_⟩
      simpa using hRun

/-- Over one character, in however many bytes, the two states go on together. -/
theorem tagEnd?_char (a r : Text) {c : Char} {τ σ : TagEnd.State} (h : Follows τ σ)
    (hOpen : ¬ (c == '>' && σ.isOutside) = true) :
    ∃ τ', Follows τ' (σ.step c) ∧
      tagEnd? (a ++ c :: r).bytes τ a.size = tagEnd? (a ++ c :: r).bytes τ' (a ++ [c]).size := by
  have hBytes : (a ++ c :: r).bytes = a.bytes ++ (String.utf8EncodeChar c ++ Text.bytes r) := by simp
  by_cases hc : c.toNat < 128
  · obtain ⟨b, hEncode, hb⟩ := exists_utf8EncodeChar_eq_singleton hc
    have hByte := tagEnd?_byte (x := a.bytes) (z := Text.bytes r) hb h hOpen
    rw [hBytes, hEncode, size_append_singleton hc, ← Text.length_bytes]
    exact hByte
  · have hRun := tagEnd?_run (Nat.le_of_not_lt hc)
      (fun b hb => le_toNat_of_mem_utf8EncodeChar (Nat.le_of_not_lt hc) hb) String.utf8EncodeChar_ne_nil
      a.bytes (Text.bytes r) h
    have hSize : (a.bytes ++ String.utf8EncodeChar c).length = (a ++ [c]).size := by simp
    rw [hSize, Text.length_bytes] at hRun
    rw [hBytes]
    exact hRun

theorem tagEnd?_bytes (a : Text) (behind r : Text) {τ σ : TagEnd.State} (h : Follows τ σ) :
    tagEnd? (a ++ (behind.reverse ++ r)).bytes τ (a ++ behind.reverse).size =
      .ok ((TagEnd.cutAfter? σ behind r).map fun p => (a ++ p.1).size) := by
  induction r generalizing behind τ σ with
  | nil =>
    rw [tagEnd?, if_neg (by simp)]
    rfl
  | cons c r ih =>
    rw [TagEnd.cutAfter?, ← List.append_assoc]
    by_cases hOpen : (c == '>' && σ.isOutside) = true
    · rw [if_pos hOpen, tagEnd?, if_pos (size_lt_length_bytes _ c r), byteAt_bytes, ok_bind]
      simp only [Bool.and_eq_true, beq_iff_eq, TagEnd.State.isOutside, Option.isNone_iff_eq_none] at hOpen
      obtain ⟨rfl, hNone, hDepth⟩ := hOpen
      rw [firstByte_of_lt (by decide), h.quote, h.depth, hNone, hDepth]
      rfl
    · obtain ⟨τ', hFollows, hEq⟩ := tagEnd?_char (a ++ behind.reverse) r h hOpen
      have hNext := ih (c :: behind) hFollows
      rw [List.reverse_cons, List.append_assoc, List.singleton_append, ← List.append_assoc a,
        ← List.append_assoc a] at hNext
      rw [if_neg hOpen, hEq, hNext]

theorem regionAt?_bytes (a r : Text) :
    regionAt? (a ++ r).bytes a.size = .ok ((TagEnd.region? r).map fun p => (a.size, (a ++ p.1).size)) := by
  have hCut := tagEnd?_bytes a [] r Follows.start
  simp only [List.reverse_nil, List.nil_append, List.append_nil] at hCut
  rw [regionAt?, hCut, ok_bind, TagEnd.region?, TagEnd.cut?]
  cases TagEnd.cutAfter? .start [] r with
  | some p => rfl
  | none =>
    simp only [Option.map_none, find_bytes (show '>'.toNat < 128 by decide), ok_bind, TagEnd.plainCut?]
    cases r.dropWhile (· != '>') <;> simp

theorem tagAt?_bytes (a r : Text) :
    tagAt? (a ++ '<' :: r).bytes a.size = .ok ((Tag.read? ('<' :: r)).map fun p =>
      (a.size + p.1.attrsOffset, a.size + p.1.attrsOffset + p.1.attrs.size)) := by
  have hOne := size_append_singleton (a := a) (show '<'.toNat < 128 by decide)
  cases r with
  | nil =>
    rw [tagAt?, if_neg (by simp [← hOne])]
    rfl
  | cons c s =>
    have hText : a ++ '<' :: c :: s = (a ++ ['<']) ++ c :: s := by simp
    have hlt := size_lt_length_bytes (a ++ ['<']) c s
    rw [hOne] at hlt
    have hByte := byteAt_bytes (a ++ ['<']) c s
    rw [hOne] at hByte
    rw [tagAt?, hText, if_pos hlt, hByte, ok_bind, asciiTest_isWordChar.apply_firstByte]
    simp only [Tag.read?]
    by_cases hWord : isWordChar c = true
    · have hTwo := size_append_singleton (a := a ++ ['<']) (lt_of_isWordChar hWord)
      rw [hOne] at hTwo
      have hSkip := skipWhile_bytes asciiTest_isTagNameChar (a ++ ['<'] ++ [c]) s
      rw [hTwo, List.append_assoc _ [c] s, List.singleton_append] at hSkip
      have hRest := List.takeWhile_append_dropWhile (p := isTagNameChar) (l := s)
      rw [if_pos hWord, if_pos hWord, hSkip, ok_bind]
      cases hDrop : s.dropWhile isTagNameChar with
      | nil =>
        rw [hDrop, List.append_nil] at hRest
        rw [hRest, if_neg (by simp)]
        rfl
      | cons gap r =>
        rw [hDrop] at hRest
        have hSplit : a ++ ['<'] ++ c :: s =
            (a ++ ['<'] ++ [c] ++ s.takeWhile isTagNameChar) ++ gap :: r := by
          conv => lhs; rw [← hRest]
          simp
        rw [hSplit, if_pos (size_lt_length_bytes _ gap r), byteAt_bytes, ok_bind,
          asciiTest_isBlank.apply_firstByte]
        by_cases hBlank : isBlank gap = true
        · have hRegion := regionAt?_bytes (a ++ ['<'] ++ [c] ++ s.takeWhile isTagNameChar ++ [gap]) r
          rw [size_append_singleton (lt_of_isBlank hBlank), List.append_assoc _ [gap] r,
            List.singleton_append] at hRegion
          have hOffset (attrs : Text) : a.size + Tag.attrsOffset ⟨c :: s.takeWhile isTagNameChar, gap, attrs⟩ =
              (a ++ ['<'] ++ [c] ++ s.takeWhile isTagNameChar).size + 1 := by
            rw [← size_append_singleton (lt_of_isBlank hBlank)]
            simp [Tag.attrsOffset, Tag.head]
          rw [if_pos hBlank, hRegion]
          simp only [hBlank, if_true, Option.map_map, Function.comp_def, hOffset]
          rw [← size_append_singleton (lt_of_isBlank hBlank)]
          simp only [← Text.size_append]
        · rw [if_neg hBlank]
          simp [hBlank]
    · simp [hWord]

end Checked

def Element.record (e : Element) : Checked.TagRecord := ⟨e.start, e.text, e.attrs, e.attrsOffset⟩

theorem elementsFrom_dropWhile (offset : Nat) (s : Text) :
    elementsFrom offset s =
      elementsFrom (offset + Text.size (s.takeWhile (· != '<'))) (s.dropWhile (· != '<')) := by
  induction s generalizing offset with
  | nil => rfl
  | cons c s ih =>
    by_cases hc : c = '<'
    · simp [hc]
    · have hNone : Tag.read? (c :: s) = none := by
        unfold Tag.read?
        split
        · rename_i hCons
          exact absurd (List.cons.inj hCons).1 hc
        · rfl
      have hTest : (c != '<') = true := by simpa using hc
      rw [elementsFrom_of_read?_eq_none hNone, ih, List.takeWhile_cons, if_pos hTest, List.dropWhile_cons,
        if_pos hTest, Text.size_cons, Nat.add_assoc]

namespace Checked

theorem elementStep_of_nil (a : Text) {r : Text} (hRest : r.dropWhile (· != '<') = []) :
    elementStep (a ++ r) a.size = .ok .done := by
  unfold elementStep
  split
  · rw [find_bytes (by decide), hRest]
    rfl
  · rfl

theorem elementStep_of_cons (a : Text) {r s : Text} (hRest : r.dropWhile (· != '<') = '<' :: s) :
    elementStep (a ++ r) a.size = .ok (match Tag.read? ('<' :: s) with
      | none => .move none ((a ++ r.takeWhile (· != '<')).size + 1)
      | some (t, _) => .move (some (Element.record ⟨t, (a ++ r.takeWhile (· != '<')).size⟩))
          ((a ++ r.takeWhile (· != '<')).size + t.text.size)) := by
  have hText : a ++ r = (a ++ r.takeWhile (· != '<')) ++ '<' :: s := by
    rw [List.append_assoc, ← hRest, List.takeWhile_append_dropWhile]
  have hlt : a.size < (a ++ r).bytes.length := by
    have hSize := size_lt_length_bytes (a ++ r.takeWhile (· != '<')) '<' s
    rw [← hText, Text.size_append] at hSize
    omega
  have hTag := tagAt?_bytes (a ++ r.takeWhile (· != '<')) s
  rw [← hText] at hTag
  rw [elementStep, if_pos hlt, find_bytes (by decide), ok_bind, hRest]
  simp only [reduceCtorEq, if_false, hTag, ok_bind]
  cases hRead : Tag.read? ('<' :: s) with
  | none => rfl
  | some p =>
    obtain ⟨t, rest⟩ := p
    have hAll : a ++ r = (a ++ r.takeWhile (· != '<')) ++ (t.text ++ rest) := by
      rw [hText, Tag.eq_of_read? hRead]
    have hSize := t.size_text
    generalize a ++ r.takeWhile (· != '<') = x at hAll ⊢
    have hCutText : slice (a ++ r) x.size (x.size + t.text.size) = .ok t.text := by
      rw [hAll]
      exact slice_append x t.text rest rfl rfl
    have hCutAttrs : slice (a ++ r) (x.size + t.attrsOffset) (x.size + t.attrsOffset + t.attrs.size) =
        .ok t.attrs := by
      have hParts : a ++ r = (x ++ t.head) ++ (t.attrs ++ ('>' :: rest)) := by
        rw [hAll]
        simp [Tag.text]
      rw [hParts]
      exact slice_append (x ++ t.head) t.attrs _ (by rw [Text.size_append, Tag.attrsOffset])
        (by rw [Text.size_append, Tag.attrsOffset])
    have hStop : x.size + t.attrsOffset + t.attrs.size + 1 = x.size + t.text.size := by omega
    simp only [Option.map_some, hCutText, hCutAttrs, minus_eq_ok (Nat.le_add_right x.size _), ok_bind,
      Nat.add_sub_cancel_left, hStop]
    rfl

theorem collect_elementStep_append (a r : Text) :
    collect (a ++ r).bytes.length (elementStep (a ++ r)) a.size =
      .ok ((elementsFrom a.size r).map Element.record) := by
  induction hn : r.length using Nat.strong_induction_on generalizing a r with
  | _ n ih =>
    rw [elementsFrom_dropWhile]
    cases hRest : r.dropWhile (· != '<') with
    | nil =>
      rw [collect_of_done (elementStep_of_nil a hRest), elementsFrom]
      rfl
    | cons c s =>
      have hc : c = '<' := by
        have hHead := List.head?_dropWhile_not (· != '<') r
        simpa [hRest] using hHead
      subst hc
      have hStep := elementStep_of_cons a hRest
      have hText : a ++ r = (a ++ r.takeWhile (· != '<')) ++ '<' :: s := by
        rw [List.append_assoc, ← hRest, List.takeWhile_append_dropWhile]
      have hDrop := (List.dropWhile_sublist (l := r) (· != '<')).length_le
      rw [hRest] at hDrop
      have hOne : '<'.utf8Size = 1 := by decide
      rw [← Text.size_append]
      cases hRead : Tag.read? ('<' :: s) with
      | none =>
        rw [hRead] at hStep
        have hNext := ih s.length (by simp only [List.length_cons] at hDrop; omega)
          (a ++ r.takeWhile (· != '<') ++ ['<']) s rfl
        have hSize := size_append_singleton (a := a ++ r.takeWhile (· != '<')) (q := '<') (by decide)
        rw [List.append_assoc _ ['<'] s, List.singleton_append, ← hText, hSize] at hNext
        have hlt := size_lt_length_bytes (a ++ r.takeWhile (· != '<')) '<' s
        rw [← hText] at hlt
        rw [elementsFrom_of_read?_eq_none hRead, hOne, collect_of_move hStep _ hlt hNext]
        · rfl
        · rw [Text.size_append]
          omega
      | some p =>
        obtain ⟨t, rest⟩ := p
        rw [hRead] at hStep
        have hTag := Tag.eq_of_read? hRead
        have hShort := Tag.length_of_read? hRead
        have hNext := ih rest.length (by omega) (a ++ r.takeWhile (· != '<') ++ t.text) rest rfl
        have hAll : a ++ r.takeWhile (· != '<') ++ t.text ++ rest = a ++ r := by
          rw [hText, hTag, List.append_assoc]
        have hLength : (a ++ r).bytes.length =
            (a ++ r.takeWhile (· != '<')).size + t.text.size + Text.size rest := by
          rw [← hAll, Text.length_bytes, Text.size_append, Text.size_append]
        rw [hAll, Text.size_append _ t.text] at hNext
        have hPos := t.size_text
        rw [elementsFrom_of_read? hRead, collect_of_move hStep _ _ hNext]
        · rfl
        · rw [Text.size_append]
          omega
        · omega

end Checked

theorem collect_elementStep (source : Text) :
    Checked.collect source.bytes.length (Checked.elementStep source) 0 =
      .ok ((elements source).map Element.record) :=
  Checked.collect_elementStep_append [] source

end ClassFold

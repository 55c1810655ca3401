import Mathlib.Order.Bounds.Defs
import ClassFold.Proofs.Bytes.Elements
import ClassFold.Proofs.Markup.TagReading

/-!
# Candidates

A candidate is an offset at which a tag may start, judged by single bytes. Such an offset stands between
characters, and the candidates of a text are the places where a tag can be read: `isCandidate_iff`.
-/

set_option autoImplicit false

namespace ClassFold

open Checked

/-- The byte at an offset, taken for a character, passes a test. -/
def ByteIs (s : Text) (i : Nat) (p : Char → Bool) : Prop := ∃ c, byteAt s.bytes i = .ok c ∧ p c = true

section

variable {s : Text} {i : Nat} {p : Char → Bool}

theorem byteIs_size_iff (hp : AsciiTest p) (a : Text) (c : Char) (r : Text) :
    ByteIs (a ++ c :: r) a.size p ↔ p c = true := by
  rw [ByteIs, byteAt_bytes]
  simp [hp.apply_firstByte]

theorem byteIs_iff (hp : ∀ c, p c = true → c.toNat < 128) :
    ByteIs s i p ↔ ∃ a c r, s = a ++ c :: r ∧ Text.size a = i ∧ p c = true := by
  constructor
  · rintro ⟨c, hByte, hc⟩
    obtain ⟨a, r, hs, ha⟩ := exists_of_byteAt_bytes hByte (hp c hc)
    exact ⟨a, c, r, hs, ha, hc⟩
  · rintro ⟨a, c, r, rfl, rfl, hc⟩
    exact (byteIs_size_iff (.of_lt hp) a c r).2 hc

theorem byteIs_eq_iff {q : Char} (hq : q.toNat < 128) :
    ByteIs s i (· == q) ↔ ∃ a r, s = a ++ q :: r ∧ Text.size a = i := by
  rw [byteIs_iff fun c hc => by rwa [beq_iff_eq.1 hc]]
  simp only [beq_iff_eq]
  constructor
  · rintro ⟨a, c, r, hs, ha, rfl⟩
    exact ⟨a, r, hs, ha⟩
  · rintro ⟨a, r, hs, ha⟩
    exact ⟨a, q, r, hs, ha, rfl⟩

end

/-- At `p` a tag may start: a `<`, a name that ends at a blank at `q`, and a `>` somewhere behind. -/
structure IsCandidate (source : Text) (p q : Nat) : Prop where
  sign : ByteIs source p (· == '<')
  word : ByteIs source (p + 1) isWordChar
  name : ∀ i, p + 1 < i → i < q → ByteIs source i isTagNameChar
  gap : p + 1 < q ∧ ByteIs source q isBlank
  closed : ∃ g, q < g ∧ ByteIs source g (· == '>')

/-- The tag with its blank at `q` is closed at `g`: where the search that minds strings and bindings ends,
or, if it runs off the end, at the first `>`. -/
def IsClose (source : Text) (q g : Nat) : Prop :=
  tagEnd? source.bytes .start (q + 1) = .ok (some g) ∨
    tagEnd? source.bytes .start (q + 1) = .ok none ∧ IsLeast {i | q < i ∧ ByteIs source i (· == '>')} g

theorem forall_byteIs_iff {p : Char → Bool} (hp : AsciiTest p) (a s r : Text) :
    (∀ i, a.size ≤ i → i < (a ++ s).size → ByteIs (a ++ (s ++ r)) i p) ↔ ∀ c ∈ s, p c = true := by
  constructor
  · intro h c hc
    obtain ⟨x, y, rfl⟩ := List.append_of_mem hc
    have hByte := h (a ++ x).size (by simp) (by
      have hPos := c.utf8Size_pos
      simp only [Text.size_append, Text.size_cons]
      omega)
    have hText : a ++ (x ++ c :: y ++ r) = (a ++ x) ++ c :: (y ++ r) := by simp
    rw [hText] at hByte
    exact (byteIs_size_iff hp _ c _).1 hByte
  · intro h i hLow hHigh
    rw [Text.size_append] at hHigh
    have hIndex : i - a.size < s.bytes.length := by
      rw [Text.length_bytes]
      omega
    obtain ⟨c, hc, hb⟩ := List.mem_flatMap.1 (List.getElem_mem hIndex)
    refine ⟨_, byteAt_eq_ok_iff.2 ⟨_, ?_, rfl⟩, (hp.apply_ofByte hb).trans (h c hc)⟩
    rw [Text.bytes_append, List.getElem?_append_right (by rwa [Text.length_bytes]), Text.length_bytes,
      Text.bytes_append, List.getElem?_append_left hIndex, List.getElem?_eq_getElem hIndex]

/-- Behind the first `n` bytes of a text, an ASCII byte is looked for in the rest. -/
theorem exists_of_byteIs_append {a r : Text} {i : Nat} {q : Char} (hq : q.toNat < 128) (hi : a.size ≤ i)
    (h : ByteIs (a ++ r) i (· == q)) : ∃ m t, r = m ++ q :: t ∧ (a ++ m).size = i := by
  obtain ⟨b, t, hEq, hb⟩ := (byteIs_eq_iff hq).1 h
  obtain ⟨m, rfl, hr⟩ := Text.exists_append_of_size_le hEq (hb ▸ hi)
  exact ⟨m, t, hr, hb⟩

theorem isLeast_close_iff {a r : Text} {q g : Nat} (ha : a.size = q + 1) :
    IsLeast {i | q < i ∧ ByteIs (a ++ r) i (· == '>')} g ↔
      ∃ m t, TagEnd.plainCut? r = some (m, t) ∧ (a ++ m).size = g := by
  have hAscii : '>'.toNat < 128 := by decide
  constructor
  · rintro ⟨⟨hgt, hByte⟩, hLeast⟩
    obtain ⟨m, t, rfl, hg⟩ := exists_of_byteIs_append hAscii (by omega) hByte
    refine ⟨m, t, TagEnd.plainCut?_eq_some_iff.2 ⟨rfl, ?_⟩, hg⟩
    intro hMem
    -- An earlier `>` would be a smaller member.
    obtain ⟨x, y, rfl⟩ := List.append_of_mem hMem
    have hEarlier : ByteIs (a ++ (x ++ '>' :: y ++ '>' :: t)) (a ++ x).size (· == '>') :=
      (byteIs_eq_iff hAscii).2 ⟨a ++ x, y ++ '>' :: t, by simp, rfl⟩
    have hle := hLeast ⟨by rw [Text.size_append]; omega, hEarlier⟩
    have hPos := '>'.utf8Size_pos
    simp only [Text.size_append, Text.size_cons] at hle hg
    omega
  · rintro ⟨m, t, hCut, hg⟩
    obtain ⟨rfl, hFree⟩ := TagEnd.plainCut?_eq_some_iff.1 hCut
    refine ⟨⟨by rw [← hg, Text.size_append]; omega, (byteIs_eq_iff hAscii).2 ⟨a ++ m, t, by simp, hg⟩⟩, ?_⟩
    rintro i ⟨hi, hByte⟩
    obtain ⟨m', t', hEq, hi'⟩ := exists_of_byteIs_append hAscii (by omega) hByte
    rw [← hg, ← hi']
    by_contra hlt
    have hle : m'.size ≤ m.size := by
      simp only [Text.size_append] at hlt
      omega
    obtain ⟨x, rfl, hx⟩ := Text.exists_append_of_size_le hEq.symm hle
    cases x with
    | nil => simp at hlt
    | cons c x =>
      rw [List.cons_append, List.cons.injEq] at hx
      exact hFree (hx.1 ▸ List.mem_append_right _ List.mem_cons_self)

theorem isClose_iff {a r : Text} {q g : Nat} (ha : a.size = q + 1) :
    IsClose (a ++ r) q g ↔ ∃ attrs rest, TagEnd.region? r = some (attrs, rest) ∧ (a ++ attrs).size = g := by
  have hSearch := tagEnd?_bytes a [] r Follows.start
  simp only [List.reverse_nil, List.nil_append, List.append_nil] at hSearch
  rw [IsClose, ← ha, hSearch, isLeast_close_iff ha, TagEnd.region?, TagEnd.cut?]
  cases TagEnd.cutAfter? .start [] r with
  | some p =>
    simp only [Option.map_some, Except.ok.injEq, Option.some.injEq, reduceCtorEq, false_and, or_false, Option.some_or]
    constructor
    · exact fun h => ⟨p.1, p.2, rfl, h⟩
    · rintro ⟨attrs, rest, rfl, h⟩
      exact h
  | none => simp

section

variable {source : Text} {p q : Nat}

theorem size_append_sign (a : Text) : (a ++ ['<']).size = a.size + 1 := size_append_singleton (by decide)

/-- The parts of a candidate are cut out one after another: the sign, the name, the blank. -/
theorem IsCandidate.exists_parts (h : IsCandidate source p q) :
    ∃ a c cs gap r, source = a ++ '<' :: c :: (cs ++ gap :: r) ∧ Text.size a = p ∧ p + 2 + Text.size cs = q ∧
      isWordChar c = true ∧ (∀ d ∈ cs, isTagNameChar d = true) ∧ isBlank gap = true ∧ '>' ∈ r := by
  obtain ⟨hLt, hWord, hName, ⟨hpq, hGap⟩, g, hg, hEnd⟩ := h
  obtain ⟨a, s, rfl, ha⟩ := (byteIs_eq_iff (by decide)).1 hLt
  obtain ⟨b, gap, r, hEq, hb, hBlank⟩ := (byteIs_iff fun _ => lt_of_isBlank).1 hGap
  rw [List.append_cons] at hEq hWord hName hEnd
  obtain ⟨name, rfl, rfl⟩ := Text.exists_append_of_size_le hEq (by rw [size_append_sign]; omega)
  obtain ⟨c, cs, rfl⟩ : ∃ c cs, name = c :: cs := by
    apply List.exists_cons_of_ne_nil
    rintro rfl
    rw [List.append_nil, size_append_sign] at hb
    omega
  rw [← ha, ← size_append_sign] at hWord
  have hc : isWordChar c = true := (byteIs_size_iff asciiTest_isWordChar _ c _).1 hWord
  have hTwo : (a ++ ['<'] ++ [c]).size = p + 2 := by
    rw [size_append_singleton (lt_of_isWordChar hc), size_append_sign, ha]
  rw [List.cons_append, List.append_cons (a ++ ['<'])] at hName hEnd
  have hcs : ∀ d ∈ cs, isTagNameChar d = true := by
    apply (forall_byteIs_iff asciiTest_isTagNameChar (a ++ ['<'] ++ [c]) cs (gap :: r)).1
    intro i hLow hHigh
    apply hName i (by omega)
    rw [← hb, List.append_cons (a ++ ['<'])]
    exact hHigh
  rw [List.append_cons (a ++ ['<']), Text.size_append, hTwo] at hb
  refine ⟨a, c, cs, gap, r, by simp, ha, hb, hc, hcs, hBlank, ?_⟩
  rw [← List.append_assoc, List.append_cons _ gap] at hEnd
  obtain ⟨m, t, rfl, -⟩ := exists_of_byteIs_append (by decide) (by
    rw [size_append_singleton (lt_of_isBlank hBlank), Text.size_append]
    omega) hEnd
  exact List.mem_append_right _ List.mem_cons_self

theorem isCandidate_of_parts {a cs r : Text} {c gap : Char} (hc : isWordChar c = true)
    (hcs : ∀ d ∈ cs, isTagNameChar d = true) (hBlank : isBlank gap = true) (hMem : '>' ∈ r) :
    IsCandidate (a ++ '<' :: c :: (cs ++ gap :: r)) a.size (a.size + 2 + Text.size cs) := by
  have hTwo : (a ++ ['<'] ++ [c]).size = a.size + 2 := by
    rw [size_append_singleton (lt_of_isWordChar hc), size_append_sign]
  have hText : a ++ '<' :: c :: (cs ++ gap :: r) = (a ++ ['<'] ++ [c]) ++ (cs ++ gap :: r) := by simp
  refine ⟨(byteIs_eq_iff (by decide)).2 ⟨a, _, rfl, rfl⟩, ?_, ?_, ⟨by omega, ?_⟩, ?_⟩
  · rw [List.append_cons, ← size_append_sign]
    exact (byteIs_size_iff asciiTest_isWordChar _ c _).2 hc
  · intro i hLow hHigh
    rw [hText]
    apply (forall_byteIs_iff asciiTest_isTagNameChar _ cs (gap :: r)).2 hcs
    · omega
    · rw [Text.size_append]
      omega
  · rw [hText, ← hTwo, ← Text.size_append, ← List.append_assoc]
    exact (byteIs_size_iff asciiTest_isBlank _ gap r).2 hBlank
  · obtain ⟨m, t, rfl⟩ := List.append_of_mem hMem
    refine ⟨(a ++ ['<'] ++ [c] ++ cs ++ [gap] ++ m).size, ?_, (byteIs_eq_iff (by decide)).2 ⟨_, t, by simp, rfl⟩⟩
    rw [Text.size_append, size_append_singleton (lt_of_isBlank hBlank), Text.size_append, hTwo]
    omega

/-- A candidate is where a tag can be read. -/
theorem isCandidate_iff :
    IsCandidate source p q ↔
      ∃ a s t rest, source = a ++ s ∧ Text.size a = p ∧ Tag.read? s = some (t, rest) ∧ p + t.attrsOffset = q + 1 := by
  have hOffset {c gap : Char} {cs attrs : Text} (hc : isWordChar c = true) (hGap : isBlank gap = true) :
      (Tag.mk (c :: cs) gap attrs).attrsOffset = 2 + Text.size cs + 1 := by
    have hSign : '<'.utf8Size = 1 := by decide
    have hOne : c.utf8Size = 1 := by simpa using size_append_singleton (a := []) (lt_of_isWordChar hc)
    rw [Tag.attrsOffset, Tag.head, size_append_singleton (lt_of_isBlank hGap), Text.size_cons, Text.size_cons,
      hSign, hOne, ← Nat.add_assoc]
  constructor
  · intro h
    obtain ⟨a, c, cs, gap, r, rfl, ha, hq, hc, hcs, hBlank, hMem⟩ := h.exists_parts
    cases hRegion : TagEnd.region? r with
    | none => exact absurd hMem (TagEnd.region?_eq_none_iff.1 hRegion)
    | some region =>
      refine ⟨a, '<' :: c :: (cs ++ gap :: r), ⟨c :: cs, gap, region.1⟩, region.2, rfl, ha, ?_, ?_⟩
      · exact Tag.read?_eq_some_iff.2 ⟨c, cs, r, rfl, hc, hcs, hBlank, rfl, hRegion⟩
      · rw [hOffset hc hBlank]
        omega
  · rintro ⟨a, s, ⟨name, gap, attrs⟩, rest, rfl, rfl, hRead, hq⟩
    obtain ⟨c, cs, r, rfl, hc, hcs, hGap, rfl, hRegion⟩ := Tag.read?_eq_some_iff.1 hRead
    rw [hOffset hc hGap] at hq
    obtain rfl : q = a.size + 2 + Text.size cs := by omega
    rw [TagEnd.eq_of_region? hRegion]
    exact isCandidate_of_parts hc hcs hGap (List.mem_append_right _ List.mem_cons_self)

end

end ClassFold

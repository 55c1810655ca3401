import Mathlib.Order.Bounds.Basic
import Mathlib.Order.Nat
import ClassFold.Proofs.Bytes.Elements
import ClassFold.Proofs.Markup.Outside
import ClassFold.Proofs.Markup.TagReading

/-!
# The closing `>` among bytes

The search for the end of a tag runs on any bytes, from any offset: it gives the least offset of a `>`
that stands outside all strings and bindings read from there, or none if there is no such offset. A tag is
closed there, or else at its first `>`: `closes_at_first_outside`.
-/

set_option autoImplicit false

namespace ClassFold

namespace Checked

/-- A byte of any bytes, taken for a character, passes a test. -/
def HasByte (s : List UInt8) (i : Nat) (p : Char → Bool) : Prop := ∃ c, byteAt s i = .ok c ∧ p c = true

/-- The offsets of a `>` at which no string and no binding is open, if reading starts at `i`. -/
def outsideEnds (s : List UInt8) (i : Nat) : Set Nat :=
  {g | i ≤ g ∧ byteAt s g = .ok '>' ∧ IsOutside (((s.drop i).take (g - i)).map ofByte)}

/-- The offsets from `i` on that hold the byte `q`. -/
def offsetsOf (q : Char) (s : List UInt8) (i : Nat) : Set Nat := {j | i ≤ j ∧ byteAt s j = .ok q}

/-- At `lt` a tag starts, and the blank behind its name is at `q`. -/
structure OpensTag (s : List UInt8) (lt q : Nat) : Prop where
  sign : byteAt s lt = .ok '<'
  word : HasByte s (lt + 1) isWordChar
  name : ∀ i, lt + 1 < i → i < q → HasByte s i isTagNameChar
  gap : lt + 1 < q ∧ HasByte s q isBlank

variable {s : List UInt8} {p : Char → Bool} {c q : Char} {i j : Nat}

theorem lt_length_of_byteAt (h : byteAt s i = .ok c) : i < s.length := by
  obtain ⟨b, hb, -⟩ := byteAt_eq_ok_iff.1 h
  exact (List.getElem?_eq_some_iff.1 hb).1

theorem HasByte.lt_length (h : HasByte s i p) : i < s.length := by
  obtain ⟨c, hc, -⟩ := h
  exact lt_length_of_byteAt hc

theorem exists_byteAt (hi : i < s.length) : ∃ c, byteAt s i = .ok c :=
  ⟨_, byteAt_eq_ok_iff.2 ⟨s[i], List.getElem?_eq_getElem hi, rfl⟩⟩

/-- A run of bytes is skipped up to the first byte that does not pass, or to the end. -/
theorem skipWhile_eq_ok (hij : i ≤ j) (hj : j ≤ s.length) (hRun : ∀ k, i ≤ k → k < j → HasByte s k p)
    (hStop : ∀ c, byteAt s j = .ok c → p c = false) : skipWhile p s i = .ok j := by
  induction hn : j - i generalizing i with
  | zero =>
    obtain rfl : i = j := by omega
    rw [skipWhile]
    split
    · rename_i hi
      obtain ⟨c, hc⟩ := exists_byteAt hi
      rw [hc, ok_bind, hStop c hc]
      rfl
    · rfl
  | succ n ih =>
    have hlt : i < j := by omega
    obtain ⟨c, hc, hp⟩ := hRun i (Nat.le_refl i) hlt
    rw [skipWhile, if_pos (Nat.lt_of_lt_of_le hlt hj), hc, ok_bind, if_pos hp]
    exact ih hlt (fun k hk => hRun k (Nat.le_of_lt hk)) (by omega)

/-- The offset that a search has found is the least one of a set, and it has found none if there is none. -/
def FindsLeast (S : Set Nat) : Option Nat → Prop
  | some g => IsLeast S g
  | none => S = ∅

namespace FindsLeast

variable {S : Set Nat} {found? : Option Nat} {g : Nat}

theorem eq_some_iff (h : FindsLeast S found?) : found? = some g ↔ IsLeast S g := by
  cases found? with
  | none =>
    constructor
    · rintro ⟨⟩
    · exact fun hLeast => absurd h (Set.nonempty_iff_ne_empty.1 hLeast.nonempty)
  | some k =>
    rw [Option.some.injEq]
    constructor
    · rintro rfl
      exact h
    · exact fun hLeast => IsLeast.unique h hLeast

theorem eq_none_iff (h : FindsLeast S found?) : found? = none ↔ S = ∅ := by
  cases found? with
  | none => exact ⟨fun _ => h, fun _ => rfl⟩
  | some k =>
    constructor
    · rintro ⟨⟩
    · exact fun hEmpty => absurd hEmpty (Set.nonempty_iff_ne_empty.1 (IsLeast.nonempty h))

end FindsLeast

theorem exists_find_eq_ok (q : Char) (hi : i ≤ s.length) :
    ∃ found?, find q s i = .ok found? ∧ FindsLeast (offsetsOf q s i) found? := by
  classical
  have hOther : ∀ k, i ≤ k → k < s.length → k ∉ offsetsOf q s i → HasByte s k (· != q) := by
    intro k hk hLength hNot
    obtain ⟨c, hc⟩ := exists_byteAt hLength
    refine ⟨c, hc, ?_⟩
    rw [bne_iff_ne]
    rintro rfl
    exact hNot ⟨hk, hc⟩
  rw [find, if_pos hi]
  obtain hNone | hSome := (offsetsOf q s i).eq_empty_or_nonempty
  · have hSkip : skipWhile (· != q) s i = .ok s.length := by
      apply skipWhile_eq_ok hi (Nat.le_refl _)
      · exact fun k hk hLength => hOther k hk hLength (by simp [hNone])
      · exact fun c hc => absurd (lt_length_of_byteAt hc) (Nat.lt_irrefl _)
    exact ⟨none, by rw [hSkip, ok_bind, if_neg (Nat.lt_irrefl _), pure_eq_ok], hNone⟩
  · obtain ⟨j, hLeast⟩ : ∃ j, IsLeast (offsetsOf q s i) j := ⟨_, Nat.isLeast_find hSome⟩
    have hLength := lt_length_of_byteAt hLeast.1.2
    have hSkip : skipWhile (· != q) s i = .ok j := by
      apply skipWhile_eq_ok hLeast.1.1 (Nat.le_of_lt hLength)
      · intro k hk hkj
        exact hOther k hk (Nat.lt_trans hkj hLength) fun hMem => absurd (hLeast.2 hMem) (Nat.not_le_of_lt hkj)
      · intro c hc
        rw [hLeast.1.2, Except.ok.injEq] at hc
        simp [hc]
    exact ⟨some j, by rw [hSkip, ok_bind, if_pos hLength, pure_eq_ok], hLeast⟩

theorem tagEnd?_append {τ σ : TagEnd.State} (h : Follows τ σ) (a m y : List UInt8) :
    tagEnd? (a ++ m ++ y) τ (a ++ m).length =
      .ok ((TagEnd.cutAfter? σ (m.map ofByte).reverse (y.map ofByte)).map fun p => a.length + p.1.length) := by
  induction y generalizing m τ σ with
  | nil =>
    rw [tagEnd?, if_neg (by simp)]
    rfl
  | cons b y ih =>
    rw [List.map_cons, TagEnd.cutAfter?]
    split
    · rename_i hEnd
      simp only [Bool.and_eq_true, beq_iff_eq, TagEnd.State.isOutside, Option.isNone_iff_eq_none] at hEnd
      obtain ⟨hb, hNone, hDepth⟩ := hEnd
      rw [tagEnd?, if_pos (by simp), byteAt_append, ok_bind, hb, h.quote, h.depth, hNone, hDepth]
      simp [isQuote]
    · rename_i hOpen
      obtain ⟨τ', hFollows, hEq⟩ := tagEnd?_byte (x := a ++ m) (z := y) rfl h hOpen
      have hNext := ih hFollows (m ++ [b])
      simp only [← List.append_assoc, List.map_append, List.map_cons, List.map_nil, List.reverse_append,
        List.reverse_cons, List.reverse_nil, List.nil_append, List.singleton_append, List.length_append,
        List.length_cons, List.length_nil] at hNext
      rw [hEq, List.length_append, ← hNext]
      simp [Nat.add_assoc]

theorem tagEnd?_eq (s : List UInt8) (i : Nat) :
    tagEnd? s .start i = .ok ((TagEnd.cut? ((s.drop i).map ofByte)).map fun p => i + p.1.length) := by
  obtain hi | hi := Nat.le_total i s.length
  · have hSearch := tagEnd?_append Follows.start (s.take i) [] (s.drop i)
    rw [List.append_nil, List.take_append_drop, List.length_take, Nat.min_eq_left hi] at hSearch
    exact hSearch
  · rw [List.drop_eq_nil_of_le hi, tagEnd?, if_neg (Nat.not_lt_of_le hi)]
    rfl

theorem mem_outsideEnds_iff {g : Nat} :
    g ∈ outsideEnds s i ↔ ∃ x y, (s.drop i).map ofByte = x ++ '>' :: y ∧ IsOutside x ∧ g = i + x.length := by
  constructor
  · rintro ⟨hle, hByte, hOutside⟩
    obtain ⟨k, rfl⟩ := Nat.exists_eq_add_of_le hle
    obtain ⟨b, hb, hEnd⟩ := byteAt_eq_ok_iff.1 hByte
    rw [← List.getElem?_drop] at hb
    obtain ⟨hk, hb⟩ := List.getElem?_eq_some_iff.1 hb
    rw [Nat.add_sub_cancel_left] at hOutside
    refine ⟨_, ((s.drop i).drop (k + 1)).map ofByte, ?_, hOutside, ?_⟩
    · conv => lhs; rw [← List.take_append_drop k (s.drop i), List.drop_eq_getElem_cons hk]
      rw [List.map_append, List.map_cons, hb, hEnd]
    · rw [List.length_map, List.length_take, Nat.min_eq_left (Nat.le_of_lt hk)]
  · rintro ⟨x, y, hText, hOutside, rfl⟩
    refine ⟨Nat.le_add_right _ _, ?_, ?_⟩
    · have hEnd : ((s.drop i).map ofByte)[x.length]? = some '>' := by
        rw [hText, List.getElem?_append_right (Nat.le_refl _), Nat.sub_self, List.getElem?_cons_zero]
      rw [List.getElem?_map, List.getElem?_drop] at hEnd
      obtain ⟨b, hb, hEnd⟩ := Option.map_eq_some_iff.1 hEnd
      exact byteAt_eq_ok_iff.2 ⟨b, hb, hEnd⟩
    · rw [Nat.add_sub_cancel_left, List.map_take, hText, List.take_left]
      exact hOutside

theorem exists_tagEnd?_eq_ok (s : List UInt8) (i : Nat) :
    ∃ end?, tagEnd? s .start i = .ok end? ∧ FindsLeast (outsideEnds s i) end? := by
  refine ⟨_, tagEnd?_eq s i, ?_⟩
  obtain ⟨a, b, hCut, hText, hFirst⟩ | ⟨hCut, hNone⟩ := TagEnd.cut?_spec ((s.drop i).map ofByte)
  · rw [hCut]
    refine ⟨mem_outsideEnds_iff.2 ⟨a, b, hText, hFirst.holds, rfl⟩, ?_⟩
    intro g hg
    obtain ⟨x, y, hx, hOutside, rfl⟩ := mem_outsideEnds_iff.1 hg
    exact Nat.add_le_add_left (hFirst.least x y hx hOutside) i
  · rw [hCut]
    refine Set.eq_empty_iff_forall_notMem.2 ?_
    intro g hg
    obtain ⟨x, y, hx, hOutside, -⟩ := mem_outsideEnds_iff.1 hg
    exact hNone x y hx hOutside

/-- From the end of a run of bytes that starts a tag, the search goes on behind the blank. -/
theorem OpensTag.tagAt?_eq {lt q : Nat} (h : OpensTag s lt q) : tagAt? s lt = regionAt? s (q + 1) := by
  obtain ⟨c, hc, hWord⟩ := h.word
  obtain ⟨hlt, gap, hGap, hBlank⟩ := h.gap
  have hq := lt_length_of_byteAt hGap
  have hSkip : skipWhile isTagNameChar s (lt + 2) = .ok q := by
    apply skipWhile_eq_ok hlt (Nat.le_of_lt hq)
    · exact fun k hk hkq => h.name k hk hkq
    · intro d hd
      rw [hGap, Except.ok.injEq] at hd
      rw [← hd]
      exact isTagNameChar_eq_false_of_isBlank hBlank
  rw [tagAt?, if_pos (lt_length_of_byteAt hc), hc, ok_bind, if_pos hWord, hSkip, ok_bind, if_pos hq, hGap, ok_bind,
    if_pos hBlank]

theorem exists_regionAt?_eq_ok (hi : i ≤ s.length) :
    ∃ found?, regionAt? s i = .ok (found?.map (i, ·)) ∧
      (∀ g, found? = some g ↔
        IsLeast (outsideEnds s i) g ∨ outsideEnds s i = ∅ ∧ IsLeast (offsetsOf '>' s i) g) ∧
      (found? = none ↔ offsetsOf '>' s i = ∅) := by
  obtain ⟨end?, hEnd, hOutside⟩ := exists_tagEnd?_eq_ok s i
  rw [regionAt?, hEnd, ok_bind]
  cases end? with
  | some g =>
    have hMem : g ∈ offsetsOf '>' s i := ⟨hOutside.1.1, hOutside.1.2.1⟩
    have hNotEmpty : outsideEnds s i ≠ ∅ := Set.nonempty_iff_ne_empty.1 (IsLeast.nonempty hOutside)
    refine ⟨some g, rfl, ?_, ?_⟩
    · intro g'
      rw [hOutside.eq_some_iff, or_iff_left fun h => hNotEmpty h.1]
    · simp [Set.nonempty_iff_ne_empty.1 ⟨g, hMem⟩]
  | none =>
    have hEmpty : outsideEnds s i = ∅ := hOutside
    obtain ⟨found?, hFind, hFirst⟩ := exists_find_eq_ok '>' hi
    refine ⟨found?, by rw [hFind]; rfl, ?_, hFirst.eq_none_iff⟩
    intro g
    rw [hFirst.eq_some_iff, hEmpty, or_iff_right fun h => Set.notMem_empty g h.1, and_iff_right rfl]

end Checked

open Checked

theorem TagEnd.region?_eq_some_iff_outside {r attrs rest : Text} :
    region? r = some (attrs, rest) ↔ r = attrs ++ '>' :: rest ∧
      (IsFirstEnd IsOutside r attrs ∨ (∀ x y, r = x ++ '>' :: y → ¬ IsOutside x) ∧ '>' ∉ attrs) := by
  rw [region?_eq_some_iff, cut?_eq_some_iff, cut?_eq_none_iff, plainCut?_eq_some_iff]
  constructor
  · rintro (⟨hText, hFirst⟩ | ⟨hNone, hText, hFree⟩)
    · exact ⟨hText, Or.inl hFirst⟩
    · exact ⟨hText, Or.inr ⟨hNone, hFree⟩⟩
  · rintro ⟨hText, hFirst | ⟨hNone, hFree⟩⟩
    · exact Or.inl ⟨hText, hFirst⟩
    · exact Or.inr ⟨hNone, hText, hFree⟩

theorem Tag.HeadSound.read?_head_append {name : Text} {gap : Char} (h : (Tag.mk name gap []).HeadSound) (r : Text) :
    Tag.read? ('<' :: (name ++ gap :: r)) = (TagEnd.region? r).map fun p => (⟨name, gap, p.1⟩, p.2) := by
  obtain ⟨c, cs, rfl, hc, hcs⟩ := h.name
  have hGap : isBlank gap = true := h.gap
  have hStop := isTagNameChar_eq_false_of_isBlank hGap
  simp [Tag.read?, hc, List.takeWhile_append_of_pos hcs, List.dropWhile_append_of_pos hcs, hStop, hGap]

/-- On any bytes the search ends at the first `>` that stands outside all strings and bindings. A tag is
closed there, or else at its first `>`, and is none only if there is no `>`. -/
theorem closes_at_first_outside :
    (∀ r : Text, (∀ a b, TagEnd.cut? r = some (a, b) ↔ r = a ++ '>' :: b ∧ TagEnd.IsFirstEnd IsOutside r a) ∧
      (TagEnd.cut? r = none ↔ ∀ x y, r = x ++ '>' :: y → ¬ IsOutside x)) ∧
    (∀ (s : List UInt8) (i : Nat), ∃ end?, tagEnd? s .start i = .ok end? ∧
      (∀ g, end? = some g ↔ IsLeast (outsideEnds s i) g) ∧ (end? = none ↔ outsideEnds s i = ∅)) ∧
    (∀ (s : List UInt8) (lt q : Nat), OpensTag s lt q →
      ∃ found?, tagAt? s lt = .ok (found?.map (q + 1, ·)) ∧
        (∀ g, found? = some g ↔ IsLeast (outsideEnds s (q + 1)) g ∨
          outsideEnds s (q + 1) = ∅ ∧ IsLeast (offsetsOf '>' s (q + 1)) g) ∧
        (found? = none ↔ offsetsOf '>' s (q + 1) = ∅)) ∧
    ∀ (name : Text) (gap : Char) (r : Text), (Tag.mk name gap []).HeadSound →
      (∀ attrs rest, Tag.read? ('<' :: (name ++ gap :: r)) = some (⟨name, gap, attrs⟩, rest) ↔
        r = attrs ++ '>' :: rest ∧ (TagEnd.IsFirstEnd IsOutside r attrs ∨
          (∀ x y, r = x ++ '>' :: y → ¬ IsOutside x) ∧ '>' ∉ attrs)) ∧
      (Tag.read? ('<' :: (name ++ gap :: r)) = none ↔ '>' ∉ r) := by
  refine ⟨fun r => ⟨fun a b => TagEnd.cut?_eq_some_iff, TagEnd.cut?_eq_none_iff⟩, ?_, ?_, ?_⟩
  · intro s i
    obtain ⟨end?, hEnd, hLeast⟩ := exists_tagEnd?_eq_ok s i
    exact ⟨end?, hEnd, fun _ => hLeast.eq_some_iff, hLeast.eq_none_iff⟩
  · intro s lt q hOpens
    rw [hOpens.tagAt?_eq]
    exact exists_regionAt?_eq_ok (Nat.succ_le_of_lt hOpens.gap.2.lt_length)
  · intro name gap r hHead
    rw [hHead.read?_head_append]
    refine ⟨?_, by rw [Option.map_eq_none_iff, TagEnd.region?_eq_none_iff]⟩
    intro attrs rest
    rw [← TagEnd.region?_eq_some_iff_outside, Option.map_eq_some_iff]
    constructor
    · rintro ⟨p, hRegion, ⟨⟩⟩
      exact hRegion
    · exact fun hRegion => ⟨_, hRegion, rfl⟩

/-- A `>` in a string and one in a binding do not close the tag; among bytes that are no text, an open string
leaves the first `>`. -/
theorem closes_at_first_outside_in_values :
    (Tag.mk ['a'] ' ' []).HeadSound ∧
      Tag.read? ('<' :: (['a'] ++ ' ' :: "b = \"x>\" c=\x7b'>'\x7d>d>".toList)) =
        some (⟨['a'], ' ', "b = \"x>\" c=\x7b'>'\x7d".toList⟩, "d>".toList) ∧
      TagEnd.IsFirstEnd IsOutside "b = \"x>\" c=\x7b'>'\x7d>d>".toList "b = \"x>\" c=\x7b'>'\x7d".toList ∧
      OpensTag [0xff, 0x3c, 0x61, 0x20, 0x3d, 0x27, 0xff, 0x3e] 1 3 ∧
      ∃ g, tagAt? [0xff, 0x3c, 0x61, 0x20, 0x3d, 0x27, 0xff, 0x3e] 1 = .ok (some (4, g)) := by
  obtain ⟨-, -, hBytes, hText⟩ := closes_at_first_outside
  have hHead : (Tag.mk ['a'] ' ' []).HeadSound := ⟨⟨'a', [], rfl, by decide, by simp⟩, by decide⟩
  have hRead : Tag.read? ('<' :: (['a'] ++ ' ' :: "b = \"x>\" c=\x7b'>'\x7d>d>".toList)) =
      some (⟨['a'], ' ', "b = \"x>\" c=\x7b'>'\x7d".toList⟩, "d>".toList) := by decide
  have hOpens : OpensTag [0xff, 0x3c, 0x61, 0x20, 0x3d, 0x27, 0xff, 0x3e] 1 3 :=
    ⟨rfl, ⟨'a', rfl, by decide⟩, fun i hLow hHigh => by omega, by decide, ⟨' ', rfl, by decide⟩⟩
  refine ⟨hHead, hRead, ?_, hOpens, ?_⟩
  · obtain ⟨-, hFirst | ⟨-, hFree⟩⟩ := ((hText ['a'] ' ' _ hHead).1 _ _).1 hRead
    · exact hFirst
    · exact absurd hFree (by decide)
  · obtain ⟨found?, hFound, -, hNone⟩ := hBytes _ 1 3 hOpens
    cases found? with
    | some g => exact ⟨g, hFound⟩
    | none =>
      have hMem : 7 ∈ offsetsOf '>' [0xff, 0x3c, 0x61, 0x20, 0x3d, 0x27, 0xff, 0x3e] 4 := ⟨by decide, rfl⟩
      rw [hNone.1 rfl] at hMem
      exact absurd hMem (Set.notMem_empty 7)

end ClassFold

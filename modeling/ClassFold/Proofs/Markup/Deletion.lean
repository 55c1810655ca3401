import ClassFold.Plan
import ClassFold.Proofs.Markup.Region

/-!
# Where deletions stand

A deletion covers one attribute and at most one blank in front of it. It starts behind the attribute
before, it ends where the text of the region that is trimmed for a new attribute has not yet ended, and
it never reaches the name of the tag or the closing `>`.
-/

set_option autoImplicit false

namespace ClassFold

/-- At most one blank. -/
def IsLead (s : Text) : Prop := s = [] ∨ ∃ b, isBlank b = true ∧ s = [b]

theorem exists_eq_trimRegion_append (region : Text) : ∃ tail, region = trimRegion region ++ tail := by
  have hTrim (s : Text) : ∃ tail, s.reverse = (s.dropWhile isBlank).reverse ++ tail :=
    ⟨(s.takeWhile isBlank).reverse, by
      rw [← List.reverse_append, List.takeWhile_append_dropWhile]⟩
  unfold trimRegion
  dsimp only
  split
  · rename_i s hs
    obtain ⟨tail, hTail⟩ := hTrim s
    refine ⟨tail ++ ['/'], ?_⟩
    rw [← List.append_assoc, ← hTail, ← List.reverse_cons, ← hs, List.reverse_reverse]
  · obtain ⟨tail, hTail⟩ := hTrim region.reverse
    exact ⟨tail, by rw [← hTail, List.reverse_reverse]⟩

theorem exists_trimRegion_eq_append {front : Text} {c : Char} (hLast : front.getLast? = some c)
    (hBlank : isBlank c = false) (hSlash : c ≠ '/') (tail : Text) :
    ∃ rest, trimRegion (front ++ tail) = front ++ rest := by
  obtain ⟨init, rfl⟩ := List.getLast?_eq_some_iff.1 hLast
  have hStop (s : Text) : ∃ rest, ((s ++ (init ++ [c]).reverse).dropWhile isBlank).reverse =
      init ++ [c] ++ rest := by
    refine ⟨(s.dropWhile isBlank).reverse, ?_⟩
    rw [List.dropWhile_append]
    split
    · rename_i h
      simp [List.isEmpty_iff.1 h, hBlank]
    · simp
  unfold trimRegion
  dsimp only
  rw [List.reverse_append]
  split
  · rename_i s hs
    cases hTail : tail.reverse with
    | nil => simp [hTail, hSlash] at hs
    | cons d ds =>
      rw [hTail, List.cons_append, List.cons.injEq] at hs
      rw [← hs.2]
      exact hStop ds
  · exact hStop tail.reverse

/-- A slash that closes the tag is trimmed with the blanks before it, and nothing else is. -/
theorem trimRegion_append {front blanks tail : Text} {c : Char} (hLast : front.getLast? = some c)
    (hBlank : isBlank c = false) (hSlash : c ≠ '/') (hBlanks : ∀ b ∈ blanks, isBlank b = true)
    (hTail : tail = blanks ∨ tail = blanks ++ ['/']) : trimRegion (front ++ tail) = front := by
  obtain ⟨init, rfl⟩ := List.getLast?_eq_some_iff.1 hLast
  have hDrop : ((init ++ [c] ++ blanks).reverse.dropWhile isBlank).reverse = init ++ [c] := by
    rw [List.reverse_append, List.dropWhile_append_of_pos fun b hb => hBlanks b (List.mem_reverse.1 hb)]
    simp [hBlank]
  rcases hTail with rfl | rfl
  · have hEnd : (init ++ [c] ++ tail).getLast? ≠ some '/' := by
      intro hEnd
      rw [List.getLast?_append] at hEnd
      cases hTail : tail.getLast? with
      | none => simp [hTail, hSlash] at hEnd
      | some b =>
        rw [hTail, Option.some_or, Option.some.injEq] at hEnd
        exact absurd (hEnd ▸ hBlanks b (List.mem_of_getLast? hTail)) (by decide)
    unfold trimRegion
    dsimp only
    split
    · rename_i s hs
      exact absurd (by rw [← List.head?_reverse, hs, List.head?_cons]) hEnd
    · exact hDrop
  · rw [← List.append_assoc, trimRegion, List.reverse_concat]
    exact hDrop

namespace Tag

variable {t : Tag} {a b : Attribute}

theorem text_eq (t : Tag) : t.text = t.head ++ (t.attrs ++ ['>']) := rfl

theorem blankBefore_eq {front rest : Text} (h : t.text = front ++ rest) :
    t.blankBefore front.size = front.getLast?.any isBlank := by
  simp [blankBefore, h]

@[simp] theorem stop_deletion (r : Span) : (t.deletion r).stop = t.attrsOffset + r.stop := by
  unfold deletion
  dsimp only
  split <;> rfl

theorem start_deletion (r : Span) : (t.deletion r).start =
    if t.blankBefore (t.attrsOffset + r.start) then t.attrsOffset + r.start - 1
    else t.attrsOffset + r.start := by
  unfold deletion
  dsimp only
  split
  · rename_i h
    rw [Span.start_shift] at h
    rw [if_pos h]
    rfl
  · rename_i h
    rw [Span.start_shift] at h
    rw [if_neg h]
    rfl

theorem attrsOffset_le_start_deletion (r : Span) : t.attrsOffset ≤ (t.deletion r).start + 1 := by
  rw [start_deletion]
  split <;> omega

theorem exists_slice?_deletion (h : a ∈ attributes t.attrs) :
    ∃ lead, IsLead lead ∧ (t.deletion a.span).slice? t.text = some (lead ++ a.raw) := by
  obtain ⟨pre, post, hAttrs, hStart, hStop⟩ :=
    Span.slice?_eq_some_iff.1 (slice?_span_of_mem_attributes h)
  have hText : t.text = (t.head ++ pre) ++ (a.raw ++ (post ++ ['>'])) := by
    simp [text_eq, hAttrs]
  have hFront : t.attrsOffset + a.span.start = (t.head ++ pre).size := by
    rw [Text.size_append, hStart, attrsOffset]
  have hEnd : (t.deletion a.span).stop = (t.head ++ pre).size + a.raw.size := by
    rw [stop_deletion, ← hFront, ← hStop, hStart, Nat.add_assoc]
  have hBlank := blankBefore_eq hText
  rw [← hFront] at hBlank
  cases hb : t.blankBefore (t.attrsOffset + a.span.start) with
  | false =>
    refine ⟨[], Or.inl rfl, Span.slice?_eq_some_iff.2 ⟨t.head ++ pre, post ++ ['>'], hText, ?_, ?_⟩⟩
    · rw [start_deletion, hb, hFront]
      rfl
    · rw [List.nil_append, hEnd]
  | true =>
    rw [hb] at hBlank
    obtain ⟨c, hLast, hc⟩ := (Option.any_eq_true _ _).1 hBlank.symm
    obtain ⟨init, hInit⟩ := List.getLast?_eq_some_iff.1 hLast
    have hSize : (t.head ++ pre).size = Text.size init + 1 := by
      rw [hInit, Text.size_append, Text.size_cons, Text.size_nil, utf8Size_of_isBlank hc]
    refine ⟨[c], Or.inr ⟨c, hc, rfl⟩,
      Span.slice?_eq_some_iff.2 ⟨init, post ++ ['>'], ?_, ?_, ?_⟩⟩
    · rw [hText, hInit]
      simp
    · rw [start_deletion, hb, hFront, hSize]
      rfl
    · rw [hEnd, hSize, Text.size_append, Text.size_cons, Text.size_nil, utf8Size_of_isBlank hc]
      omega

theorem start_deletion_lt_stop (h : a ∈ attributes t.attrs) :
    (t.deletion a.span).start < (t.deletion a.span).stop := by
  have hlt := (sound_of_mem_attributes h).start_lt_stop
  rw [start_deletion, stop_deletion]
  split <;> omega

/-- The blank deleted with an attribute is no part of the attribute before. -/
theorem le_start_deletion (ha : a ∈ attributes t.attrs) (hb : b ∈ attributes t.attrs)
    (hle : a.span.stop ≤ b.span.start) : t.attrsOffset + a.span.stop ≤ (t.deletion b.span).start := by
  obtain ⟨front, gap, rest, hAttrs, hStart, hStop, hNext⟩ := Span.exists_between
    (slice?_span_of_mem_attributes ha) (slice?_span_of_mem_attributes hb) hle
  rw [start_deletion]
  split
  · rename_i hBlank
    -- Without a gap the blank would be the last character of `a`, which is none.
    have hGap : gap ≠ [] := by
      rintro rfl
      obtain ⟨c, hLast, hc, -⟩ := (sound_of_mem_attributes ha).exists_getLast?_raw
      have hText : t.text = (t.head ++ (front ++ a.raw)) ++ (b.raw ++ (rest ++ ['>'])) := by
        simp [text_eq, hAttrs]
      have hSize : t.attrsOffset + b.span.start = (t.head ++ (front ++ a.raw)).size := by
        simp only [Text.size_append, ← hNext, Text.size_nil, attrsOffset]
        omega
      rw [hSize, blankBefore_eq hText] at hBlank
      simp [List.getLast?_append, hLast, hc] at hBlank
    have hPos := Text.size_pos hGap
    omega
  · omega

theorem stop_le_size_trimRegion (h : a ∈ attributes t.attrs) :
    a.span.stop ≤ (trimRegion t.attrs).size := by
  obtain ⟨pre, post, hAttrs, hStart, hStop⟩ :=
    Span.slice?_eq_some_iff.1 (slice?_span_of_mem_attributes h)
  obtain ⟨c, hLast, hBlank, hSlash⟩ := (sound_of_mem_attributes h).exists_getLast?_raw
  have hFront : (pre ++ a.raw).getLast? = some c := by
    rw [List.getLast?_append, hLast]
    rfl
  obtain ⟨rest, hTrim⟩ := exists_trimRegion_eq_append hFront hBlank hSlash post
  rw [hAttrs, ← List.append_assoc, hTrim, Text.size_append, Text.size_append]
  omega

theorem stop_deletion_le_insertionPoint (h : a ∈ attributes t.attrs) :
    (t.deletion a.span).stop ≤ t.insertionPoint := by
  have hle := stop_le_size_trimRegion h
  rw [stop_deletion, insertionPoint]
  omega

theorem stop_deletion_lt_size (h : a ∈ attributes t.attrs) :
    (t.deletion a.span).stop < t.text.size := by
  have hle := Span.stop_le_of_slice? (slice?_span_of_mem_attributes h)
  rw [stop_deletion, size_text]
  omega

end Tag

end ClassFold

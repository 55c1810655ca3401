import ClassFold.Proofs.Markup.Closing
import ClassFold.Proofs.Markup.ValueReading

/-!
# Attributes on the way to the end of a tag

The reader that looks for the closing `>` passes over a quoted value wherever it meets it, and over a name
unless there is a `>` in it and the reader is outside. A value that opens a brace and does not close it leaves
the reader one brace deeper, and no attribute brings it back.
-/

set_option autoImplicit false

namespace ClassFold

/-- Behind the attribute the reader is where it was in front of it. -/
structure Attribute.Closed (a : Attribute) : Prop where
  inside : '>' ∉ a.name
  quoted : ∀ q, a.quoted? = some q → q.Closed

namespace TagEnd

namespace Passes

variable {depth : Nat} {s : Text}

theorem blanks (hs : ∀ c ∈ s, isBlank c = true) (depth : Nat) (last : Char) :
    Passes ⟨none, depth, last⟩ ⟨none, depth, last⟩ s := by
  induction s with
  | nil => exact refl _
  | cons c s ih =>
    obtain ⟨hc, hs⟩ := List.forall_mem_cons.1 hs
    have hStep : (State.mk none depth last).step c = ⟨none, depth, last⟩ := by
      rcases isBlank_eq_true_iff.1 hc with rfl | rfl | rfl | rfl | rfl <;> rfl
    have hNot : (c == '>') = false := by
      rcases isBlank_eq_true_iff.1 hc with rfl | rfl | rfl | rfl | rfl <;> rfl
    apply cons
    · rw [hNot, Bool.false_and]
    · rw [hStep]
      exact ih hs

/-- In front of a value the reader knows that a string may start. -/
theorem sign (hs : IsSign s) (depth : Nat) (last : Char) :
    Passes ⟨none, depth, last⟩ ⟨none, depth, '='⟩ s := by
  obtain ⟨b, b', rfl, hb, hb'⟩ := hs
  have hStep : (State.mk none depth last).step '=' = ⟨none, depth, '='⟩ := rfl
  apply (blanks hb depth last).append
  apply cons rfl
  rw [hStep]
  exact blanks hb' depth '='

theorem name (hName : ∀ c ∈ s, isNameChar c = true) (hInside : 0 < depth ∨ '>' ∉ s) (last : Char) :
    ∃ last', Passes ⟨none, depth, last⟩ ⟨none, depth, last'⟩ s := by
  rcases Nat.eq_zero_or_pos depth with rfl | hDepth
  · apply plain last
    intro c hc
    obtain ⟨-, hQuote, -, hOpen, hClose⟩ := isNameChar_eq_true_iff.1 (hName c hc)
    refine ⟨hQuote, hOpen, hClose, ?_⟩
    rintro rfl
    exact hInside.elim (Nat.lt_irrefl 0) fun hNot => hNot hc
  · apply of_balanced _ hDepth last
    clear hInside
    induction s with
    | nil => exact .nil
    | cons c s ih =>
      obtain ⟨hc, hs⟩ := List.forall_mem_cons.1 hName
      obtain ⟨-, hQuote, -, hOpen, hClose⟩ := isNameChar_eq_true_iff.1 hc
      exact .char hOpen hClose hQuote (ih hs)

theorem value {q : Quoted} (hq : q.WellFormed) (depth : Nat) (last : Char) :
    ∃ depth' last', Passes ⟨none, depth, last⟩ ⟨none, depth', last'⟩ q.text ∧ depth ≤ depth' ∧
      (depth' = depth ↔ q.Closed) := by
  obtain ⟨lead, quote, value, tail⟩ := q
  obtain ⟨sign, hSign, hBraces⟩ := hq.braces
  have hQuote := isQuote_of_isStraightQuote hq.straight
  have hString {depth : Nat} {last : Char} (hAdmits : (State.mk none depth last).admitsString = true) :
      Passes ⟨none, depth, last⟩ ⟨none, depth, quote⟩ (quote :: (value ++ [quote])) :=
    string hQuote hAdmits hq.free
  have hLead := Passes.sign hSign depth last
  have hOpen : Passes ⟨none, depth, '='⟩ ⟨none, depth + 1, quote⟩ ('{' :: quote :: (value ++ [quote])) := by
    apply cons rfl
    rw [State.step_open]
    exact hString (by simp [State.admitsString])
  have hClose : Passes ⟨none, depth + 1, quote⟩ ⟨none, depth, '}'⟩ ['}'] := cons rfl (refl _)
  rcases hBraces with ⟨rfl, rfl⟩ | ⟨rfl, rfl | rfl⟩
  · refine ⟨depth, quote, ?_, Nat.le_refl _, ?_⟩
    · simpa [Quoted.text] using hLead.append (hString (by simp [State.admitsString]))
    · exact ⟨fun _ hMem => absurd hMem hSign.not_mem_brace, fun _ => rfl⟩
  · refine ⟨depth + 1, quote, ?_, Nat.le_succ _, ?_⟩
    · simpa [Quoted.text] using hLead.append hOpen
    · constructor
      · intro hEq
        omega
      · intro hClosed
        exact absurd rfl (hClosed (by simp))
  · refine ⟨depth, '}', ?_, Nat.le_refl _, ?_⟩
    · simpa [Quoted.text] using hLead.append (hOpen.append hClose)
    · exact ⟨fun _ _ => List.cons_ne_nil _ _, fun _ => rfl⟩

end Passes

/-- Outside, a name with a `>` in it is the end of the tag. -/
theorem not_mem_of_cutAfter? {last : Char} {behind name rest x b : Text}
    (hName : ∀ c ∈ name, isNameChar c = true)
    (hCut : cutAfter? ⟨none, 0, last⟩ behind (name ++ rest) = some (behind.reverse ++ (name ++ x), b)) :
    '>' ∉ name := by
  intro hMem
  obtain ⟨front, back, rfl, hFree⟩ := List.eq_append_cons_of_mem hMem
  have hChars : ∀ c ∈ front, isNameChar c = true := fun c hc => hName c (List.mem_append_left _ hc)
  obtain ⟨last', hFront⟩ : ∃ last', Passes ⟨none, 0, last⟩ ⟨none, 0, last'⟩ front :=
    Passes.name hChars (Or.inr hFree) last
  rw [List.append_assoc, hFront, List.cons_append, cutAfter?] at hCut
  simp [State.isOutside] at hCut

/-- A blank in front of a region does not change where it is closed. -/
theorem cut?_blank_cons_iff {gap : Char} (hGap : isBlank gap = true) (attrs b : Text) :
    cut? (gap :: attrs ++ '>' :: b) = some (gap :: attrs, b) ↔ cut? (attrs ++ '>' :: b) = some (attrs, b) := by
  have hBlank : Passes .start .start [gap] := Passes.blanks (List.forall_mem_singleton.2 hGap) 0 ' '
  constructor
  · intro h
    have hCut : cutAfter? .start [gap] (attrs ++ '>' :: b) = some ([gap].reverse ++ (attrs ++ []), b) := by
      rw [cut?, List.cons_append, ← List.singleton_append, hBlank] at h
      simpa using h
    have hPasses := passes_run hCut
    have hEnd : cutAfter? (State.start.run attrs) (attrs.reverse ++ [gap]) ('>' :: b) =
        some ((attrs.reverse ++ [gap]).reverse, b) := by
      rw [← hPasses, hCut]
      simp
    obtain ⟨last, hLast⟩ := eq_of_isOutside (isOutside_of_cutAfter? hEnd)
    exact cut?_of_passes (hLast ▸ hPasses) b
  · intro h
    obtain ⟨hPasses, hEnd⟩ := run_of_cut? h
    obtain ⟨last, hLast⟩ := eq_of_isOutside hEnd
    rw [hLast] at hPasses
    exact cut?_of_passes (hBlank.append hPasses) b

/-- Without a `>` in it every region is closed behind its end. -/
theorem region?_of_not_mem {attrs : Text} (h : '>' ∉ attrs) : region? (attrs ++ ['>']) = some (attrs, []) := by
  have hPlain : plainCut? (attrs ++ ['>']) = some (attrs, []) := plainCut?_eq_some_iff.2 ⟨rfl, h⟩
  rw [region?_eq_some_iff]
  cases hCut : cut? (attrs ++ ['>']) with
  | none => exact Or.inr ⟨rfl, hPlain⟩
  | some p =>
    left
    have hText := eq_of_cut? hCut
    have hFront : '>' ∉ p.1 := by
      intro hMem
      obtain ⟨x, y, hx⟩ := List.append_of_mem hMem
      have hCount := congrArg (List.count '>') hText
      rw [List.count_append, List.count_eq_zero.2 h, hx] at hCount
      simp at hCount
      omega
    have hSame := plainCut?_eq_some_iff.2 ⟨hText, hFront⟩
    rw [hPlain] at hSame
    exact hSame.symm

end TagEnd

namespace Attribute

variable {a : Attribute}

theorem exists_passes (hName : IsName a.name) (hValue : ∀ q, a.quoted? = some q → q.WellFormed) {depth : Nat}
    (hInside : 0 < depth ∨ '>' ∉ a.name) (last : Char) :
    ∃ depth' last', TagEnd.Passes ⟨none, depth, last⟩ ⟨none, depth', last'⟩ a.raw ∧ depth ≤ depth' ∧
      (depth' = depth ↔ ∀ q, a.quoted? = some q → q.Closed) := by
  obtain ⟨start, name, quoted?⟩ := a
  obtain ⟨last', hPasses⟩ := TagEnd.Passes.name hName.chars hInside last
  cases quoted? with
  | none =>
    refine ⟨depth, last', ?_, Nat.le_refl _, ?_⟩
    · simpa [raw] using hPasses
    · simp
  | some q =>
    obtain ⟨depth', last'', hQuoted, hle, hClosed⟩ := TagEnd.Passes.value (hValue q rfl) depth last'
    refine ⟨depth', last'', ?_, hle, ?_⟩
    · simpa [raw] using hPasses.append hQuoted
    · simpa using hClosed

end Attribute

end ClassFold

import ClassFold.Proofs.Document.Elements
import ClassFold.Proofs.Markup.TagReading
import ClassFold.Proofs.WellFormed.Expression

/-!
# Closed tags

A reader that meets its closing `>` behind a part of a region passes over the part, and where the region
ends it is outside. Blanks and slashes do not change that, so they may go or come. A tag whose region is
closed is the one element of its text.
-/

set_option autoImplicit false

namespace ClassFold

namespace TagEnd

def State.run (σ : State) (s : Text) : State := s.foldl State.step σ

/-- An open string was opened by a quote. -/
def State.Sound (σ : State) : Prop := ∀ q, σ.quote = some q → isQuote q = true

namespace State.Sound

variable {σ : State}

theorem start : State.start.Sound := fun q h => by cases h

theorem step (h : σ.Sound) (c : Char) : (σ.step c).Sound := by
  intro q hq
  unfold State.step at hq
  split at hq
  · split at hq
    · cases hq
    · exact h q hq
  · rename_i hNone
    split at hq
    · rename_i hOpen
      cases hq
      exact (Bool.and_eq_true_iff.1 hOpen).1
    · split at hq
      · exact h q hq
      · split at hq
        · exact h q hq
        · split at hq <;> exact h q hq

theorem run (h : σ.Sound) (s : Text) : (σ.run s).Sound := by
  induction s generalizing σ with
  | nil => exact h
  | cons c s ih => exact ih (h.step c)

end State.Sound

/-- Blanks and the slash of a tag that closes itself. -/
def IsFiller (s : Text) : Prop := ∀ c ∈ s, isBlank c = true ∨ c = '/'

theorem isOutside_step {σ : State} (hSound : σ.Sound) {c : Char} (hc : isBlank c = true ∨ c = '/') :
    (σ.step c).isOutside = σ.isOutside := by
  have hQuote : isQuote c = false := by
    rcases hc with hc | rfl
    · rcases isBlank_eq_true_iff.1 hc with rfl | rfl | rfl | rfl | rfl <;> decide
    · decide
  have hOpen : c ≠ '{' := by
    rintro rfl
    exact absurd hc (by decide)
  have hClose : c ≠ '}' := by
    rintro rfl
    exact absurd hc (by decide)
  obtain ⟨quote, depth, last⟩ := σ
  cases quote with
  | some q =>
    have hNe : c ≠ q := by
      rintro rfl
      rw [hSound c rfl] at hQuote
      cases hQuote
    rw [State.step_inside hNe]
  | none =>
    rw [State.step_plain hQuote hOpen hClose]
    rfl

theorem isOutside_run {σ : State} (hSound : σ.Sound) {s : Text} (hs : IsFiller s) :
    (σ.run s).isOutside = σ.isOutside := by
  induction s generalizing σ with
  | nil => rfl
  | cons c s ih =>
    obtain ⟨hc, hs⟩ := List.forall_mem_cons.1 hs
    rw [← isOutside_step hSound hc]
    exact ih (hSound.step c) hs

theorem passes_run {σ : State} {behind x y a b : Text}
    (h : cutAfter? σ behind (x ++ y) = some (behind.reverse ++ (x ++ a), b)) : Passes σ (σ.run x) x := by
  induction x generalizing σ behind with
  | nil => exact Passes.refl σ
  | cons c x ih =>
    rw [List.cons_append, cutAfter?] at h
    split at h
    · simp at h
    · rename_i hc
      apply Passes.cons (Bool.eq_false_iff.2 hc)
      have hRest : cutAfter? (σ.step c) (c :: behind) (x ++ y) = some ((c :: behind).reverse ++ (x ++ a), b) := by
        simpa using h
      exact ih hRest

theorem isOutside_of_cutAfter? {σ : State} {behind b : Text}
    (h : cutAfter? σ behind ('>' :: b) = some (behind.reverse, b)) : σ.isOutside = true := by
  rw [cutAfter?] at h
  split at h
  · rename_i hEnd
    exact (Bool.and_eq_true_iff.1 hEnd).2
  · obtain ⟨m, hm, -⟩ := exists_of_cutAfter? h
    simp at hm

/-- Where a region is closed its reader is outside. -/
theorem run_of_cut? {attrs b : Text} (h : cut? (attrs ++ '>' :: b) = some (attrs, b)) :
    Passes .start (State.start.run attrs) attrs ∧ (State.start.run attrs).isOutside = true := by
  have hPasses : Passes .start (State.start.run attrs) attrs := by
    have hAll : cutAfter? .start [] (attrs ++ '>' :: b) = some ([].reverse ++ (attrs ++ []), b) := by
      simpa [cut?] using h
    exact passes_run hAll
  refine ⟨hPasses, ?_⟩
  have hEnd : cutAfter? (State.start.run attrs) attrs.reverse ('>' :: b) = some (attrs.reverse.reverse, b) := by
    rw [cut?, hPasses] at h
    simpa using h
  exact isOutside_of_cutAfter? hEnd

theorem eq_of_isOutside {σ : State} (h : σ.isOutside = true) : ∃ last, σ = ⟨none, 0, last⟩ := by
  obtain ⟨quote, depth, last⟩ := σ
  simp only [State.isOutside, Bool.and_eq_true, Option.isNone_iff_eq_none, beq_iff_eq] at h
  obtain ⟨rfl, rfl⟩ := h
  exact ⟨last, rfl⟩

theorem cut?_of_passes {attrs : Text} {last : Char} (h : Passes .start ⟨none, 0, last⟩ attrs) (b : Text) :
    cut? (attrs ++ '>' :: b) = some (attrs, b) := by
  rw [cut?, h, cutAfter?]
  simp [State.isOutside]

theorem Passes.filler {s : Text} (hs : IsFiller s) (last : Char) :
    ∃ last', Passes ⟨none, 0, last⟩ ⟨none, 0, last'⟩ s := by
  apply Passes.plain last
  intro c hc
  rcases hs c hc with hBlank | rfl
  · rcases isBlank_eq_true_iff.1 hBlank with rfl | rfl | rfl | rfl | rfl <;> decide
  · decide

/-- The front of a closed region, up to the filler at its end, can stand alone. -/
theorem exists_passes_of_cut? {x y b : Text} (hy : IsFiller y)
    (h : cut? (x ++ y ++ '>' :: b) = some (x ++ y, b)) : ∃ last, Passes .start ⟨none, 0, last⟩ x := by
  obtain ⟨-, hOutside⟩ := run_of_cut? h
  have hPasses : Passes .start (State.start.run x) x := by
    have hAll : cutAfter? .start [] (x ++ (y ++ '>' :: b)) = some ([].reverse ++ (x ++ y), b) := by
      simpa [cut?] using h
    exact passes_run hAll
  have hSound := State.Sound.start.run x
  have hRun : State.start.run (x ++ y) = (State.start.run x).run y := List.foldl_append
  rw [hRun, isOutside_run hSound hy] at hOutside
  obtain ⟨last, hLast⟩ := eq_of_isOutside hOutside
  exact ⟨last, hLast ▸ hPasses⟩

end TagEnd

namespace Tag

/-- The name and the gap of a tag can be read. -/
structure HeadSound (t : Tag) : Prop where
  name : ∃ c cs, t.name = c :: cs ∧ isWordChar c = true ∧ ∀ d ∈ cs, isTagNameChar d = true
  gap : isBlank t.gap = true

theorem headSound_of_read? {s rest : Text} {t : Tag} (h : read? s = some (t, rest)) : t.HeadSound := by
  obtain ⟨c, cs, r, hName, hc, hcs, hGap, -⟩ := read?_eq_some_iff.1 h
  exact ⟨⟨c, cs, hName, hc, hcs⟩, hGap⟩

theorem HeadSound.isBlank_of_mem_name {t : Tag} (h : t.HeadSound) : ∀ c ∈ t.name, isBlank c = false := by
  obtain ⟨c, cs, hName, hc, hcs⟩ := h.name
  have hAll : ∀ d ∈ t.name, isTagNameChar d = true := by
    rw [hName]
    exact List.forall_mem_cons.2 ⟨by simp [isTagNameChar, hc], hcs⟩
  intro d hd
  rw [← Bool.not_eq_true]
  intro hBlank
  have hChar := hAll d hd
  rw [isTagNameChar_eq_false_of_isBlank hBlank] at hChar
  cases hChar

theorem HeadSound.read?_text {t : Tag} (h : t.HeadSound) {rest : Text}
    (hRegion : TagEnd.region? (t.attrs ++ '>' :: rest) = some (t.attrs, rest)) :
    read? (t.text ++ rest) = some (t, rest) := by
  obtain ⟨c, cs, hName, hc, hcs⟩ := h.name
  refine read?_eq_some_iff.2 ⟨c, cs, t.attrs ++ '>' :: rest, hName, hc, hcs, h.gap, ?_, hRegion⟩
  simp [text, head]

theorem HeadSound.elements_text {t : Tag} (h : t.HeadSound)
    (hRegion : TagEnd.region? (t.attrs ++ ['>']) = some (t.attrs, [])) : elements t.text = [⟨t, 0⟩] := by
  have hRead := h.read?_text hRegion
  rw [List.append_nil] at hRead
  rw [elements, elementsFrom_of_read? hRead, elementsFrom]

end Tag

theorem headSound_of_mem_elements {source : Text} {e : Element} (h : e ∈ elements source) : e.toTag.HeadSound := by
  obtain ⟨before, after, -, -, hRead⟩ := exists_of_mem_elementsFrom h
  exact Tag.headSound_of_read? hRead

theorem region?_of_mem_elements {source : Text} {e : Element} (h : e ∈ elements source) :
    TagEnd.region? (e.attrs ++ ['>']) = some (e.attrs, []) := by
  obtain ⟨before, after, -, -, hRead⟩ := exists_of_mem_elementsFrom h
  obtain ⟨c, cs, r, -, -, -, -, -, hRegion⟩ := Tag.read?_eq_some_iff.1 hRead
  apply TagEnd.region?_of_append (t := after)
  rw [List.append_assoc, List.singleton_append, List.nil_append, ← TagEnd.eq_of_region? hRegion]
  exact hRegion

end ClassFold

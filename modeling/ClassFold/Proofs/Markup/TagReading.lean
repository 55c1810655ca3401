import Mathlib.Data.List.TakeWhile
import ClassFold.Markup.Element

/-!
# Reading a tag

What makes a tag at the front of a text, and how much of the text it takes to see it: the text through
the closing `>` decides it. A text that is cut off behind a tag gives the same tag, and no tag is lost
to text that follows.
-/

set_option autoImplicit false

namespace ClassFold

theorem isTagNameChar_eq_false_of_isBlank {c : Char} (h : isBlank c = true) : isTagNameChar c = false := by
  rcases isBlank_eq_true_iff.1 h with rfl | rfl | rfl | rfl | rfl <;> decide

namespace TagEnd

theorem exists_of_cutAfter? {σ : State} {behind s a b : Text} (h : cutAfter? σ behind s = some (a, b)) :
    ∃ m, a = behind.reverse ++ m ∧ ∀ t, cutAfter? σ behind (m ++ '>' :: t) = some (a, t) := by
  induction s generalizing σ behind with
  | nil => cases h
  | cons c s ih =>
    rw [cutAfter?] at h
    split at h
    · rename_i hc
      cases h
      refine ⟨[], (List.append_nil _).symm, ?_⟩
      intro t
      rw [Bool.and_eq_true, beq_iff_eq] at hc
      rw [List.nil_append, cutAfter?, if_pos (by simp [hc.2])]
    · rename_i hc
      obtain ⟨m, ha, hAll⟩ := ih h
      refine ⟨c :: m, by simp [ha], ?_⟩
      intro t
      rw [List.cons_append, cutAfter?, if_neg hc]
      exact hAll t

theorem cut?_of_cut? {s a b : Text} (h : cut? s = some (a, b)) (t : Text) :
    cut? (a ++ '>' :: t) = some (a, t) := by
  obtain ⟨m, ha, hAll⟩ := exists_of_cutAfter? h
  rw [List.reverse_nil, List.nil_append] at ha
  subst ha
  exact hAll t

theorem eq_of_cut? {s a b : Text} (h : cut? s = some (a, b)) : s = a ++ '>' :: b := by
  simpa using eq_of_cutAfter? h

theorem plainCut?_eq_some_iff {s a b : Text} :
    plainCut? s = some (a, b) ↔ s = a ++ '>' :: b ∧ '>' ∉ a := by
  constructor
  · intro h
    refine ⟨eq_of_plainCut? h, ?_⟩
    unfold plainCut? at h
    split at h
    · cases h
    · cases h
      intro hMem
      simpa using List.mem_takeWhile_imp hMem
  · rintro ⟨rfl, ha⟩
    have hNe : ∀ c ∈ a, (c != '>') = true := by
      intro c hc
      rw [bne_iff_ne]
      rintro rfl
      exact ha hc
    simp [plainCut?, List.takeWhile_append_of_pos hNe, List.dropWhile_append_of_pos hNe]

theorem plainCut?_eq_none_iff {s : Text} : plainCut? s = none ↔ '>' ∉ s := by
  constructor
  · intro h hMem
    obtain ⟨a, b, rfl, ha⟩ := List.eq_append_cons_of_mem hMem
    rw [plainCut?_eq_some_iff.2 ⟨rfl, ha⟩] at h
    cases h
  · intro h
    cases hCut : plainCut? s with
    | none => rfl
    | some p =>
      have hs := eq_of_plainCut? hCut
      exact absurd (hs ▸ List.mem_append_right _ List.mem_cons_self) h

theorem region?_eq_some_iff {s a b : Text} :
    region? s = some (a, b) ↔ cut? s = some (a, b) ∨ cut? s = none ∧ plainCut? s = some (a, b) := by
  rw [region?]
  cases cut? s <;> simp

theorem region?_eq_none_iff {s : Text} : region? s = none ↔ '>' ∉ s := by
  rw [← plainCut?_eq_none_iff, region?]
  cases h : cut? s with
  | none => simp
  | some p =>
    have hs := eq_of_cut? h
    rw [Option.some_or, plainCut?_eq_none_iff]
    simp [hs]

theorem region?_of_append {s t a b : Text} (h : region? (s ++ t) = some (a, b ++ t)) :
    region? s = some (a, b) := by
  have hs : s = a ++ '>' :: b := by
    have hEq := eq_of_region? h
    rw [← List.cons_append, ← List.append_assoc] at hEq
    exact List.append_cancel_right hEq
  rcases region?_eq_some_iff.1 h with hCut | ⟨hNone, hPlain⟩
  · rw [hs]
    exact region?_eq_some_iff.2 (Or.inl (cut?_of_cut? hCut b))
  · refine region?_eq_some_iff.2 (Or.inr ⟨?_, ?_⟩)
    · cases hCut : cut? s with
      | none => rfl
      | some p =>
        have hWhole := cut?_of_cut? hCut (p.2 ++ t)
        rw [← List.cons_append, ← List.append_assoc, ← eq_of_cut? hCut, hNone] at hWhole
        cases hWhole
    · exact plainCut?_eq_some_iff.2 ⟨hs, (plainCut?_eq_some_iff.1 hPlain).2⟩

end TagEnd

namespace Tag

theorem read?_eq_some_iff {s rest : Text} {t : Tag} :
    read? s = some (t, rest) ↔
      ∃ c cs r, t.name = c :: cs ∧ isWordChar c = true ∧ (∀ d ∈ cs, isTagNameChar d = true) ∧
        isBlank t.gap = true ∧ s = '<' :: (t.name ++ t.gap :: r) ∧
        TagEnd.region? r = some (t.attrs, rest) := by
  constructor
  · intro h
    unfold read? at h
    split at h
    · rename_i c s
      split at h
      · rename_i hc
        split at h
        · rename_i gap r hDrop
          split at h
          · rename_i hGap
            obtain ⟨p, hRegion, hEq⟩ := Option.map_eq_some_iff.1 h
            cases hEq
            refine ⟨c, _, r, rfl, hc, fun d hd => List.mem_takeWhile_imp hd, hGap, ?_, hRegion⟩
            rw [List.cons_append, ← hDrop, List.takeWhile_append_dropWhile]
          · cases h
        · cases h
      · cases h
    · cases h
  · rintro ⟨c, cs, r, hName, hc, hcs, hGap, rfl, hRegion⟩
    obtain ⟨name, gap, attrs⟩ := t
    simp only at hName hGap hRegion
    subst hName
    have hStop := isTagNameChar_eq_false_of_isBlank hGap
    simp [read?, hc, List.takeWhile_append_of_pos hcs, List.dropWhile_append_of_pos hcs, hStop,
      hGap, hRegion]

variable {a b : Text}

/-- A tag that ends in the first of two texts is read without the second. -/
theorem read?_of_append {t : Tag} {rest : Text} (h : read? (a ++ b) = some (t, rest ++ b)) :
    read? a = some (t, rest) := by
  obtain ⟨c, cs, r, hName, hc, hcs, hGap, hText, hRegion⟩ := read?_eq_some_iff.1 h
  have ha : a = '<' :: (t.name ++ t.gap :: (t.attrs ++ '>' :: rest)) := by
    rw [TagEnd.eq_of_region? hRegion] at hText
    apply List.append_cancel_right
    rw [hText]
    simp
  refine read?_eq_some_iff.2 ⟨c, cs, _, hName, hc, hcs, hGap, ha, ?_⟩
  rw [TagEnd.eq_of_region? hRegion, ← List.cons_append, ← List.append_assoc] at hRegion
  exact TagEnd.region?_of_append hRegion

/-- Text that follows may change where a tag ends, but not that it is one. -/
theorem exists_read?_append {t : Tag} {rest : Text} (h : read? a = some (t, rest)) (b : Text) :
    ∃ t' rest', read? (a ++ b) = some (t', rest') := by
  obtain ⟨c, cs, r, hName, hc, hcs, hGap, rfl, hRegion⟩ := read?_eq_some_iff.1 h
  cases hWhole : TagEnd.region? (r ++ b) with
  | none =>
    have hr := TagEnd.eq_of_region? hRegion
    rw [TagEnd.region?_eq_none_iff, hr] at hWhole
    simp at hWhole
  | some p =>
    exact ⟨⟨t.name, t.gap, p.1⟩, p.2, read?_eq_some_iff.2
      ⟨c, cs, r ++ b, hName, hc, hcs, hGap, by simp, hWhole⟩⟩

end Tag

end ClassFold

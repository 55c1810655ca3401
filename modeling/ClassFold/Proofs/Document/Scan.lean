import ClassFold.Proofs.Bytes.Candidates

/-!
# The scan of a document

The elements of a document are the one list of spans that start at candidates, end behind their closing
`>`, do not overlap and leave no candidate outside: `isScan_iff`. A scan is taken apart at its first
element, which stands at the first candidate.
-/

set_option autoImplicit false

namespace ClassFold

open Checked

/-- An element with the blank behind its name at `q` and its closing `>` at `g`. -/
structure StandsAt (source : Text) (q g : Nat) (e : Element) : Prop where
  candidate : IsCandidate source e.start q
  close : IsClose source q g
  stop : e.span.stop = g + 1
  text : slice source e.start (g + 1) = .ok e.text
  attrsOffset : e.attrsOffset = q + 1 - e.start
  attrs : slice source (q + 1) g = .ok e.attrs

theorem Tag.eq_of_text_eq {t t' : Tag} (hText : t.text = t'.text) (hAttrs : t.attrs = t'.attrs) :
    t = t' := by
  obtain ⟨name, gap, attrs⟩ := t
  obtain ⟨name', gap', attrs'⟩ := t'
  simp only at hAttrs
  subst hAttrs
  rw [Tag.text, Tag.text] at hText
  have hHead : '<' :: name ++ [gap] = '<' :: name' ++ [gap'] := List.append_cancel_right hText
  obtain ⟨hName, hGap⟩ := List.append_inj' hHead rfl
  rw [List.cons.injEq] at hName hGap
  rw [hName.2, hGap.1]

theorem isClose_iff_of_read? {a rest : Text} {t : Tag} {q g : Nat}
    (hRead : Tag.read? (t.text ++ rest) = some (t, rest)) (hq : a.size + t.attrsOffset = q + 1) :
    IsClose (a ++ (t.text ++ rest)) q g ↔ a.size + t.text.size = g + 1 := by
  obtain ⟨c, cs, r, -, -, -, -, -, hRegion⟩ := Tag.read?_eq_some_iff.1 hRead
  rw [TagEnd.eq_of_region? hRegion] at hRegion
  have hText : a ++ (t.text ++ rest) = (a ++ t.head) ++ (t.attrs ++ '>' :: rest) := by simp [Tag.text]
  have hHead : (a ++ t.head).size = q + 1 := by rw [Text.size_append, ← hq, Tag.attrsOffset]
  rw [hText, isClose_iff hHead, hRegion, Tag.size_text]
  constructor
  · rintro ⟨attrs, rest', ⟨⟩, hg⟩
    rw [Text.size_append, hHead] at hg
    omega
  · intro hg
    refine ⟨t.attrs, rest, rfl, ?_⟩
    rw [Text.size_append, hHead]
    omega

theorem slice_tag {a rest : Text} {t : Tag} :
    slice (a ++ (t.text ++ rest)) a.size (a.size + t.text.size) = .ok t.text ∧
      slice (a ++ (t.text ++ rest)) (a.size + t.attrsOffset) (a.size + t.attrsOffset + t.attrs.size) =
        .ok t.attrs := by
  have hText : a ++ (t.text ++ rest) = (a ++ t.head) ++ (t.attrs ++ '>' :: rest) := by simp [Tag.text]
  refine ⟨slice_append a t.text rest rfl rfl, ?_⟩
  rw [hText]
  apply slice_append <;> rw [Text.size_append, Tag.attrsOffset]

theorem StandsAt.exists_read {source : Text} {q g : Nat} {e : Element} (h : StandsAt source q g e) :
    ∃ a rest, source = a ++ (e.text ++ rest) ∧ Text.size a = e.start ∧
      Tag.read? (e.text ++ rest) = some (e.toTag, rest) := by
  obtain ⟨a, s, t, rest, rfl, ha, hRead, hq⟩ := isCandidate_iff.1 h.candidate
  have hs := Tag.eq_of_read? hRead
  subst hs
  rw [← ha] at hq
  have hg := (isClose_iff_of_read? hRead hq).1 h.close
  have hText := h.text
  have hAttrs := h.attrs
  rw [← ha, ← hg, slice_tag.1, Except.ok.injEq] at hText
  rw [← hq, show g = a.size + t.attrsOffset + t.attrs.size by rw [Tag.size_text] at hg; omega, slice_tag.2,
    Except.ok.injEq] at hAttrs
  have ht := Tag.eq_of_text_eq hText hAttrs
  exact ⟨a, rest, ht ▸ rfl, ha, ht ▸ hRead⟩

theorem exists_standsAt_of_read? {a rest : Text} {e : Element} (ha : Text.size a = e.start)
    (hRead : Tag.read? (e.text ++ rest) = some (e.toTag, rest)) :
    ∃ q g, StandsAt (a ++ (e.text ++ rest)) q g e := by
  have hPos : 0 < e.attrsOffset := by
    rw [Tag.attrsOffset]
    exact Text.size_pos (by simp [Tag.head])
  have hSize := e.size_text
  refine ⟨a.size + e.attrsOffset - 1, a.size + e.text.size - 1, ?_⟩
  have hq : a.size + e.attrsOffset = a.size + e.attrsOffset - 1 + 1 := by omega
  have hg : a.size + e.text.size = a.size + e.text.size - 1 + 1 := by omega
  refine ⟨?_, (isClose_iff_of_read? hRead hq).2 hg, ?_, ?_, ?_, ?_⟩
  · exact isCandidate_iff.2 ⟨a, _, e.toTag, rest, rfl, ha, hRead, by omega⟩
  · rw [← hg, ha]
    rfl
  · rw [← hg, ← ha]
    exact slice_tag.1
  · omega
  · rw [← hq, show a.size + e.text.size - 1 = a.size + e.attrsOffset + e.attrs.size by omega]
    exact slice_tag.2

theorem StandsAt.eq {source : Text} {q g q' g' : Nat} {e e' : Element} (h : StandsAt source q g e)
    (h' : StandsAt source q' g' e') (hStart : e.start = e'.start) : e = e' := by
  obtain ⟨a, rest, hText, ha, hRead⟩ := h.exists_read
  obtain ⟨a', rest', hText', ha', hRead'⟩ := h'.exists_read
  obtain ⟨-, hSame⟩ := Text.append_inj_of_size_eq (hText.symm.trans hText') (by rw [ha, ha', hStart])
  rw [hSame, hRead'] at hRead
  obtain ⟨t, start⟩ := e
  obtain ⟨t', start'⟩ := e'
  cases hRead
  cases hStart
  rfl

/-- Wherever a tag can be read, one of the elements covers its start. -/
theorem exists_mem_elementsFrom_of_read? {a s rest : Text} {t : Tag} (hRead : Tag.read? s = some (t, rest))
    (offset : Nat) :
    ∃ e ∈ elementsFrom offset (a ++ s), e.span.start ≤ offset + a.size ∧ offset + a.size < e.span.stop := by
  generalize hText : a ++ s = source
  fun_induction elementsFrom offset source generalizing a with
  | case1 =>
    rw [(List.append_eq_nil_iff.1 hText).2] at hRead
    cases hRead
  | case2 offset c r t' rest' hFirst ih =>
    by_cases hInside : a.size < t'.text.size
    · refine ⟨_, List.mem_cons_self, Nat.le_add_right _ _, ?_⟩
      simp only [Element.span]
      omega
    · have hSplit := Tag.eq_of_read? hFirst
      rw [← hText] at hSplit
      obtain ⟨m, rfl, hRest⟩ := Text.exists_append_of_size_le hSplit.symm (Nat.le_of_not_lt hInside)
      obtain ⟨e, he, hCover⟩ := ih hRest.symm
      rw [Nat.add_assoc, ← Text.size_append] at hCover
      exact ⟨e, List.mem_cons_of_mem _ he, hCover⟩
  | case3 offset c r hFirst ih =>
    cases a with
    | nil =>
      rw [List.nil_append] at hText
      rw [hText, hFirst] at hRead
      cases hRead
    | cons d a =>
      obtain ⟨rfl, hRest⟩ := List.cons.inj hText
      obtain ⟨e, he, hCover⟩ := ih hRest
      rw [Nat.add_assoc, ← Text.size_cons] at hCover
      exact ⟨e, he, hCover⟩

/-- The elements from the offset `n` on: none overlaps the next, and none is missed. -/
structure ScansFrom (source : Text) (n : Nat) (es : List Element) : Prop where
  stands : ∀ e ∈ es, ∃ q g, StandsAt source q g e
  disjoint : es.Pairwise fun e e' => e.span.stop ≤ e'.span.start
  le_start : ∀ e ∈ es, n ≤ e.start
  complete : ∀ p q, n ≤ p → IsCandidate source p q → ∃ e ∈ es, e.span.start ≤ p ∧ p < e.span.stop

namespace ScansFrom

variable {source : Text} {n : Nat} {e : Element} {es fs : List Element}

theorem start_le (h : ScansFrom source n (e :: es)) {p q : Nat} (hp : n ≤ p) (hCandidate : IsCandidate source p q) :
    e.start ≤ p := by
  obtain ⟨e', he', hStart, -⟩ := h.complete p q hp hCandidate
  rcases List.mem_cons.1 he' with rfl | he'
  · exact hStart
  · have hAfter := (List.pairwise_cons.1 h.disjoint).1 e' he'
    have hSpan := e.start_lt_stop
    simp only [Element.span] at hAfter hSpan hStart
    omega

theorem tail (h : ScansFrom source n (e :: es)) : ScansFrom source e.span.stop es where
  stands e' he' := h.stands e' (List.mem_cons_of_mem _ he')
  disjoint := (List.pairwise_cons.1 h.disjoint).2
  le_start := (List.pairwise_cons.1 h.disjoint).1
  complete p q hp hCandidate := by
    have hStart := h.le_start e List.mem_cons_self
    have hSpan := e.start_lt_stop
    obtain ⟨e', he', hCover⟩ := h.complete p q (by simp only [Element.span] at hp hSpan; omega) hCandidate
    rcases List.mem_cons.1 he' with rfl | he'
    · omega
    · exact ⟨e', he', hCover⟩

/-- The first element of a scan is at the first candidate, and the rest is a scan behind it. -/
theorem eq (h : ScansFrom source n es) (h' : ScansFrom source n fs) : es = fs := by
  induction es generalizing n fs with
  | nil =>
    cases fs with
    | nil => rfl
    | cons f fs =>
      obtain ⟨q, g, hStands⟩ := h'.stands f List.mem_cons_self
      obtain ⟨e, he, -⟩ := h.complete f.start q (h'.le_start f List.mem_cons_self) hStands.candidate
      cases he
  | cons e es ih =>
    obtain ⟨q, g, hStands⟩ := h.stands e List.mem_cons_self
    have hLow := h.le_start e List.mem_cons_self
    cases fs with
    | nil =>
      obtain ⟨f, hf, -⟩ := h'.complete e.start q hLow hStands.candidate
      cases hf
    | cons f fs =>
      obtain ⟨q', g', hStands'⟩ := h'.stands f List.mem_cons_self
      have hle := h.start_le (h'.le_start f List.mem_cons_self) hStands'.candidate
      have hge := h'.start_le hLow hStands.candidate
      obtain rfl := hStands.eq hStands' (Nat.le_antisymm hle hge)
      rw [ih h.tail h'.tail]

end ScansFrom

theorem scansFrom_elements (source : Text) : ScansFrom source 0 (elements source) where
  stands e he := by
    obtain ⟨a, rest, hText, ha, hRead⟩ := exists_of_mem_elementsFrom he
    rw [hText]
    exact exists_standsAt_of_read? (by omega) hRead
  disjoint := pairwise_elementsFrom 0 source
  le_start _ _ := Nat.zero_le _
  complete p q _ hCandidate := by
    obtain ⟨a, s, t, rest, rfl, rfl, hRead, -⟩ := isCandidate_iff.1 hCandidate
    have hCovered := exists_mem_elementsFrom_of_read? (a := a) hRead
    simpa only [elements, Nat.zero_add] using hCovered 0

/-- What a scan of a document finds: candidates through their closing `>`, in order and apart, and every
candidate inside one of them. -/
structure IsScan (source : Text) (es : List Element) : Prop where
  stands : ∀ e ∈ es, ∃ q g, StandsAt source q g e
  increasing : es.Pairwise fun e e' => e.start < e'.start
  disjoint : es.Pairwise fun e e' => e.span.stop ≤ e'.span.start
  complete : ∀ p q, IsCandidate source p q → ∃ e ∈ es, e.span.start ≤ p ∧ p < e.span.stop

/-- A document has one scan, and its elements are it. -/
theorem isScan_iff {source : Text} {es : List Element} : IsScan source es ↔ es = elements source := by
  constructor
  · intro h
    exact ScansFrom.eq ⟨h.stands, h.disjoint, fun _ _ => Nat.zero_le _, fun p q _ => h.complete p q⟩
      (scansFrom_elements source)
  · rintro rfl
    have h := scansFrom_elements source
    refine ⟨h.stands, h.disjoint.imp ?_, h.disjoint, fun p q => h.complete p q (Nat.zero_le p)⟩
    intro e e' hle
    exact Nat.lt_of_lt_of_le e.start_lt_stop hle

end ClassFold

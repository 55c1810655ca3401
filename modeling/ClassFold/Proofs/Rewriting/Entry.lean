import ClassFold.Proofs.Document.Elements
import ClassFold.Proofs.Edit.Separate
import ClassFold.Proofs.Markup.Placement
import ClassFold.Proofs.Rewriting.Trimmed

/-!
# The entry of an element

An element with tokens is rewritten by deletions, which remove, and by one insertion, which adds the
classes. As long as the deletions do not overlap and none of them reaches across the place of the classes,
the order in which they are listed does not matter: the entry for the element is its text without the
bytes of the deletions and with the classes at their place, `entry?_of_editable`. The deletions need not
come from attributes here, though those that do are of this kind, `Tag.editable_gather`.
-/

set_option autoImplicit false

namespace ClassFold

namespace Tag

/-- A class list and deletions in a tag, of which the deletions do not reach across the place of the
classes. They need not be in order. -/
structure Editable (t : Tag) (c : Contribution) : Prop where
  classList : ∀ r, c.classList? = some r → (r.slice? t.text).isSome = true
  deletions : Span.Separate t.text c.deletions
  place : ∀ d ∈ c.deletions, ¬ (d.start < t.place c ∧ t.place c < d.stop)

/-- The end of the class list, or else of the attributes, in front of blanks and of a slash that closes the
tag. -/
def IsPlace (t : Tag) (c : Contribution) (i : Nat) : Prop :=
  match c.classList? with
  | some r => i = r.stop
  | none => ∃ front tail, t.attrs = front ++ tail ∧ Trimmed front tail ∧ i = t.attrsOffset + front.size

theorem isPlace_place (t : Tag) (c : Contribution) : t.IsPlace c (t.place c) := by
  unfold IsPlace place
  cases c.classList? with
  | some r => rfl
  | none =>
    obtain ⟨tail, hAttrs, hTrimmed⟩ := exists_trimmed t.attrs
    exact ⟨_, tail, hAttrs, hTrimmed, rfl⟩

variable {t : Tag} {c : Contribution}

namespace Editable

variable (h : t.Editable c) {front back : Text}
include h

theorem exists_append : ∃ front back, t.text = front ++ back ∧ front.size = t.place c := by
  have hPlace := t.isPlace_place c
  unfold IsPlace at hPlace
  cases hr : c.classList? with
  | some r =>
    rw [hr] at hPlace
    obtain ⟨x, hx⟩ := Option.isSome_iff_exists.1 (h.classList r hr)
    obtain ⟨a, b, hText, -, hStop⟩ := Span.slice?_eq_some_iff.1 hx
    exact ⟨a ++ x, b, by simpa using hText, by rw [Text.size_append, hStop, hPlace]⟩
  | none =>
    rw [hr] at hPlace
    obtain ⟨front, tail, hAttrs, -, hPlace⟩ := hPlace
    refine ⟨t.head ++ front, tail ++ ['>'], ?_, ?_⟩
    · simp [text_eq, hAttrs]
    · rw [Text.size_append, hPlace, attrsOffset]

theorem stop_le_or_le_start {d : Span} (hd : d ∈ c.deletions) : d.stop ≤ t.place c ∨ t.place c ≤ d.start := by
  have hPlace := h.place d hd
  omega

theorem deletions_before (hText : t.text = front ++ back) (hSize : front.size = t.place c) :
    ∃ σ : Script, σ.before = front ∧
      ((c.deletions.filter fun d => d.stop ≤ t.place c).map (Edit.mk · [])).Perm (σ.edits 0) := by
  apply h.deletions.exists_script_filter
  intro d hd hStop
  obtain ⟨x, hx⟩ := Option.isSome_iff_exists.1 (h.deletions.inside d hd)
  rw [hText] at hx
  exact ⟨x, d, Span.slice?_of_stop_le hx (by rw [hSize]; exact of_decide_eq_true hStop), by simp [Span.shift]⟩

theorem deletions_behind (hText : t.text = front ++ back) (hSize : front.size = t.place c) :
    ∃ σ : Script, σ.before = back ∧
      ((c.deletions.filter fun d => !decide (d.stop ≤ t.place c)).map (Edit.mk · [])).Perm
        (σ.edits (t.place c)) := by
  apply h.deletions.exists_script_filter
  intro d hd hNot
  obtain ⟨x, hx⟩ := Option.isSome_iff_exists.1 (h.deletions.inside d hd)
  rw [hText] at hx
  have hStart : t.place c ≤ d.start := (h.stop_le_or_le_start hd).resolve_left (by simpa using hNot)
  rw [← hSize] at hStart ⊢
  exact ⟨x, Span.exists_slice?_of_le_start hx hStart⟩

/-- The deletions are two scripts, of what stands in front of the place and of what stands behind it. Whatever
their order is, the edits of the tag are sorted into these with the classes between them. -/
theorem exists_scripts :
    ∃ σ τ : Script, t.text = σ.before ++ τ.before ∧ σ.before.size = t.place c ∧
      (c.deletions.map (Edit.mk · [])).Perm (σ.edits 0 ++ τ.edits (t.place c)) ∧
      ∀ ds : List Span, ds.Perm c.deletions →
        (t.edits { c with deletions := ds }).mergeSort Edit.standsBefore =
          Script.edits 0 (σ ++ .replaced [] c.classText :: τ) := by
  obtain ⟨front, back, hText, hSize⟩ := h.exists_append
  obtain ⟨σ, rfl, hFront⟩ := h.deletions_before hText hSize
  obtain ⟨τ, rfl, hBack⟩ := h.deletions_behind hText hSize
  have hPerm : (c.deletions.map (Edit.mk · [])).Perm (σ.edits 0 ++ τ.edits (t.place c)) := by
    have hParts := (List.filter_append_perm (fun d : Span => d.stop ≤ t.place c) c.deletions).map (Edit.mk · [])
    rw [List.map_append] at hParts
    exact hParts.symm.trans (hFront.append hBack)
  refine ⟨σ, τ, hText, hSize, hPerm, fun ds hDs => ?_⟩
  have hEdits : t.edits { c with deletions := ds } = ds.map (Edit.mk · []) ++ [t.classEdit c] := rfl
  apply Edit.mergeSort_standsBefore_of_perm
  · have hAll : Script.edits 0 (σ ++ .replaced [] c.classText :: τ) =
        σ.edits 0 ++ t.classEdit c :: τ.edits (t.place c) := by
      rw [Script.edits_append, classEdit_eq, Nat.zero_add, hSize]
      rfl
    rw [hEdits, hAll]
    exact (List.perm_append_singleton _ _).trans
      ((((hDs.map _).trans hPerm).cons _).trans List.perm_middle.symm)
  · -- The classes are the only insertion.
    have hPos : ∀ e ∈ ds.map (Edit.mk · []), e.span.start < e.span.stop := by
      rw [List.forall_mem_map]
      exact fun d hd => h.deletions.nonempty d (hDs.subset hd)
    rw [hEdits, List.pairwise_append]
    refine ⟨List.pairwise_of_forall_mem_list fun e he _ _ => Or.inl (hPos e he), List.pairwise_singleton _ _, ?_⟩
    exact fun e he _ _ => Or.inl (hPos e he)

end Editable

/-- What the judged attributes of a tag contribute can be carried out in any order. -/
theorem editable_gather {engine : Engine} {o : Options} {js : List Judged}
    (hJudges : Judges engine o (attributes t.attrs) js) : t.Editable (t.gather engine o js) where
  classList r hr := by
    rcases place_gather hJudges with ⟨hNone, -⟩ | ⟨k, q, r', -, -, -, hSlice, -, -, hClass, -⟩
    · rw [classList?_gather, hNone] at hr
      cases hr
    · rw [hClass] at hr
      cases hr
      rw [slice?_shift_attrsOffset hSlice]
      rfl
  deletions := by
    refine ⟨?_, fun d hd => start_lt_stop_of_mem_deletions hJudges hd, ?_⟩
    · intro d hd
      obtain ⟨j, hj, -, rfl⟩ := exists_of_mem_deletions hd
      obtain ⟨lead, -, hSlice⟩ := exists_slice?_deletion (attr_mem_of_judges hJudges hj)
      rw [hSlice]
      rfl
    · exact (pairwise_deletions hJudges).imp Or.inl
  place d hd := by
    obtain ⟨ds₁, ds₂, hSplit, hBefore, hBehind⟩ := exists_deletions_eq_append hJudges
    rw [hSplit] at hd
    rcases List.mem_append.1 hd with hd | hd
    · have hStop := hBefore d hd
      omega
    · have hStart := hBehind d hd
      omega

end Tag

/-- The entry that a contribution makes for an element: the text of the element without the bytes of the
deletions, and the classes at their place. A deletion that ends there is edited before them, and one that
starts there behind them. -/
structure Element.Rewrites (e : Element) (c : Contribution) (entry : Edit) : Prop where
  start : entry.span.start = e.start
  stop : entry.span.stop = e.start + e.text.size
  covers : ∀ source, e ∈ elements source → entry.span.slice? source = some e.text
  place : e.IsPlace c (e.place c)
  bytes : entry.text.bytes =
    Span.uncovered c.deletions 0 (e.text.bytes.take (e.place c)) ++
      (c.classText.bytes ++ Span.uncovered c.deletions (e.place c) (e.text.bytes.drop (e.place c)))
  order : ∃ es fs : List Edit, (e.edits c).mergeSort Edit.standsBefore = es ++ e.classEdit c :: fs ∧
    (c.deletions.map (Edit.mk · [])).Perm (es ++ fs) ∧
    (∀ f ∈ es, f.span.stop ≤ e.place c) ∧ ∀ f ∈ fs, e.place c ≤ f.span.start

/-- An element without tokens has no entry. With tokens its entry is made of exactly the given edits, and the
order of the deletions does not matter. -/
theorem entry?_of_editable (e : Element) (c : Contribution) :
    (c.tokens = [] → ∀ ds, e.entry? { c with deletions := ds } = .ok none) ∧
    (c.tokens ≠ [] → e.Editable c → ∃ entry, e.Rewrites c entry ∧
      ∀ ds : List Span, ds.Perm c.deletions → e.entry? { c with deletions := ds } = .ok (some entry)) := by
  refine ⟨fun hTokens ds => if_pos (by simpa using hTokens), fun hTokens h => ?_⟩
  obtain ⟨σ, τ, hText, hSize, hPerm, hSort⟩ := h.exists_scripts
  have hOrder : (e.edits c).mergeSort Edit.standsBefore = σ.edits 0 ++ e.classEdit c :: τ.edits (e.place c) := by
    rw [Tag.classEdit_eq, ← hSize, hSort c.deletions (List.Perm.refl _), Script.edits_append, Nat.zero_add]
    rfl
  have hBefore : ∀ f ∈ σ.edits 0, f.span.stop ≤ e.place c := by
    intro f hf
    rw [← hSize, ← Nat.zero_add (Text.size _)]
    exact Script.stop_le_of_mem_edits hf
  have hBehind : ∀ f ∈ τ.edits (e.place c), e.place c ≤ f.span.start := fun f hf => Script.le_start_of_mem_edits hf
  have hBytes : e.text.bytes = σ.before.bytes ++ τ.before.bytes := by rw [hText, Text.bytes_append]
  have hLength : σ.before.bytes.length = e.place c := by rw [Text.length_bytes, hSize]
  refine ⟨⟨e.span, σ.after ++ (c.classText ++ τ.after)⟩, ⟨rfl, rfl, ?_, e.isPlace_place c, ?_, ?_⟩, ?_⟩
  · exact fun source he => slice?_span_of_mem_elements he
  · have hFront : σ.after.bytes = Span.uncovered c.deletions 0 σ.before.bytes :=
      Script.bytes_after_of_perm [] _ hPerm (by simp) (by rwa [hSize, Nat.zero_add])
    have hBack : τ.after.bytes = Span.uncovered c.deletions (e.place c) τ.before.bytes :=
      Script.bytes_after_of_perm _ [] (by rwa [List.append_nil]) hBefore (by simp)
    rw [hBytes, ← hLength, List.take_left, List.drop_left, hLength, ← hFront, ← hBack, Text.bytes_append,
      Text.bytes_append]
  · exact ⟨_, _, hOrder, hPerm, hBefore, hBehind⟩
  · intro ds hDs
    have hEdited : e.edited { c with deletions := ds } = .ok (σ.after ++ (c.classText ++ τ.after)) := by
      have hApply := Edit.applyFrom_edits 0 (σ ++ .replaced [] c.classText :: τ)
      rw [Script.before_append, Script.before_cons, Script.after_append, Script.after_cons] at hApply
      rw [Tag.edited, hSort ds hDs, hText]
      exact hApply
    rw [Element.entry?, if_neg (by simpa using hTokens), hEdited]
    rfl

/-- Two deletions that touch, listed backwards; the second one ends where the classes are put in. -/
def image : Element := ⟨⟨"img".toList, ' ', "é mt-2 /".toList⟩, 3⟩

def imageEdits : Contribution where
  tokens := ["mt-2".toList]
  deletions := [⟨7, 12, by decide⟩, ⟨4, 7, by decide⟩]

theorem entry?_of_editable_image :
    imageEdits.tokens ≠ [] ∧ image.Editable imageEdits ∧ ∃ entry, image.Rewrites imageEdits entry ∧
      (∀ ds : List Span, ds.Perm imageEdits.deletions →
        image.entry? { imageEdits with deletions := ds } = .ok (some entry)) ∧
      entry.text.bytes = Text.bytes "<img class=\x22mt-2\x22 />".toList := by
  have hTokens : imageEdits.tokens ≠ [] := by decide
  have hEditable : image.Editable imageEdits :=
    ⟨by decide, ⟨by decide, by decide, by decide⟩, by decide⟩
  obtain ⟨entry, hRewrites, hPerm⟩ := (entry?_of_editable image imageEdits).2 hTokens hEditable
  refine ⟨hTokens, hEditable, entry, hRewrites, hPerm, ?_⟩
  rw [hRewrites.bytes]
  decide +kernel

end ClassFold

import ClassFold.Proofs.Document.OnePass

/-!
# What a transformation leaves alone

The output is the source carried over by a script whose replacements are known: for every tag with a
confirmed token one insertion, and for every folded attribute the removal of its raw text with at most
one blank in front of it. All else is kept, in order.
-/

set_option autoImplicit false

namespace ClassFold

namespace Script

theorem common_eq_before (offset : Nat) {σ : Script}
    (h : ∀ e ∈ σ.edits offset, e.span.start = e.span.stop) : σ.common = σ.before := by
  induction σ generalizing offset with
  | nil => rfl
  | cons c σ ih =>
    cases c with
    | kept s => exact congrArg (s ++ ·) (ih _ h)
    | replaced old new =>
      have hOld : old = [] := by
        have hEmpty := h _ List.mem_cons_self
        apply Text.size_eq_zero_iff.1
        simp only at hEmpty
        omega
      subst hOld
      exact ih _ fun e he => h e (List.mem_cons_of_mem _ he)

theorem after_eq_before (offset : Nat) {σ : Script} (h : σ.edits offset = []) : σ.after = σ.before := by
  induction σ generalizing offset with
  | nil => rfl
  | cons c σ ih =>
    cases c with
    | kept s => exact congrArg (s ++ ·) (ih _ h)
    | replaced old new => cases h

end Script

namespace Verdict

variable (engine : Engine) (o : Options) (v : Verdict)

def removal (j : Judged) : Span := (v.element.toTag.deletion j.attr.span).shift v.element.start

/-- The classes go to the end of the last class list, or into a new one behind the last attribute. -/
def insertion : Edit :=
  match (Judged.lastClassList? engine o v.judged).bind (·.attr.valueSpan?) with
  | some r =>
    ⟨⟨v.element.start + (v.element.attrsOffset + r.stop), v.element.start + (v.element.attrsOffset + r.stop),
      Nat.le_refl _⟩,
      if r.start = r.stop then Tag.joinTokens v.tokens else ' ' :: Tag.joinTokens v.tokens⟩
  | none =>
    ⟨⟨v.element.start + v.element.insertionPoint, v.element.start + v.element.insertionPoint, Nat.le_refl _⟩,
      " class=\x22".toList ++ Tag.joinTokens v.tokens ++ ['\x22']⟩

/-- All that is changed in a tag: nothing unless a token was confirmed. -/
def changes : List Edit :=
  if v.tokens = [] then []
  else ((v.judged.filter (·.isFolded o)).map fun j => ⟨v.removal j, []⟩) ++ [v.insertion engine o]

theorem shift_classEdit :
    (v.element.toTag.classEdit (v.element.toTag.gather engine o v.judged)).shift v.element.start =
      v.insertion engine o := by
  unfold Tag.classEdit insertion
  rw [Tag.classList?_gather, Tag.tokens_gather, ← tokens]
  cases Judged.lastClassList? engine o v.judged with
  | none => rfl
  | some k =>
    cases hr : k.attr.valueSpan? with
    | none => simp [hr, Edit.shift, Span.shift]
    | some r => simp [hr, Edit.shift, Span.shift, Span.isEmpty]

theorem edits_eq_changes : v.edits engine o = v.changes engine o := by
  unfold edits Tag.foldEdits changes
  rw [Tag.tokens_gather, ← tokens]
  by_cases hTokens : v.tokens = []
  · simp [hTokens]
  · have hEmpty : ¬ v.tokens.isEmpty = true := by simpa using hTokens
    rw [if_neg hEmpty, if_neg hTokens, Tag.edits, Tag.deletions_gather, List.map_append, List.map_map,
      List.map_map, List.map_singleton, shift_classEdit]
    rfl

variable {engine o v}

theorem mem_changes_inside (hSound : v.Sound engine o) {e : Edit} (he : e ∈ v.changes engine o) :
    v.element.span.start < e.span.start ∧ e.span.stop < v.element.span.stop := by
  rw [← edits_eq_changes, edits] at he
  obtain ⟨f, hf, rfl⟩ := List.mem_map.1 he
  unfold Tag.foldEdits at hf
  split at hf
  · cases hf
  · obtain ⟨hStart, hStop⟩ := Tag.inside_of_mem_edits hSound hf
    simp only [Edit.span_shift, Span.start_shift, Span.stop_shift, Element.span]
    omega

theorem span_of_mem_changes {e : Edit} (hKeep : o.deleteFolded = false) (he : e ∈ v.changes engine o) :
    e.span.start = e.span.stop := by
  unfold changes at he
  split at he
  · cases he
  · have hNone : v.judged.filter (·.isFolded o) = [] := by simp [Judged.isFolded, hKeep]
    rw [hNone, List.map_nil, List.nil_append, List.mem_singleton] at he
    subst he
    unfold insertion
    split <;> rfl

end Verdict

/-- What a script does to a document in which `vs` are the judged elements: its edits are the changes of
the elements and no others, and these stand where the parts of the tags are. -/
structure Script.Folds (engine : Engine) (o : Options) (source : Text) (vs : List Verdict) (σ : Script) :
    Prop where
  before : σ.before = source
  edits : (σ.edits 0).Perm (vs.flatMap (·.changes engine o))
  inside : ∀ v ∈ vs, ∀ e ∈ v.changes engine o,
    v.element.span.start < e.span.start ∧ e.span.stop < v.element.span.stop
  removal : ∀ v ∈ vs, ∀ j ∈ v.judged, ∃ lead, IsLead lead ∧
    (v.removal j).slice? source = some (lead ++ j.attr.raw)
  classList : ∀ v ∈ vs, ∀ k, Judged.lastClassList? engine o v.judged = some k →
    k ∈ v.judged ∧ k.isFolded o = false ∧ ∃ r value, k.attr.valueSpan? = some r ∧ k.attr.value? = some value ∧
      ((r.shift v.element.attrsOffset).shift v.element.start).slice? source = some value

variable {engine : Engine} {o : Options} {source out : Text} {vs : List Verdict} {σ : Script}

theorem Script.folds_of_sound (hElements : vs.map (·.element) = elements source)
    (hSound : ∀ v ∈ vs, v.Sound engine o) (hBefore : σ.before = source)
    (hEdits : (σ.edits 0).Perm (vs.flatMap (·.edits engine o))) : σ.Folds engine o source vs := by
  have hMem : ∀ v ∈ vs, v.element ∈ elements source := by
    intro v hv
    rw [← hElements]
    exact List.mem_map_of_mem hv
  refine ⟨hBefore, ?_, fun v hv e he => Verdict.mem_changes_inside (hSound v hv) he, ?_, ?_⟩
  · simpa only [Verdict.edits_eq_changes] using hEdits
  · intro v hv j hj
    obtain ⟨lead, hLead, hSlice⟩ := Tag.exists_slice?_deletion (Tag.attr_mem_of_judges (hSound v hv) hj)
    exact ⟨lead, hLead, slice?_shift_of_mem_elements (hMem v hv) hSlice⟩
  · intro v hv k hk
    obtain ⟨js₁, js₂, hSplit, hClass, -⟩ := exists_of_getLast?_filter hk
    have hkMem : k ∈ v.judged := hSplit ▸ List.mem_append_right _ List.mem_cons_self
    refine ⟨hkMem, Tag.isFolded_eq_false_of_isClassList (hSound v hv) hkMem hClass, ?_⟩
    obtain ⟨q, hq⟩ := exists_quoted_of_existingClass (by simpa [Judged.isClassList] using hClass)
    obtain ⟨r, hr, hSlice, -, -⟩ :=
      Attribute.slice?_valueSpan (Tag.attr_mem_of_judges (hSound v hv) hkMem) hq
    refine ⟨r, q.value, hr, by simp [Attribute.value?, hq], ?_⟩
    exact slice?_shift_of_mem_elements (hMem v hv) (Tag.slice?_shift_attrsOffset hSlice)

namespace Script.Folds

variable (h : σ.Folds engine o source vs)
include h

theorem common_eq_source (hKeep : o.deleteFolded = false) : σ.common = source := by
  rw [← h.before]
  apply Script.common_eq_before 0
  intro e he
  obtain ⟨v, -, he⟩ := List.mem_flatMap.1 (h.edits.subset he)
  exact Verdict.span_of_mem_changes hKeep he

theorem after_eq_source (hNone : ∀ v ∈ vs, v.tokens = []) : σ.after = source := by
  have hEmpty : vs.flatMap (·.changes engine o) = [] := by
    apply List.flatMap_eq_nil_iff.2
    intro v hv
    rw [Verdict.changes, if_pos (hNone v hv)]
  rw [← h.before]
  apply Script.after_eq_before 0
  exact List.perm_nil.1 (hEmpty ▸ h.edits)

end Script.Folds

/-- If the transformation gives an output, a script that folds the judged elements and does nothing else
leads to it. Where nothing is deleted, the source is what is left of the output without the insertions;
where no token is confirmed, the output is the source. -/
theorem exists_folds_of_transform (h : transform engine o source = .ok out) :
    ∃ (vs : List Verdict) (asked : List Text) (σ : Script),
      (judgeAll engine o (elements source)).run [] = .ok (vs, asked) ∧
      vs.map (·.element) = elements source ∧
      (∀ v ∈ vs, v.judged.map (·.attr) = attributes v.element.attrs) ∧
      σ.Folds engine o source vs ∧ σ.after = out ∧
      (o.deleteFolded = false → σ.common = source) ∧ ((∀ v ∈ vs, v.tokens = []) → out = source) := by
  rw [transform_eq_map_onePass, onePass_eq 0] at h
  cases hRun : (judgeAll engine o (elementsFrom 0 source) >>= fun vs =>
      Ask.placing (Edit.applyFrom 0 (vs.filterMap (·.planned? engine o)) source)).run [] with
  | error e =>
    rw [hRun] at h
    cases h
  | ok p =>
    obtain ⟨written, asked⟩ := p
    rw [hRun] at h
    cases h
    obtain ⟨vs, middle, hJudge, hApply⟩ := Ask.run_bind_eq_ok_iff.1 hRun
    obtain ⟨hElements, hSound⟩ := sound_of_run_judgeAll hJudge
    obtain ⟨σ, hBefore, hAfter, hEdits⟩ := exists_documentScript hElements hSound
    rw [hAfter] at hApply
    obtain ⟨rfl, rfl⟩ := Ask.run_pure_eq_ok_iff.1 hApply
    have hFolds := Script.folds_of_sound hElements hSound hBefore hEdits
    exact ⟨vs, _, σ, hJudge, hElements, fun v hv => (hSound v hv).attrs, hFolds, rfl,
      hFolds.common_eq_source, hFolds.after_eq_source⟩

def Options.deleting : Options where
  deleteFolded := true

theorem exists_folds_of_transform_two_tags :
    transform (.fixed fun t => .ok (t = "p-1".toList)) .deleting
      "<a class=\x22x\x22 p=\x221\x22 m=\x222\x22>p<b p=1 p=\x221\x22/>".toList =
        .ok "<a class=\x22x p-1\x22 m=\x222\x22>p<b p=1 class=\x22p-1\x22/>".toList ∧
    ∃ (vs : List Verdict) (asked : List Text) (σ : Script),
      (judgeAll (.fixed fun t => .ok (t = "p-1".toList)) .deleting
        (elements "<a class=\x22x\x22 p=\x221\x22 m=\x222\x22>p<b p=1 p=\x221\x22/>".toList)).run [] =
          .ok (vs, asked) ∧
      vs.map (·.element) =
        elements "<a class=\x22x\x22 p=\x221\x22 m=\x222\x22>p<b p=1 p=\x221\x22/>".toList ∧
      (∀ v ∈ vs, v.judged.map (·.attr) = attributes v.element.attrs) ∧
      σ.Folds (.fixed fun t => .ok (t = "p-1".toList)) .deleting
        "<a class=\x22x\x22 p=\x221\x22 m=\x222\x22>p<b p=1 p=\x221\x22/>".toList vs ∧
      σ.after = "<a class=\x22x p-1\x22 m=\x222\x22>p<b p=1 class=\x22p-1\x22/>".toList ∧
      (Options.deleting.deleteFolded = false →
        σ.common = "<a class=\x22x\x22 p=\x221\x22 m=\x222\x22>p<b p=1 p=\x221\x22/>".toList) ∧
      ((∀ v ∈ vs, v.tokens = []) → "<a class=\x22x p-1\x22 m=\x222\x22>p<b p=1 class=\x22p-1\x22/>".toList =
        "<a class=\x22x\x22 p=\x221\x22 m=\x222\x22>p<b p=1 p=\x221\x22/>".toList) := by
  have hRun : transform (.fixed fun t => .ok (t = "p-1".toList)) .deleting
      "<a class=\x22x\x22 p=\x221\x22 m=\x222\x22>p<b p=1 p=\x221\x22/>".toList =
        .ok "<a class=\x22x p-1\x22 m=\x222\x22>p<b p=1 class=\x22p-1\x22/>".toList := by
    rw [transform_eq_map_onePass]
    decide +kernel
  exact ⟨hRun, exists_folds_of_transform hRun⟩

end ClassFold

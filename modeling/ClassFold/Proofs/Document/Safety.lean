import ClassFold.Proofs.Bytes.Attributes
import ClassFold.Proofs.Bytes.Edits
import ClassFold.Proofs.Bytes.Elements
import ClassFold.Proofs.Document.OnePass

/-!
# Nothing goes wrong

On every document the checked readers run to their end without a fault and read what the unchecked ones
read; what they make of it is cut and edited in order and between characters. So the transformation
either gives a text or fails as its engine did.
-/

set_option autoImplicit false

namespace ClassFold

/-- The edits that a tag gets from a contribution cannot get into each other's way. -/
structure Contribution.Safe (t : Tag) (c : Contribution) : Prop where
  increasing : c.deletions.Pairwise fun d d' => d.stop ≤ d'.start
  nonempty : ∀ d ∈ c.deletions, d.start < d.stop
  inside : ∀ d ∈ c.deletions, t.attrsOffset ≤ d.start + 1 ∧ d.stop < t.text.size ∧
    ∃ x, d.slice? t.text = some x
  classList : ∀ r, c.classList? = some r → ∃ a ∈ attributes t.attrs,
    a.valueSpan?.map (·.shift t.attrsOffset) = some r ∧
    ∀ d ∈ c.deletions, d.stop ≤ t.attrsOffset + a.span.start ∨ t.attrsOffset + a.span.stop ≤ d.start
  place : ∀ d ∈ c.deletions, d.stop ≤ t.place c ∨ t.place c ≤ d.start
  sorted : ((t.edits c).mergeSort Edit.standsBefore).Pairwise fun e e' => e.span.stop ≤ e'.span.start
  edited : ∃ s, t.edited c = .ok s ∧
    Checked.applyEdits t.text 0 ((t.edits c).mergeSort Edit.standsBefore) = .ok s

variable {engine : Engine} {o : Options} {asked asked' : List Text}

theorem Tag.safe_gather {t : Tag} {js : List Judged} (hJudges : Judges engine o (attributes t.attrs) js) :
    (t.gather engine o js).Safe t where
  increasing := pairwise_deletions hJudges
  nonempty _ hd := start_lt_stop_of_mem_deletions hJudges hd
  inside d hd := by
    obtain ⟨j, hj, -, rfl⟩ := exists_of_mem_deletions hd
    have hMem := attr_mem_of_judges hJudges hj
    obtain ⟨lead, -, hSlice⟩ := exists_slice?_deletion hMem
    exact ⟨attrsOffset_le_start_deletion _, stop_deletion_lt_size hMem, _, hSlice⟩
  classList r hr := by
    rcases place_gather hJudges with ⟨hNone, -⟩ | ⟨k, q, r', hLast, -, hValue, -, -, -, hClass, -⟩
    · rw [classList?_gather, hNone] at hr
      cases hr
    · obtain ⟨js₁, js₂, hSplit, -, -⟩ := exists_of_getLast?_filter hLast
      obtain ⟨ds₁, ds₂, hDeletions, hBefore, hBehind⟩ := exists_deletions_around hJudges hLast
      have hkMem : k ∈ js := hSplit ▸ List.mem_append_right _ List.mem_cons_self
      refine ⟨k.attr, attr_mem_of_judges hJudges hkMem, ?_, ?_⟩
      · rw [hValue, ← hr, hClass]
        rfl
      · intro d hd
        rw [hDeletions] at hd
        rcases List.mem_append.1 hd with hd | hd
        · exact Or.inl (hBefore d hd)
        · exact Or.inr (hBehind d hd)
  place d hd := by
    obtain ⟨ds₁, ds₂, hSplit, hBefore, hBehind⟩ := exists_deletions_eq_append hJudges
    rw [hSplit] at hd
    rcases List.mem_append.1 hd with hd | hd
    · exact Or.inl (hBefore d hd)
    · exact Or.inr (hBehind d hd)
  sorted := by
    rw [mergeSort_edits hJudges]
    exact (pairwise_orderedEdits hJudges).imp And.left
  edited := by
    obtain ⟨σ, -, -, hApply⟩ := exists_script hJudges
    refine ⟨σ.after, (edited_gather hJudges).trans hApply, ?_⟩
    rw [mergeSort_edits hJudges]
    exact Checked.applyEdits_eq_ok [] t.text hApply

theorem Tag.safe_of_run_resolve {t : Tag} {c : Contribution}
    (h : (t.resolve engine o).run asked = .ok (c, asked')) : c.Safe t := by
  rw [resolve_eq_gather, map_eq_pure_bind] at h
  obtain ⟨js, middle, hJudge, h⟩ := Ask.run_bind_eq_ok_iff.1 h
  obtain ⟨rfl, -⟩ := Ask.run_pure_eq_ok_iff.1 h
  exact safe_gather (judges_of_run hJudge)

theorem safe_of_run_planOf {source : Text} {plan : Plan}
    (h : (planOf engine o source).run asked = .ok (plan, asked')) :
    (plan.Pairwise fun e e' => e.span.start < e.span.stop ∧ e.span.stop ≤ e'.span.start) ∧
      ∃ out, plan.apply source = .ok out ∧
        Checked.applyEdits source 0 (plan.mergeSort Edit.startsBefore) = .ok out := by
  rw [planOf_eq, map_eq_pure_bind] at h
  obtain ⟨vs, middle, hJudge, h⟩ := Ask.run_bind_eq_ok_iff.1 h
  obtain ⟨rfl, -⟩ := Ask.run_pure_eq_ok_iff.1 h
  obtain ⟨hElements, -⟩ := sound_of_run_judgeAll hJudge
  obtain ⟨output, hApply⟩ := exists_applyFrom_of_run_judgeAll hJudge
  refine ⟨Verdict.pairwise_entries hElements, output, ?_, ?_⟩
  · rw [Plan.apply, Verdict.mergeSort_entries hElements, hApply]
  · rw [Verdict.mergeSort_entries hElements]
    exact Checked.applyEdits_eq_ok [] source hApply

theorem transform_of_run_planOf {source out : Text} {plan : Plan}
    (h : (planOf engine o source).run [] = .ok (plan, asked')) (hApply : plan.apply source = .ok out) :
    transform engine o source = .ok out := by
  have hRun : (runOn engine o source).run [] = .ok (out, asked') :=
    Ask.run_bind_eq_ok_iff.2 ⟨plan, asked', h, by rw [hApply]; rfl⟩
  rw [transform, outcome, hRun]
  rfl

theorem failsWith_of_transform {source : Text} {e : Error} (h : transform engine o source = .error e) :
    engine.FailsWith e := by
  rw [transform_eq_map_onePass, onePass_eq 0] at h
  cases hRun : (judgeAll engine o (elementsFrom 0 source) >>= fun vs =>
      Ask.placing (Edit.applyFrom 0 (vs.filterMap (·.planned? engine o)) source)).run [] with
  | ok p =>
    rw [hRun] at h
    cases h
  | error e' =>
    rw [hRun] at h
    cases h
    rcases Ask.run_bind_eq_error_iff.1 hRun with hJudge | ⟨vs, middle, hJudge, hApply⟩
    · exact failsWith_of_run_judgeAll hJudge
    · obtain ⟨output, hOk⟩ := exists_applyFrom_of_run_judgeAll hJudge
      rw [hOk] at hApply
      exact absurd hApply Ask.run_pure_ne_error

/-- The readers of bytes do not fault and the edits do not overlap, for every document, all options and
every engine. The only way to fail is the engine's. -/
theorem transform_safe (engine : Engine) (o : Options) (source : Text) :
    Checked.collect source.bytes.length (Checked.elementStep source) 0 =
        .ok ((elements source).map Element.record) ∧
      (∀ e ∈ elements source,
        Checked.collect e.attrs.bytes.length (Checked.attributeStep e.attrs) 0 =
            .ok ((attributes e.attrs).map Attribute.record) ∧
          Checked.insertionPoint e.text e.attrsOffset = .ok e.insertionPoint ∧
          (∀ a ∈ attributes e.attrs,
            Checked.removeFirst o.namePrefix a.name = .ok (removeFirst o.namePrefix a.name) ∧
              Checked.stripBinding (o.plainName a.name) = .ok (stripBinding (o.plainName a.name)) ∧
              Checked.deletion e.text e.attrsOffset a.span =
                .ok ((e.deletion a.span).start, (e.deletion a.span).stop)) ∧
          ∀ c asked asked', (e.toTag.resolve engine o).run asked = .ok (c, asked') → c.Safe e.toTag) ∧
      (∀ plan asked, (planOf engine o source).run [] = .ok (plan, asked) →
        (plan.Pairwise fun e e' => e.span.start < e.span.stop ∧ e.span.stop ≤ e'.span.start) ∧
          ∃ out, transform engine o source = .ok out ∧
            Checked.applyEdits source 0 (plan.mergeSort Edit.startsBefore) = .ok out) ∧
      ∀ e, transform engine o source = .error e → engine.FailsWith e := by
  refine ⟨collect_elementStep source, ?_, ?_, fun e h => failsWith_of_transform h⟩
  · intro e _
    refine ⟨collect_attributeStep e.attrs, Checked.insertionPoint_eq_ok e.toTag, ?_,
      fun c asked asked' h => Tag.safe_of_run_resolve h⟩
    intro a ha
    exact ⟨Checked.removeFirst_eq_ok _ _, Checked.stripBinding_eq_ok _, Checked.deletion_eq_ok ha⟩
  · intro plan asked h
    obtain ⟨hOrder, out, hApply, hChecked⟩ := safe_of_run_planOf h
    exact ⟨hOrder, out, transform_of_run_planOf h hApply, hChecked⟩

end ClassFold

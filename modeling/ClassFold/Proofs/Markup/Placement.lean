import ClassFold.Proofs.Edit.Script
import ClassFold.Proofs.Engine.Run
import ClassFold.Proofs.Markup.Deletion

/-!
# The edits of a tag

The judged attributes of a tag give its deletions and the place of its classes. The place is never
inside a deletion: it is in the last class list, which is not deleted, or behind every attribute. So the
edits of a tag always apply, and they make up a script of its text.
-/

set_option autoImplicit false

namespace ClassFold

theorem exists_quoted_of_existingClass {engine : Engine} {o : Options} {a : Attribute}
    (h : (classify engine o a).disposition = .existingClass) : ∃ q, a.quoted? = some q := by
  cases hq : a.quoted? with
  | some q => exact ⟨q, rfl⟩
  | none =>
    unfold classify at h
    simp only [Attribute.value?, hq, Option.map_none] at h
    split at h
    · cases h
    · split at h <;> cases h

theorem candidates_of_existingClass {engine : Engine} {o : Options} {a : Attribute}
    (h : (classify engine o a).disposition = .existingClass) : candidates engine o a = [] := by
  simp [candidates, h]

namespace Attribute

theorem slice?_valueSpan {region : Text} {a : Attribute} (ha : a ∈ attributes region) {q : Quoted}
    (hq : a.quoted? = some q) :
    ∃ r : Span, a.valueSpan? = some r ∧ r.slice? region = some q.value ∧
      a.span.start ≤ r.start ∧ r.stop ≤ a.span.stop := by
  obtain ⟨x, y, r, hRegion, hSpan, hStart, hStop, hFirst, hLast⟩ := exists_valueSpan_of_mem_attributes ha hq
  refine ⟨r, hSpan, Span.slice?_eq_some_iff.2 ⟨x ++ [q.quote], q.quote :: y, ?_, hStart, ?_⟩, hFirst, hLast⟩
  · simp [hRegion]
  · rw [hStart, hStop]

end Attribute

theorem exists_of_getLast?_filter {α : Type} {p : α → Bool} {as : List α} {k : α}
    (h : (as.filter p).getLast? = some k) :
    ∃ as₁ as₂, as = as₁ ++ k :: as₂ ∧ p k = true ∧ ∀ a ∈ as₂, ¬ p a = true := by
  obtain ⟨ys, hys⟩ := List.getLast?_eq_some_iff.1 h
  obtain ⟨l₁, l₂, rfl, -, hLast⟩ := List.filter_eq_append_iff.1 hys
  obtain ⟨l₃, l₄, rfl, -, hk, hNone⟩ := List.filter_eq_cons_iff.1 hLast
  exact ⟨l₁ ++ l₃, l₄, by simp, hk, List.filter_eq_nil_iff.1 hNone⟩

namespace Judged

def isClassList (engine : Engine) (o : Options) (j : Judged) : Bool :=
  (classify engine o j.attr).disposition = .existingClass

/-- Of several class lists the last one counts. -/
def lastClassList? (engine : Engine) (o : Options) (js : List Judged) : Option Judged :=
  (js.filter (·.isClassList engine o)).getLast?

end Judged

/-- The classes as they are written: into an empty class list, behind the classes of another, or in an
attribute of their own. -/
def Contribution.classText (c : Contribution) : Text :=
  match c.classList? with
  | some r => if r.start = r.stop then Tag.joinTokens c.tokens else ' ' :: Tag.joinTokens c.tokens
  | none => " class=\x22".toList ++ Tag.joinTokens c.tokens ++ ['\x22']

namespace Tag

def gather (engine : Engine) (o : Options) (t : Tag) (js : List Judged) : Contribution :=
  .concat (js.map (·.contribution engine o t))

variable {engine : Engine} {o : Options} {t : Tag} {js : List Judged}

@[simp] theorem tokens_gather : (t.gather engine o js).tokens = js.flatMap (·.confirmed) := by
  induction js with
  | nil => rfl
  | cons j js ih =>
    rw [gather, List.map_cons, Contribution.concat, Contribution.tokens_append]
    exact congrArg (j.confirmed ++ ·) ih

theorem deletions_gather :
    (t.gather engine o js).deletions =
      (js.filter (·.isFolded o)).map fun j => t.deletion j.attr.span := by
  induction js with
  | nil => rfl
  | cons j js ih =>
    rw [gather, List.map_cons, Contribution.concat, Contribution.deletions_append]
    change (if j.isFolded o then [t.deletion j.attr.span] else []) ++ _ = _
    rw [List.filter_cons]
    split
    · exact congrArg (t.deletion j.attr.span :: ·) ih
    · exact ih

theorem classList?_gather :
    (t.gather engine o js).classList? =
      (Judged.lastClassList? engine o js).bind fun k =>
        k.attr.valueSpan?.map (·.shift t.attrsOffset) := by
  induction js with
  | nil => rfl
  | cons j js ih =>
    rw [gather, List.map_cons, Contribution.concat, Contribution.classList?_append]
    change (t.gather engine o js).classList?.or (if (classify engine o j.attr).disposition = .existingClass then
      j.attr.valueSpan?.map (·.shift t.attrsOffset) else none) = _
    rw [ih, Judged.lastClassList?, Judged.lastClassList?, List.filter_cons]
    by_cases hj : j.isClassList engine o = true
    · have hClass : (classify engine o j.attr).disposition = .existingClass := by
        simpa [Judged.isClassList] using hj
      rw [if_pos hj, if_pos hClass, List.getLast?_cons]
      cases hLast : (js.filter (·.isClassList engine o)).getLast? with
      | none => rfl
      | some k =>
        obtain ⟨-, -, -, hk, -⟩ := exists_of_getLast?_filter hLast
        have hkClass : (classify engine o k.attr).disposition = .existingClass := by
          simpa [Judged.isClassList] using hk
        obtain ⟨q, hq⟩ := exists_quoted_of_existingClass hkClass
        simp [Attribute.valueSpan?, hq]
    · have hClass : ¬ (classify engine o j.attr).disposition = .existingClass := by
        simpa [Judged.isClassList] using hj
      rw [if_neg hj, if_neg hClass, Option.or_none]

theorem resolve_eq_gather (engine : Engine) (o : Options) (t : Tag) :
    t.resolve engine o = t.gather engine o <$> t.judge engine o := resolve_eq engine o t

/-- The offset at which the classes of a tag are put in. -/
def place (t : Tag) (c : Contribution) : Nat := (c.classList?.map (·.stop)).getD t.insertionPoint

theorem classEdit_eq (t : Tag) (c : Contribution) :
    t.classEdit c = ⟨⟨t.place c, t.place c, Nat.le_refl _⟩, c.classText⟩ := by
  unfold classEdit place Contribution.classText
  cases c.classList? with
  | none => rfl
  | some r => simp [Span.isEmpty]

theorem span_classEdit (t : Tag) (c : Contribution) :
    (t.classEdit c).span = ⟨t.place c, t.place c, Nat.le_refl _⟩ := by
  rw [classEdit_eq]

theorem pairwise_of_judges (hJudges : Judges engine o (attributes t.attrs) js) :
    js.Pairwise fun j k => j.attr.span.stop ≤ k.attr.span.start := by
  have h := pairwise_attributes t.attrs
  rw [← hJudges.attrs] at h
  exact List.pairwise_map.1 h

theorem attr_mem_of_judges (hJudges : Judges engine o (attributes t.attrs) js) {j : Judged}
    (hj : j ∈ js) : j.attr ∈ attributes t.attrs := by
  rw [← hJudges.attrs]
  exact List.mem_map_of_mem hj

theorem exists_of_mem_deletions {d : Span} (hd : d ∈ (t.gather engine o js).deletions) :
    ∃ j ∈ js, j.isFolded o = true ∧ d = t.deletion j.attr.span := by
  rw [deletions_gather] at hd
  obtain ⟨j, hj, rfl⟩ := List.mem_map.1 hd
  obtain ⟨hj, hFolded⟩ := List.mem_filter.1 hj
  exact ⟨j, hj, hFolded, rfl⟩

theorem pairwise_deletions (hJudges : Judges engine o (attributes t.attrs) js) :
    (t.gather engine o js).deletions.Pairwise fun d d' => d.stop ≤ d'.start := by
  rw [deletions_gather, List.pairwise_map]
  apply ((pairwise_of_judges hJudges).filter _).imp_of_mem
  intro j k hj hk hle
  rw [stop_deletion]
  exact le_start_deletion (attr_mem_of_judges hJudges (List.mem_of_mem_filter hj))
    (attr_mem_of_judges hJudges (List.mem_of_mem_filter hk)) hle

/-- A class list has no candidates, so it is not deleted. -/
theorem isFolded_eq_false_of_isClassList (hJudges : Judges engine o (attributes t.attrs) js)
    {k : Judged} (hk : k ∈ js) (hClass : k.isClassList engine o = true) : k.isFolded o = false := by
  have hExisting : (classify engine o k.attr).disposition = .existingClass := by
    simpa [Judged.isClassList] using hClass
  have hSublist := hJudges.sublist k hk
  rw [candidates_of_existingClass hExisting] at hSublist
  simp [Judged.isFolded, List.sublist_nil.1 hSublist]

theorem exists_deletions_around (hJudges : Judges engine o (attributes t.attrs) js) {k : Judged}
    (hLast : Judged.lastClassList? engine o js = some k) :
    ∃ ds₁ ds₂, (t.gather engine o js).deletions = ds₁ ++ ds₂ ∧
      (∀ d ∈ ds₁, d.stop ≤ t.attrsOffset + k.attr.span.start) ∧
      (∀ d ∈ ds₂, t.attrsOffset + k.attr.span.stop ≤ d.start) := by
  obtain ⟨js₁, js₂, rfl, hClass, -⟩ := exists_of_getLast?_filter hLast
  have hkMem : k ∈ js₁ ++ k :: js₂ := List.mem_append_right _ List.mem_cons_self
  have hkAttr := attr_mem_of_judges hJudges hkMem
  have hFolded := isFolded_eq_false_of_isClassList hJudges hkMem hClass
  obtain ⟨-, hBehind, hBefore⟩ := List.pairwise_append.1 (pairwise_of_judges hJudges)
  refine ⟨(js₁.filter (·.isFolded o)).map fun j => t.deletion j.attr.span,
    (js₂.filter (·.isFolded o)).map fun j => t.deletion j.attr.span, ?_, ?_, ?_⟩
  · rw [deletions_gather, List.filter_append, List.filter_cons_of_neg (by simp [hFolded]),
      List.map_append]
  · intro d hd
    obtain ⟨j, hj, rfl⟩ := List.mem_map.1 hd
    have hle := hBefore j (List.mem_of_mem_filter hj) k List.mem_cons_self
    rw [stop_deletion]
    omega
  · intro d hd
    obtain ⟨j, hj, rfl⟩ := List.mem_map.1 hd
    have hj := List.mem_of_mem_filter hj
    exact le_start_deletion hkAttr
      (attr_mem_of_judges hJudges (List.mem_append_right _ (List.mem_cons_of_mem _ hj)))
      ((List.pairwise_cons.1 hBehind).1 j hj)

/-- The place of the classes, in the last class list or behind every attribute. -/
theorem place_gather (hJudges : Judges engine o (attributes t.attrs) js) :
    (Judged.lastClassList? engine o js = none ∧
      t.place (t.gather engine o js) = t.insertionPoint) ∨
    ∃ k q r, Judged.lastClassList? engine o js = some k ∧ k.attr.quoted? = some q ∧
      k.attr.valueSpan? = some r ∧ r.slice? t.attrs = some q.value ∧
      k.attr.span.start ≤ r.start ∧ r.stop ≤ k.attr.span.stop ∧
      (t.gather engine o js).classList? = some (r.shift t.attrsOffset) ∧
      t.place (t.gather engine o js) = t.attrsOffset + r.stop := by
  cases hLast : Judged.lastClassList? engine o js with
  | none => exact Or.inl ⟨rfl, by simp [place, classList?_gather, hLast]⟩
  | some k =>
    obtain ⟨js₁, js₂, hSplit, hClass, -⟩ := exists_of_getLast?_filter hLast
    have hExisting : (classify engine o k.attr).disposition = .existingClass := by
      simpa [Judged.isClassList] using hClass
    obtain ⟨q, hq⟩ := exists_quoted_of_existingClass hExisting
    have hkAttr := attr_mem_of_judges hJudges (hSplit ▸ List.mem_append_right _ List.mem_cons_self)
    obtain ⟨r, hr, hSlice, hStart, hStop⟩ := Attribute.slice?_valueSpan hkAttr hq
    have hClassList : (t.gather engine o js).classList? = some (r.shift t.attrsOffset) := by
      simp [classList?_gather, hLast, hr]
    exact Or.inr ⟨k, q, r, rfl, hq, hr, hSlice, hStart, hStop, hClassList, by simp [place, hClassList]⟩

theorem exists_deletions_eq_append (hJudges : Judges engine o (attributes t.attrs) js) :
    ∃ ds₁ ds₂, (t.gather engine o js).deletions = ds₁ ++ ds₂ ∧
      (∀ d ∈ ds₁, d.stop ≤ t.place (t.gather engine o js)) ∧
      (∀ d ∈ ds₂, t.place (t.gather engine o js) ≤ d.start) := by
  rcases place_gather hJudges with ⟨-, hPlace⟩ | ⟨k, q, r, hLast, -, -, hSlice, hStart, hStop, -, hPlace⟩
  · refine ⟨_, [], (List.append_nil _).symm, ?_, by simp⟩
    intro d hd
    obtain ⟨j, hj, -, rfl⟩ := exists_of_mem_deletions hd
    rw [hPlace]
    exact stop_deletion_le_insertionPoint (attr_mem_of_judges hJudges hj)
  · obtain ⟨ds₁, ds₂, hSplit, hBefore, hBehind⟩ := exists_deletions_around hJudges hLast
    have hr := r.start_le_stop
    refine ⟨ds₁, ds₂, hSplit, ?_, ?_⟩
    · intro d hd
      have hle := hBefore d hd
      omega
    · intro d hd
      have hle := hBehind d hd
      omega

theorem slice?_place (hJudges : Judges engine o (attributes t.attrs) js) :
    (Span.mk (t.place (t.gather engine o js)) (t.place (t.gather engine o js)) (Nat.le_refl _)).slice? t.text =
      some [] := by
  rcases place_gather hJudges with ⟨-, hPlace⟩ | ⟨k, q, r, -, -, -, hSlice, -, -, -, hPlace⟩
  · obtain ⟨tail, hTail⟩ := exists_eq_trimRegion_append t.attrs
    refine Span.slice?_eq_some_iff.2 ⟨t.head ++ trimRegion t.attrs, tail ++ ['>'], ?_, ?_, ?_⟩
    · calc
        t.text = t.head ++ ((trimRegion t.attrs ++ tail) ++ ['>']) := by rw [← hTail, text_eq]
        _ = t.head ++ trimRegion t.attrs ++ ([] ++ (tail ++ ['>'])) := by simp
    · simp [hPlace, insertionPoint, attrsOffset]
    · simp [hPlace, insertionPoint, attrsOffset]
  · obtain ⟨a, b, hAttrs, ha, hb⟩ := Span.slice?_eq_some_iff.1 hSlice
    refine Span.slice?_eq_some_iff.2 ⟨t.head ++ (a ++ q.value), b ++ ['>'], ?_, ?_, ?_⟩
    · simp [text_eq, hAttrs]
    · simp only [Text.size_append, hPlace, attrsOffset]
      omega
    · simp only [Text.size_append, Text.size_nil, hPlace, attrsOffset]
      omega

theorem two_le_attrsOffset (t : Tag) : 2 ≤ t.attrsOffset := by
  have hLt : '<'.utf8Size = 1 := by decide
  have hGap := t.gap.utf8Size_pos
  simp only [attrsOffset, head, Text.size_append, Text.size_cons, Text.size_nil]
  omega

theorem place_lt_size (hJudges : Judges engine o (attributes t.attrs) js) :
    t.attrsOffset ≤ t.place (t.gather engine o js) ∧ t.place (t.gather engine o js) < t.text.size := by
  rw [size_text]
  rcases place_gather hJudges with ⟨-, hPlace⟩ | ⟨k, q, r, -, -, -, hSlice, -, -, -, hPlace⟩
  · obtain ⟨tail, hTail⟩ := exists_eq_trimRegion_append t.attrs
    have hSize := congrArg Text.size hTail
    rw [Text.size_append] at hSize
    rw [hPlace, insertionPoint]
    omega
  · have hle := Span.stop_le_of_slice? hSlice
    rw [hPlace]
    omega

theorem inside_of_mem_edits (hJudges : Judges engine o (attributes t.attrs) js) {e : Edit}
    (he : e ∈ t.edits (t.gather engine o js)) : 0 < e.span.start ∧ e.span.stop < t.text.size := by
  have hHead := two_le_attrsOffset t
  rcases List.mem_append.1 he with he | he
  · obtain ⟨d, hd, rfl⟩ := List.mem_map.1 he
    obtain ⟨j, hj, -, rfl⟩ := exists_of_mem_deletions hd
    have hStart := attrsOffset_le_start_deletion (t := t) j.attr.span
    exact ⟨by simp only; omega, stop_deletion_lt_size (attr_mem_of_judges hJudges hj)⟩
  · rw [List.mem_singleton.1 he, span_classEdit]
    obtain ⟨hOffset, hSize⟩ := place_lt_size hJudges
    exact ⟨by simp only; omega, hSize⟩

/-- The edits of a tag in order: deletions before the place, the classes, deletions behind it. -/
def orderedEdits (t : Tag) (c : Contribution) : List Edit :=
  (c.deletions.filter (·.stop ≤ t.place c)).map (⟨·, []⟩) ++
    t.classEdit c :: (c.deletions.filter fun d => !decide (d.stop ≤ t.place c)).map (⟨·, []⟩)

theorem start_lt_stop_of_mem_deletions (hJudges : Judges engine o (attributes t.attrs) js) {d : Span}
    (hd : d ∈ (t.gather engine o js).deletions) : d.start < d.stop := by
  obtain ⟨j, hj, -, rfl⟩ := exists_of_mem_deletions hd
  exact start_deletion_lt_stop (attr_mem_of_judges hJudges hj)

theorem exists_orderedEdits (hJudges : Judges engine o (attributes t.attrs) js) :
    ∃ ds₁ ds₂, (t.gather engine o js).deletions = ds₁ ++ ds₂ ∧
      (∀ d ∈ ds₁, d.stop ≤ t.place (t.gather engine o js)) ∧
      (∀ d ∈ ds₂, t.place (t.gather engine o js) ≤ d.start) ∧
      t.orderedEdits (t.gather engine o js) =
        ds₁.map (⟨·, []⟩) ++ t.classEdit (t.gather engine o js) :: ds₂.map (⟨·, []⟩) := by
  obtain ⟨ds₁, ds₂, hSplit, hBefore, hBehind⟩ := exists_deletions_eq_append hJudges
  refine ⟨ds₁, ds₂, hSplit, hBefore, hBehind, ?_⟩
  -- A deletion is never empty: one that starts at the place does not end there.
  have hNot : ∀ d ∈ ds₂, ¬ d.stop ≤ t.place (t.gather engine o js) := by
    intro d hd
    have hlt := start_lt_stop_of_mem_deletions hJudges (hSplit ▸ List.mem_append_right _ hd)
    have hle := hBehind d hd
    omega
  have hFirst : (ds₁ ++ ds₂).filter (·.stop ≤ t.place (t.gather engine o js)) = ds₁ := by
    rw [List.filter_append, List.filter_eq_self.2 (by simpa using hBefore),
      List.filter_eq_nil_iff.2 (by simpa using hNot), List.append_nil]
  have hSecond : (ds₁ ++ ds₂).filter (fun d => !decide (d.stop ≤ t.place (t.gather engine o js))) = ds₂ := by
    rw [List.filter_append, List.filter_eq_nil_iff.2 (by simpa using hBefore),
      List.filter_eq_self.2 (by simpa using hNot), List.nil_append]
  rw [orderedEdits, hSplit, hFirst, hSecond]

theorem pairwise_orderedEdits (hJudges : Judges engine o (attributes t.attrs) js) :
    (t.orderedEdits (t.gather engine o js)).Pairwise fun e e' =>
      e.span.stop ≤ e'.span.start ∧ (e.span.start < e.span.stop ∨ e'.span.start < e'.span.stop) := by
  obtain ⟨ds₁, ds₂, hSplit, hBefore, hBehind, hOrdered⟩ := exists_orderedEdits hJudges
  have hPos : ∀ d ∈ ds₁ ++ ds₂, d.start < d.stop :=
    fun d hd => start_lt_stop_of_mem_deletions hJudges (hSplit ▸ hd)
  have hOrder := pairwise_deletions hJudges
  rw [hSplit] at hOrder
  obtain ⟨hOrder₁, hOrder₂, hAcross⟩ := List.pairwise_append.1 hOrder
  rw [hOrdered, List.pairwise_append, List.pairwise_cons, List.pairwise_map, List.pairwise_map]
  refine ⟨hOrder₁.imp_of_mem ?_, ⟨?_, hOrder₂.imp_of_mem ?_⟩, ?_⟩
  · intro d d' hd _ hle
    exact ⟨hle, Or.inl (hPos d (List.mem_append_left _ hd))⟩
  · intro e he
    obtain ⟨d, hd, rfl⟩ := List.mem_map.1 he
    rw [span_classEdit]
    exact ⟨hBehind d hd, Or.inr (hPos d (List.mem_append_right _ hd))⟩
  · intro d d' hd _ hle
    exact ⟨hle, Or.inl (hPos d (List.mem_append_right _ hd))⟩
  · intro e he e' he'
    obtain ⟨d, hd, rfl⟩ := List.mem_map.1 he
    refine ⟨?_, Or.inl (hPos d (List.mem_append_left _ hd))⟩
    rcases List.mem_cons.1 he' with rfl | he'
    · rw [span_classEdit]
      exact hBefore d hd
    · obtain ⟨d', hd', rfl⟩ := List.mem_map.1 he'
      exact hAcross d hd d' hd'

theorem perm_orderedEdits (hJudges : Judges engine o (attributes t.attrs) js) :
    (t.edits (t.gather engine o js)).Perm (t.orderedEdits (t.gather engine o js)) := by
  obtain ⟨ds₁, ds₂, hSplit, -, -, hOrdered⟩ := exists_orderedEdits hJudges
  rw [hOrdered, edits, hSplit, List.map_append, List.append_assoc]
  exact (List.perm_append_singleton _ _).append_left _

theorem mergeSort_edits (hJudges : Judges engine o (attributes t.attrs) js) :
    (t.edits (t.gather engine o js)).mergeSort Edit.standsBefore = t.orderedEdits (t.gather engine o js) :=
  Edit.mergeSort_standsBefore (perm_orderedEdits hJudges) (pairwise_orderedEdits hJudges)

theorem exists_script (hJudges : Judges engine o (attributes t.attrs) js) :
    ∃ σ : Script, σ.before = t.text ∧ σ.edits 0 = t.orderedEdits (t.gather engine o js) ∧
      Edit.applyFrom 0 (t.orderedEdits (t.gather engine o js)) t.text = .ok σ.after := by
  have hInside : ∀ e ∈ t.orderedEdits (t.gather engine o js),
      ∃ x r, Span.slice? r t.text = some x ∧ e.span = r.shift 0 := by
    intro e he
    have hShift : e.span = e.span.shift 0 := by simp [Span.shift]
    rcases List.mem_append.1 ((perm_orderedEdits hJudges).symm.subset he) with he | he
    · obtain ⟨d, hd, rfl⟩ := List.mem_map.1 he
      obtain ⟨j, hj, -, rfl⟩ := exists_of_mem_deletions hd
      obtain ⟨lead, -, hSlice⟩ := exists_slice?_deletion (attr_mem_of_judges hJudges hj)
      exact ⟨_, _, hSlice, hShift⟩
    · rw [List.mem_singleton.1 he] at hShift ⊢
      refine ⟨[], _, ?_, hShift⟩
      rw [span_classEdit]
      exact slice?_place hJudges
  obtain ⟨σ, hBefore, hEdits⟩ :=
    Edit.exists_script ((pairwise_orderedEdits hJudges).imp And.left) hInside
  refine ⟨σ, hBefore, hEdits, ?_⟩
  rw [← hEdits, ← hBefore]
  exact Edit.applyFrom_edits 0 σ

theorem applyFrom_orderedEdits (hJudges : Judges engine o (attributes t.attrs) js) {σ : Script}
    (hBefore : σ.before = t.text) (hPerm : (t.edits (t.gather engine o js)).Perm (σ.edits 0)) :
    Edit.applyFrom 0 (t.orderedEdits (t.gather engine o js)) t.text = .ok σ.after := by
  have hOrdered := (pairwise_orderedEdits hJudges).imp And.right
  have hSort := Edit.mergeSort_standsBefore_of_perm hPerm
    ((perm_orderedEdits hJudges).symm.pairwise hOrdered Or.symm)
  rw [mergeSort_edits hJudges] at hSort
  rw [hSort, ← hBefore]
  exact Edit.applyFrom_edits 0 σ

theorem edited_gather (hJudges : Judges engine o (attributes t.attrs) js) :
    t.edited (t.gather engine o js) =
      Edit.applyFrom 0 (t.orderedEdits (t.gather engine o js)) t.text := by
  rw [edited, mergeSort_edits hJudges]

end Tag

end ClassFold

import ClassFold.Transform
import ClassFold.Proofs.Document.Elements
import ClassFold.Proofs.Markup.Placement

/-!
# One pass over a document

The transformation reads the elements of a document, makes a plan, and then applies the plan to the
document. This is the same as reading the document once, from left to right, and writing every tag with
its classes folded: `runOn_eq_onePass`. No entry of a plan is misplaced on the way.
-/

set_option autoImplicit false

namespace ClassFold

namespace Ask

variable {α β : Type}

/-- Two continuations make one run if they are the same on what the run before them gives. -/
theorem bind_congr_of_run {x : Ask α} {f g : α → Ask β}
    (h : ∀ asked a middle, x.run asked = .ok (a, middle) → f a = g a) : x >>= f = x >>= g := by
  funext asked
  change (x >>= f).run asked = (x >>= g).run asked
  rw [StateT.run_bind, StateT.run_bind]
  cases hx : x.run asked with
  | error e => rfl
  | ok p =>
    have hEq := h asked p.1 p.2 hx
    simp only [bind, Except.bind, hEq]

end Ask

namespace Tag

variable (engine : Engine) (o : Options) (t : Tag) (js : List Judged)

def folded : Text :=
  if (t.gather engine o js).tokens.isEmpty then t.text
  else match Edit.applyFrom 0 (t.orderedEdits (t.gather engine o js)) t.text with
    | .ok s => s
    | .error _ => t.text

def foldEdits : List Edit :=
  if (t.gather engine o js).tokens.isEmpty then [] else t.edits (t.gather engine o js)

end Tag

structure Verdict where
  element : Element
  judged : List Judged
deriving DecidableEq, Repr

namespace Verdict

variable (engine : Engine) (o : Options) (v : Verdict)

def tokens : List Text := v.judged.flatMap (·.confirmed)

def folded : Text := v.element.toTag.folded engine o v.judged

def planned? : Option Edit :=
  if v.tokens.isEmpty then none else some ⟨v.element.span, v.folded engine o⟩

def edits : List Edit :=
  (v.element.toTag.foldEdits engine o v.judged).map (·.shift v.element.start)

def Sound : Prop := Judges engine o (attributes v.element.attrs) v.judged

end Verdict

def Element.judge (engine : Engine) (o : Options) (e : Element) : Ask Verdict := do
  let js ← e.toTag.judge engine o
  return ⟨e, js⟩

def judgeAll (engine : Engine) (o : Options) (es : List Element) : Ask (List Verdict) :=
  es.mapM (·.judge engine o)

def Tag.rewrite (engine : Engine) (o : Options) (t : Tag) : Ask Text := do
  let js ← t.judge engine o
  return t.folded engine o js

/-- The document with the classes of every tag folded, written while it is read. -/
def onePass (engine : Engine) (o : Options) (s : Text) : Ask Text :=
  match s with
  | [] => return []
  | c :: s =>
    match _h : Tag.read? (c :: s) with
    | some (t, rest) => do
      let folded ← t.rewrite engine o
      let after ← onePass engine o rest
      return folded ++ after
    | none => do
      let after ← onePass engine o s
      return c :: after
termination_by s.length
decreasing_by
  · exact Tag.length_of_read? _h
  · exact Nat.lt_succ_self _

variable {engine : Engine} {o : Options} {asked asked' : List Text}

namespace Tag

variable {t : Tag} {js : List Judged}

theorem exists_foldScript (h : Judges engine o (attributes t.attrs) js) :
    ∃ σ : Script, σ.before = t.text ∧ σ.after = t.folded engine o js ∧
      (σ.edits 0).Perm (t.foldEdits engine o js) := by
  unfold folded foldEdits
  split
  · exact ⟨[.kept t.text], by simp [Chunk.before], by simp [Chunk.after], List.Perm.refl _⟩
  · obtain ⟨σ, hBefore, hEdits, hApply⟩ := exists_script h
    rw [hApply]
    exact ⟨σ, hBefore, rfl, hEdits ▸ (perm_orderedEdits h).symm⟩

end Tag

theorem Verdict.Sound.entry_eq {v : Verdict} (h : v.Sound engine o) :
    v.element.entry? (v.element.toTag.gather engine o v.judged) = .ok (v.planned? engine o) := by
  unfold Element.entry? planned? folded Tag.folded
  rw [Tag.tokens_gather, tokens]
  split
  · rfl
  · obtain ⟨σ, -, -, hApply⟩ := Tag.exists_script h
    rw [Tag.edited_gather h, hApply]
    rfl

theorem sound_of_run_judge {e : Element} {v : Verdict}
    (h : (e.judge engine o).run asked = .ok (v, asked')) : v.element = e ∧ v.Sound engine o := by
  obtain ⟨js, middle, hJudge, h⟩ := Ask.run_bind_eq_ok_iff.1 h
  obtain ⟨rfl, -⟩ := Ask.run_pure_eq_ok_iff.1 h
  exact ⟨rfl, judges_of_run hJudge⟩

theorem plan_eq (engine : Engine) (o : Options) (e : Element) :
    e.plan engine o = (·.planned? engine o) <$> e.judge engine o := by
  rw [Element.plan, Tag.resolve_eq_gather, Element.judge]
  simp only [bind_map_left, map_bind, map_pure]
  apply Ask.bind_congr_of_run
  intro asked js middle hJudge
  have hSound : (Verdict.mk e js).Sound engine o := judges_of_run hJudge
  rw [hSound.entry_eq]
  rfl

theorem planOf_eq (engine : Engine) (o : Options) (source : Text) :
    planOf engine o source =
      (fun vs => vs.filterMap (·.planned? engine o)) <$> judgeAll engine o (elements source) := by
  have hPlan : (fun e : Element => e.plan engine o) =
      fun e => (·.planned? engine o) <$> e.judge engine o := funext fun e => plan_eq engine o e
  rw [planOf, hPlan, Ask.mapM_map_eq, judgeAll]
  simp [List.filterMap_map]

theorem sound_of_run_judgeAll {es : List Element} {vs : List Verdict}
    (h : (judgeAll engine o es).run asked = .ok (vs, asked')) :
    vs.map (·.element) = es ∧ ∀ v ∈ vs, v.Sound engine o := by
  have hAll := Ask.forall₂_of_run_mapM h
  clear h
  induction hAll with
  | nil => exact ⟨rfl, by simp⟩
  | cons hHead _ ih =>
    obtain ⟨s, s', hRun⟩ := hHead
    obtain ⟨rfl, hSound⟩ := sound_of_run_judge hRun
    refine ⟨by simp [ih.1], ?_⟩
    intro v hv
    rcases List.mem_cons.1 hv with rfl | hv
    · exact hSound
    · exact ih.2 v hv

theorem failsWith_of_run_judgeAll {es : List Element} {e : Error}
    (h : (judgeAll engine o es).run asked = .error e) : engine.FailsWith e := by
  obtain ⟨element, -, s, h⟩ := Ask.exists_of_run_mapM_error h
  rcases Ask.run_bind_eq_error_iff.1 h with h | ⟨js, middle, -, h⟩
  · exact failsWith_of_run_judge h
  · exact absurd h Ask.run_pure_ne_error

namespace Verdict

variable {v : Verdict} {vs : List Verdict}

theorem span_of_planned?_eq_some {e : Edit} (h : v.planned? engine o = some e) :
    e.span = v.element.span := by
  unfold planned? at h
  split at h
  · cases h
  · cases h
    rfl

theorem le_start_of_mem_entries {offset : Nat} {s : Text}
    (h : vs.map (·.element) = elementsFrom offset s) {e : Edit}
    (he : e ∈ vs.filterMap (·.planned? engine o)) : offset ≤ e.span.start := by
  obtain ⟨v, hv, hEntry⟩ := List.mem_filterMap.1 he
  rw [span_of_planned?_eq_some hEntry]
  exact le_start_of_mem_elementsFrom (h ▸ List.mem_map_of_mem hv)

theorem pairwise_entries {offset : Nat} {s : Text} (h : vs.map (·.element) = elementsFrom offset s) :
    (vs.filterMap (·.planned? engine o)).Pairwise fun e e' =>
      e.span.start < e.span.stop ∧ e.span.stop ≤ e'.span.start := by
  have hOrder := pairwise_elementsFrom offset s
  rw [← h, List.pairwise_map] at hOrder
  rw [List.pairwise_filterMap]
  apply hOrder.imp
  intro v w hle e he e' he'
  rw [span_of_planned?_eq_some he, span_of_planned?_eq_some he']
  exact ⟨v.element.start_lt_stop, hle⟩

theorem mergeSort_entries {offset : Nat} {s : Text} (h : vs.map (·.element) = elementsFrom offset s) :
    (vs.filterMap (·.planned? engine o)).mergeSort Edit.startsBefore =
      vs.filterMap (·.planned? engine o) := by
  apply List.mergeSort_of_pairwise
  apply (pairwise_entries h).imp
  intro e e' h
  simp only [Edit.startsBefore, decide_eq_true_eq]
  omega

/-- The first verdict writes its tag with the classes folded, the others write what follows. -/
theorem applyFrom_entries_cons (engine : Engine) (o : Options) {rest : Text}
    (h : vs.map (·.element) = elementsFrom (v.element.start + v.element.text.size) rest) :
    Edit.applyFrom v.element.start ((v :: vs).filterMap (·.planned? engine o)) (v.element.text ++ rest) =
      (Edit.applyFrom (v.element.start + v.element.text.size) (vs.filterMap (·.planned? engine o)) rest).map
        (v.folded engine o ++ ·) := by
  rw [List.filterMap_cons]
  cases hEntry : v.planned? engine o with
  | none =>
    -- Without tokens there is no entry, and the tag is copied with what follows.
    have hFolded : v.folded engine o = v.element.text := by
      unfold planned? at hEntry
      split at hEntry
      · rename_i hEmpty
        rw [folded, Tag.folded, Tag.tokens_gather, ← tokens, if_pos hEmpty]
      · cases hEntry
    rw [hFolded]
    exact Edit.applyFrom_append _ _ _ fun e he => le_start_of_mem_entries h he
  | some e =>
    have hEdit : e = ⟨v.element.span, v.folded engine o⟩ := by
      unfold planned? at hEntry
      split at hEntry
      · cases hEntry
      · cases hEntry
        rfl
    subst hEdit
    have hAround := Edit.around?_append v.element.start (v.folded engine o) [] v.element.text rest
    simp only [Text.size_nil, Nat.add_zero, List.nil_append] at hAround
    simp only [Edit.applyFrom]
    rw [Element.span, hAround]
    simp only
    cases Edit.applyFrom (v.element.start + v.element.text.size) (vs.filterMap (·.planned? engine o)) rest <;>
      rfl

end Verdict

/-- The entries made for a document apply to it, and all edits together make up one script of it. -/
theorem exists_documentScript {offset : Nat} {s : Text} {vs : List Verdict}
    (hElements : vs.map (·.element) = elementsFrom offset s) (hSound : ∀ v ∈ vs, v.Sound engine o) :
    ∃ σ : Script, σ.before = s ∧
      Edit.applyFrom offset (vs.filterMap (·.planned? engine o)) s = .ok σ.after ∧
      (σ.edits offset).Perm (vs.flatMap (·.edits engine o)) := by
  fun_induction elementsFrom offset s generalizing vs with
  | case1 =>
    rw [List.map_eq_nil_iff.1 hElements]
    exact ⟨[], rfl, rfl, List.Perm.refl _⟩
  | case2 offset c s t rest hRead ih =>
    obtain ⟨v, vs, rfl, hElement, hRest⟩ := List.map_eq_cons_iff.1 hElements
    obtain ⟨σ, hBefore, hAfter, hEdits⟩ := ih hRest fun w hw => hSound w (List.mem_cons_of_mem _ hw)
    obtain ⟨τ, hBefore', hAfter', hEdits'⟩ := Tag.exists_foldScript (hSound v List.mem_cons_self)
    have hStart : v.element.start = offset := by rw [hElement]
    have hTag : v.element.toTag = t := by rw [hElement]
    refine ⟨τ ++ σ, ?_, ?_, ?_⟩
    · rw [Script.before_append, hBefore', hBefore, hTag, ← Tag.eq_of_read? hRead]
    · rw [Tag.eq_of_read? hRead]
      rw [← hTag, ← hStart] at hRest
      have hApply := Verdict.applyFrom_entries_cons engine o hRest
      rw [hStart, hTag, hAfter] at hApply
      rw [hApply, Script.after_append, hAfter']
      rfl
    · have hShift := Script.edits_add v.element.start 0 τ
      rw [Nat.add_zero, hStart] at hShift
      rw [Script.edits_append, hBefore', hTag, hShift, List.flatMap_cons, Verdict.edits, hStart]
      exact (hEdits'.map _).append hEdits
  | case3 offset c s hRead ih =>
    obtain ⟨σ, hBefore, hAfter, hEdits⟩ := ih hElements hSound
    refine ⟨.kept [c] :: σ, by simp [Chunk.before, hBefore], ?_, by simpa [Script.edits] using hEdits⟩
    have hStart : ∀ e ∈ vs.filterMap (·.planned? engine o), offset + Text.size [c] ≤ e.span.start :=
      fun e he => Verdict.le_start_of_mem_entries hElements he
    have hApply := Edit.applyFrom_append offset [c] s hStart
    rw [Text.size_cons, Text.size_nil, Nat.add_zero, hAfter] at hApply
    exact hApply

theorem exists_applyFrom_of_run_judgeAll {offset : Nat} {s : Text} {vs : List Verdict}
    (h : (judgeAll engine o (elementsFrom offset s)).run asked = .ok (vs, asked')) :
    ∃ output, Edit.applyFrom offset (vs.filterMap (·.planned? engine o)) s = .ok output := by
  obtain ⟨hElements, hSound⟩ := sound_of_run_judgeAll h
  obtain ⟨σ, -, hApply, -⟩ := exists_documentScript hElements hSound
  exact ⟨σ.after, hApply⟩

theorem judgeAll_cons (engine : Engine) (o : Options) (e : Element) (es : List Element) :
    judgeAll engine o (e :: es) = do
      let v ← e.judge engine o
      let vs ← judgeAll engine o es
      return v :: vs := List.mapM_cons

theorem onePass_of_read? {s rest : Text} {t : Tag} (h : Tag.read? s = some (t, rest)) :
    onePass engine o s = do
      let folded ← t.rewrite engine o
      let after ← onePass engine o rest
      return folded ++ after := by
  cases s with
  | nil => cases h
  | cons c s =>
    rw [onePass]
    split
    · rename_i t' rest' h'
      rw [h] at h'
      cases h'
      rfl
    · rename_i h'
      rw [h] at h'
      cases h'

theorem onePass_of_read?_eq_none {c : Char} {s : Text} (h : Tag.read? (c :: s) = none) :
    onePass engine o (c :: s) = do
      let after ← onePass engine o s
      return c :: after := by
  rw [onePass]
  split
  · rename_i h'
    rw [h] at h'
    cases h'
  · rfl

namespace Ask

variable {α : Type}

theorem placing_map (f : α → α) (result : Except Edit α) :
    placing (result.map f) = f <$> placing result := by
  cases result with
  | error e => rfl
  | ok a => rfl

end Ask

theorem onePass_eq (offset : Nat) (s : Text) :
    onePass engine o s = judgeAll engine o (elementsFrom offset s) >>= fun vs =>
      Ask.placing (Edit.applyFrom offset (vs.filterMap (·.planned? engine o)) s) := by
  fun_induction elementsFrom offset s with
  | case1 =>
    rw [onePass]
    rfl
  | case2 offset c s t rest hRead ih =>
    rw [onePass_of_read? hRead, judgeAll_cons, Tag.rewrite, Element.judge, ih]
    simp only [bind_assoc, pure_bind]
    apply Ask.bind_congr_of_run
    intro _ js _ _
    apply Ask.bind_congr_of_run
    intro _ vs _ hAll
    have hApply := Verdict.applyFrom_entries_cons (v := ⟨⟨t, offset⟩, js⟩) engine o
      (sound_of_run_judgeAll hAll).1
    rw [Tag.eq_of_read? hRead, hApply, Ask.placing_map]
    simp [Verdict.folded]
  | case3 offset c s hRead ih =>
    rw [onePass_of_read?_eq_none hRead, ih]
    simp only [bind_assoc]
    apply Ask.bind_congr_of_run
    intro _ vs _ hAll
    have hStart : ∀ e ∈ vs.filterMap (Verdict.planned? engine o), offset + Text.size [c] ≤ e.span.start :=
      fun e he => Verdict.le_start_of_mem_entries (sound_of_run_judgeAll hAll).1 he
    have hApply := Edit.applyFrom_append offset [c] s hStart
    rw [Text.size_cons, Text.size_nil, Nat.add_zero, List.singleton_append] at hApply
    rw [hApply, Ask.placing_map]
    simp

theorem runOn_eq_onePass (engine : Engine) (o : Options) (source : Text) :
    runOn engine o source = onePass engine o source := by
  rw [onePass_eq 0, runOn, planOf_eq]
  simp only [bind_map_left]
  apply Ask.bind_congr_of_run
  intro _ vs _ hAll
  rw [Plan.apply, Verdict.mergeSort_entries (sound_of_run_judgeAll hAll).1]

theorem transform_eq_map_onePass (engine : Engine) (o : Options) (source : Text) :
    transform engine o source = ((onePass engine o source).run []).map Prod.fst := by
  rw [transform, outcome, runOn_eq_onePass]
  cases (onePass engine o source).run [] <;> rfl

end ClassFold

import ClassFold.Proofs.Document.OnePass

/-!
# What an engine is asked

An engine with fixed answers is asked what the attributes raise, `Attribute.Raises`, in the order of the
document, and nothing else. The first failing answer ends the run with its error. Without one, what is said
yes to makes the tokens, and the attributes with a yes are the ones that are deleted: `outcome_of_questions`.
-/

set_option autoImplicit false

namespace ClassFold

/-- A failure is no yes. -/
def isYes : Except Text Bool → Bool
  | .ok yes => yes
  | .error _ => false

/-- The error of the first question that is answered by a failure. -/
def firstFailure? (answer : Text → Except Text Bool) : List Text → Option Error
  | [] => none
  | t :: ts =>
    match answer t with
    | .ok _ => firstFailure? answer ts
    | .error reason => some (.engine t reason)

section

variable {answer : Text → Except Text Bool} {ts us : List Text}

theorem firstFailure?_append :
    firstFailure? answer (ts ++ us) = (firstFailure? answer ts).or (firstFailure? answer us) := by
  induction ts with
  | nil => rfl
  | cons t ts ih =>
    rw [List.cons_append, firstFailure?, firstFailure?]
    cases answer t with
    | ok yes => exact ih
    | error reason => rfl

theorem firstFailure?_eq_some_iff {e : Error} :
    firstFailure? answer ts = some e ↔
      ∃ before token after reason, ts = before ++ token :: after ∧
        (∀ t ∈ before, ∃ yes, answer t = .ok yes) ∧ answer token = .error reason ∧ e = .engine token reason := by
  induction ts with
  | nil => simp [firstFailure?]
  | cons t ts ih =>
    rw [firstFailure?]
    cases ht : answer t with
    | ok yes =>
      simp only [ih]
      constructor
      · rintro ⟨before, token, after, reason, rfl, hBefore, hToken, rfl⟩
        exact ⟨t :: before, token, after, reason, rfl, List.forall_mem_cons.2 ⟨⟨yes, ht⟩, hBefore⟩, hToken, rfl⟩
      · rintro ⟨before, token, after, reason, hts, hBefore, hToken, rfl⟩
        cases before with
        | nil =>
          obtain ⟨rfl, -⟩ := List.cons.inj hts
          rw [ht] at hToken
          cases hToken
        | cons u before =>
          obtain ⟨rfl, rfl⟩ := List.cons.inj hts
          exact ⟨before, token, after, reason, rfl, (List.forall_mem_cons.1 hBefore).2, hToken, rfl⟩
    | error reason =>
      simp only [Option.some.injEq]
      constructor
      · rintro rfl
        exact ⟨[], t, ts, reason, rfl, List.forall_mem_nil _, ht, rfl⟩
      · rintro ⟨before, token, after, reason', hts, hBefore, hToken, rfl⟩
        cases before with
        | nil =>
          obtain ⟨rfl, rfl⟩ := List.cons.inj hts
          rw [ht] at hToken
          cases hToken
          rfl
        | cons u before =>
          obtain ⟨rfl, rfl⟩ := List.cons.inj hts
          obtain ⟨yes, hYes⟩ := hBefore t List.mem_cons_self
          rw [ht] at hYes
          cases hYes

theorem firstFailure?_eq_none_iff :
    firstFailure? answer ts = none ↔ ∀ t ∈ ts, ∃ yes, answer t = .ok yes := by
  induction ts with
  | nil => simp [firstFailure?]
  | cons t ts ih =>
    rw [firstFailure?, List.forall_mem_cons]
    cases answer t with
    | ok yes => simp [ih]
    | error reason => simp

end

namespace Ask

/-- Whatever was asked before, the run asks these questions in order, up to the first failure, and if
there is none it gives `a`. -/
def Asks {α : Type} (answer : Text → Except Text Bool) (x : Ask α) (ts : List Text) (a : α) : Prop :=
  ∀ asked, x.run asked = match firstFailure? answer ts with
    | none => .ok (a, ts.reverse ++ asked)
    | some e => .error e

namespace Asks

variable {α β : Type} {answer : Text → Except Text Bool}

theorem pure (a : α) : Asks answer (Pure.pure a) [] a := fun _ => rfl

theorem bind {x : Ask α} {f : α → Ask β} {ts us : List Text} {a : α} {b : β} (hx : Asks answer x ts a)
    (hf : Asks answer (f a) us b) : Asks answer (x >>= f) (ts ++ us) b := by
  intro asked
  have hFirst := hx asked
  rw [StateT.run_bind, hFirst, firstFailure?_append]
  cases firstFailure? answer ts with
  | some e => rfl
  | none =>
    have hSecond := hf (ts.reverse ++ asked)
    change (f a).run (ts.reverse ++ asked) = _
    rw [hSecond, Option.none_or, List.reverse_append, List.append_assoc]

theorem map {x : Ask α} {ts : List Text} {a : α} (hx : Asks answer x ts a) (g : α → β) :
    Asks answer (g <$> x) ts (g a) := by
  intro asked
  rw [StateT.run_map, hx]
  cases firstFailure? answer ts <;> rfl

theorem mapM {f : α → Ask β} {q : α → List Text} {g : α → β} (hf : ∀ a, Asks answer (f a) (q a) (g a))
    (as : List α) : Asks answer (as.mapM f) (as.flatMap q) (as.map g) := by
  induction as with
  | nil => exact pure []
  | cons a as ih =>
    have hRest : Asks answer ((g a :: ·) <$> as.mapM f) (as.flatMap q) (g a :: as.map g) := ih.map _
    rw [map_eq_pure_bind] at hRest
    rw [List.mapM_cons]
    exact (hf a).bind hRest

theorem run_eq_ok {x : Ask α} {ts : List Text} {a : α} (hx : Asks answer x ts a)
    (hNone : firstFailure? answer ts = none) (asked : List Text) : x.run asked = .ok (a, ts.reverse ++ asked) := by
  rw [hx, hNone]

end Asks

end Ask

/-- What is to be asked about an attribute, by its disposition: nothing if it is ignored or lists classes, the
effective name once if it is bare, and otherwise the candidates that the name makes with its value. -/
inductive Attribute.Raises (engine : Engine) (o : Options) (a : Attribute) : List Text → Prop where
  | ignored (h : (classify engine o a).disposition = .ignored) : Raises engine o a []
  | existingClass (h : (classify engine o a).disposition = .existingClass) : Raises engine o a []
  | bareCandidate (h : (classify engine o a).disposition = .bareCandidate) :
    Raises engine o a [(classify engine o a).name]
  | valuedCandidate {value : Text} (h : (classify engine o a).disposition = .valuedCandidate)
    (hValue : a.value? = some value) : Raises engine o a (valuedCandidates (classify engine o a).name value)

namespace Attribute

variable {engine : Engine} {o : Options} {a : Attribute} {qs : List Text}

theorem exists_value_of_valuedCandidate (h : (classify engine o a).disposition = .valuedCandidate) :
    ∃ value, a.value? = some value := by
  cases hValue : a.value? with
  | some value => exact ⟨value, rfl⟩
  | none =>
    rw [classify, hValue] at h
    split at h
    · cases h
    · dsimp only at h
      split at h <;> cases h

theorem raises_candidates (engine : Engine) (o : Options) (a : Attribute) :
    a.Raises engine o (candidates engine o a) := by
  cases h : (classify engine o a).disposition with
  | ignored =>
    rw [candidates, h]
    exact .ignored h
  | existingClass =>
    rw [candidates, h]
    exact .existingClass h
  | bareCandidate =>
    rw [candidates, h]
    exact .bareCandidate h
  | valuedCandidate =>
    obtain ⟨value, hValue⟩ := exists_value_of_valuedCandidate h
    rw [candidates, h, hValue]
    exact .valuedCandidate h hValue

theorem raises_iff : a.Raises engine o qs ↔ qs = candidates engine o a := by
  constructor
  · intro h
    cases h with
    | ignored h => rw [candidates, h]
    | existingClass h => rw [candidates, h]
    | bareCandidate h => rw [candidates, h]
    | valuedCandidate h hValue =>
      rw [candidates, h, hValue]
      rfl
  · rintro rfl
    exact raises_candidates engine o a

end Attribute

def Tag.questions (engine : Engine) (o : Options) (t : Tag) : List Text :=
  (attributes t.attrs).flatMap (candidates engine o)

/-- The candidates of a document, in the order of elements, attributes and fragments. -/
def questions (engine : Engine) (o : Options) (source : Text) : List Text :=
  (elements source).flatMap fun e => e.toTag.questions engine o

namespace Engine

variable (answer : Text → Except Text Bool) (selects : Text → Bool) (o : Options)

theorem asks_ask (token : Text) :
    Ask.Asks answer ((fixed answer selects).ask token) [token] (isYes (answer token)) := by
  intro asked
  have hAnswer : (fixed answer selects).answer asked token = answer token := rfl
  rw [run_ask, hAnswer, firstFailure?]
  cases answer token <;> rfl

theorem asks_confirmed (tokens : List Text) :
    Ask.Asks answer ((fixed answer selects).confirmed tokens) tokens
      (tokens.filter fun t => isYes (answer t)) := by
  induction tokens with
  | nil => exact .pure []
  | cons t ts ih =>
    have hRest := ih.map fun rest => if isYes (answer t) then t :: rest else rest
    rw [map_eq_pure_bind] at hRest
    rw [confirmed, List.filter_cons]
    exact (asks_ask answer selects t).bind hRest

/-- What is said yes to of the candidates of an attribute. -/
def judged (a : Attribute) : Judged :=
  ⟨a, (candidates (fixed answer selects) o a).filter fun t => isYes (answer t)⟩

theorem asks_judge (a : Attribute) :
    Ask.Asks answer (a.judge (fixed answer selects) o) (candidates (fixed answer selects) o a)
      (judged answer selects o a) := by
  rw [Attribute.judge, ← map_eq_pure_bind]
  exact (asks_confirmed answer selects _).map _

theorem asks_judge_tag (t : Tag) :
    Ask.Asks answer (t.judge (fixed answer selects) o) (t.questions (fixed answer selects) o)
      ((attributes t.attrs).map (judged answer selects o)) :=
  .mapM (asks_judge answer selects o) _

theorem asks_judgeAll (es : List Element) :
    Ask.Asks answer (judgeAll (fixed answer selects) o es)
      (es.flatMap fun e => e.toTag.questions (fixed answer selects) o)
      (es.map fun e => ⟨e, (attributes e.attrs).map (judged answer selects o)⟩) := by
  apply Ask.Asks.mapM
  intro e
  rw [Element.judge, ← map_eq_pure_bind]
  exact (asks_judge_tag answer selects o e.toTag).map _

theorem exists_asks_runOn (source : Text) :
    ∃ output, Ask.Asks answer (runOn (fixed answer selects) o source) (questions (fixed answer selects) o source)
      output := by
  have hJudge := asks_judgeAll answer selects o (elements source)
  cases hNone : firstFailure? answer (questions (fixed answer selects) o source) with
  | some e =>
    -- The run ends before there is a plan.
    refine ⟨[], fun asked => ?_⟩
    have hError := hJudge asked
    rw [← questions, hNone] at hError
    rw [runOn_eq_onePass, onePass_eq 0, hNone]
    exact Ask.run_bind_eq_error_iff.2 (Or.inl hError)
  | none =>
    obtain ⟨output, hApply⟩ := exists_applyFrom_of_run_judgeAll (hJudge.run_eq_ok hNone [])
    refine ⟨output, ?_⟩
    rw [runOn_eq_onePass, onePass_eq 0, ← List.append_nil (questions _ _ _)]
    refine hJudge.bind ?_
    rw [hApply]
    exact .pure _

end Engine

/-- The contribution of a tag that the answers make: the yeses in order, the place of the last class
list, and the deletions of the attributes with a yes if attributes are to be deleted. -/
structure Contribution.Answers (answer : Text → Except Text Bool) (engine : Engine) (o : Options) (t : Tag)
    (c : Contribution) : Prop where
  tokens : c.tokens = (t.questions engine o).filter fun q => isYes (answer q)
  classList : c.classList? = none ∧ (∀ a ∈ attributes t.attrs, (classify engine o a).disposition ≠ .existingClass) ∨
    ∃ before a behind r, attributes t.attrs = before ++ a :: behind ∧
      (classify engine o a).disposition = .existingClass ∧
      (∀ b ∈ behind, (classify engine o b).disposition ≠ .existingClass) ∧
      a.valueSpan? = some r ∧ c.classList? = some (r.shift t.attrsOffset)
  deletions : c.deletions = if o.deleteFolded then
      ((attributes t.attrs).filter fun a => (candidates engine o a).any fun q => isYes (answer q)).map
        fun a => t.deletion a.span
    else []

theorem Judges.isClassList_iff {engine : Engine} {o : Options} {j : Judged} :
    j.isClassList engine o = true ↔ (classify engine o j.attr).disposition = .existingClass := by
  simp [Judged.isClassList]

theorem Tag.classList_gather {engine : Engine} {o : Options} {t : Tag} {js : List Judged}
    (hJudges : Judges engine o (attributes t.attrs) js) :
    (t.gather engine o js).classList? = none ∧
        (∀ a ∈ attributes t.attrs, (classify engine o a).disposition ≠ .existingClass) ∨
      ∃ before a behind r, attributes t.attrs = before ++ a :: behind ∧
        (classify engine o a).disposition = .existingClass ∧
        (∀ b ∈ behind, (classify engine o b).disposition ≠ .existingClass) ∧
        a.valueSpan? = some r ∧ (t.gather engine o js).classList? = some (r.shift t.attrsOffset) := by
  rcases place_gather hJudges with ⟨hNone, -⟩ | ⟨k, q, r, hLast, -, hValue, -, -, -, hClass, -⟩
  · refine Or.inl ⟨by rw [classList?_gather, hNone]; rfl, ?_⟩
    rw [← hJudges.attrs, List.forall_mem_map]
    intro j hj hExisting
    rw [Judged.lastClassList?, List.getLast?_eq_none_iff] at hNone
    exact List.filter_eq_nil_iff.1 hNone j hj (Judges.isClassList_iff.2 hExisting)
  · obtain ⟨js₁, js₂, rfl, hk, hBehind⟩ := exists_of_getLast?_filter hLast
    refine Or.inr ⟨js₁.map (·.attr), k.attr, js₂.map (·.attr), r, ?_, Judges.isClassList_iff.1 hk, ?_, hValue, hClass⟩
    · rw [← hJudges.attrs, List.map_append, List.map_cons]
    · rw [List.forall_mem_map]
      exact fun j hj hExisting => hBehind j hj (Judges.isClassList_iff.2 hExisting)

namespace Engine

variable (answer : Text → Except Text Bool) (selects : Text → Bool) (o : Options)

theorem answers_gather (t : Tag)
    (hNone : firstFailure? answer (t.questions (fixed answer selects) o) = none) :
    (t.gather (fixed answer selects) o ((attributes t.attrs).map (judged answer selects o))).Answers answer
      (fixed answer selects) o t where
  tokens := by
    rw [Tag.tokens_gather, List.flatMap_map, Tag.questions, List.filter_flatMap]
    rfl
  classList := Tag.classList_gather (judges_of_run ((asks_judge_tag answer selects o t).run_eq_ok hNone []))
  deletions := by
    rw [Tag.deletions_gather, List.filter_map, List.map_map]
    cases hDelete : o.deleteFolded with
    | false => simp [Function.comp_def, Judged.isFolded, hDelete]
    | true =>
      have hFolded : (Judged.isFolded o ∘ judged answer selects o) =
          fun a => (candidates (fixed answer selects) o a).any fun q => isYes (answer q) := by
        funext a
        simp only [Function.comp_apply, Judged.isFolded, hDelete, Bool.true_and, judged]
        rw [Bool.eq_iff_iff]
        simp
      rw [hFolded]
      rfl

end Engine

theorem firstFailure?_tag {answer : Text → Except Text Bool} {engine : Engine} {o : Options} {source : Text}
    (hNone : firstFailure? answer (questions engine o source) = none) {e : Element} (he : e ∈ elements source) :
    firstFailure? answer (e.toTag.questions engine o) = none := by
  rw [firstFailure?_eq_none_iff] at hNone ⊢
  intro t ht
  exact hNone t (List.mem_flatMap.2 ⟨e, he, ht⟩)

/-- The questions are what the attributes raise by their dispositions. With fixed answers a transformation
fails exactly if one of them is answered by a failure, and then with the first such failure. Otherwise it
asks all questions, each as often as it is listed and in order, and every element contributes what the
answers to its questions make. The questions are the same whatever the answers are, and whether or not
attributes are deleted. -/
theorem outcome_of_questions (answer : Text → Except Text Bool) (selects : Text → Bool) (o : Options)
    (source : Text) :
    (∀ (a : Attribute) (qs : List Text),
      a.Raises (.fixed answer selects) o qs ↔ qs = candidates (.fixed answer selects) o a) ∧
    questions (.fixed answer selects) o source =
      (elements source).flatMap (fun e => (attributes e.attrs).flatMap (candidates (.fixed answer selects) o)) ∧
    (∀ e, transform (.fixed answer selects) o source = .error e ↔
      ∃ before token after reason,
        questions (.fixed answer selects) o source = before ++ token :: after ∧
        (∀ t ∈ before, ∃ yes, answer t = .ok yes) ∧ answer token = .error reason ∧ e = .engine token reason) ∧
    ((∃ e, transform (.fixed answer selects) o source = .error e) ↔
      ∃ t ∈ questions (.fixed answer selects) o source, ∃ reason, answer t = .error reason) ∧
    ((∀ t ∈ questions (.fixed answer selects) o source, ∃ yes, answer t = .ok yes) →
      (∃ output, outcome (.fixed answer selects) o source =
        .ok ⟨output, questions (.fixed answer selects) o source⟩) ∧
      ∀ e ∈ elements source, ∀ asked, ∃ c,
        (e.toTag.resolve (.fixed answer selects) o).run asked =
          .ok (c, (e.toTag.questions (.fixed answer selects) o).reverse ++ asked) ∧
        c.Answers answer (.fixed answer selects) o e.toTag) ∧
    ∀ (answer' : Text → Except Text Bool) (delete : Bool),
      questions (.fixed answer' selects) { o with deleteFolded := delete } source =
        questions (.fixed answer selects) o source := by
  obtain ⟨output, hAsks⟩ := Engine.exists_asks_runOn answer selects o source
  have hOutcome : outcome (.fixed answer selects) o source =
      match firstFailure? answer (questions (.fixed answer selects) o source) with
      | none => .ok ⟨output, questions (.fixed answer selects) o source⟩
      | some e => .error e := by
    rw [outcome, hAsks]
    cases firstFailure? answer (questions (.fixed answer selects) o source) with
    | none => simp [bind, Except.bind, pure, Except.pure]
    | some e => rfl
  have hError (e : Error) : transform (.fixed answer selects) o source = .error e ↔
      firstFailure? answer (questions (.fixed answer selects) o source) = some e := by
    rw [transform, hOutcome]
    cases firstFailure? answer (questions (.fixed answer selects) o source) <;> simp [Except.map]
  refine ⟨fun a qs => Attribute.raises_iff, rfl, fun e => (hError e).trans firstFailure?_eq_some_iff, ?_, ?_,
    fun answer' delete => rfl⟩
  · simp only [hError, ← Option.isSome_iff_exists]
    rw [← Option.ne_none_iff_isSome, Ne, firstFailure?_eq_none_iff]
    push Not
    refine exists_congr fun t => and_congr_right fun _ => ?_
    cases answer t <;> simp
  · intro hAll
    have hNone := firstFailure?_eq_none_iff.2 hAll
    rw [hNone] at hOutcome
    refine ⟨⟨output, hOutcome⟩, ?_⟩
    intro e he asked
    have hTag := firstFailure?_tag hNone he
    refine ⟨_, ?_, Engine.answers_gather answer selects o e.toTag hTag⟩
    rw [Tag.resolve_eq_gather]
    exact ((Engine.asks_judge_tag answer selects o e.toTag).map _).run_eq_ok hTag asked

/-- An ignored name, a class list, a bare attribute and two attributes with values. -/
def everyDisposition : Text :=
  "<p lang=\x22en\x22 class=\x22a\x22 mt-2 text=\x22red ~ red\x22><b m=\x221 2\x22>".toList

def crashesOn (tokens : List Text) (t : Text) : Except Text Bool :=
  if tokens.contains t then .error "engine crashed".toList else .ok (t != "text".toList)

theorem outcome_of_questions_every_disposition :
    questions (.fixed (crashesOn [])) {} everyDisposition =
      ["mt-2", "text-red", "text", "text-red", "m-1", "m-2"].map String.toList ∧
    transform (.fixed (crashesOn ["m-2".toList, "m-1".toList])) {} everyDisposition =
      .error (.engine "m-1".toList "engine crashed".toList) ∧
    (∃ output, outcome (.fixed (crashesOn [])) {} everyDisposition =
      .ok ⟨output, questions (.fixed (crashesOn [])) {} everyDisposition⟩) ∧
    ∀ e ∈ elements everyDisposition, ∃ c, (e.toTag.resolve (.fixed (crashesOn [])) {}).run [] =
        .ok (c, (e.toTag.questions (.fixed (crashesOn [])) {}).reverse ++ []) ∧
      c.Answers (crashesOn []) (.fixed (crashesOn [])) {} e.toTag := by
  have hQuestions : questions (.fixed (crashesOn [])) {} everyDisposition =
      ["mt-2", "text-red", "text", "text-red", "m-1", "m-2"].map String.toList := by decide +kernel
  obtain ⟨-, -, hError, -, -, hSame⟩ :=
    outcome_of_questions (crashesOn ["m-2".toList, "m-1".toList]) isValidSelector {} everyDisposition
  obtain ⟨-, -, -, -, hOk, -⟩ := outcome_of_questions (crashesOn []) isValidSelector {} everyDisposition
  obtain ⟨hOutcome, hElements⟩ := hOk fun t _ => ⟨t != "text".toList, rfl⟩
  refine ⟨hQuestions, ?_, hOutcome, fun e he => hElements e he []⟩
  refine (hError _).2 ⟨["mt-2", "text-red", "text", "text-red"].map String.toList, "m-1".toList, ["m-2".toList],
    "engine crashed".toList, ?_, ?_, by decide, rfl⟩
  · exact (hSame (crashesOn []) false).symm.trans hQuestions
  · intro t ht
    refine ⟨t != "text".toList, if_neg ?_⟩
    revert t
    decide

end ClassFold

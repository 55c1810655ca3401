import ClassFold.Transformer
import ClassFold.Proofs.Document.Safety
import ClassFold.Proofs.WellFormed.Refolding

/-!
# Runs over stages

A stage works on its own source, or else on the text that the stages before it leave, and it leaves its output
or, if it fails, the text that it worked on. So a run can be cut between any two stages, and what holds of one
transformation holds along the run: the only failures are those of the engines, a page stays well written, and
a stage that deletes what it folded finds nothing more to do when it is repeated.
-/

set_option autoImplicit false

namespace ClassFold

namespace Stage

/-- The text that a stage works on. -/
def sourceOver (s : Stage) (current : Text) : Text := s.source?.getD current

def result (s : Stage) (current : Text) : Except Error Text :=
  s.transformer.transform s.engine (s.sourceOver current)

/-- The text that a stage leaves to the stages behind it. -/
def left (s : Stage) (current : Text) : Text := (s.result current).toOption.getD (s.sourceOver current)

def leftByAll (current : Text) (stages : List Stage) : Text := stages.foldl (fun text s => s.left text) current

variable {s : Stage} {stages ss : List Stage} {current output : Text} {e : Error} {i : Nat}

theorem left_of_ok (h : s.result current = .ok output) : s.left current = output := by
  rw [left, h]
  rfl

theorem left_of_error (h : s.result current = .error e) : s.left current = s.sourceOver current := by
  rw [left, h]
  rfl

theorem sourceOver_of_none (h : s.source? = none) (current : Text) : s.sourceOver current = current := by
  rw [sourceOver, h, Option.getD_none]

theorem runAll_cons (current : Text) (s : Stage) (stages : List Stage) :
    runAll current (s :: stages) = s.result current :: runAll (s.left current) stages := rfl

theorem runAll_append (current : Text) (ss ts : List Stage) :
    runAll current (ss ++ ts) = runAll current ss ++ runAll (leftByAll current ss) ts := by
  induction ss generalizing current with
  | nil => rfl
  | cons s ss ih =>
    rw [List.cons_append, runAll_cons, runAll_cons, ih, List.cons_append]
    rfl

/-- There is one answer a stage, and it is about the text that the stages before it leave. -/
theorem getElem?_runAll (current : Text) (stages : List Stage) (i : Nat) :
    (runAll current stages)[i]? = stages[i]?.map fun s => s.result (leftByAll current (stages.take i)) := by
  induction stages generalizing current i with
  | nil => rfl
  | cons s stages ih =>
    cases i with
    | zero => rfl
    | succ i =>
      rw [runAll_cons, List.getElem?_cons_succ, List.getElem?_cons_succ, ih]
      rfl

/-- For the stages behind it, a stage that fails on the current text might as well be left out. -/
theorem runAll_append_cons_of_error (hOwn : s.source? = none) (h : s.result (leftByAll current ss) = .error e)
    (ts : List Stage) :
    runAll current (ss ++ s :: ts) = runAll current ss ++ .error e :: runAll (leftByAll current ss) ts := by
  rw [runAll_append, runAll_cons, left_of_error h, sourceOver_of_none hOwn, h]

/-- Where a run has an error, it is one of the engine of the stage in that place. -/
theorem failsWith_of_getElem?_runAll (h : (runAll current stages)[i]? = some (.error e)) :
    ∃ s, stages[i]? = some s ∧ s.engine.FailsWith e := by
  rw [getElem?_runAll] at h
  obtain ⟨s, hStage, hResult⟩ := Option.map_eq_some_iff.1 h
  exact ⟨s, hStage, failsWith_of_transform hResult⟩

theorem exists_getElem?_runAll (hTotal : ∀ s ∈ stages, s.engine.Total) (current : Text) (hi : i < stages.length) :
    ∃ output, (runAll current stages)[i]? = some (.ok output) := by
  have hStage : stages[i]? = some stages[i] := List.getElem?_eq_getElem hi
  cases hResult : stages[i].result (leftByAll current (stages.take i)) with
  | ok output => exact ⟨output, by rw [getElem?_runAll, hStage, Option.map_some, hResult]⟩
  | error e =>
    obtain ⟨asked, token, reason, hAnswer, -⟩ := failsWith_of_transform hResult
    obtain ⟨yes, hYes⟩ := hTotal stages[i] (List.getElem_mem hi) asked token
    rw [hYes] at hAnswer
    cases hAnswer

section

variable {p : Page}

theorem result_text (hPage : p.WellFormed) (hTotal : s.engine.Total) (hOwn : s.source? = none) :
    s.result p.text = .ok (p.folded s.engine s.transformer.options []).text := by
  rw [result, sourceOver_of_none hOwn]
  exact hPage.transform_eq hTotal

/-- The source of the stage, if it has one, is the text of a page that is well written. -/
def BringsPage (s : Stage) : Prop := ∀ source, s.source? = some source → ∃ p : Page, p.WellFormed ∧ p.text = source

theorem BringsPage.exists_page_left (h : s.BringsPage) (hTotal : s.engine.Total) (hPage : p.WellFormed) :
    ∃ q : Page, q.WellFormed ∧ q.text = s.left p.text := by
  obtain ⟨q, hq, hText⟩ : ∃ q : Page, q.WellFormed ∧ q.text = s.sourceOver p.text := by
    rw [sourceOver]
    cases hSource : s.source? with
    | none => exact ⟨p, hPage, rfl⟩
    | some source => exact h source hSource
  have hResult : s.result p.text = .ok (q.folded s.engine s.transformer.options []).text := by
    rw [result, ← hText]
    exact hq.transform_eq hTotal
  exact ⟨_, hq.folded, (left_of_ok hResult).symm⟩

/-- What stages leave of a page that is well written is such a page. -/
theorem exists_page_leftByAll (hBrings : ∀ s ∈ stages, s.BringsPage) (hTotal : ∀ s ∈ stages, s.engine.Total)
    (hPage : p.WellFormed) : ∃ q : Page, q.WellFormed ∧ q.text = leftByAll p.text stages := by
  induction stages generalizing p with
  | nil => exact ⟨p, hPage, rfl⟩
  | cons s stages ih =>
    obtain ⟨hFirst, hRest⟩ := List.forall_mem_cons.1 hBrings
    obtain ⟨hFirstTotal, hRestTotal⟩ := List.forall_mem_cons.1 hTotal
    obtain ⟨q, hq, hText⟩ := hFirst.exists_page_left hFirstTotal hPage
    obtain ⟨q', hq', hText'⟩ := ih hRest hRestTotal hq
    rw [hText] at hText'
    exact ⟨q', hq', hText'⟩

theorem runAll_replicate_of_fixed (h : s.result current = .ok current) (n : Nat) :
    runAll current (List.replicate n s) = List.replicate n (.ok current) := by
  induction n with
  | zero => rfl
  | succ n ih => rw [List.replicate_succ, runAll_cons, h, left_of_ok h, ih, List.replicate_succ]

/-- A stage that deletes what it folded gives the same page however often it is repeated. -/
theorem runAll_replicate (hPage : p.WellFormed) (hOwn : s.source? = none) (hSteady : s.engine.Steady)
    (hDelete : s.transformer.options.deleteFolded = true)
    (hPrefix : s.transformer.options.prefixedOnly = false ∨ ¬ s.transformer.options.namePrefix <:+: "class".toList)
    (n : Nat) :
    runAll p.text (List.replicate n s) =
      List.replicate n (.ok (p.folded s.engine s.transformer.options []).text) := by
  cases n with
  | zero => rfl
  | succ n =>
    have hFirst := result_text hPage hSteady.total hOwn
    have hAgain : s.result (p.folded s.engine s.transformer.options []).text =
        .ok (p.folded s.engine s.transformer.options []).text := by
      rw [result, sourceOver_of_none hOwn]
      exact hPage.transform_folded hSteady hDelete hPrefix
    rw [List.replicate_succ, runAll_cons, hFirst, left_of_ok hFirst, runAll_replicate_of_fixed hAgain,
      List.replicate_succ]

end

end Stage

end ClassFold

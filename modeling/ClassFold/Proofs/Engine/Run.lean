import Mathlib.Data.List.Forall2
import ClassFold.Contribution

/-!
# Runs that ask

A run is taken apart at its binds, and a run over a list into the runs of its members. What an engine
confirms is a part of what it was asked, in the order of the questions, and the only error of asking is
the engine's own.
-/

set_option autoImplicit false

namespace ClassFold

namespace Ask

variable {α β γ : Type} {asked asked' : List Text} {e : Error}

theorem run_bind_eq_ok_iff {x : Ask α} {f : α → Ask β} {b : β} :
    (x >>= f).run asked = .ok (b, asked') ↔
      ∃ a middle, x.run asked = .ok (a, middle) ∧ (f a).run middle = .ok (b, asked') := by
  rw [StateT.run_bind]
  cases x.run asked with
  | error e => simp [bind, Except.bind]
  | ok p =>
    simp only [bind, Except.bind, Except.ok.injEq]
    constructor
    · exact fun h => ⟨p.1, p.2, rfl, h⟩
    · rintro ⟨a, middle, rfl, h⟩
      exact h

theorem run_bind_eq_error_iff {x : Ask α} {f : α → Ask β} :
    (x >>= f).run asked = .error e ↔
      x.run asked = .error e ∨
        ∃ a middle, x.run asked = .ok (a, middle) ∧ (f a).run middle = .error e := by
  rw [StateT.run_bind]
  cases x.run asked with
  | error e => simp [bind, Except.bind]
  | ok p =>
    simp only [bind, Except.bind, Except.ok.injEq, reduceCtorEq, false_or]
    constructor
    · exact fun h => ⟨p.1, p.2, rfl, h⟩
    · rintro ⟨a, middle, rfl, h⟩
      exact h

theorem run_pure_eq_ok_iff {a b : α} :
    (pure a : Ask α).run asked = .ok (b, asked') ↔ a = b ∧ asked = asked' := by
  rw [StateT.run_pure]
  simp [pure, Except.pure]

theorem run_pure_ne_error {a : α} : (pure a : Ask α).run asked ≠ .error e := by
  rw [StateT.run_pure]
  simp [pure, Except.pure]

theorem forall₂_of_run_mapM {f : α → Ask β} {as : List α} {bs : List β}
    (h : (as.mapM f).run asked = .ok (bs, asked')) :
    List.Forall₂ (fun a b => ∃ s s', (f a).run s = .ok (b, s')) as bs := by
  induction as generalizing asked asked' bs with
  | nil =>
    rw [List.mapM_nil] at h
    obtain ⟨rfl, -⟩ := run_pure_eq_ok_iff.1 h
    exact .nil
  | cons a as ih =>
    rw [List.mapM_cons] at h
    obtain ⟨b, middle, hHead, h⟩ := run_bind_eq_ok_iff.1 h
    obtain ⟨bs, last, hTail, h⟩ := run_bind_eq_ok_iff.1 h
    obtain ⟨rfl, -⟩ := run_pure_eq_ok_iff.1 h
    exact .cons ⟨asked, middle, hHead⟩ (ih hTail)

theorem exists_of_run_mapM_error {f : α → Ask β} {as : List α}
    (h : (as.mapM f).run asked = .error e) : ∃ a ∈ as, ∃ s, (f a).run s = .error e := by
  induction as generalizing asked with
  | nil =>
    rw [List.mapM_nil] at h
    exact absurd h run_pure_ne_error
  | cons a as ih =>
    rw [List.mapM_cons] at h
    rcases run_bind_eq_error_iff.1 h with h | ⟨b, middle, -, h⟩
    · exact ⟨a, List.mem_cons_self, asked, h⟩
    · rcases run_bind_eq_error_iff.1 h with h | ⟨bs, last, -, h⟩
      · obtain ⟨a', ha', s, h⟩ := ih h
        exact ⟨a', List.mem_cons_of_mem _ ha', s, h⟩
      · exact absurd h run_pure_ne_error

theorem mapM_map_eq (f : α → Ask β) (g : β → γ) (as : List α) :
    as.mapM (fun a => g <$> f a) = List.map g <$> as.mapM f := by
  induction as with
  | nil => simp
  | cons a as ih => simp [ih]

end Ask

/-- The error is the engine's own answer to a token. -/
def Engine.FailsWith (engine : Engine) (e : Error) : Prop :=
  ∃ asked token reason, engine.answer asked token = .error reason ∧ e = .engine token reason

namespace Engine

variable {engine : Engine} {asked asked' : List Text}

theorem run_ask (token : Text) :
    (engine.ask token).run asked = match engine.answer asked token with
      | .ok yes => .ok (yes, token :: asked)
      | .error reason => .error (.engine token reason) := rfl

theorem sublist_of_run_confirmed {tokens confirmed : List Text}
    (h : (engine.confirmed tokens).run asked = .ok (confirmed, asked')) : confirmed.Sublist tokens := by
  induction tokens generalizing asked asked' confirmed with
  | nil =>
    obtain ⟨rfl, -⟩ := Ask.run_pure_eq_ok_iff.1 h
    exact List.Sublist.slnil
  | cons t ts ih =>
    rw [Engine.confirmed] at h
    obtain ⟨yes, middle, -, h⟩ := Ask.run_bind_eq_ok_iff.1 h
    obtain ⟨rest, last, hRest, h⟩ := Ask.run_bind_eq_ok_iff.1 h
    obtain ⟨rfl, -⟩ := Ask.run_pure_eq_ok_iff.1 h
    split
    · exact (ih hRest).cons_cons t
    · exact (ih hRest).cons t

theorem failsWith_of_run_confirmed {tokens : List Text} {e : Error}
    (h : (engine.confirmed tokens).run asked = .error e) : engine.FailsWith e := by
  induction tokens generalizing asked with
  | nil => exact absurd h Ask.run_pure_ne_error
  | cons t ts ih =>
    rw [confirmed] at h
    rcases Ask.run_bind_eq_error_iff.1 h with h | ⟨yes, middle, -, h⟩
    · rw [run_ask] at h
      split at h
      · cases h
      · rename_i reason hAnswer
        cases h
        exact ⟨asked, t, reason, hAnswer, rfl⟩
    · rcases Ask.run_bind_eq_error_iff.1 h with h | ⟨rest, last, -, h⟩
      · exact ih h
      · exact absurd h Ask.run_pure_ne_error

end Engine

/-- An attribute together with the candidates that the engine confirmed for it. -/
structure Judged where
  attr : Attribute
  confirmed : List Text
deriving DecidableEq, Repr

namespace Judged

def contribution (engine : Engine) (o : Options) (t : Tag) (j : Judged) : Contribution :=
  j.attr.contribution engine o t j.confirmed

/-- Whether the attribute is taken out because its classes were added. -/
def isFolded (o : Options) (j : Judged) : Bool := o.deleteFolded && !j.confirmed.isEmpty

end Judged

def Attribute.judge (engine : Engine) (o : Options) (a : Attribute) : Ask Judged := do
  let confirmed ← engine.confirmed (candidates engine o a)
  return ⟨a, confirmed⟩

def Tag.judge (engine : Engine) (o : Options) (t : Tag) : Ask (List Judged) :=
  (attributes t.attrs).mapM (·.judge engine o)

theorem Attribute.resolve_eq (engine : Engine) (o : Options) (t : Tag) (a : Attribute) :
    a.resolve engine o t = (fun j => j.contribution engine o t) <$> a.judge engine o := by
  simp [resolve, judge, Judged.contribution]

theorem Tag.resolve_eq (engine : Engine) (o : Options) (t : Tag) :
    t.resolve engine o =
      (fun js => Contribution.concat (js.map (·.contribution engine o t))) <$> t.judge engine o := by
  have hResolve : (fun a : Attribute => a.resolve engine o t) =
      fun a => (fun j => j.contribution engine o t) <$> a.judge engine o :=
    funext fun a => a.resolve_eq engine o t
  rw [resolve, judge, hResolve, Ask.mapM_map_eq]
  simp

/-- The outcome of a judgement: every attribute of a tag in order, each with some of its candidates. -/
structure Judges (engine : Engine) (o : Options) (as : List Attribute) (js : List Judged) : Prop where
  attrs : js.map (·.attr) = as
  sublist : ∀ j ∈ js, j.confirmed.Sublist (candidates engine o j.attr)

theorem judges_of_run {engine : Engine} {o : Options} {as : List Attribute} {js : List Judged}
    {asked asked' : List Text} (h : (as.mapM (Attribute.judge engine o)).run asked = .ok (js, asked')) :
    Judges engine o as js := by
  have hAll := Ask.forall₂_of_run_mapM h
  clear h
  induction hAll with
  | nil => exact ⟨rfl, by simp⟩
  | cons hHead _ ih =>
    obtain ⟨s, s', hRun⟩ := hHead
    obtain ⟨confirmed, middle, hConfirmed, hRun⟩ := Ask.run_bind_eq_ok_iff.1 hRun
    obtain ⟨rfl, -⟩ := Ask.run_pure_eq_ok_iff.1 hRun
    refine ⟨by simp [ih.attrs], ?_⟩
    intro j hj
    rcases List.mem_cons.1 hj with rfl | hj
    · exact Engine.sublist_of_run_confirmed hConfirmed
    · exact ih.sublist j hj

theorem failsWith_of_run_judge {engine : Engine} {o : Options} {t : Tag} {asked : List Text}
    {e : Error} (h : (t.judge engine o).run asked = .error e) : engine.FailsWith e := by
  obtain ⟨a, -, s, h⟩ := Ask.exists_of_run_mapM_error h
  rcases Ask.run_bind_eq_error_iff.1 h with h | ⟨confirmed, middle, -, h⟩
  · exact Engine.failsWith_of_run_confirmed h
  · exact absurd h Ask.run_pure_ne_error

end ClassFold

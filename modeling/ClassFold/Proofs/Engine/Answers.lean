import ClassFold.Proofs.Engine.Run

/-!
# Engines that always answer

With an engine that never fails every run succeeds, and what it asks does not depend on the answers: this is
`Ask.Poses`. If the engine also answers a token the same whatever it was asked before, it is an engine with
fixed answers.
-/

set_option autoImplicit false

namespace ClassFold

namespace Ask

/-- Whatever was asked before, the run succeeds and asks these questions in order. -/
def Poses {α : Type} (x : Ask α) (ts : List Text) : Prop := ∀ asked, ∃ a, x.run asked = .ok (a, ts.reverse ++ asked)

namespace Poses

variable {α β : Type} {x : Ask α} {ts us : List Text}

theorem pure (a : α) : Poses (Pure.pure a) [] := fun _ => ⟨a, rfl⟩

theorem bind {f : α → Ask β} (hx : x.Poses ts)
    (hf : ∀ asked a middle, x.run asked = .ok (a, middle) → (f a).Poses us) : (x >>= f).Poses (ts ++ us) := by
  intro asked
  obtain ⟨a, ha⟩ := hx asked
  obtain ⟨b, hb⟩ := hf asked a _ ha (ts.reverse ++ asked)
  refine ⟨b, run_bind_eq_ok_iff.2 ⟨a, _, ha, ?_⟩⟩
  rw [hb, List.reverse_append, List.append_assoc]

theorem map (hx : x.Poses ts) (g : α → β) : (g <$> x).Poses ts := by
  rw [map_eq_pure_bind, ← List.append_nil ts]
  exact hx.bind fun _ a _ _ => pure (g a)

theorem mapM {f : α → Ask β} {q : α → List Text} (hf : ∀ a, (f a).Poses (q a)) (as : List α) :
    (as.mapM f).Poses (as.flatMap q) := by
  induction as with
  | nil => exact pure []
  | cons a as ih =>
    rw [List.mapM_cons, List.flatMap_cons]
    apply (hf a).bind
    intro _ b _ _
    rw [← map_eq_pure_bind]
    exact ih.map _

end Poses

end Ask

namespace Engine

/-- The engine never fails, whatever it was asked before. -/
def Total (engine : Engine) : Prop := ∀ asked token, ∃ yes, engine.answer asked token = .ok yes

/-- The answer of the engine; a failure counts as a no. -/
def confirms (engine : Engine) (asked : List Text) (token : Text) : Bool :=
  match engine.answer asked token with
  | .ok yes => yes
  | .error _ => false

def confirmedOf (engine : Engine) (asked : List Text) : List Text → List Text
  | [] => []
  | t :: ts =>
    if engine.confirms asked t then t :: engine.confirmedOf (t :: asked) ts
    else engine.confirmedOf (t :: asked) ts

variable {engine : Engine}

theorem run_ask_of_total (hTotal : engine.Total) (asked : List Text) (token : Text) :
    (engine.ask token).run asked = .ok (engine.confirms asked token, token :: asked) := by
  obtain ⟨yes, hYes⟩ := hTotal asked token
  rw [run_ask, confirms, hYes]

theorem run_confirmed_of_total (hTotal : engine.Total) (asked tokens : List Text) :
    (engine.confirmed tokens).run asked =
      .ok (engine.confirmedOf asked tokens, tokens.reverse ++ asked) := by
  induction tokens generalizing asked with
  | nil => rfl
  | cons t ts ih =>
    refine Ask.run_bind_eq_ok_iff.2 ⟨_, _, run_ask_of_total hTotal asked t, ?_⟩
    refine Ask.run_bind_eq_ok_iff.2 ⟨_, _, ih (t :: asked), ?_⟩
    refine Ask.run_pure_eq_ok_iff.2 ⟨rfl, by simp⟩

theorem sublist_confirmedOf (asked tokens : List Text) : (engine.confirmedOf asked tokens).Sublist tokens := by
  induction tokens generalizing asked with
  | nil => exact List.Sublist.slnil
  | cons t ts ih =>
    rw [confirmedOf]
    split
    · exact (ih _).cons_cons t
    · exact (ih _).cons t

/-- The engine never fails, and it answers a token the same whatever it was asked before. -/
structure Steady (engine : Engine) : Prop where
  total : engine.Total
  same : ∀ asked asked' token, engine.answer asked token = engine.answer asked' token

theorem Steady.confirmedOf_eq {engine : Engine} (h : engine.Steady) (asked tokens : List Text) :
    engine.confirmedOf asked tokens = tokens.filter (engine.confirms []) := by
  induction tokens generalizing asked with
  | nil => rfl
  | cons t ts ih =>
    have hSame : engine.confirms asked t = engine.confirms [] t := by
      rw [confirms, confirms, h.same asked []]
    rw [confirmedOf, hSame, ih, List.filter_cons]

end Engine

end ClassFold

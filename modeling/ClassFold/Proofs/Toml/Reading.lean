import Mathlib.Data.List.Basic
import ClassFold.Proofs.Text.Split
import ClassFold.Toml.Reader

/-!
# What a reader takes

`Takes r text a rest` says that before `rest` the reader takes the whole of `text`, for `a`. What follows matters:
a run goes on while it can, and steps are repeated until one fails. Readers put together of readers take the
texts of their parts, one after another.
-/

set_option autoImplicit false

namespace ClassFold.Toml.Reader

variable {α β : Type} {r : Reader α} {r' : Reader β} {f : α → Reader β} {a : α} {b : β} {as : List α}
  {p : Char → Bool} {s x y rest : Text}

def Takes (r : Reader α) (text : Text) (a : α) (rest : Text) : Prop := r (text ++ rest) = some (a, rest)

/-- One step after another, each over a part of the text that is not empty, and none at the rest. -/
inductive Steps (r : Reader α) : Text → List α → Text → Prop where
  | nil {rest : Text} (h : r rest = none) : Steps r [] [] rest
  | cons {x y rest : Text} {a : α} {as : List α} (hNe : x ≠ []) (hStep : Takes r x a (y ++ rest))
      (hRest : Steps r y as rest) : Steps r (x ++ y) (a :: as) rest

theorem bind_eq_none (h : r s = none) (f : α → Reader β) : (r >>= f) s = none := by
  change (r s).bind _ = none
  rw [h, Option.bind_none]

theorem orElse_eq_none {r r' : Reader α} (h : r s = none) (h' : r' s = none) : (r <|> r') s = none := by
  change (r s <|> r' s) = none
  rw [h, h']
  rfl

theorem char_eq_none {c : Char} (h : s.head? ≠ some c) : char c s = none := by
  cases s with
  | nil => rfl
  | cons d s =>
    have hne : ¬ (d == c) = true := fun heq => h (congrArg some (beq_iff_eq.1 heq))
    exact if_neg hne

theorem exactly_eq_none {t : Text} (h : ¬ t <+: s) : exactly t s = none := by
  rw [exactly, Option.map_eq_none_iff, Option.eq_none_iff_forall_ne_some]
  intro rest hRest
  exact h ⟨rest, List.isPrefixOf?_eq_some_iff_append_eq.1 hRest⟩

namespace Takes

theorem pure (a : α) (rest : Text) : Takes (pure a) [] a rest := rfl

theorem bind (h : Takes r x a (y ++ rest)) (hf : Takes (f a) y b rest) : Takes (r >>= f) (x ++ y) b rest := by
  change (r (x ++ y ++ rest)).bind _ = some (b, rest)
  rw [List.append_assoc, h, Option.bind_some]
  exact hf

/-- The last step may take nothing. -/
theorem bind_last (h : Takes r x a rest) (hf : Takes (f a) [] b rest) : Takes (r >>= f) x b rest := by
  have hBoth : Takes (r >>= f) (x ++ []) b rest := bind h hf
  rwa [List.append_nil] at hBoth

theorem map (h : Takes r x a rest) (g : α → β) : Takes (g <$> r) x (g a) rest := by
  change (r (x ++ rest)).bind _ = some (g a, rest)
  rw [h, Option.bind_some]
  rfl

theorem bind_pure (h : Takes r x a rest) (g : α → β) : Takes (r >>= fun a => Pure.pure (g a)) x (g a) rest := h.map g

theorem seqRight (h : Takes r x a (y ++ rest)) (h' : Takes r' y b rest) : Takes (r *> r') (x ++ y) b rest :=
  h.bind h'

theorem seqLeft (h : Takes r x a (y ++ rest)) (h' : Takes r' y b rest) : Takes (r <* r') (x ++ y) a rest :=
  h.bind (h'.bind_pure fun _ => a)

theorem seqLeft_last (h : Takes r x a rest) (h' : Takes r' [] b rest) : Takes (r <* r') x a rest :=
  h.bind_last (h'.bind_pure fun _ => a)

theorem orElse_left (h : Takes r x a rest) (r' : Reader α) : Takes (r <|> r') x a rest := by
  change (r (x ++ rest) <|> r' (x ++ rest)) = some (a, rest)
  rw [h]
  rfl

theorem orElse_right {r' : Reader α} (h : r (x ++ rest) = none) (h' : Takes r' x a rest) : Takes (r <|> r') x a rest := by
  change (r (x ++ rest) <|> r' (x ++ rest)) = some (a, rest)
  rw [h]
  exact h'

theorem optional_some (h : Takes r x a rest) : Takes (optional r) x (some a) rest :=
  (h.map some).orElse_left _

theorem optional_none (h : r rest = none) : Takes (optional r) [] none rest :=
  orElse_right (bind_eq_none h fun a => Pure.pure (some a)) (.pure none rest)

theorem char (c : Char) (rest : Text) : Takes (char c) [c] c rest := if_pos (beq_self_eq_true c)

theorem run (hx : ∀ c ∈ x, p c = true) (hRest : ∀ c, rest.head? = some c → p c = false) : Takes (run p) x x rest := by
  obtain ⟨hTaken, hLeft⟩ := Text.takeWhile_dropWhile_append hx hRest
  rw [Takes, Reader.run, hTaken, hLeft]

theorem run1 (hNe : x ≠ []) (hx : ∀ c ∈ x, p c = true) (hRest : ∀ c, rest.head? = some c → p c = false) :
    Takes (run1 p) x x rest := by
  have hSome : (!x.isEmpty) = true := by simpa using hNe
  have hGuard : Takes (guard (!x.isEmpty) >>= fun _ => Pure.pure x : Reader Text) [] x rest := by
    rw [hSome]
    rfl
  exact (run hx hRest).bind_last hGuard

theorem times (hx : ∀ c ∈ x, p c = true) (rest : Text) : Takes (times p x.length) x x rest := by
  induction x with
  | nil => rfl
  | cons c x ih =>
    obtain ⟨hc, hx⟩ := List.forall_mem_cons.1 hx
    have hFirst : Takes (satisfying p) [c] c (x ++ rest) := if_pos hc
    exact hFirst.bind ((ih hx).bind_pure (c :: ·))

theorem repeated (h : Steps r x as rest) {bound : Text} (hBound : as.length ≤ bound.length) :
    repeated r bound (x ++ rest) = (as, rest) := by
  induction h generalizing bound with
  | @nil rest h =>
    cases bound with
    | nil => rfl
    | cons c bound =>
      rw [List.nil_append, Reader.repeated, h]
  | cons hNe hStep hRest ih =>
    cases bound with
    | nil => exact absurd hBound (Nat.not_succ_le_zero _)
    | cons c bound =>
      have hTaken := hStep
      rw [Takes, ← List.append_assoc] at hTaken
      rw [Reader.repeated, hTaken]
      dsimp only
      rw [ih (Nat.le_of_succ_le_succ hBound)]

theorem length_le_of_steps (h : Steps r x as rest) : as.length ≤ x.length := by
  induction h with
  | nil => exact Nat.le_refl 0
  | cons hNe _ _ ih =>
    have hPos := List.length_pos_iff.2 hNe
    rw [List.length_cons, List.length_append]
    omega

theorem many (h : Steps r x as rest) : Takes (many r) x as rest := by
  have hLength := length_le_of_steps h
  rw [Takes, Reader.many, repeated h (by rw [List.length_append]; omega)]

theorem separated {separator : Reader β} (h : Takes r x a (y ++ rest)) (hSteps : Steps (separator *> r) y as rest) :
    Takes (separated r separator) (x ++ y) (a :: as) rest :=
  h.bind ((many hSteps).bind_pure (a :: ·))

theorem separated_one {separator : Reader β} (h : Takes r x a rest) (hNone : (separator *> r) rest = none) :
    Takes (Reader.separated r separator) x [a] rest :=
  h.bind_last ((many (.nil hNone)).bind_pure (a :: ·))

end Takes

end ClassFold.Toml.Reader

import ClassFold.Proofs.Markup.Closing

/-!
# Outside strings and bindings

A text read from the left is plain characters, strings and bindings, and at its end it is outside when none
of them is open. The reader that looks for the closing `>` is outside exactly there: what its state says
about the text in front of it is kept by every step, `State.Describes.step`. So it stops at the first `>`
that stands outside.
-/

set_option autoImplicit false

namespace ClassFold

def lastSolid? (s : Text) : Option Char := s.reverse.find? (!isBlank ·)

theorem lastSolid?_append_blank {c : Char} (hc : isBlank c = true) (s : Text) :
    lastSolid? (s ++ [c]) = lastSolid? s := by
  simp [lastSolid?, hc]

theorem lastSolid?_append_solid {c : Char} (hc : isBlank c = false) (s : Text) :
    lastSolid? (s ++ [c]) = some c := by
  simp [lastSolid?, hc]

/-- At the end of the text no string and no binding is open. A string starts behind an `=`; a closing brace
that no brace was opened for is plain. -/
inductive IsOutside : Text → Prop where
  | nil : IsOutside []
  | plain {s : Text} {c : Char} (hs : IsOutside s) (hOpen : c ≠ '{')
      (hQuote : isQuote c = true → lastSolid? s ≠ some '=') : IsOutside (s ++ [c])
  | string {s v : Text} {q : Char} (hs : IsOutside s) (hQuote : isQuote q = true)
      (hSign : lastSolid? s = some '=') (hFree : q ∉ v) : IsOutside (s ++ q :: (v ++ [q]))
  | binding {s e : Text} (hs : IsOutside s) (hInside : Balanced e) : IsOutside (s ++ '{' :: (e ++ ['}']))

/-- So many bindings are open one in another at the end of the text, and no string is. -/
inductive Nested : Nat → Text → Prop where
  | outside {s : Text} (hs : IsOutside s) : Nested 0 s
  | inside {depth : Nat} {s e : Text} (hs : Nested depth s) (hInside : Balanced e) :
      Nested (depth + 1) (s ++ '{' :: e)

namespace Nested

variable {depth : Nat} {s v : Text} {c q : Char}

/-- Inside a binding what is balanced may follow. -/
theorem append (h : Nested (depth + 1) s) {e : Text} (he : Balanced e) : Nested (depth + 1) (s ++ e) := by
  cases h with
  | inside hs hInside =>
    rw [List.append_assoc, List.cons_append]
    exact .inside hs (hInside.append he)

theorem close (h : Nested (depth + 1) s) : Nested depth (s ++ ['}']) := by
  cases h with
  | inside hs hInside =>
    rw [List.append_assoc, List.cons_append]
    cases depth with
    | zero =>
      cases hs with
      | outside hs => exact .outside (.binding hs hInside)
    | succ depth => exact hs.append (.braces hInside .nil)

theorem plain (h : Nested depth s) (hOpen : c ≠ '{') (hClose : 0 < depth → c ≠ '}')
    (hQuote : isQuote c = true → depth = 0 ∧ lastSolid? s ≠ some '=') : Nested depth (s ++ [c]) := by
  cases depth with
  | zero =>
    cases h with
    | outside hs => exact .outside (.plain hs hOpen fun hc => (hQuote hc).2)
  | succ depth =>
    have hNot : isQuote c = false := by
      rw [← Bool.not_eq_true]
      exact fun hc => absurd (hQuote hc).1 (Nat.succ_ne_zero depth)
    exact h.append (.char hOpen (hClose (Nat.succ_pos depth)) hNot .nil)

theorem string (h : Nested depth s) (hQuote : isQuote q = true) (hSign : depth = 0 → lastSolid? s = some '=')
    (hFree : q ∉ v) : Nested depth (s ++ q :: (v ++ [q])) := by
  cases depth with
  | zero =>
    cases h with
    | outside hs => exact .outside (.string hs hQuote (hSign rfl) hFree)
  | succ depth => exact h.append (.string hQuote hFree .nil)

end Nested

namespace TagEnd

namespace State

variable {σ : State} {s t v : Text} {c q last : Char} {depth : Nat}

theorem run_append (σ : State) (s t : Text) : σ.run (s ++ t) = (σ.run s).run t := List.foldl_append

theorem run_cons (σ : State) (c : Char) (s : Text) : σ.run (c :: s) = (σ.step c).run s := rfl

/-- What a state says about the text in front of it. -/
def Describes (σ : State) (s : Text) : Prop :=
  match σ.quote with
  | none => Nested σ.depth s ∧ σ.last = (lastSolid? s).getD ' '
  | some q => ∃ t v, s = t ++ q :: v ∧ isQuote q = true ∧ q ∉ v ∧ Nested σ.depth t ∧
      (σ.depth = 0 → lastSolid? t = some '=')

theorem describes_none {last : Char} :
    (State.mk none depth last).Describes s ↔ Nested depth s ∧ last = (lastSolid? s).getD ' ' := Iff.rfl

theorem describes_some {last : Char} :
    (State.mk (some q) depth last).Describes s ↔
      ∃ t v, s = t ++ q :: v ∧ isQuote q = true ∧ q ∉ v ∧ Nested depth t ∧
        (depth = 0 → lastSolid? t = some '=') := Iff.rfl

theorem admitsString_iff (depth : Nat) (hLast : last = (lastSolid? s).getD ' ') :
    (State.mk none depth last).admitsString = true ↔ (depth = 0 → lastSolid? s = some '=') := by
  have hSign : last = '=' ↔ lastSolid? s = some '=' := by
    rw [hLast]
    cases lastSolid? s <;> simp
  rw [admitsString, Bool.or_eq_true, decide_eq_true_eq, beq_iff_eq, hSign, Nat.pos_iff_ne_zero, Decidable.imp_iff_not_or]

theorem Describes.step (h : σ.Describes s) (c : Char) : (σ.step c).Describes (s ++ [c]) := by
  obtain ⟨quote, depth, last⟩ := σ
  cases quote with
  | some q =>
    obtain ⟨t, v, rfl, hQuote, hFree, hNested, hSign⟩ := describes_some.1 h
    rw [List.append_assoc, List.cons_append]
    rw [State.step]
    dsimp only
    split
    · rename_i hc
      obtain rfl := beq_iff_eq.1 hc
      refine describes_none.2 ⟨hNested.string hQuote hSign hFree, ?_⟩
      rw [← List.cons_append, ← List.append_assoc, lastSolid?_append_solid (isBlank_eq_false_of_isQuote hQuote)]
      rfl
    · rename_i hc
      refine describes_some.2 ⟨t, v ++ [c], rfl, hQuote, ?_, hNested, hSign⟩
      rw [List.mem_append, List.mem_singleton]
      rintro (hMem | rfl)
      · exact hFree hMem
      · exact hc (beq_self_eq_true q)
  | none =>
    obtain ⟨hNested, hLast⟩ := describes_none.1 h
    have hAdmits := admitsString_iff depth hLast
    rw [State.step]
    dsimp only
    split
    · rename_i hString
      rw [Bool.and_eq_true, hAdmits] at hString
      exact describes_some.2 ⟨s, [], rfl, hString.1, List.not_mem_nil, hNested, hString.2⟩
    · rename_i hString
      rw [Bool.and_eq_true, hAdmits, not_and] at hString
      split
      · rename_i hc
        obtain rfl := beq_iff_eq.1 hc
        refine describes_none.2 ⟨.inside hNested .nil, ?_⟩
        rw [lastSolid?_append_solid (by decide)]
        rfl
      · rename_i hOpen
        split
        · rename_i hClose
          simp only [Bool.and_eq_true, beq_iff_eq, decide_eq_true_eq] at hClose
          obtain ⟨rfl, hPos⟩ := hClose
          obtain ⟨depth, rfl⟩ := Nat.exists_eq_succ_of_ne_zero (Nat.ne_of_gt hPos)
          refine describes_none.2 ⟨hNested.close, ?_⟩
          rw [lastSolid?_append_solid (by decide)]
          rfl
        · rename_i hClose
          have hPlain : Nested depth (s ++ [c]) := by
            apply hNested.plain
            · exact fun hc => hOpen (beq_iff_eq.2 hc)
            · rintro hPos rfl
              exact hClose (by simp [hPos])
            · intro hQuote
              simpa using hString hQuote
          split
          · rename_i hBlank
            refine describes_none.2 ⟨hPlain, ?_⟩
            rw [lastSolid?_append_blank hBlank, hLast]
          · rename_i hBlank
            refine describes_none.2 ⟨hPlain, ?_⟩
            rw [lastSolid?_append_solid (Bool.eq_false_iff.2 hBlank)]
            rfl

theorem describes_start : State.start.Describes [] := describes_none.2 ⟨.outside .nil, rfl⟩

theorem Describes.run (h : σ.Describes s) (t : Text) : (σ.run t).Describes (s ++ t) := by
  induction t generalizing σ s with
  | nil =>
    rw [List.append_nil]
    exact h
  | cons c t ih =>
    rw [run_cons, List.append_cons]
    exact ih (h.step c)

theorem describes_run_start (s : Text) : (State.start.run s).Describes s := describes_start.run s

theorem run_inside_string (hFree : q ∉ v) : (State.mk (some q) depth last).run v = ⟨some q, depth, last⟩ := by
  induction v with
  | nil => rfl
  | cons c v ih =>
    rw [List.mem_cons, not_or] at hFree
    rw [run_cons, step_inside (Ne.symm hFree.1)]
    exact ih hFree.2

theorem run_string (hQuote : isQuote q = true) (hAdmits : (State.mk none depth last).admitsString = true)
    (hFree : q ∉ v) : (State.mk none depth last).run (q :: (v ++ [q])) = ⟨none, depth, q⟩ := by
  rw [run_cons, step_quote hQuote hAdmits, run_append, run_inside_string hFree, run_cons, step_unquote]
  rfl

theorem run_balanced {e : Text} (h : Balanced e) (hDepth : 0 < depth) (last : Char) :
    ∃ last', (State.mk none depth last).run e = ⟨none, depth, last'⟩ := by
  induction h generalizing depth last with
  | nil => exact ⟨last, rfl⟩
  | @char c s hOpen hClose hQuote _ ih =>
    rw [run_cons, step_plain hQuote hOpen hClose]
    exact ih hDepth _
  | @string q v s hQuote hFree _ ih =>
    have hText : q :: (v ++ q :: s) = q :: (v ++ [q]) ++ s := by simp
    rw [hText, run_append, run_string hQuote (admitsString_of_pos hDepth last) hFree]
    exact ih hDepth q
  | @braces e s _ _ ihInside ihRest =>
    obtain ⟨inner, hInside⟩ := ihInside (Nat.succ_pos depth) '{'
    rw [run_cons, step_open, run_append, hInside, run_cons, step_close]
    exact ihRest hDepth '}'

theorem isOutside_iff {σ : State} : σ.isOutside = true ↔ ∃ last, σ = ⟨none, 0, last⟩ := by
  refine ⟨eq_of_isOutside, ?_⟩
  rintro ⟨last, rfl⟩
  rfl

/-- The reader is outside where the text in front of it is. -/
theorem isOutside_run_start_iff : (State.start.run s).isOutside = true ↔ IsOutside s := by
  constructor
  · intro h
    obtain ⟨last, hRun⟩ := isOutside_iff.1 h
    have hDescribes := describes_run_start s
    rw [hRun] at hDescribes
    cases (describes_none.1 hDescribes).1 with
    | outside hs => exact hs
  · intro h
    induction h with
    | nil => rfl
    | @plain s c _ hOpen hQuote ih =>
      obtain ⟨last, hRun⟩ := isOutside_iff.1 ih
      have hDescribes := describes_run_start s
      rw [hRun] at hDescribes
      have hString : (isQuote c && (State.mk none 0 last).admitsString) = false := by
        rw [← Bool.not_eq_true, Bool.and_eq_true, admitsString_iff 0 (describes_none.1 hDescribes).2]
        exact fun ⟨hc, hSign⟩ => hQuote hc (hSign rfl)
      rw [run_append, hRun, run_cons, State.step]
      simp only [hString, beq_false_of_ne hOpen, Bool.false_eq_true, if_false, Nat.lt_irrefl, decide_false, Bool.and_false]
      split <;> rfl
    | @string s v q _ hQuote hSign hFree ih =>
      obtain ⟨last, hRun⟩ := isOutside_iff.1 ih
      have hDescribes := describes_run_start s
      rw [hRun] at hDescribes
      have hAdmits := (admitsString_iff 0 (describes_none.1 hDescribes).2).2 fun _ => hSign
      rw [run_append, hRun, run_string hQuote hAdmits hFree]
      rfl
    | @binding s e _ hInside ih =>
      obtain ⟨last, hRun⟩ := isOutside_iff.1 ih
      obtain ⟨inner, hInner⟩ := run_balanced hInside Nat.one_pos '{'
      rw [run_append, hRun, run_cons, step_open, run_append, hInner]
      rfl

end State

/-- The front part of a text that ends at the first `>` for which a test holds. -/
structure IsFirstEnd (P : Text → Prop) (s front : Text) : Prop where
  holds : P front
  least : ∀ x y, s = x ++ '>' :: y → P x → front.length ≤ x.length

theorem cutAfter?_spec (σ : State) (behind s : Text) :
    (∃ m b, cutAfter? σ behind s = some (behind.reverse ++ m, b) ∧ s = m ++ '>' :: b ∧
      IsFirstEnd (fun x => (σ.run x).isOutside = true) s m) ∨
    cutAfter? σ behind s = none ∧ ∀ x y, s = x ++ '>' :: y → (σ.run x).isOutside = false := by
  induction s generalizing σ behind with
  | nil => exact Or.inr ⟨rfl, by simp⟩
  | cons c s ih =>
    rw [cutAfter?]
    split
    · rename_i hc
      rw [Bool.and_eq_true, beq_iff_eq] at hc
      refine Or.inl ⟨[], s, by simp, by simp [hc.1], hc.2, fun x y _ _ => Nat.zero_le _⟩
    · rename_i hc
      have hFirst : ∀ x y, c :: s = x ++ '>' :: y → (σ.run x).isOutside = true →
          ∃ x', x = c :: x' ∧ s = x' ++ '>' :: y := by
        intro x y hText hOutside
        cases x with
        | nil =>
          obtain ⟨rfl, -⟩ := List.cons.inj hText
          exact absurd (Bool.and_eq_true_iff.2 ⟨rfl, hOutside⟩) hc
        | cons d x =>
          obtain ⟨rfl, hs⟩ := List.cons.inj hText
          exact ⟨x, rfl, hs⟩
      obtain ⟨m, b, hCut, hText, hOutside, hLeast⟩ | ⟨hCut, hNone⟩ := ih (σ.step c) (c :: behind)
      · refine Or.inl ⟨c :: m, b, ?_, by rw [hText, List.cons_append], hOutside, ?_⟩
        · rw [hCut, List.reverse_cons, List.append_assoc, List.singleton_append]
        · intro x y hx hOutside
          obtain ⟨x', rfl, hs⟩ := hFirst x y hx hOutside
          exact Nat.succ_le_succ (hLeast x' y hs hOutside)
      · refine Or.inr ⟨hCut, ?_⟩
        intro x y hx
        rw [← Bool.not_eq_true]
        intro hOutside
        obtain ⟨x', rfl, hs⟩ := hFirst x y hx hOutside
        exact absurd hOutside (Bool.eq_false_iff.1 (hNone x' y hs))

theorem cut?_spec (s : Text) :
    (∃ a b, cut? s = some (a, b) ∧ s = a ++ '>' :: b ∧ IsFirstEnd IsOutside s a) ∨
    cut? s = none ∧ ∀ x y, s = x ++ '>' :: y → ¬ IsOutside x := by
  obtain ⟨a, b, hCut, hText, hOutside, hLeast⟩ | ⟨hCut, hNone⟩ := cutAfter?_spec .start [] s
  · refine Or.inl ⟨a, b, hCut, hText, State.isOutside_run_start_iff.1 hOutside, ?_⟩
    exact fun x y hx hs => hLeast x y hx (State.isOutside_run_start_iff.2 hs)
  · refine Or.inr ⟨hCut, fun x y hx hs => ?_⟩
    have hFalse := hNone x y hx
    rw [State.isOutside_run_start_iff.2 hs] at hFalse
    cases hFalse

theorem cut?_eq_some_iff {s a b : Text} :
    cut? s = some (a, b) ↔ s = a ++ '>' :: b ∧ IsFirstEnd IsOutside s a := by
  obtain ⟨a', b', hCut, hText, hFirst⟩ | ⟨hCut, hNone⟩ := cut?_spec s
  · rw [hCut, Option.some.injEq, Prod.mk.injEq]
    constructor
    · rintro ⟨rfl, rfl⟩
      exact ⟨hText, hFirst⟩
    · rintro ⟨hText', hFirst'⟩
      have hle := hFirst.least a b hText' hFirst'.holds
      have hge := hFirst'.least a' b' hText hFirst.holds
      have hAppend := hText.symm.trans hText'
      obtain ⟨rfl, hTail⟩ := List.append_inj hAppend (Nat.le_antisymm hle hge)
      exact ⟨rfl, (List.cons.inj hTail).2⟩
  · rw [hCut]
    constructor
    · rintro ⟨⟩
    · rintro ⟨hText, hFirst⟩
      exact absurd hFirst.holds (hNone a b hText)

theorem cut?_eq_none_iff {s : Text} : cut? s = none ↔ ∀ x y, s = x ++ '>' :: y → ¬ IsOutside x := by
  obtain ⟨a, b, hCut, hText, hFirst⟩ | ⟨hCut, hNone⟩ := cut?_spec s
  · rw [hCut]
    constructor
    · rintro ⟨⟩
    · exact fun h => absurd hFirst.holds (h a b hText)
  · exact ⟨fun _ => hNone, fun _ => hCut⟩

end TagEnd

end ClassFold

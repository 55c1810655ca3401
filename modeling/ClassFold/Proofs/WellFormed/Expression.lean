import ClassFold.Markup.TagEnd
import ClassFold.Markup.Value
import ClassFold.Proofs.Text.Split

/-!
# Strings and expressions that are closed

A string that is closed and an expression whose braces are balanced are read whole, by the reader of
values and by the reader that looks for the end of a tag, which come out of them at the depth at which
they went in.
-/

set_option autoImplicit false

namespace ClassFold

/-- The braces are balanced, and so are those inside them; every string is closed. -/
inductive Balanced : Text → Prop where
  | nil : Balanced []
  | char {c : Char} {s : Text} (hOpen : c ≠ '{') (hClose : c ≠ '}') (hQuote : isQuote c = false)
      (hRest : Balanced s) : Balanced (c :: s)
  | string {q : Char} {v s : Text} (hQuote : isQuote q = true) (hFree : q ∉ v) (hRest : Balanced s) :
      Balanced (q :: (v ++ q :: s))
  | braces {e s : Text} (hInside : Balanced e) (hRest : Balanced s) : Balanced ('{' :: (e ++ '}' :: s))

theorem Balanced.append {s t : Text} (hs : Balanced s) (ht : Balanced t) : Balanced (s ++ t) := by
  induction hs with
  | nil => exact ht
  | char hOpen hClose hQuote _ ih => exact .char hOpen hClose hQuote ih
  | string hQuote hFree _ ih =>
    rw [List.cons_append, List.append_assoc, List.cons_append]
    exact .string hQuote hFree ih
  | braces hInside _ _ ih =>
    rw [List.cons_append, List.append_assoc, List.cons_append]
    exact .braces hInside ih

theorem isBlank_eq_false_of_isQuote {q : Char} (h : isQuote q = true) : isBlank q = false := by
  rw [← Bool.not_eq_true]
  intro hBlank
  obtain rfl | rfl | rfl | rfl | rfl := isBlank_eq_true_iff.1 hBlank <;> exact absurd h (by decide)

theorem readString_append_cons {q : Char} {v : Text} (hFree : q ∉ v) (s : Text) :
    readString q (v ++ q :: s) = (v ++ [q], s) := by
  obtain ⟨hTake, hDrop⟩ := Text.takeWhile_dropWhile_ne hFree s
  simp [readString, hTake, hDrop]

theorem readString_of_not_mem {q : Char} {v : Text} (hFree : q ∉ v) : readString q v = (v, []) := by
  simp [readString, Text.dropWhile_ne_eq_nil_iff.2 hFree]

theorem readInside?_cons_of_plain {c : Char} (hOpen : c ≠ '{') (hClose : c ≠ '}') (hQuote : isQuote c = false)
    (depth : Nat) (s : Text) :
    readInside? depth (c :: s) = (readInside? depth s).map fun p => (c :: p.1, p.2) := by
  rw [readInside?.eq_def]
  simp only [beq_false_of_ne hOpen, beq_false_of_ne hClose, hQuote, Bool.false_eq_true, if_false]

theorem readInside?_cons_of_isQuote {q : Char} (hQuote : isQuote q = true) (depth : Nat) (s : Text) :
    readInside? depth (q :: s) =
      (readInside? depth (readString q s).2).map fun p => (q :: ((readString q s).1 ++ p.1), p.2) := by
  have hOpen : q ≠ '{' := by
    rintro rfl
    exact absurd hQuote (by decide)
  have hClose : q ≠ '}' := by
    rintro rfl
    exact absurd hQuote (by decide)
  rw [readInside?.eq_def]
  simp only [beq_false_of_ne hOpen, beq_false_of_ne hClose, hQuote, Bool.false_eq_true, if_false, if_true]

theorem readInside?_cons_open (depth : Nat) (s : Text) :
    readInside? depth ('{' :: s) = (readInside? (depth + 1) s).map fun p => ('{' :: p.1, p.2) := by
  rw [readInside?.eq_def]
  rfl

theorem readInside?_cons_close (depth : Nat) (s : Text) :
    readInside? (depth + 1) ('}' :: s) = (readInside? depth s).map fun p => ('}' :: p.1, p.2) := by
  rw [readInside?.eq_def]
  rfl

theorem readInside?_zero_cons_close (s : Text) : readInside? 0 ('}' :: s) = some (['}'], s) := by
  rw [readInside?.eq_def]
  rfl

theorem Balanced.readInside?_append {e : Text} (h : Balanced e) (depth : Nat) (s : Text) :
    readInside? depth (e ++ s) = (readInside? depth s).map fun p => (e ++ p.1, p.2) := by
  induction h generalizing depth s with
  | nil => simp
  | char hOpen hClose hQuote _ ih =>
    rw [List.cons_append, readInside?_cons_of_plain hOpen hClose hQuote, ih]
    simp [Function.comp_def]
  | string hQuote hFree _ ih =>
    rw [List.cons_append, List.append_assoc, List.cons_append, readInside?_cons_of_isQuote hQuote,
      readString_append_cons hFree, ih]
    simp [Function.comp_def]
  | braces _ _ ihInside ihRest =>
    rw [List.cons_append, List.append_assoc, List.cons_append, readInside?_cons_open, ihInside,
      readInside?_cons_close, ihRest]
    simp [Function.comp_def]

theorem Balanced.readBinding?_eq {e : Text} (h : Balanced e) (s : Text) :
    readBinding? ('{' :: (e ++ '}' :: s)) = some ('{' :: (e ++ ['}']), s) := by
  rw [readBinding?, h.readInside?_append, readInside?_zero_cons_close]
  rfl

namespace TagEnd

namespace State

variable {depth : Nat} {last c q : Char}

theorem step_plain (hQuote : isQuote c = false) (hOpen : c ≠ '{') (hClose : c ≠ '}') (depth : Nat) (last : Char) :
    (State.mk none depth last).step c = ⟨none, depth, if isBlank c then last else c⟩ := by
  simp only [step, hQuote, beq_false_of_ne hOpen, beq_false_of_ne hClose, Bool.false_and, Bool.false_eq_true, if_false]
  split <;> rfl

theorem step_open (depth : Nat) (last : Char) : (State.mk none depth last).step '{' = ⟨none, depth + 1, '{'⟩ := rfl

theorem step_close (depth : Nat) (last : Char) : (State.mk none (depth + 1) last).step '}' = ⟨none, depth, '}'⟩ := rfl

theorem step_quote (hQuote : isQuote q = true) (hAdmits : (State.mk none depth last).admitsString = true) :
    (State.mk none depth last).step q = ⟨some q, depth, last⟩ := by
  simp [step, hQuote, hAdmits]

theorem step_inside (hNe : c ≠ q) (depth : Nat) (last : Char) :
    (State.mk (some q) depth last).step c = ⟨some q, depth, last⟩ := by
  simp [step, hNe]

theorem step_unquote (q : Char) (depth : Nat) (last : Char) :
    (State.mk (some q) depth last).step q = ⟨none, depth, q⟩ := by
  simp [step]

theorem admitsString_of_pos (hDepth : 0 < depth) (last : Char) : (State.mk none depth last).admitsString = true := by
  simp [admitsString, hDepth]

end State

/-- From `σ` over `s` to `τ`, with no closing `>` on the way. -/
def Passes (σ τ : State) (s : Text) : Prop :=
  ∀ behind rest, cutAfter? σ behind (s ++ rest) = cutAfter? τ (s.reverse ++ behind) rest

namespace Passes

variable {σ τ υ : State} {c : Char} {s t : Text}

theorem refl (σ : State) : Passes σ σ [] := fun _ _ => rfl

theorem append (h : Passes σ τ s) (h' : Passes τ υ t) : Passes σ υ (s ++ t) := by
  intro behind rest
  rw [List.append_assoc, h, h', List.reverse_append, List.append_assoc]

theorem cons (hOpen : (c == '>' && σ.isOutside) = false) (h : Passes (σ.step c) τ s) : Passes σ τ (c :: s) := by
  intro behind rest
  rw [List.cons_append, cutAfter?, if_neg (by simp [hOpen]), h, List.reverse_cons, List.append_assoc,
    List.singleton_append]

theorem string_inside {q : Char} {depth : Nat} {last : Char} (hFree : q ∉ s) :
    Passes ⟨some q, depth, last⟩ ⟨some q, depth, last⟩ s := by
  induction s with
  | nil => exact refl _
  | cons c s ih =>
    rw [List.mem_cons, not_or] at hFree
    apply cons
    · simp [State.isOutside]
    · rw [State.step_inside (Ne.symm hFree.1)]
      exact ih hFree.2

theorem string {q : Char} {depth : Nat} {last : Char} (hQuote : isQuote q = true)
    (hAdmits : (State.mk none depth last).admitsString = true) (hFree : q ∉ s) :
    Passes ⟨none, depth, last⟩ ⟨none, depth, q⟩ (q :: (s ++ [q])) := by
  have hNot : (q == '>') = false := by
    apply beq_false_of_ne
    rintro rfl
    exact absurd hQuote (by decide)
  apply cons
  · simp [hNot]
  · rw [State.step_quote hQuote hAdmits]
    apply (string_inside hFree).append
    apply cons
    · simp [hNot]
    · rw [State.step_unquote]
      exact refl _

theorem plain (last : Char) (hPlain : ∀ c ∈ s, isQuote c = false ∧ c ≠ '{' ∧ c ≠ '}' ∧ c ≠ '>') :
    ∃ last', Passes ⟨none, 0, last⟩ ⟨none, 0, last'⟩ s := by
  induction s generalizing last with
  | nil => exact ⟨last, refl _⟩
  | cons c s ih =>
    obtain ⟨hQuote, hOpen, hClose, hEnd⟩ := hPlain c List.mem_cons_self
    obtain ⟨last', hRest⟩ := ih (if isBlank c then last else c) fun d hd => hPlain d (List.mem_cons_of_mem _ hd)
    refine ⟨last', cons (by simp [hEnd]) ?_⟩
    rw [State.step_plain hQuote hOpen hClose]
    exact hRest

/-- Inside braces even a `>` is passed over. -/
theorem of_balanced {e : Text} (h : Balanced e) {depth : Nat} (hDepth : 0 < depth) (last : Char) :
    ∃ last', Passes ⟨none, depth, last⟩ ⟨none, depth, last'⟩ e := by
  induction h generalizing depth last with
  | nil => exact ⟨last, refl _⟩
  | char hOpen hClose hQuote _ ih =>
    rename_i c e _
    obtain ⟨last', hRest⟩ := ih hDepth (if isBlank c then last else c)
    -- The depth keeps the reader inside, so `c` may be a `>`.
    refine ⟨last', cons (by simp [State.isOutside]; omega) ?_⟩
    rw [State.step_plain hQuote hOpen hClose]
    exact hRest
  | string hQuote hFree _ ih =>
    rename_i q v e _
    obtain ⟨last', hRest⟩ := ih hDepth q
    have hString := string hQuote (State.admitsString_of_pos hDepth last) hFree
    exact ⟨last', by simpa using hString.append hRest⟩
  | braces _ _ ihInside ihRest =>
    rename_i e r _ _
    obtain ⟨inner, hInside⟩ := ihInside (Nat.succ_pos depth) '{'
    obtain ⟨last', hRest⟩ := ihRest hDepth '}'
    refine ⟨last', cons rfl ?_⟩
    rw [State.step_open]
    apply hInside.append
    apply cons rfl
    rw [State.step_close]
    exact hRest

theorem braces {e : Text} (h : Balanced e) (last : Char) :
    Passes ⟨none, 0, last⟩ ⟨none, 0, '}'⟩ ('{' :: (e ++ ['}'])) := by
  obtain ⟨inner, hInside⟩ := of_balanced h Nat.one_pos '{'
  apply cons rfl
  rw [State.step_open]
  apply hInside.append
  apply cons rfl
  rw [State.step_close]
  exact refl _

end Passes

end TagEnd

end ClassFold

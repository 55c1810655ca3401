import ClassFold.Proofs.Markup.Extent
import ClassFold.Proofs.Markup.Outside

/-!
# Where a binding ends

Two readers look for the end of a binding. The one that looks for the closing `>` goes from character to
character and counts braces; the one that takes values passes over strings whole. They find the same end:
from a brace on the first reader stays inside up to the matching brace, and where the second finds no
matching brace the first never comes out.
-/

set_option autoImplicit false

namespace ClassFold

namespace TagEnd

/-- From `σ` on, the reader is outside behind no front part of the text. -/
def StaysInside (σ : State) (s : Text) : Prop := ∀ x, x <+: s → (σ.run x).isOutside = false

namespace StaysInside

variable {σ : State} {c q : Char} {s t v : Text} {depth : Nat}

theorem nil (h : σ.isOutside = false) : StaysInside σ [] := by
  intro x hx
  rw [List.prefix_nil.1 hx]
  exact h

theorem cons (h : σ.isOutside = false) (hRest : StaysInside (σ.step c) s) : StaysInside σ (c :: s) := by
  intro x hx
  obtain rfl | ⟨x', rfl, hx'⟩ := List.prefix_cons_iff.1 hx
  · exact h
  · exact hRest x' hx'

theorem append (h : StaysInside σ s) (h' : StaysInside (σ.run s) t) : StaysInside σ (s ++ t) := by
  induction s generalizing σ with
  | nil => exact h'
  | cons c s ih =>
    apply cons (h [] List.nil_prefix)
    apply ih
    · exact fun x hx => h (c :: x) (List.cons_prefix_cons.2 ⟨rfl, hx⟩)
    · exact h'

theorem string_inside (hFree : q ∉ v) (depth : Nat) (last : Char) : StaysInside ⟨some q, depth, last⟩ v := by
  intro x hx
  rw [State.run_inside_string fun hMem => hFree (hx.subset hMem)]
  rfl

theorem isOutside_of_pos (hDepth : 0 < depth) (quote : Option Char) (last : Char) :
    (State.mk quote depth last).isOutside = false := by
  simp [State.isOutside, Nat.ne_of_gt hDepth]

/-- A string inside a binding, up to its closing quote. -/
theorem openString (hQuote : isQuote q = true) (hDepth : 0 < depth) (last : Char) (hFree : q ∉ v) :
    StaysInside ⟨none, depth, last⟩ (q :: v) := by
  apply cons (isOutside_of_pos hDepth none last)
  rw [State.step_quote hQuote (State.admitsString_of_pos hDepth last)]
  exact string_inside hFree depth last

theorem string_append (hQuote : isQuote q = true) (hDepth : 0 < depth) (last : Char) (hFree : q ∉ v)
    (hRest : StaysInside ⟨none, depth, q⟩ s) : StaysInside ⟨none, depth, last⟩ (q :: (v ++ q :: s)) := by
  rw [← List.cons_append]
  apply (openString hQuote hDepth last hFree).append
  rw [State.run_cons, State.step_quote hQuote (State.admitsString_of_pos hDepth last), State.run_inside_string hFree]
  apply cons (isOutside_of_pos hDepth (some q) last)
  rw [State.step_unquote]
  exact hRest

theorem of_balanced {e : Text} (h : Balanced e) (hDepth : 0 < depth) (last : Char) :
    StaysInside ⟨none, depth, last⟩ e := by
  induction h generalizing depth last with
  | nil => exact nil (isOutside_of_pos hDepth none last)
  | char hOpen hClose hQuote _ ih =>
    apply cons (isOutside_of_pos hDepth none last)
    rw [State.step_plain hQuote hOpen hClose]
    exact ih hDepth _
  | string hQuote hFree _ ih => exact string_append hQuote hDepth last hFree (ih hDepth _)
  | braces hInside _ ihInside ihRest =>
    obtain ⟨inner, hInner⟩ := State.run_balanced hInside (Nat.succ_pos depth) '{'
    apply cons (isOutside_of_pos hDepth none last)
    rw [State.step_open]
    apply (ihInside (Nat.succ_pos depth) '{').append
    rw [hInner]
    apply cons (isOutside_of_pos (Nat.succ_pos depth) none inner)
    rw [State.step_close]
    exact ihRest hDepth '}'

/-- Where no brace closes the expression, the reader of tags does not come out of it. -/
theorem of_readInside?_eq_none (h : readInside? depth s = none) (last : Char) :
    StaysInside ⟨none, depth + 1, last⟩ s := by
  fun_induction readInside? depth s generalizing last with
  | case1 depth => exact nil (isOutside_of_pos (Nat.succ_pos depth) none last)
  | case2 depth c s hc ih =>
    rw [beq_iff_eq.1 hc]
    apply cons (isOutside_of_pos (Nat.succ_pos depth) none last)
    rw [State.step_open]
    exact ih (Option.map_eq_none_iff.1 h) '{'
  | case3 c s hc hc' => cases h
  | case4 c s hc hc' depth ih =>
    rw [beq_iff_eq.1 hc']
    apply cons (isOutside_of_pos (Nat.succ_pos _) none last)
    rw [State.step_close]
    exact ih (Option.map_eq_none_iff.1 h) '}'
  | case5 depth c s hc hc' hq ih =>
    obtain ⟨v, rest, hFree, hText, hRead⟩ | ⟨hFree, -⟩ := readString_cases c s
    · have hRest := ih (Option.map_eq_none_iff.1 h) c
      rw [hRead] at hRest
      rw [hText]
      exact string_append hq (Nat.succ_pos depth) last hFree hRest
    · exact openString hq (Nat.succ_pos depth) last hFree
  | case6 depth c s hc hc' hq ih =>
    apply cons (isOutside_of_pos (Nat.succ_pos depth) none last)
    rw [State.step_plain (Bool.eq_false_iff.2 hq) (fun hOpen => hc (beq_iff_eq.2 hOpen))
      (fun hClose => hc' (beq_iff_eq.2 hClose))]
    exact ih (Option.map_eq_none_iff.1 h) _

/-- Inside a binding no `>` closes the tag. -/
theorem cutAfter?_eq_none (h : StaysInside σ s) (behind : Text) : cutAfter? σ behind s = none := by
  induction s generalizing σ behind with
  | nil => rfl
  | cons c s ih =>
    have hInside : σ.isOutside = false := h [] List.nil_prefix
    rw [cutAfter?, hInside, Bool.and_false, if_neg Bool.false_ne_true]
    exact ih (fun x hx => h (c :: x) (List.cons_prefix_cons.2 ⟨rfl, hx⟩)) _

end StaysInside

/-- The reader of tags is inside up to the last brace, and outside behind it. -/
theorem exists_of_closes {depth : Nat} {a : Text} (h : Closes depth a) (last : Char) :
    ∃ front, a = front ++ ['}'] ∧ StaysInside ⟨none, depth + 1, last⟩ front ∧
      (State.mk none (depth + 1) last).run a = ⟨none, 0, '}'⟩ := by
  induction h generalizing last with
  | @last e hInside =>
    obtain ⟨inner, hInner⟩ := State.run_balanced hInside Nat.one_pos last
    refine ⟨e, rfl, .of_balanced hInside Nat.one_pos last, ?_⟩
    rw [State.run_append, hInner]
    rfl
  | @more depth e s hInside _ ih =>
    obtain ⟨inner, hInner⟩ := State.run_balanced hInside (Nat.succ_pos (depth + 1)) last
    obtain ⟨front, rfl, hFront, hRun⟩ := ih '}'
    refine ⟨e ++ '}' :: front, by simp, ?_, ?_⟩
    · apply (StaysInside.of_balanced hInside (Nat.succ_pos _) last).append
      rw [hInner]
      apply StaysInside.cons (StaysInside.isOutside_of_pos (Nat.succ_pos _) none inner)
      rw [State.step_close]
      exact hFront
    · rw [State.run_append, hInner, State.run_cons, State.step_close, hRun]

/-- Behind the text the reader is outside, for the first time since its start. -/
structure ComesOut (σ : State) (s : Text) : Prop where
  ne_nil : s ≠ []
  outside : (σ.run s).isOutside = true
  first : ∀ x, x <+: s → x ≠ [] → (σ.run x).isOutside = true → x = s

/-- The reader is outside behind no front part of the text but the empty one. -/
def NeverComesOut (σ : State) (s : Text) : Prop := ∀ x, x <+: s → x ≠ [] → (σ.run x).isOutside = false

variable {s a b : Text} {last : Char}

theorem ComesOut.eq {σ : State} {a' b' : Text} (h : ComesOut σ a) (h' : ComesOut σ a') (hText : a ++ b = a' ++ b') :
    a = a' := by
  obtain hPrefix | hPrefix := List.prefix_or_prefix_of_prefix (List.prefix_append a b)
    (hText ▸ List.prefix_append a' b')
  · exact h'.first a hPrefix h.ne_nil h.outside
  · exact (h.first a' hPrefix h'.ne_nil h'.outside).symm

theorem comesOut_of_readBinding? (h : readBinding? ('{' :: s) = some (a, b)) (last : Char) :
    ComesOut ⟨none, 0, last⟩ a := by
  obtain ⟨p, hRead, hp⟩ := Option.map_eq_some_iff.1 h
  obtain ⟨rfl, rfl⟩ := Prod.mk.inj hp
  obtain ⟨front, hText, hFront, hRun⟩ := exists_of_closes (closes_of_readInside? hRead) '{'
  refine ⟨List.cons_ne_nil _ _, ?_, ?_⟩
  · rw [State.run_cons, State.step_open, hRun]
    rfl
  · intro x hx hNe hOutside
    obtain rfl | ⟨x', rfl, hx'⟩ := List.prefix_cons_iff.1 hx
    · exact absurd rfl hNe
    · rw [hText] at hx' ⊢
      obtain rfl | hFrontPart := List.prefix_concat_iff.1 hx'
      · rfl
      · rw [State.run_cons, State.step_open, hFront x' hFrontPart] at hOutside
        cases hOutside

theorem neverComesOut_of_readBinding? (h : readBinding? ('{' :: s) = none) (last : Char) :
    NeverComesOut ⟨none, 0, last⟩ ('{' :: s) := by
  have hRead : readInside? 0 s = none := by simpa [readBinding?] using h
  intro x hx hNe
  obtain rfl | ⟨x', rfl, hx'⟩ := List.prefix_cons_iff.1 hx
  · exact absurd rfl hNe
  · rw [State.run_cons, State.step_open]
    exact StaysInside.of_readInside?_eq_none hRead '{' x' hx'

/-- A binding is read up to where the reader of tags comes out of it. -/
theorem readBinding?_eq_some_iff_comesOut :
    readBinding? ('{' :: s) = some (a, b) ↔ '{' :: s = a ++ b ∧ ComesOut ⟨none, 0, last⟩ a := by
  constructor
  · exact fun h => ⟨eq_of_readBinding? h, comesOut_of_readBinding? h last⟩
  · rintro ⟨hText, hOut⟩
    cases hRead : readBinding? ('{' :: s) with
    | none =>
      have hNever := neverComesOut_of_readBinding? hRead last
      rw [hText] at hNever
      have hInside := hNever a (List.prefix_append a b) hOut.ne_nil
      rw [hOut.outside] at hInside
      cases hInside
    | some p =>
      have hText' := eq_of_readBinding? hRead
      obtain rfl := hOut.eq (comesOut_of_readBinding? hRead last) (hText.symm.trans hText')
      rw [List.append_cancel_left (hText.symm.trans hText')]

theorem readBinding?_eq_none_iff_neverComesOut :
    readBinding? ('{' :: s) = none ↔ NeverComesOut ⟨none, 0, last⟩ ('{' :: s) := by
  constructor
  · exact fun h => neverComesOut_of_readBinding? h last
  · intro hNever
    cases hRead : readBinding? ('{' :: s) with
    | none => rfl
    | some p =>
      have hOut := comesOut_of_readBinding? hRead last
      have hInside := hNever p.1 (eq_of_readBinding? hRead ▸ List.prefix_append p.1 p.2) hOut.ne_nil
      rw [hOut.outside] at hInside
      cases hInside

/-- In a closed region a brace that stands outside is matched inside the region. -/
theorem exists_readBinding?_of_cut? {attrs rest x y : Text} (h : cut? (attrs ++ '>' :: rest) = some (attrs, rest))
    (hText : attrs = x ++ '{' :: y) (hOutside : (State.start.run x).isOutside = true) :
    ∃ e after, Balanced e ∧ y = e ++ '}' :: after ∧ readBinding? ('{' :: y) = some ('{' :: (e ++ ['}']), after) := by
  obtain ⟨last, hLast⟩ := eq_of_isOutside hOutside
  cases hRead : readBinding? ('{' :: y) with
  | none =>
    have hEnd := (run_of_cut? h).2
    rw [hText, State.run_append, hLast, neverComesOut_of_readBinding? hRead last _ (List.prefix_refl _)
      (List.cons_ne_nil _ _)] at hEnd
    cases hEnd
  | some p =>
    obtain ⟨a, after⟩ := p
    obtain ⟨e, hInside, rfl, hBinding⟩ := readBinding?_eq_some_iff.1 hRead
    exact ⟨e, after, hInside, by simpa using hBinding, rfl⟩

end TagEnd

end ClassFold

import ClassFold.Proofs.WellFormed.Expression

/-!
# How far a value goes

A value that opens a brace goes through the matching brace, one that opens a string through the closing quote,
and any other up to the next blank; what is not closed takes all there is. The reader of sealed values takes
just that from any text that starts with no blank: `isValue_iff`.
-/

set_option autoImplicit false

namespace ClassFold

/-- A value, and what may follow it. -/
inductive IsValue : Text → Text → Prop where
  | empty : IsValue [] []
  | binding {e rest : Text} (hInside : Balanced e) : IsValue ('{' :: (e ++ ['}'])) rest
  | openBinding {s : Text} (hOpen : ∀ e rest, s = e ++ '}' :: rest → ¬ Balanced e) : IsValue ('{' :: s) []
  | string {q : Char} {v rest : Text} (hQuote : isQuote q = true) (hFree : q ∉ v) : IsValue (q :: (v ++ [q])) rest
  | openString {q : Char} {v : Text} (hQuote : isQuote q = true) (hFree : q ∉ v) : IsValue (q :: v) []
  | bare {c : Char} {s rest : Text} (hOpen : c ≠ '{') (hQuote : isQuote c = false)
      (hSolid : ∀ d ∈ c :: s, isBlank d = false) (hRest : ∀ d, rest.head? = some d → isBlank d = true) :
      IsValue (c :: s) rest

/-- A text that closes one more brace than the given number, the last one at its end. -/
inductive Closes : Nat → Text → Prop where
  | last {e : Text} (hInside : Balanced e) : Closes 0 (e ++ ['}'])
  | more {depth : Nat} {e s : Text} (hInside : Balanced e) (hRest : Closes depth s) :
      Closes (depth + 1) (e ++ '}' :: s)

theorem Closes.balanced_append {depth : Nat} {e s : Text} (he : Balanced e) (h : Closes depth s) :
    Closes depth (e ++ s) := by
  cases h with
  | last hInside =>
    rw [← List.append_assoc]
    exact .last (he.append hInside)
  | more hInside hRest =>
    rw [← List.append_assoc]
    exact .more (he.append hInside) hRest

theorem Closes.opened {depth : Nat} {s : Text} (h : Closes (depth + 1) s) : Closes depth ('{' :: s) := by
  cases h with
  | @more _ e s hInside hRest =>
    have hBraces : Balanced ('{' :: (e ++ ['}'])) := .braces hInside .nil
    have hText : '{' :: (e ++ '}' :: s) = '{' :: (e ++ ['}']) ++ s := by simp
    rw [hText]
    exact hRest.balanced_append hBraces

theorem readString_cases (q : Char) (s : Text) :
    (∃ v rest, q ∉ v ∧ s = v ++ q :: rest ∧ readString q s = (v ++ [q], rest)) ∨
      q ∉ s ∧ readString q s = (s, []) := by
  cases hDrop : s.dropWhile (· != q) with
  | nil =>
    have hFree := Text.dropWhile_ne_eq_nil_iff.1 hDrop
    exact Or.inr ⟨hFree, readString_of_not_mem hFree⟩
  | cons c rest =>
    have hText := eq_of_dropWhile_ne hDrop
    have hFree : q ∉ s.takeWhile (· != q) := fun hMem => by simpa using List.mem_takeWhile_imp hMem
    refine Or.inl ⟨_, rest, hFree, hText, ?_⟩
    conv => lhs; rw [hText]
    exact readString_append_cons hFree rest

theorem closes_of_readInside? {depth : Nat} {s a b : Text} (h : readInside? depth s = some (a, b)) :
    Closes depth a := by
  fun_induction readInside? depth s generalizing a with
  | case1 => cases h
  | case2 depth c s hc ih =>
    obtain ⟨p, hp, rfl, rfl⟩ := by simpa using h
    rw [beq_iff_eq.1 hc]
    exact (ih hp).opened
  | case3 c s hc hc' =>
    cases h
    rw [beq_iff_eq.1 hc']
    exact .last .nil
  | case4 c s hc hc' depth ih =>
    obtain ⟨p, hp, rfl, rfl⟩ := by simpa using h
    rw [beq_iff_eq.1 hc']
    exact .more .nil (ih hp)
  | case5 depth c s hc hc' hq ih =>
    obtain ⟨p, hp, rfl, rfl⟩ := by simpa using h
    obtain ⟨v, rest, hFree, -, hRead⟩ | ⟨-, hRead⟩ := readString_cases c s
    · have hString : Balanced (c :: (v ++ [c])) := .string hq hFree .nil
      rw [hRead, ← List.cons_append]
      exact (ih hp).balanced_append hString
    · rw [hRead, readInside?] at hp
      cases hp
  | case6 depth c s hc hc' hq ih =>
    obtain ⟨p, hp, rfl, rfl⟩ := by simpa using h
    rw [beq_iff_eq] at hc hc'
    have hChar : Balanced [c] := .char hc hc' (Bool.eq_false_iff.2 hq) .nil
    exact (ih hp).balanced_append hChar

/-- A binding is read through its matching brace. -/
theorem readBinding?_eq_some_iff {s a b : Text} :
    readBinding? s = some (a, b) ↔ ∃ e, Balanced e ∧ a = '{' :: (e ++ ['}']) ∧ s = a ++ b := by
  constructor
  · intro h
    have hText := eq_of_readBinding? h
    unfold readBinding? at h
    split at h
    · obtain ⟨p, hp, rfl, rfl⟩ := by simpa using h
      cases closes_of_readInside? hp with
      | last hInside => exact ⟨_, hInside, rfl, hText⟩
    · cases h
  · rintro ⟨e, hInside, rfl, rfl⟩
    rw [List.cons_append, List.append_assoc]
    exact hInside.readBinding?_eq b

theorem readBinding?_eq_none_iff {s : Text} :
    readBinding? ('{' :: s) = none ↔ ∀ e rest, s = e ++ '}' :: rest → ¬ Balanced e := by
  rw [Option.eq_none_iff_forall_ne_some]
  constructor
  · intro h e rest hText hInside
    refine h ('{' :: (e ++ ['}']), rest) (readBinding?_eq_some_iff.2 ⟨e, hInside, rfl, ?_⟩)
    rw [hText, List.cons_append, List.append_assoc]
    rfl
  · rintro h ⟨a, b⟩ hRead
    obtain ⟨e, hInside, rfl, hText⟩ := readBinding?_eq_some_iff.1 hRead
    rw [List.cons_append, List.append_assoc, List.cons.injEq] at hText
    exact h e b hText.2 hInside

theorem readSealed_cons_brace (s : Text) :
    readSealed ('{' :: s) = (readBinding? ('{' :: s)).getD ('{' :: s, []) := by
  simp [readSealed]

theorem readSealed_cons_quote {q : Char} (hQuote : isQuote q = true) (s : Text) :
    readSealed (q :: s) = (q :: (readString q s).1, (readString q s).2) := by
  have hNot : (q == '{') = false := beq_false_of_ne fun hq => absurd (hq ▸ hQuote) (by decide)
  simp [readSealed, hNot, hQuote]

theorem readSealed_cons_solid {c : Char} (hOpen : c ≠ '{') (hQuote : isQuote c = false) (s : Text) :
    readSealed (c :: s) = ((c :: s).takeWhile (!isBlank ·), (c :: s).dropWhile (!isBlank ·)) := by
  simp only [readSealed, beq_false_of_ne hOpen, hQuote, Bool.false_eq_true, if_false]

theorem IsValue.readSealed_append {v rest : Text} (h : IsValue v rest) : readSealed (v ++ rest) = (v, rest) := by
  cases h with
  | empty => rw [List.append_nil, readSealed]
  | @binding e rest hInside =>
    rw [List.cons_append, List.append_assoc, readSealed_cons_brace]
    exact congrArg (Option.getD · _) (hInside.readBinding?_eq rest)
  | @openBinding s hOpen =>
    rw [List.append_nil, readSealed_cons_brace, readBinding?_eq_none_iff.2 hOpen, Option.getD_none]
  | @string q v rest hQuote hFree =>
    rw [List.cons_append, List.append_assoc, List.singleton_append, readSealed_cons_quote hQuote,
      readString_append_cons hFree]
  | @openString q v hQuote hFree =>
    rw [List.append_nil, readSealed_cons_quote hQuote, readString_of_not_mem hFree]
  | @bare c s rest hOpen hQuote hSolid hRest =>
    obtain ⟨hTake, hDrop⟩ := Text.takeWhile_dropWhile_append (p := (!isBlank ·)) (s := c :: s) (t := rest)
      (fun d hd => by simp [hSolid d hd]) (fun d hd => by simp [hRest d hd])
    rw [List.cons_append] at hTake hDrop ⊢
    rw [readSealed_cons_solid hOpen hQuote, hTake, hDrop]

theorem IsValue.isBlank_head? {v rest : Text} (h : IsValue v rest) :
    ∀ c, (v ++ rest).head? = some c → isBlank c = false := by
  intro c hc
  cases h with
  | empty => cases hc
  | binding | openBinding =>
    cases hc
    decide
  | string hQuote | openString hQuote =>
    cases hc
    exact isBlank_eq_false_of_isQuote hQuote
  | bare hOpen hQuote hSolid =>
    cases hc
    exact hSolid _ List.mem_cons_self

theorem isValue_readSealed {s : Text} (hHead : ∀ c, s.head? = some c → isBlank c = false) :
    IsValue (readSealed s).1 (readSealed s).2 := by
  cases s with
  | nil =>
    rw [readSealed]
    exact .empty
  | cons c r =>
    have hSolid := hHead c rfl
    cases hQuote : isQuote c with
    | true =>
      rw [readSealed_cons_quote hQuote]
      obtain ⟨w, rest', hFree, -, hString⟩ | ⟨hFree, hString⟩ := readString_cases c r
      · rw [hString]
        exact .string hQuote hFree
      · rw [hString]
        exact .openString hQuote hFree
    | false =>
      obtain rfl | hOpen := eq_or_ne c '{'
      · rw [readSealed_cons_brace]
        cases hBinding : readBinding? ('{' :: r) with
        | some p =>
          obtain ⟨a, b⟩ := p
          obtain ⟨e, hInside, rfl, -⟩ := readBinding?_eq_some_iff.1 hBinding
          exact .binding hInside
        | none => exact .openBinding (readBinding?_eq_none_iff.1 hBinding)
      · rw [readSealed_cons_solid hOpen hQuote, List.takeWhile_cons_of_pos (by simp [hSolid]),
          List.dropWhile_cons_of_pos (by simp [hSolid])]
        refine .bare hOpen hQuote ?_ fun d hd => by simpa using head?_dropWhile hd
        rw [List.forall_mem_cons]
        exact ⟨hSolid, fun d hd => by simpa using List.mem_takeWhile_imp hd⟩

/-- The reader of sealed values takes a value, and only one can be taken. -/
theorem isValue_iff {v rest : Text} :
    IsValue v rest ↔ readSealed (v ++ rest) = (v, rest) ∧ ∀ c, (v ++ rest).head? = some c → isBlank c = false := by
  constructor
  · exact fun h => ⟨h.readSealed_append, h.isBlank_head?⟩
  · rintro ⟨hRead, hHead⟩
    have hValue := isValue_readSealed hHead
    rwa [hRead] at hValue

end ClassFold

import ClassFold.Proofs.WellFormed.Item

/-!
# Values read back

What a value looks like when it has been read, and that it is read so again in front of another text. A
quoted value looks at one character of what follows, whether it is a brace; a bare value at one, whether
it is a blank; an expression and a string at none.
-/

set_option autoImplicit false

namespace ClassFold

/-- An `=` and the blanks around it. -/
def IsSign (s : Text) : Prop :=
  ∃ b b' : Text, s = b ++ '=' :: b' ∧ (∀ c ∈ b, isBlank c = true) ∧ ∀ c ∈ b', isBlank c = true

structure Quoted.WellFormed (q : Quoted) : Prop where
  straight : isStraightQuote q.quote = true
  free : q.quote ∉ q.value
  braces : ∃ sign, IsSign sign ∧
    (q.lead = sign ∧ q.tail = [] ∨ q.lead = sign ++ ['{'] ∧ (q.tail = [] ∨ q.tail = ['}']))

/-- The brace in front of the quote, if there is one, is closed. -/
def Quoted.Closed (q : Quoted) : Prop := '{' ∈ q.lead → q.tail ≠ []

/-- A string in straight quotes that is not closed, perhaps behind a brace. -/
def IsOpenString (value : Text) : Prop :=
  ∃ q v, isStraightQuote q = true ∧ q ∉ v ∧ (value = q :: v ∨ value = '{' :: q :: v)

/-- A value that is not in straight quotes and ends where it should. -/
inductive IsSealed : Text → Prop where
  | empty : IsSealed []
  | bare {c : Char} {s : Text} (hOpen : c ≠ '{') (hQuote : isQuote c = false)
      (hSolid : ∀ d ∈ c :: s, isBlank d = false) : IsSealed (c :: s)
  | expression {e : Text} (hPlain : opensQuoted ('{' :: e) = false)
      (hClosed : readBinding? ('{' :: e) = some ('{' :: e, [])) : IsSealed ('{' :: e)
  | string {v : Text} (hFree : '\x60' ∉ v) : IsSealed ('\x60' :: (v ++ ['\x60']))

/-- A value of which the end can be told without what follows. -/
def endsItself (value : Text) : Bool := value.head? == some '{' || value.head? == some '\x60'

/-- An expression or a string is closed; a bare value always is. -/
def isClosedValue : Text → Bool
  | '{' :: e => readBinding? ('{' :: e) == some ('{' :: e, [])
  | '\x60' :: v => v.dropWhile (· != '\x60') == ['\x60']
  | _ => true

namespace IsSealed

variable {v rest : Text}

theorem getLast?_of_endsItself (hv : IsSealed v) (hEnd : endsItself v = true) :
    v.getLast? = some '}' ∨ v.getLast? = some '\x60' := by
  cases hv with
  | empty => cases hEnd
  | @bare c s hOpen hQuote hSolid =>
    simp only [endsItself, List.head?_cons, Bool.or_eq_true, beq_iff_eq, Option.some.injEq] at hEnd
    rcases hEnd with rfl | rfl
    · exact absurd rfl hOpen
    · exact absurd hQuote (by decide)
  | @expression e hPlain hClosed =>
    obtain ⟨e', -, hText, -⟩ := readBinding?_eq_some_iff.1 hClosed
    exact Or.inl (by rw [hText, List.getLast?_cons, List.getLast?_concat, Option.getD_some])
  | string hFree => exact Or.inr (by rw [List.getLast?_cons, List.getLast?_concat, Option.getD_some])

theorem solid_of_not_endsItself (hv : IsSealed v) (hEnd : endsItself v = false) :
    ∀ c ∈ v, isBlank c = false := by
  cases hv with
  | empty => exact List.forall_mem_nil _
  | bare hOpen hQuote hSolid => exact hSolid
  | expression hPlain hClosed => cases hEnd
  | string hFree => cases hEnd

theorem isBlank_getLast (hv : IsSealed v) {d : Char} (hd : v.getLast? = some d) : isBlank d = false := by
  cases hEnd : endsItself v with
  | true =>
    rcases hv.getLast?_of_endsItself hEnd with hLast | hLast <;> rw [hLast] at hd <;> cases hd <;> decide
  | false => exact hv.solid_of_not_endsItself hEnd d (List.mem_of_getLast? hd)

/-- A bare value may be cut short. -/
theorem of_append (hv : IsSealed (v ++ rest)) (hEnd : endsItself (v ++ rest) = false) : IsSealed v := by
  have hSolid := hv.solid_of_not_endsItself hEnd
  cases v with
  | nil => exact .empty
  | cons c v =>
    have hAll : ∀ d ∈ c :: v, isBlank d = false := fun d hd => hSolid d (List.mem_append_left _ hd)
    rw [List.cons_append] at hv hEnd
    generalize v ++ rest = u at hv hEnd
    cases hv with
    | bare hOpen hQuote _ => exact .bare hOpen hQuote hAll
    | expression hPlain hClosed => cases hEnd
    | string hFree => cases hEnd

/-- In front of what does not go on with it, a value is read whole. -/
theorem isValue (hv : IsSealed v) (hNil : v = [] → rest = [])
    (hEnd : endsItself v = true ∨ ∀ c, rest.head? = some c → isBlank c = true) : IsValue v rest := by
  cases hv with
  | empty =>
    rw [hNil rfl]
    exact .empty
  | @bare c s hOpen hQuote hSolid =>
    refine .bare hOpen hQuote hSolid ?_
    obtain hEnd | hBlank := hEnd
    · rw [endsItself, List.head?_cons, Bool.or_eq_true, beq_iff_eq, beq_iff_eq, Option.some.injEq,
        Option.some.injEq] at hEnd
      obtain rfl | rfl := hEnd
      · exact absurd rfl hOpen
      · exact absurd hQuote (by decide)
    · exact hBlank
  | @expression e hPlain hClosed =>
    obtain ⟨e', hInside, hText, -⟩ := readBinding?_eq_some_iff.1 hClosed
    rw [hText]
    exact .binding hInside
  | string hFree => exact .string (by decide) hFree

theorem opensQuoted_append (hv : IsSealed v) (hNil : v = [] → rest = []) : opensQuoted (v ++ rest) = false := by
  cases hv with
  | empty => rw [hNil rfl, List.append_nil]; rfl
  | @bare c s hOpen hQuote hSolid =>
    rw [List.cons_append, opensQuoted, splitBrace_of_ne hOpen, List.head?_cons, Option.any_some,
      ← Bool.not_eq_true]
    intro hStraight
    rw [isQuote_of_isStraightQuote hStraight] at hQuote
    cases hQuote
  | @expression e hPlain hClosed =>
    cases e with
    | nil => simp [readBinding?, readInside?] at hClosed
    | cons c e => simpa [opensQuoted, splitBrace] using hPlain
  | string hFree => rfl

end IsSealed

theorem IsSign.not_mem_brace {sign : Text} (h : IsSign sign) : '{' ∉ sign := by
  obtain ⟨b, b', rfl, hb, hb'⟩ := h
  have hBlank : isBlank '{' = false := by decide
  intro hMem
  rw [List.mem_append, List.mem_cons] at hMem
  rcases hMem with hMem | hEq | hMem
  · rw [hb _ hMem] at hBlank
    cases hBlank
  · cases hEq
  · rw [hb' _ hMem] at hBlank
    cases hBlank

theorem splitBrace_cases (s : Text) : splitBrace s = ([], s) ∨ ∃ r, s = '{' :: r ∧ splitBrace s = (['{'], r) := by
  unfold splitBrace
  split
  · exact Or.inr ⟨_, rfl, rfl⟩
  · exact Or.inl rfl

theorem closeBrace_of_ne {s : Text} (h : s.head? ≠ some '}') (opened : Text) : closeBrace opened s = ([], s) := by
  unfold closeBrace
  split
  · exact absurd rfl h
  · rfl

/-- The brace in front of a string is taken with it even if none follows. -/
theorem readQuoted?_half {q : Char} {v rest : Text} (hStraight : isStraightQuote q = true) (hFree : q ∉ v)
    (hRest : rest.head? ≠ some '}') (lead : Text) :
    readQuoted? lead ('{' :: q :: (v ++ q :: rest)) = some (⟨lead ++ ['{'], q, v, []⟩, rest) := by
  obtain ⟨hTake, hDrop⟩ := Text.takeWhile_dropWhile_ne hFree rest
  simp [readQuoted?, splitBrace, hStraight, hTake, hDrop, closeBrace_of_ne hRest]

namespace Quoted.WellFormed

variable {q : Quoted}

theorem sound (hq : q.WellFormed) : q.Sound := by
  refine ⟨hq.straight, hq.free, ?_⟩
  obtain ⟨sign, -, ⟨-, hTail⟩ | ⟨-, hTail⟩⟩ := hq.braces
  · exact Or.inl hTail
  · exact hTail

/-- The value stands behind its sign as it is read there. -/
theorem exists_readQuoted? (hq : q.WellFormed) {rest : Text} (hRest : q.Closed ∨ rest.head? ≠ some '}') :
    ∃ sign body, IsSign sign ∧ q.text ++ rest = sign ++ body ∧
      (∀ c, body.head? = some c → isBlank c = false) ∧ opensQuoted body = true ∧
      readQuoted? sign body = some (q, rest) := by
  obtain ⟨lead, quote, value, tail⟩ := q
  have hStraight := hq.straight
  obtain ⟨sign, hSign, ⟨rfl, rfl⟩ | ⟨rfl, rfl | rfl⟩⟩ := hq.braces
  · refine ⟨lead, quote :: (value ++ quote :: rest), hSign, by simp [text], ?_, ?_, ?_⟩
    · rintro c ⟨⟩
      exact isBlank_eq_false_of_isStraightQuote hStraight
    · simpa [opensQuoted, splitBrace_of_isStraightQuote hStraight] using hStraight
    · exact readQuoted?_plain hStraight hq.free lead rest
  · have hBrace : rest.head? ≠ some '}' := hRest.resolve_left fun hClosed => hClosed (by simp) rfl
    refine ⟨sign, '{' :: quote :: (value ++ quote :: rest), hSign, by simp [text], ?_, ?_, ?_⟩
    · rintro c ⟨⟩
      decide
    · simpa [opensQuoted, splitBrace] using hStraight
    · exact readQuoted?_half hStraight hq.free hBrace sign
  · refine ⟨sign, '{' :: quote :: (value ++ quote :: '}' :: rest), hSign, by simp [text], ?_, ?_, ?_⟩
    · rintro c ⟨⟩
      decide
    · simpa [opensQuoted, splitBrace] using hStraight
    · exact readQuoted?_braced hStraight hq.free sign rest

end Quoted.WellFormed

/-- What is read is a string, with both braces around it, the first, or none. -/
theorem lead_tail_of_readQuoted? {lead s after : Text} {value : Quoted} (h : readQuoted? lead s = some (value, after)) :
    isStraightQuote value.quote = true ∧ value.quote ∉ value.value ∧
      (value.lead = lead ∧ value.tail = [] ∨
        value.lead = lead ++ ['{'] ∧ (value.tail = ['}'] ∨ value.tail = [] ∧ after.head? ≠ some '}')) := by
  have hSound := sound_of_readQuoted? h
  refine ⟨hSound.straight, hSound.free, ?_⟩
  unfold readQuoted? at h
  split at h
  · cases h
  · split at h
    · split at h
      · cases h
      · rename_i rest _
        simp only [Option.some.injEq, Prod.mk.injEq] at h
        obtain ⟨rfl, rfl⟩ := h
        obtain hBrace | ⟨r, -, hBrace⟩ := splitBrace_cases s
        · rw [hBrace]
          exact Or.inl ⟨List.append_nil _, rfl⟩
        · rw [hBrace]
          refine Or.inr ⟨rfl, ?_⟩
          obtain hHead | hHead := eq_or_ne rest.head? (some '}')
          · obtain ⟨t, rfl⟩ := List.head?_eq_some_iff.1 hHead
            exact Or.inl rfl
          · rw [closeBrace_of_ne hHead]
            exact Or.inr ⟨rfl, hHead⟩
    · cases h

theorem wellFormed_of_readQuoted? {lead s after : Text} {value : Quoted} (hLead : IsSign lead)
    (h : readQuoted? lead s = some (value, after)) :
    value.WellFormed ∧ (value.Closed ∨ after.head? ≠ some '}') := by
  obtain ⟨hStraight, hFree, ⟨rfl, hTail⟩ | ⟨hBrace, hTail | ⟨hTail, hAfter⟩⟩⟩ := lead_tail_of_readQuoted? h
  · exact ⟨⟨hStraight, hFree, _, hLead, Or.inl ⟨rfl, hTail⟩⟩, Or.inl fun hMem => absurd hMem hLead.not_mem_brace⟩
  · refine ⟨⟨hStraight, hFree, lead, hLead, Or.inr ⟨hBrace, Or.inr hTail⟩⟩, Or.inl ?_⟩
    intro _
    rw [hTail]
    exact List.cons_ne_nil _ _
  · exact ⟨⟨hStraight, hFree, lead, hLead, Or.inr ⟨hBrace, Or.inl hTail⟩⟩, Or.inr hAfter⟩

theorem IsOpenString.isBlank_head? {s : Text} (h : IsOpenString s) : ∀ c, s.head? = some c → isBlank c = false := by
  obtain ⟨q, v, hStraight, -, rfl | rfl⟩ := h
  · rintro c ⟨⟩
    exact isBlank_eq_false_of_isStraightQuote hStraight
  · rintro c ⟨⟩
    decide

/-- Where a straight quote is opened and nothing is read, it is not closed. -/
theorem isOpenString_iff {s : Text} (lead : Text) :
    IsOpenString s ↔ opensQuoted s = true ∧ readQuoted? lead s = none := by
  constructor
  · rintro ⟨q, v, hStraight, hFree, rfl | rfl⟩
    · have hDrop := Text.dropWhile_ne_eq_nil_iff.2 hFree
      rw [opensQuoted_cons_of_isQuote (isQuote_of_isStraightQuote hStraight)]
      exact ⟨hStraight, by simp [readQuoted?, splitBrace_of_isStraightQuote hStraight, hStraight, hDrop]⟩
    · have hDrop := Text.dropWhile_ne_eq_nil_iff.2 hFree
      exact ⟨hStraight, by simp [readQuoted?, splitBrace, hStraight, hDrop]⟩
  · rintro ⟨hOpens, hRead⟩
    unfold opensQuoted at hOpens
    unfold readQuoted? at hRead
    split at hRead
    · rename_i hNil
      rw [hNil] at hOpens
      cases hOpens
    · rename_i q v hCons
      rw [hCons] at hOpens
      have hStraight : isStraightQuote q = true := hOpens
      rw [if_pos hStraight] at hRead
      split at hRead
      · rename_i hDrop
        refine ⟨q, v, hStraight, Text.dropWhile_ne_eq_nil_iff.1 hDrop, ?_⟩
        obtain hBrace | ⟨r, rfl, hBrace⟩ := splitBrace_cases s
        · rw [hBrace] at hCons
          exact Or.inl hCons
        · rw [hBrace] at hCons
          exact Or.inr (congrArg _ hCons)
      · cases hRead

/-- A value that is closed is a sealed one if it opens no straight quote. -/
theorem IsValue.isSealed {value rest : Text} (h : IsValue value rest) (hPlain : opensQuoted (value ++ rest) = false)
    (hClosed : isClosedValue value = true) :
    IsSealed value ∧ (value = [] → rest = []) ∧
      (endsItself value = true ∨ ∀ c, rest.head? = some c → isBlank c = true) := by
  have hBack {q : Char} {s : Text} (hQuote : isQuote q = true) (hPlain : opensQuoted (q :: s) = false) : q = '\x60' := by
    rw [opensQuoted_cons_of_isQuote hQuote, isStraightQuote] at hPlain
    simpa [isQuote, or_assoc, Bool.or_eq_false_iff.1 hPlain] using hQuote
  cases h with
  | empty => exact ⟨.empty, fun _ => rfl, Or.inr (by rintro c ⟨⟩)⟩
  | @binding e rest hInside =>
    have hRead := hInside.readBinding?_eq []
    refine ⟨.expression ?_ hRead, fun hNil => absurd hNil (List.cons_ne_nil _ _), Or.inl rfl⟩
    cases e with
    | nil => rfl
    | cons c e => exact hPlain
  | @openBinding s hOpen =>
    have hNone := readBinding?_eq_none_iff.2 hOpen
    simp [isClosedValue, hNone] at hClosed
  | @string q v rest hQuote hFree =>
    obtain rfl := hBack hQuote hPlain
    exact ⟨.string hFree, fun hNil => absurd hNil (List.cons_ne_nil _ _), Or.inl rfl⟩
  | @openString q v hQuote hFree =>
    rw [List.append_nil] at hPlain
    obtain rfl := hBack hQuote hPlain
    have hDrop : v.dropWhile (· != '\x60') = ['\x60'] := beq_iff_eq.1 hClosed
    rw [eq_of_dropWhile_ne hDrop] at hFree
    exact absurd (List.mem_append_right _ List.mem_cons_self) hFree
  | bare hOpen hQuote hSolid hRest =>
    exact ⟨.bare hOpen hQuote hSolid, fun hNil => absurd hNil (List.cons_ne_nil _ _), Or.inr hRest⟩

end ClassFold

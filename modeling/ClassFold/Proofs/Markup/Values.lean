import ClassFold.Proofs.Markup.Account

/-!
# Values stay whole

Where a name, a sign and a value stand, no attribute starts in the value, and only the one of that name reaches
into it and goes to its end. A run that makes no name has no value: behind its sign the text is read as if a
region began there. Both are told by what the reader takes at the run, `ItemAt.exists_of_isName` and
`ItemAt.exists_of_not_isName`.
-/

set_option autoImplicit false

namespace ClassFold

section

variable {offset : Nat} {ps qs : List Piece} {region rest v : Text} {q : Char} {a : Attribute}

theorem attributesFrom_append (offset : Nat) (ps qs : List Piece) :
    attributesFrom offset (ps ++ qs) =
      attributesFrom offset ps ++ attributesFrom (offset + Text.size (ps.flatMap Piece.text)) qs := by
  induction ps generalizing offset with
  | nil => rfl
  | cons p ps ih =>
    rw [List.cons_append, attributesFrom, attributesFrom, ih, List.append_assoc, List.flatMap_cons, Text.size_append,
      Nat.add_assoc]

/-- What is behind some of the pieces of a region is cut as a region of its own. -/
theorem pieces_flatMap_text_of_append (h : pieces region = ps ++ qs) : pieces (qs.flatMap Piece.text) = qs := by
  induction ps generalizing region with
  | nil =>
    rw [List.nil_append] at h
    rw [← h, flatMap_text_pieces]
  | cons p ps ih =>
    obtain ⟨rest, -, -, hRest⟩ := pieces_eq_cons_iff.1 h
    exact ih hRest

theorem stop_le_of_mem_attributesFrom (h : a ∈ attributesFrom offset ps) :
    a.span.stop ≤ offset + Text.size (ps.flatMap Piece.text) := by
  obtain ⟨pre, post, hText, hStart⟩ := exists_of_mem_attributesFrom h
  simp only [hText, Attribute.span, hStart, Text.size_append]
  omega

theorem attributesFrom_stray {c : Char} (hc : c = '=' ∨ c = '{' ∨ c = '}') (offset : Nat) (s : Text) :
    attributesFrom offset (pieces (c :: s)) = attributesFrom (offset + c.utf8Size) (pieces s) := by
  have hRead : Piece.read c s = (.stray c, s) := by
    obtain rfl | rfl | rfl := hc <;> exact Piece.read_stray (by decide) (by decide) (by decide) s
  rw [attributesFrom_pieces_cons, hRead]
  rfl

theorem attributesFrom_sign_append {sign : Text} (hSign : IsSign sign) (offset : Nat) (s : Text) :
    attributesFrom offset (pieces (sign ++ s)) = attributesFrom (offset + sign.size) (pieces s) := by
  obtain ⟨b, b', rfl, hb, hb'⟩ := hSign
  rw [List.append_assoc, attributesFrom_blanks_append hb, List.cons_append, attributesFrom_stray (Or.inl rfl),
    attributesFrom_blanks_append hb']
  simp [Nat.add_assoc]

theorem attributesFrom_quote (hQuote : isQuote q = true) (offset : Nat) (s : Text) :
    attributesFrom offset (pieces (q :: s)) =
      attributesFrom (offset + Text.size (q :: (readString q s).1)) (pieces (readString q s).2) := by
  rw [attributesFrom_pieces_cons, Piece.read_quote hQuote]
  rfl

theorem attributesFrom_open_string (hQuote : isQuote q = true) (hFree : q ∉ v) (offset : Nat) :
    attributesFrom offset (pieces (q :: v)) = [] := by
  rw [attributesFrom_quote hQuote, readString_of_not_mem hFree, pieces]
  rfl

end

/-- An expression that begins with a string in straight quotes and goes on behind it. -/
def GoesOn (value : Text) : Prop :=
  ∃ q v c r, value = '{' :: q :: (v ++ q :: c :: r) ∧ isStraightQuote q = true ∧ q ∉ v ∧ c ≠ '}'

theorem Balanced.eq_of_cons_quote {q : Char} {s : Text} (h : Balanced (q :: s)) (hQuote : isQuote q = true) :
    ∃ v r, q ∉ v ∧ s = v ++ q :: r ∧ Balanced r := by
  cases h with
  | char hOpen hClose hNot =>
    rw [hQuote] at hNot
    cases hNot
  | string hQuote' hFree hRest => exact ⟨_, _, hFree, rfl, hRest⟩
  | braces => exact absurd hQuote (by decide)

theorem Balanced.ne_of_cons {c : Char} {s : Text} (h : Balanced (c :: s)) : c ≠ '}' := by
  cases h with
  | char hOpen hClose => exact hClose
  | string hQuote =>
    rintro rfl
    exact absurd hQuote (by decide)
  | braces => decide

namespace IsValue

variable {value rest : Text}

/-- A value that opens a straight quote is read whole, unless it is not closed. -/
theorem readQuoted?_cases (h : IsValue value rest) (hWhole : ¬ GoesOn value)
    (hOpens : opensQuoted (value ++ rest) = true) (lead : Text) :
    (∃ q, readQuoted? lead (value ++ rest) = some (q, rest)) ∨ rest = [] ∧ IsOpenString value := by
  cases h with
  | empty => cases hOpens
  | @bare c s rest hOpen hQuote =>
    rw [List.cons_append, opensQuoted, splitBrace_of_ne hOpen] at hOpens
    rw [isQuote_of_isStraightQuote hOpens] at hQuote
    cases hQuote
  | @string q v rest hQuote hFree =>
    rw [List.cons_append, List.append_assoc, List.singleton_append] at hOpens ⊢
    rw [opensQuoted_cons_of_isQuote hQuote] at hOpens
    exact Or.inl ⟨_, readQuoted?_plain hOpens hFree lead rest⟩
  | @openString q v hQuote hFree =>
    rw [List.append_nil, opensQuoted_cons_of_isQuote hQuote] at hOpens
    exact Or.inr ⟨rfl, q, v, hOpens, hFree, Or.inl rfl⟩
  | @binding e rest hInside =>
    cases e with
    | nil => cases hOpens
    | cons q s =>
      have hStraight : isStraightQuote q = true := hOpens
      have hQuote := isQuote_of_isStraightQuote hStraight
      obtain ⟨v, r, hFree, rfl, hRest⟩ := hInside.eq_of_cons_quote hQuote
      cases r with
      | nil =>
        have hRead := readQuoted?_braced hStraight hFree lead rest
        exact Or.inl ⟨⟨lead ++ ['{'], q, v, ['}']⟩, by simpa using hRead⟩
      | cons c r =>
        have hGoesOn : GoesOn ('{' :: (q :: (v ++ q :: c :: r) ++ ['}'])) :=
          ⟨q, v, c, r ++ ['}'], by simp, hStraight, hFree, hRest.ne_of_cons⟩
        exact absurd hGoesOn hWhole
  | @openBinding s hOpen =>
    cases s with
    | nil => cases hOpens
    | cons q t =>
      have hStraight : isStraightQuote q = true := hOpens
      have hQuote := isQuote_of_isStraightQuote hStraight
      rw [List.append_nil]
      obtain hFree | hMem := em (q ∉ t)
      · exact Or.inr ⟨rfl, q, t, hStraight, hFree, Or.inr rfl⟩
      · obtain ⟨v, r, rfl, hFree⟩ := List.eq_append_cons_of_mem (not_not.1 hMem)
        cases r with
        | nil => exact Or.inl ⟨_, readQuoted?_half hStraight hFree (by simp) lead⟩
        | cons c r =>
          obtain rfl | hc := eq_or_ne c '}'
          · have hString : Balanced (q :: (v ++ [q])) := .string hQuote hFree .nil
            exact absurd hString (hOpen _ r (by simp))
          · exact absurd ⟨q, v, c, r, rfl, hStraight, hFree, hc⟩ hWhole

end IsValue

theorem IsOpenString.attributesFrom {value : Text} (h : IsOpenString value) (offset : Nat) :
    attributesFrom offset (pieces value) = [] := by
  obtain ⟨q, v, hStraight, hFree, hValue⟩ := h
  have hQuote := isQuote_of_isStraightQuote hStraight
  obtain rfl | rfl := hValue
  · exact attributesFrom_open_string hQuote hFree offset
  · rw [attributesFrom_stray (Or.inr (Or.inl rfl)), attributesFrom_open_string hQuote hFree]

/-- A string is passed over whole where it is no value. -/
theorem IsValue.attributesFrom_append {value rest : Text} (h : IsValue value rest)
    (hString : value.head?.any isQuote = true) (offset : Nat) :
    attributesFrom offset (pieces (value ++ rest)) = attributesFrom (offset + value.size) (pieces rest) := by
  cases h with
  | empty => cases hString
  | binding | openBinding => exact absurd hString (by simp [isQuote])
  | bare hOpen hQuote =>
    rw [List.head?_cons, Option.any_some, hQuote] at hString
    cases hString
  | @string q v rest hQuote hFree =>
    rw [List.cons_append, List.append_assoc, List.singleton_append, attributesFrom_quote hQuote,
      readString_append_cons hFree]
  | openString hQuote hFree =>
    rw [List.append_nil, attributesFrom_open_string hQuote hFree, pieces]
    rfl

namespace Piece

variable {name sign value rest : Text}

/-- With a value behind it a name takes the value, or it stands alone before what has no attribute. -/
theorem ofName_value (name : Text) (hSign : IsSign sign) (hValue : IsValue value rest) (hWhole : ¬ GoesOn value) :
    (∃ p, ofName name (sign ++ (value ++ rest)) = (p, rest) ∧
        ∀ offset a, p.attribute? offset = some a → a.name = name ∧ a.raw = p.text) ∨
      ofName name (sign ++ (value ++ rest)) = (flag name [], sign ++ (value ++ rest)) ∧ rest = [] ∧
        IsOpenString value := by
  rw [ofName_sign hSign hValue.isBlank_head?]
  split
  · rename_i hOpens
    obtain ⟨q, hRead⟩ | ⟨rfl, hString⟩ := hValue.readQuoted?_cases hWhole hOpens sign
    · rw [hRead]
      refine Or.inl ⟨_, rfl, ?_⟩
      rintro offset a ⟨⟩
      exact ⟨rfl, rfl⟩
    · obtain ⟨-, hRead⟩ := (isOpenString_iff sign).1 hString
      rw [List.append_nil, hRead]
      exact Or.inr ⟨rfl, rfl, hString⟩
  · rw [hValue.readSealed_append]
    refine Or.inl ⟨_, rfl, ?_⟩
    rintro offset a ⟨⟩

/-- A run that makes no name is taken without what follows it. -/
theorem exists_read_run {before : Text} {c : Char} {cs : Text} (hRun : IsRun before (c :: cs) rest)
    (hNot : ¬ IsName (c :: cs)) : ∃ p, read c (cs ++ rest) = (p, rest) := by
  rw [read_chars hRun.chars hRun.right]
  split
  · exact ⟨_, rfl⟩
  · rename_i hRefused
    simp only [Bool.or_eq_true, List.isEmpty_iff, not_or, Bool.not_eq_true] at hRefused
    split
    · rename_i hNil
      have hName := isName_splitSlashes hRun.chars hRefused.1 hRefused.2
      have hSplit := splitSlashes_append (c :: cs)
      rw [List.isEmpty_iff.1 hNil, List.append_nil] at hSplit
      rw [hSplit] at hName
      exact absurd hName hNot
    · exact ⟨_, rfl⟩

/-- The piece that is read from a run on, with its text and its attribute. -/
theorem attributesFrom_read {c : Char} {cs after : Text} {p : Piece} (h : read c cs = (p, after)) (offset : Nat) :
    attributesFrom offset (pieces (c :: cs)) =
        (p.attribute? offset).toList ++ attributesFrom (offset + p.text.size) (pieces after) ∧
      p.text ++ after = c :: cs := by
  have hText := text_read c cs
  rw [attributesFrom_pieces_cons, h]
  rw [h] at hText
  exact ⟨rfl, hText⟩

end Piece

/-- The reader begins an item at a run of name characters, behind which a sign and a value stand. -/
structure ItemAt (region before run sign value rest : Text) : Prop where
  text : region = before ++ (run ++ (sign ++ (value ++ rest)))
  begins : ∃ front back, pieces region = front ++ back ∧ front.flatMap Piece.text = before
  run : IsRun before run (sign ++ (value ++ rest))
  sign : IsSign sign
  value : IsValue value rest

def Span.Meets (r r' : Span) : Prop := r.start < r'.stop ∧ r'.start < r.stop

instance (r r' : Span) : Decidable (r.Meets r') := inferInstanceAs (Decidable (_ ∧ _))

/-- No attribute starts in the value. One that meets it is that of the run, and ends with the value. -/
def KeepsWhole (region before run : Text) (value : Span) : Prop :=
  ∀ a ∈ attributes region, ¬ (value.start ≤ a.span.start ∧ a.span.start < value.stop) ∧
    (a.span.Meets value → a.span.start = before.size ∧ a.name = run ∧ a.span.stop = value.stop)

instance (region before run : Text) (value : Span) : Decidable (KeepsWhole region before run value) :=
  inferInstanceAs (Decidable (∀ a ∈ _, _))

namespace ItemAt

variable {region before run sign value rest : Text}

def valueSpan (before run sign value : Text) : Span where
  start := Text.size (before ++ (run ++ sign))
  stop := Text.size (before ++ (run ++ sign)) + value.size

theorem exists_attributes_eq (h : ItemAt region before run sign value rest) :
    ∃ as, attributes region = as ++ attributesFrom before.size (pieces (run ++ (sign ++ (value ++ rest)))) ∧
      ∀ a ∈ as, a.span.stop ≤ before.size := by
  obtain ⟨front, back, hPieces, rfl⟩ := h.begins
  have hBack : back.flatMap Piece.text = run ++ (sign ++ (value ++ rest)) := by
    have hText := flatMap_text_pieces region
    rw [hPieces, List.flatMap_append, h.text, List.append_cancel_left_eq] at hText
    exact hText
  refine ⟨attributesFrom 0 front, ?_, ?_⟩
  · rw [attributes, hPieces, attributesFrom_append, Nat.zero_add, ← hBack, pieces_flatMap_text_of_append hPieces]
  · intro a ha
    have hStop := stop_le_of_mem_attributesFrom ha
    rwa [Nat.zero_add] at hStop

/-- A name with a value behind it takes the value, or stands alone before a string that is not closed. -/
theorem exists_of_isName (h : ItemAt region before run sign value rest) (hName : IsName run)
    (hWhole : ¬ GoesOn value) :
    ∃ as, ∃ found? : Option Attribute,
      attributes region = as ++ (found?.toList ++ attributesFrom (valueSpan before run sign value).stop (pieces rest)) ∧
      (∀ a ∈ as, a.span.stop ≤ before.size) ∧
      ∀ a, found? = some a → a.span.start = before.size ∧ a.name = run ∧
        (a.span.stop = (valueSpan before run sign value).stop ∨ a.span.stop = Text.size (before ++ run)) := by
  obtain ⟨as, hAs, hBefore⟩ := h.exists_attributes_eq
  obtain ⟨c, cs, rfl⟩ := List.exists_cons_of_ne_nil h.run.ne_nil
  have hRead := Piece.read_name hName h.run.right
  obtain ⟨p, hOf, hNamed⟩ | ⟨hOf, hNil, hOpen⟩ := Piece.ofName_value (c :: cs) h.sign h.value hWhole
  · rw [hOf] at hRead
    obtain ⟨hFrom, hText⟩ := Piece.attributesFrom_read hRead before.size
    have hPiece : p.text = c :: cs ++ (sign ++ value) := by
      have hBoth : p.text ++ rest = (c :: cs ++ (sign ++ value)) ++ rest := by
        rw [hText, List.append_assoc, List.append_assoc]
        rfl
      exact List.append_cancel_right hBoth
    have hStop : before.size + p.text.size = (valueSpan before (c :: cs) sign value).stop := by
      simp only [hPiece, valueSpan, Text.size_append, Nat.add_assoc]
    refine ⟨as, p.attribute? before.size, by rw [hAs, List.cons_append, hFrom, hStop], hBefore, ?_⟩
    intro a ha
    obtain ⟨hStart, -⟩ := Piece.exists_text_eq_raw_append ha
    obtain ⟨hName', hRaw⟩ := hNamed _ a ha
    refine ⟨hStart, hName', Or.inl ?_⟩
    rw [← hStop, ← hRaw, ← hStart]
    rfl
  · rw [hOf] at hRead
    obtain ⟨hFrom, -⟩ := Piece.attributesFrom_read hRead before.size
    refine ⟨as, some ⟨before.size, c :: cs, none⟩, ?_, hBefore, ?_⟩
    · rw [hAs, List.cons_append, hFrom, attributesFrom_sign_append h.sign, hNil, List.append_nil,
        hOpen.attributesFrom, pieces]
      rfl
    · rintro a ⟨⟩
      refine ⟨rfl, rfl, Or.inr ?_⟩
      simp [Attribute.span, Attribute.raw]

theorem exists_of_not_isName (h : ItemAt region before run sign value rest) (hNot : ¬ IsName run) :
    ∃ as, attributes region =
        as ++ attributesFrom (valueSpan before run sign value).start (pieces (value ++ rest)) ∧
      ∀ a ∈ as, a.span.stop ≤ Text.size (before ++ run) := by
  obtain ⟨as, hAs, hBefore⟩ := h.exists_attributes_eq
  obtain ⟨c, cs, rfl⟩ := List.exists_cons_of_ne_nil h.run.ne_nil
  obtain ⟨p, hRead⟩ := Piece.exists_read_run h.run hNot
  obtain ⟨hFrom, hText⟩ := Piece.attributesFrom_read hRead before.size
  rw [← List.cons_append, List.append_cancel_right_eq] at hText
  refine ⟨as ++ (p.attribute? before.size).toList, ?_, ?_⟩
  · rw [hAs, List.cons_append, hFrom, attributesFrom_sign_append h.sign, hText, List.append_assoc]
    simp [valueSpan, Nat.add_assoc]
  · intro a ha
    obtain ha | ha := List.mem_append.1 ha
    · have hStop := hBefore a ha
      rw [Text.size_append]
      omega
    · obtain ⟨hStart, post, hRaw⟩ := Piece.exists_text_eq_raw_append (Option.mem_toList.1 ha)
      simp only [Attribute.span, hStart, ← hText, hRaw, Text.size_append]
      omega

theorem keepsWhole (h : ItemAt region before run sign value rest) (hName : IsName run) (hWhole : ¬ GoesOn value) :
    KeepsWhole region before run (valueSpan before run sign value) := by
  obtain ⟨as, found?, hAll, hBefore, hFound⟩ := h.exists_of_isName hName hWhole
  have hRun := Text.size_pos h.run.ne_nil
  have hStart : (valueSpan before run sign value).start = before.size + (Text.size run + sign.size) := by
    simp only [valueSpan, Text.size_append]
  have hStop : (valueSpan before run sign value).stop = before.size + (Text.size run + sign.size) + value.size := by
    simp only [valueSpan, Text.size_append]
  intro a ha
  have hPos := (sound_of_mem_attributes ha).start_lt_stop
  unfold Span.Meets
  rw [hAll, List.mem_append, List.mem_append, Option.mem_toList] at ha
  obtain ha | ha | ha := ha
  · have hle := hBefore a ha
    constructor <;> omega
  · obtain ⟨hFirst, hNamed, hLast⟩ := hFound a ha
    rw [Text.size_append] at hLast
    refine ⟨by omega, fun hMeets => ⟨hFirst, hNamed, by omega⟩⟩
  · have hle : (valueSpan before run sign value).stop ≤ a.span.start := le_start_of_mem_attributesFrom ha
    constructor <;> omega

/-- Nothing meets a string behind a run that makes no name. -/
theorem not_meets_of_string (h : ItemAt region before run sign value rest) (hNot : ¬ IsName run)
    (hString : value.head?.any isQuote = true) :
    ∀ a ∈ attributes region, ¬ a.span.Meets (valueSpan before run sign value) := by
  obtain ⟨as, hAll, hBefore⟩ := h.exists_of_not_isName hNot
  rw [h.value.attributesFrom_append hString] at hAll
  intro a ha hMeets
  obtain ⟨hLeft, hRight⟩ := hMeets
  rw [hAll, List.mem_append] at ha
  obtain ha | ha := ha
  · have hle := hBefore a ha
    simp only [valueSpan, Text.size_append] at hRight hle
    omega
  · have hle : (valueSpan before run sign value).stop ≤ a.span.start := le_start_of_mem_attributesFrom ha
    omega

/-- A value behind a name stays whole, if it is no expression that goes on behind a string. Behind a run that
makes no name the text is read on as a region of its own, past a string that stands there. -/
theorem attributes_around_value (h : ItemAt region before run sign value rest) :
    (IsName run → ¬ GoesOn value → KeepsWhole region before run (valueSpan before run sign value)) ∧
      (¬ IsName run →
        (∃ as, attributes region =
            as ++ attributesFrom (valueSpan before run sign value).start (pieces (value ++ rest)) ∧
          ∀ a ∈ as, a.span.stop ≤ Text.size (before ++ run)) ∧
        (value.head?.any isQuote = true →
          ∀ a ∈ attributes region, ¬ a.span.Meets (valueSpan before run sign value))) :=
  ⟨h.keepsWhole, fun hNot => ⟨h.exists_of_not_isName hNot, h.not_meets_of_string hNot⟩⟩

def sampleValues : Text := "m a = \x7bx'\x7d'\x7d 2='x y'".toList

/-- An expression behind a name, and a string behind a number. -/
theorem attributes_around_value_sample :
    ItemAt sampleValues "m ".toList ['a'] " = ".toList "\x7bx'\x7d'\x7d".toList " 2='x y'".toList ∧
      KeepsWhole sampleValues "m ".toList ['a'] (valueSpan "m ".toList ['a'] " = ".toList "\x7bx'\x7d'\x7d".toList) ∧
      ItemAt sampleValues "m a = \x7bx'\x7d'\x7d ".toList ['2'] ['='] "'x y'".toList [] ∧
      ∀ a ∈ attributes sampleValues,
        ¬ a.span.Meets (valueSpan "m a = \x7bx'\x7d'\x7d ".toList ['2'] ['='] "'x y'".toList) := by
  have hBalanced : Balanced ['x', '\x27', '\x7d', '\x27'] :=
    .char (by decide) (by decide) (by decide) (.string (v := ['\x7d']) (by decide) (by decide) .nil)
  have hName : ItemAt sampleValues "m ".toList ['a'] " = ".toList "\x7bx'\x7d'\x7d".toList " 2='x y'".toList := by
    refine ⟨by decide, ⟨(pieces sampleValues).take 2, (pieces sampleValues).drop 2,
      (List.take_append_drop 2 _).symm, by decide +kernel⟩, ⟨by decide, List.all_eq_true.1 (by decide), ?_, ?_⟩,
      ⟨[' '], [' '], by decide, List.forall_mem_singleton.2 (by decide), List.forall_mem_singleton.2 (by decide)⟩,
      .binding hBalanced⟩
    all_goals
      rintro c ⟨⟩
      decide
  have hNumber : ItemAt sampleValues "m a = \x7bx'\x7d'\x7d ".toList ['2'] ['='] "'x y'".toList [] := by
    refine ⟨by decide, ⟨(pieces sampleValues).take 4, (pieces sampleValues).drop 4,
      (List.take_append_drop 4 _).symm, by decide +kernel⟩, ⟨by decide, List.all_eq_true.1 (by decide), ?_, ?_⟩,
      ⟨[], [], rfl, List.forall_mem_nil _, List.forall_mem_nil _⟩, .string (q := '\x27') (v := "x y".toList) (by decide) (by decide)⟩
    all_goals
      rintro c ⟨⟩
      decide
  have hWhole : ¬ GoesOn ['\x7b', 'x', '\x27', '\x7d', '\x27', '\x7d'] := by
    rintro ⟨q, v, c, r, hText, hStraight, -⟩
    simp only [List.cons.injEq, true_and] at hText
    rw [← hText.1] at hStraight
    cases hStraight
  exact ⟨hName, hName.attributes_around_value.1 (by decide) hWhole, hNumber,
    (hNumber.attributes_around_value.2 (by decide)).2 (by decide)⟩

def carvedValues : Text := "2=b c/=d".toList

/-- Behind a number, and behind a name with a slash, the value is read as a name. -/
theorem not_keepsWhole_carvedValues :
    ItemAt carvedValues [] ['2'] ['='] ['b'] " c/=d".toList ∧
      ¬ KeepsWhole carvedValues [] ['2'] (valueSpan [] ['2'] ['='] ['b']) ∧
      ItemAt carvedValues "2=b ".toList ['c', '/'] ['='] ['d'] [] ∧
      ¬ KeepsWhole carvedValues "2=b ".toList ['c', '/'] (valueSpan "2=b ".toList ['c', '/'] ['='] ['d']) := by
  have hSign : IsSign ['='] := ⟨[], [], rfl, List.forall_mem_nil _, List.forall_mem_nil _⟩
  have hNumber : ItemAt carvedValues [] ['2'] ['='] ['b'] " c/=d".toList := by
    refine ⟨by decide, ⟨[], _, rfl, rfl⟩, ⟨by decide, List.all_eq_true.1 (by decide), ?_, ?_⟩, hSign,
      .bare (by decide) (by decide) (List.forall_mem_singleton.2 (by decide)) ?_⟩
    all_goals
      rintro c ⟨⟩
      try decide
  have hSlash : ItemAt carvedValues "2=b ".toList ['c', '/'] ['='] ['d'] [] := by
    refine ⟨by decide, ⟨(pieces carvedValues).take 4, (pieces carvedValues).drop 4,
      (List.take_append_drop 4 _).symm, by decide +kernel⟩, ⟨by decide, List.all_eq_true.1 (by decide), ?_, ?_⟩, hSign,
      .bare (by decide) (by decide) (List.forall_mem_singleton.2 (by decide)) ?_⟩
    all_goals
      rintro c ⟨⟩
      try decide
  exact ⟨hNumber, by decide +kernel, hSlash, by decide +kernel⟩

end ItemAt

end ClassFold

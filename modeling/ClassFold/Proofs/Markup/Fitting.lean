import ClassFold.Proofs.Markup.ValueReading

/-!
# What the reader takes

Between the text before it and the text behind it a piece fits or does not: a string goes to its closing
quote or to the end, a value as far as it goes, and a run of name characters is a whole run. The reader takes
the piece that fits, `Piece.fits_read`, and no other piece fits in its place, `Piece.Fits.readsBefore`.
-/

set_option autoImplicit false

namespace ClassFold

/-- A run of name characters between two texts, with no further one on either side. -/
structure IsRun (before run rest : Text) : Prop where
  ne_nil : run ≠ []
  chars : ∀ c ∈ run, isNameChar c = true
  left : ∀ c, before.getLast? = some c → isNameChar c = false
  right : ∀ c, rest.head? = some c → isNameChar c = false

theorem IsRun.start {run rest : Text} (hNe : run ≠ []) (hChars : ∀ c ∈ run, isNameChar c = true)
    (hRight : ∀ c, rest.head? = some c → isNameChar c = false) : IsRun [] run rest :=
  ⟨hNe, hChars, by rintro c ⟨⟩, hRight⟩

/-- Between the two texts no run of name characters is cut. -/
def Seam (before rest : Text) : Prop :=
  (∀ c, before.getLast? = some c → isNameChar c = false) ∨ ∀ c, rest.head? = some c → isNameChar c = false

namespace Seam

variable {before rest : Text}

theorem start (rest : Text) : Seam [] rest := Or.inl (by rintro c ⟨⟩)

theorem nil (before : Text) : Seam before [] := Or.inr (by rintro c ⟨⟩)

theorem concat {c : Char} (hc : isNameChar c = false) (front rest : Text) : Seam (front ++ [c]) rest := by
  refine Or.inl ?_
  intro d hd
  rw [List.getLast?_concat] at hd
  cases hd
  exact hc

end Seam

/-- No value follows: behind the blanks there is no `=`, or the string behind it is not closed. -/
def StandsAlone (rest : Text) : Prop :=
  (rest.dropWhile isBlank).head? ≠ some '=' ∨ ∃ sign value, rest = sign ++ value ∧ IsSign sign ∧ IsOpenString value

theorem splitSlashes_append_slashes {name slashes : Text} (hLast : name.getLast? ≠ some '/')
    (hSlashes : ∀ c ∈ slashes, c = '/') : splitSlashes (name ++ slashes) = (name, slashes) := by
  have hAll : ∀ c ∈ slashes.reverse, (c == '/') = true := by
    intro c hc
    rw [hSlashes c (List.mem_reverse.1 hc)]
    rfl
  have hStop : ∀ c, name.reverse.head? = some c → (c == '/') = false := by
    intro c hc
    rw [List.head?_reverse] at hc
    rw [beq_eq_false_iff_ne]
    rintro rfl
    exact hLast hc
  obtain ⟨hTake, hDrop⟩ := Text.takeWhile_dropWhile_append hAll hStop
  rw [splitSlashes, List.reverse_append, hTake, hDrop, List.reverse_reverse, List.reverse_reverse]

theorem eq_slash_of_mem_splitSlashes {run : Text} {c : Char} (hc : c ∈ (splitSlashes run).2) : c = '/' := by
  have hMem : c ∈ run.reverse.takeWhile (· == '/') := List.mem_reverse.1 hc
  have hSlash := List.mem_takeWhile_imp hMem
  exact beq_iff_eq.1 hSlash

theorem isNameChar_slash : isNameChar '/' = true := by decide

theorem isRefusedName_append_slashes {slashes : Text} (hSlashes : ∀ c ∈ slashes, c = '/') (name : Text) :
    isRefusedName (name ++ slashes) = isRefusedName name := by
  have hFirst : slashes = [] ∨ ∃ s, slashes = '/' :: s := by
    cases slashes with
    | nil => exact Or.inl rfl
    | cons c s => exact Or.inr ⟨s, by rw [hSlashes c List.mem_cons_self]⟩
  cases name with
  | nil => obtain rfl | ⟨s, rfl⟩ := hFirst <;> rfl
  | cons c name =>
    obtain rfl | hc := eq_or_ne c '-'
    · cases name with
      | nil => obtain rfl | ⟨s, rfl⟩ := hFirst <;> rfl
      | cons d name => rw [List.cons_append, List.cons_append, isRefusedName_dash, isRefusedName_dash]
    · rw [List.cons_append, isRefusedName_cons hc, isRefusedName_cons hc]

/-- A run makes no name if it is all slashes, or if what stands before the slashes at its end is refused. -/
theorem isDropped_iff {run : Text} :
    ((splitSlashes run).1.isEmpty || isRefusedName (splitSlashes run).1) = true ↔
      (∀ c ∈ run, c = '/') ∨ isRefusedName run = true := by
  have hSplit := splitSlashes_append run
  have hSlashes : ∀ c ∈ (splitSlashes run).2, c = '/' := fun c hc => eq_slash_of_mem_splitSlashes hc
  have hRefused := isRefusedName_append_slashes hSlashes (splitSlashes run).1
  rw [hSplit] at hRefused
  rw [Bool.or_eq_true, List.isEmpty_iff, ← hRefused]
  refine or_congr_left ?_
  constructor
  · intro hNil
    rw [hNil, List.nil_append] at hSplit
    rwa [hSplit] at hSlashes
  · intro hAll
    have hNone : splitSlashes ([] ++ run) = ([], run) := splitSlashes_append_slashes (by simp) hAll
    rw [List.nil_append] at hNone
    rw [hNone]

namespace Piece

/-- Between the two texts the piece is what it should be. -/
def Fits (before rest : Text) : Piece → Prop
  | blanks run => run ≠ [] ∧ (∀ c ∈ run, isBlank c = true) ∧ ∀ c, rest.head? = some c → isBlank c = false
  | stray c => c = '=' ∨ c = '{' ∨ c = '}'
  | string text =>
    ∃ q v, isQuote q = true ∧ q ∉ v ∧ (text = q :: (v ++ [q]) ∨ text = q :: v ∧ rest = [])
  | dropped run => IsRun before run rest ∧ ((∀ c ∈ run, c = '/') ∨ isRefusedName run = true)
  | flag name slashes =>
    IsName name ∧ (∀ c ∈ slashes, c = '/') ∧ IsRun before (name ++ slashes) rest ∧ (slashes = [] → StandsAlone rest)
  | valued name value =>
    IsName name ∧ value.WellFormed ∧ (value.Closed ∨ rest.head? ≠ some '}') ∧ IsRun before name (value.text ++ rest)
  | sealed name lead value =>
    IsName name ∧ IsSign lead ∧ IsValue value rest ∧ opensQuoted (value ++ rest) = false ∧
      IsRun before name (lead ++ (value ++ rest))

/-- In front of this text the piece is read as it is. -/
def ReadsBefore (p : Piece) (rest : Text) : Prop :=
  ∃ c s, p.text = c :: s ∧ read c (s ++ rest) = (p, rest)

theorem ReadsBefore.pieces_append {p : Piece} {rest : Text} (h : p.ReadsBefore rest) :
    pieces (p.text ++ rest) = p :: pieces rest := by
  obtain ⟨c, s, hText, hRead⟩ := h
  rw [hText, List.cons_append, pieces, hRead]

theorem ReadsBefore.attributesFrom_append {p : Piece} {rest : Text} (h : p.ReadsBefore rest) (offset : Nat) :
    attributesFrom offset (pieces (p.text ++ rest)) =
      (p.attribute? offset).toList ++ attributesFrom (offset + p.text.size) (pieces rest) := by
  rw [h.pieces_append, attributesFrom]

variable {before name sign body rest : Text} {p : Piece}

theorem ofName_sign (hSign : IsSign sign) (hBody : ∀ c, body.head? = some c → isBlank c = false) :
    ofName name (sign ++ body) =
      if opensQuoted body then
        match readQuoted? sign body with
        | some (value, after) => (valued name value, after)
        | none => (flag name [], sign ++ body)
      else (sealed name sign (readSealed body).1, (readSealed body).2) := by
  obtain ⟨b, b', rfl, hb, hb'⟩ := hSign
  have hMark : ∀ c, ('=' :: (b' ++ body)).head? = some c → isBlank c = false := by
    rintro c ⟨⟩
    decide
  obtain ⟨hTake, hDrop⟩ := Text.takeWhile_dropWhile_append hb hMark
  obtain ⟨hTake', hDrop'⟩ := Text.takeWhile_dropWhile_append hb' hBody
  rw [List.append_assoc, List.cons_append]
  cases hRead : readQuoted? (b ++ '=' :: b') body with
  | none => simp only [ofName, hTake, hDrop, hTake', hDrop', hRead]
  | some r =>
    obtain ⟨value, after⟩ := r
    simp only [ofName, hTake, hDrop, hTake', hDrop', hRead]

theorem read_blank {c : Char} (hBlank : isBlank c = true) (s : Text) :
    read c s = (blanks (c :: s.takeWhile isBlank), s.dropWhile isBlank) := by
  simp [read, hBlank]

theorem read_quote {q : Char} (hQuote : isQuote q = true) (s : Text) :
    read q s = (string (q :: (readString q s).1), (readString q s).2) := by
  simp [read, hQuote, isBlank_eq_false_of_isQuote hQuote]

theorem read_stray {c : Char} (hBlank : isBlank c = false) (hQuote : isQuote c = false) (hName : isNameChar c = false)
    (s : Text) : read c s = (stray c, s) := by
  simp [read, hBlank, hQuote, hName]

/-- A run of name characters is split into a name and slashes. -/
theorem read_chars {c : Char} {cs : Text} (hChars : ∀ d ∈ c :: cs, isNameChar d = true)
    (hStop : ∀ d, rest.head? = some d → isNameChar d = false) :
    read c (cs ++ rest) =
      if (splitSlashes (c :: cs)).1.isEmpty || isRefusedName (splitSlashes (c :: cs)).1 then (dropped (c :: cs), rest)
      else if (splitSlashes (c :: cs)).2.isEmpty then ofName (splitSlashes (c :: cs)).1 rest
      else (flag (splitSlashes (c :: cs)).1 (splitSlashes (c :: cs)).2, rest) := by
  obtain ⟨hc, hcs⟩ := List.forall_mem_cons.1 hChars
  obtain ⟨hBlank, hQuote, -⟩ := isNameChar_eq_true_iff.1 hc
  obtain ⟨hTake, hDrop⟩ := Text.takeWhile_dropWhile_append hcs hStop
  simp only [read, hBlank, hQuote, hc, hTake, hDrop, Bool.false_eq_true, if_false, if_true]

theorem isNameChar_sign (hSign : IsSign sign) (rest : Text) :
    ∀ c, (sign ++ rest).head? = some c → isNameChar c = false := by
  obtain ⟨b, b', rfl, hb, -⟩ := hSign
  intro c hc
  cases b with
  | nil =>
    cases hc
    decide
  | cons d b =>
    cases hc
    exact isNameChar_eq_false_of_isBlank (hb _ List.mem_cons_self)

theorem ofName_of_standsAlone (h : StandsAlone rest) (name : Text) : ofName name rest = (flag name [], rest) := by
  obtain hSign | ⟨sign, value, rfl, hSign, hOpen⟩ := h
  · exact ofName_of_noValue hSign
  · obtain ⟨hOpens, hRead⟩ := (isOpenString_iff sign).1 hOpen
    rw [ofName_sign hSign hOpen.isBlank_head?, if_pos hOpens, hRead]

/-- A piece that fits is the one that is read. -/
theorem Fits.readsBefore (h : p.Fits before rest) : p.ReadsBefore rest := by
  cases p with
  | blanks run =>
    obtain ⟨hNe, hBlanks, hStop⟩ := h
    obtain ⟨c, s, rfl⟩ := List.exists_cons_of_ne_nil hNe
    obtain ⟨hc, hs⟩ := List.forall_mem_cons.1 hBlanks
    obtain ⟨hTake, hDrop⟩ := Text.takeWhile_dropWhile_append hs hStop
    exact ⟨c, s, rfl, by rw [read_blank hc, hTake, hDrop]⟩
  | stray c =>
    refine ⟨c, [], rfl, ?_⟩
    obtain rfl | rfl | rfl := h <;> exact read_stray (by decide) (by decide) (by decide) rest
  | string t =>
    obtain ⟨q, v, hQuote, hFree, rfl | ⟨rfl, rfl⟩⟩ := h
    · refine ⟨q, v ++ [q], rfl, ?_⟩
      rw [read_quote hQuote, List.append_assoc, List.singleton_append, readString_append_cons hFree]
    · refine ⟨q, v, rfl, ?_⟩
      rw [List.append_nil, read_quote hQuote, readString_of_not_mem hFree]
  | dropped run =>
    obtain ⟨hRun, hDropped⟩ := h
    obtain ⟨c, cs, rfl⟩ := List.exists_cons_of_ne_nil hRun.ne_nil
    exact ⟨c, cs, rfl, by rw [read_chars hRun.chars hRun.right, if_pos (isDropped_iff.2 hDropped)]⟩
  | flag name slashes =>
    obtain ⟨hName, hSlashes, hRun, hAlone⟩ := h
    obtain ⟨c, cs, rfl⟩ := List.exists_cons_of_ne_nil hName.ne_nil
    refine ⟨c, cs ++ slashes, rfl, ?_⟩
    have hSplit := splitSlashes_append_slashes hName.last hSlashes
    rw [List.cons_append] at hRun hSplit
    rw [read_chars hRun.chars hRun.right, hSplit, if_neg (by simp [hName.accepted])]
    split
    · rename_i hNone
      have hNil : slashes = [] := List.isEmpty_iff.1 hNone
      rw [ofName_of_standsAlone (hAlone hNil), hNil]
    · rfl
  | valued name value =>
    obtain ⟨hName, hValue, hClosed, hRun⟩ := h
    obtain ⟨c, cs, rfl⟩ := List.exists_cons_of_ne_nil hName.ne_nil
    obtain ⟨sign, body, hSign, hText, hBody, hOpens, hRead⟩ := hValue.exists_readQuoted? hClosed
    refine ⟨c, cs ++ value.text, rfl, ?_⟩
    rw [List.append_assoc, read_name hName hRun.right, hText, ofName_sign hSign hBody, if_pos hOpens, hRead]
  | sealed name lead value =>
    obtain ⟨hName, hSign, hValue, hPlain, hRun⟩ := h
    obtain ⟨c, cs, rfl⟩ := List.exists_cons_of_ne_nil hName.ne_nil
    refine ⟨c, cs ++ lead ++ value, rfl, ?_⟩
    rw [List.append_assoc, List.append_assoc, read_name hName hRun.right, ofName_sign hSign hValue.isBlank_head?,
      if_neg (by simp [hPlain]), hValue.readSealed_append]

theorem fits_ofName (hName : IsName name) (hRun : IsRun before name rest) :
    (ofName name rest).1.Fits before (ofName name rest).2 := by
  -- In each branch this is what `rest` is in terms of the piece, and `hRun` is carried over by it.
  have hText := text_ofName name rest
  have hFlag (hAlone : StandsAlone rest) : (flag name []).Fits before rest :=
    ⟨hName, List.forall_mem_nil _, by rwa [List.append_nil], fun _ => hAlone⟩
  unfold ofName at hText ⊢
  split
  · rename_i r hDrop
    have hSign : IsSign (rest.takeWhile isBlank ++ '=' :: r.takeWhile isBlank) :=
      ⟨_, _, rfl, fun c hc => List.mem_takeWhile_imp hc, fun c hc => List.mem_takeWhile_imp hc⟩
    simp only [hDrop] at hText
    dsimp only
    split
    · rename_i hOpens
      rw [if_pos hOpens] at hText
      split
      · rename_i value after hRead
        simp only [hRead, text, List.append_assoc, List.append_cancel_left_eq] at hText
        rw [← hText] at hRun
        obtain ⟨hValue, hClosed⟩ := wellFormed_of_readQuoted? hSign hRead
        exact ⟨hName, hValue, hClosed, hRun⟩
      · rename_i hRead
        refine hFlag (Or.inr ⟨_, _, ?_, hSign, (isOpenString_iff _).2 ⟨hOpens, hRead⟩⟩)
        rw [List.append_assoc, List.cons_append, List.takeWhile_append_dropWhile, ← hDrop,
          List.takeWhile_append_dropWhile]
    · rename_i hOpens
      rw [if_neg hOpens] at hText
      simp only [text, List.append_assoc, List.append_cancel_left_eq] at hText
      rw [← hText] at hRun
      refine ⟨hName, hSign, isValue_readSealed fun c hc => head?_dropWhile hc, ?_, ?_⟩
      · rw [readSealed_append]
        exact Bool.eq_false_iff.2 hOpens
      · simpa using hRun
  · rename_i hDrop
    refine hFlag (Or.inl fun hSign => ?_)
    obtain ⟨r, hr⟩ := List.head?_eq_some_iff.1 hSign
    exact hDrop r hr

theorem fits_string {q : Char} (hQuote : isQuote q = true) (s : Text) :
    (string (q :: (readString q s).1)).Fits before (readString q s).2 := by
  obtain ⟨v, r, hFree, -, hRead⟩ | ⟨hFree, hRead⟩ := readString_cases q s
  · rw [hRead]
    exact ⟨q, v, hQuote, hFree, Or.inl rfl⟩
  · rw [hRead]
    exact ⟨q, s, hQuote, hFree, Or.inr ⟨rfl, rfl⟩⟩

theorem fits_run {c : Char} {cs : Text} (hRun : IsRun before (c :: cs) rest) :
    (read c (cs ++ rest)).1.Fits before (read c (cs ++ rest)).2 := by
  have hSplit := splitSlashes_append (c :: cs)
  rw [read_chars hRun.chars hRun.right]
  split
  · rename_i hDropped
    exact ⟨hRun, isDropped_iff.1 hDropped⟩
  · rename_i hNamed
    simp only [Bool.or_eq_true, List.isEmpty_iff, not_or, Bool.not_eq_true] at hNamed
    have hName := isName_splitSlashes hRun.chars hNamed.1 hNamed.2
    split
    · rename_i hNil
      rw [List.isEmpty_iff.1 hNil, List.append_nil] at hSplit
      exact fits_ofName hName (by rwa [hSplit])
    · rename_i hSome
      exact ⟨hName, fun d hd => eq_slash_of_mem_splitSlashes hd, by rwa [hSplit],
        fun hNil => absurd (List.isEmpty_iff.2 hNil) hSome⟩

theorem fits_read {c : Char} {s : Text} (hSeam : Seam before (c :: s)) :
    (read c s).1.Fits before (read c s).2 := by
  cases hBlank : isBlank c with
  | true =>
    rw [read_blank hBlank]
    exact ⟨List.cons_ne_nil _ _, List.forall_mem_cons.2 ⟨hBlank, fun d hd => List.mem_takeWhile_imp hd⟩,
      fun d hd => head?_dropWhile hd⟩
  | false =>
    cases hQuote : isQuote c with
    | true =>
      rw [read_quote hQuote]
      exact fits_string hQuote s
    | false =>
      cases hChar : isNameChar c with
      | true =>
        have hLeft : ∀ d, before.getLast? = some d → isNameChar d = false := by
          obtain hLeft | hRight := hSeam
          · exact hLeft
          · rw [hRight c rfl] at hChar
            cases hChar
        have hRun : IsRun before (c :: s.takeWhile isNameChar) (s.dropWhile isNameChar) :=
          ⟨List.cons_ne_nil _ _, List.forall_mem_cons.2 ⟨hChar, fun d hd => List.mem_takeWhile_imp hd⟩, hLeft,
            fun d hd => head?_dropWhile hd⟩
        have hFits := fits_run hRun
        rwa [List.takeWhile_append_dropWhile] at hFits
      | false =>
        rw [read_stray hBlank hQuote hChar]
        exact eq_of_not_isNameChar hBlank hQuote hChar

theorem ReadsBefore.fits (h : p.ReadsBefore rest) (hSeam : Seam before (p.text ++ rest)) : p.Fits before rest := by
  obtain ⟨c, s, hText, hRead⟩ := h
  rw [hText, List.cons_append] at hSeam
  have hFits := fits_read hSeam
  rwa [hRead] at hFits

end Piece

end ClassFold

import ClassFold.Proofs.Text.Split
import ClassFold.Transform
import ClassFold.WordSet

/-!
# What a word list says

A word list is read line by line, and of a line counts only what is left without the white space around it. So
the lines may come in any order, any number of times, with either line end, and among blank lines and comments:
`Alike` says so step by step, and it holds of two lists just when they name the same words: `alike_iff`.
-/

set_option autoImplicit false

namespace ClassFold

/-- The lines of a text. Behind the last line end there is a further line only where something stands there. -/
inductive HasLines : Text → List Text → Prop where
  | nil : HasLines [] []
  | last {line : Text} (hNe : line ≠ []) (hFree : '\n' ∉ line) : HasLines line [line]
  | lf (line : Text) {text : Text} {lines : List Text} (hFree : '\n' ∉ line) (hEnd : line.getLast? ≠ some '\r')
      (h : HasLines text lines) : HasLines (line ++ '\n' :: text) (line :: lines)
  | crlf (line : Text) {text : Text} {lines : List Text} (hFree : '\n' ∉ line) (h : HasLines text lines) :
      HasLines (line ++ '\r' :: '\n' :: text) (line :: lines)

/-- The word is what the line holds between the white space at its two ends. -/
def IsTrimmed (line word : Text) : Prop :=
  ∃ front back, line = front ++ (word ++ back) ∧ (∀ c ∈ front, isWhite c = true) ∧ (∀ c ∈ back, isWhite c = true) ∧
    (∀ c, word.head? = some c → isWhite c = false) ∧ ∀ c, word.getLast? = some c → isWhite c = false

def NamesWord (lines : List Text) (word : Text) : Prop :=
  word ≠ [] ∧ word.head? ≠ some '#' ∧ ∃ line ∈ lines, IsTrimmed line word

/-- The steps that lead from one list of lines to another with the same words. -/
inductive Alike : List Text → List Text → Prop where
  | order {lines lines' : List Text} (h : lines.Perm lines') : Alike lines lines'
  | again {line : Text} {lines : List Text} (h : line ∈ lines) : Alike (line :: lines) lines
  | space {line line' word : Text} (lines : List Text) (h : IsTrimmed line word) (h' : IsTrimmed line' word) :
      Alike (line :: lines) (line' :: lines)
  | blank {line : Text} (lines : List Text) (h : ∀ c ∈ line, isWhite c = true) : Alike (line :: lines) lines
  | comment {line rest : Text} (lines : List Text) (h : IsTrimmed line ('#' :: rest)) : Alike (line :: lines) lines
  | symm {lines lines' : List Text} (h : Alike lines lines') : Alike lines' lines
  | trans {lines lines' lines'' : List Text} (h : Alike lines lines') (h' : Alike lines' lines'') :
      Alike lines lines''

/-- The set has just these words in it, each counted once. -/
structure WordSet.HoldsExactly (set : WordSet) (P : Text → Prop) : Prop where
  contains_iff word : set.contains word = true ↔ P word
  size_eq : ∃ words : List Text, words.Nodup ∧ (∀ word, word ∈ words ↔ P word) ∧ set.size = words.length
  isEmpty_iff : set.isEmpty = true ↔ ∀ word, ¬ P word

variable {line line' word text : Text} {lines lines' : List Text}

theorem exists_hasLines (text : Text) : ∃ lines, HasLines text lines := by
  by_cases hMem : '\n' ∈ text
  · obtain ⟨line, rest, rfl, hFree⟩ := List.eq_append_cons_of_mem hMem
    obtain ⟨lines, h⟩ := exists_hasLines rest
    by_cases hEnd : line.getLast? = some '\r'
    · obtain ⟨line, rfl⟩ := List.getLast?_eq_some_iff.1 hEnd
      rw [List.append_assoc, List.singleton_append]
      exact ⟨line :: lines, .crlf line (fun hMem => hFree (List.mem_append_left _ hMem)) h⟩
    · exact ⟨line :: lines, .lf line hFree hEnd h⟩
  · by_cases hNe : text = []
    · exact ⟨[], hNe ▸ .nil⟩
    · exact ⟨[text], .last hNe hMem⟩
termination_by text.length
decreasing_by
  subst_vars
  simp only [List.length_append, List.length_cons]
  omega

/-- A text is cut at its first line end in one way. -/
theorem eq_of_append_lf_eq {s t : Text} (hFree : '\n' ∉ line) (hFree' : '\n' ∉ line')
    (h : line ++ '\n' :: s = line' ++ '\n' :: t) : line = line' ∧ s = t := by
  obtain ⟨hTaken, hLeft⟩ := Text.takeWhile_dropWhile_ne hFree s
  obtain ⟨hTaken', hLeft'⟩ := Text.takeWhile_dropWhile_ne hFree' t
  rw [h] at hTaken hLeft
  exact ⟨hTaken.symm.trans hTaken', (List.cons.inj (hLeft.symm.trans hLeft')).2⟩

theorem HasLines.unique (h : HasLines text lines) (h' : HasLines text lines') : lines = lines' := by
  induction h generalizing lines' with
  | nil =>
    generalize hText : ([] : Text) = text at h'
    cases h' with
    | nil => rfl
    | last hNe => exact absurd hText.symm hNe
    | lf | crlf => exact absurd hText.symm (List.append_ne_nil_of_right_ne_nil _ (List.cons_ne_nil _ _))
  | @last line hNe hFree =>
    generalize hText : line = text at h'
    cases h' with
    | nil => exact absurd hText hNe
    | last => rfl
    | lf | crlf =>
      rw [hText] at hFree
      simp at hFree
  | @lf line text lines hFree hEnd h ih =>
    generalize hText : line ++ '\n' :: text = whole at h'
    cases h' with
    | nil => exact absurd hText (List.append_ne_nil_of_right_ne_nil _ (List.cons_ne_nil _ _))
    | last hNe hFree' =>
      rw [← hText] at hFree'
      simp at hFree'
    | lf line' hFree' hEnd' h' =>
      obtain ⟨rfl, rfl⟩ := eq_of_append_lf_eq hFree hFree' hText
      rw [ih h']
    | crlf line' hFree' h' =>
      rw [List.append_cons line'] at hText
      obtain ⟨rfl, -⟩ := eq_of_append_lf_eq hFree (by simpa using hFree') hText
      simp at hEnd
  | @crlf line text lines hFree h ih =>
    generalize hText : line ++ '\r' :: '\n' :: text = whole at h'
    have hReturn : '\n' ∉ line ++ ['\r'] := by simpa using hFree
    rw [List.append_cons] at hText
    cases h' with
    | nil => exact absurd hText (List.append_ne_nil_of_right_ne_nil _ (List.cons_ne_nil _ _))
    | last hNe hFree' =>
      rw [← hText] at hFree'
      simp at hFree'
    | lf line' hFree' hEnd' h' =>
      obtain ⟨rfl, -⟩ := eq_of_append_lf_eq hReturn hFree' hText
      simp at hEnd'
    | crlf line' hFree' h' =>
      rw [List.append_cons line'] at hText
      obtain ⟨hLine, rfl⟩ := eq_of_append_lf_eq hReturn (by simpa using hFree') hText
      rw [ih h', List.append_cancel_right hLine]

theorem isTrimmed_iff : IsTrimmed line word ↔ line.trim = word := by
  constructor
  · rintro ⟨front, back, rfl, hFront, hBack, hHead, hLast⟩
    cases word with
    | nil =>
      have hAll : (front ++ ([] ++ back)).dropWhile isWhite = [] :=
        List.dropWhile_eq_nil_iff.2 (List.forall_mem_append.2 ⟨hFront, hBack⟩)
      rw [Text.trim, hAll]
      rfl
    | cons c word =>
      have hLeft := (Text.takeWhile_dropWhile_append (t := c :: word ++ back) hFront hHead).2
      have hRight := (Text.takeWhile_dropWhile_append (s := back.reverse) (t := (c :: word).reverse)
        (fun d hd => hBack d (List.mem_reverse.1 hd)) (fun d hd => hLast d (List.head?_reverse.symm.trans hd))).2
      rw [Text.trim, hLeft, List.reverse_append, hRight, List.reverse_reverse]
  · rintro rfl
    have hBehind : line.dropWhile isWhite =
        line.trim ++ ((line.dropWhile isWhite).reverse.takeWhile isWhite).reverse := by
      rw [Text.trim, ← List.reverse_append, List.takeWhile_append_dropWhile, List.reverse_reverse]
    refine ⟨line.takeWhile isWhite, ((line.dropWhile isWhite).reverse.takeWhile isWhite).reverse, ?_, ?_, ?_, ?_, ?_⟩
    · rw [← hBehind, List.takeWhile_append_dropWhile]
    · exact fun c hc => List.mem_takeWhile_imp hc
    · exact fun c hc => List.mem_takeWhile_imp (List.mem_reverse.1 hc)
    · intro c hc
      apply head?_dropWhile (s := line)
      rw [hBehind, List.head?_append, hc, Option.some_or]
    · intro c hc
      rw [Text.trim, List.getLast?_reverse] at hc
      exact head?_dropWhile hc

theorem wordOfLine?_eq_some_iff :
    WordSet.wordOfLine? line = some word ↔ word ≠ [] ∧ word.head? ≠ some '#' ∧ IsTrimmed line word := by
  rw [isTrimmed_iff, WordSet.wordOfLine?]
  split
  · rename_i hTrim
    constructor
    · rintro ⟨⟩
    · rintro ⟨hNe, -, hWord⟩
      exact absurd (hWord.symm.trans hTrim) hNe
  · rename_i rest hTrim
    constructor
    · rintro ⟨⟩
    · rintro ⟨-, hMark, hWord⟩
      rw [← hWord, hTrim] at hMark
      exact absurd rfl hMark
  · rename_i hNe hMark
    constructor
    · rintro ⟨⟩
      refine ⟨hNe, ?_, rfl⟩
      intro hHead
      obtain ⟨rest, hRest⟩ := List.head?_eq_some_iff.1 hHead
      exact hMark rest hRest
    · rintro ⟨-, -, hWord⟩
      rw [hWord]

theorem mem_filterMap_wordOfLine? : word ∈ lines.filterMap WordSet.wordOfLine? ↔ NamesWord lines word := by
  simp only [List.mem_filterMap, wordOfLine?_eq_some_iff, NamesWord]
  constructor
  · rintro ⟨line, hLine, hNe, hMark, hWord⟩
    exact ⟨hNe, hMark, line, hLine, hWord⟩
  · rintro ⟨hNe, hMark, line, hLine, hWord⟩
    exact ⟨line, hLine, hNe, hMark, hWord⟩

theorem isTrimmed_nil_iff : IsTrimmed line [] ↔ ∀ c ∈ line, isWhite c = true := by
  constructor
  · rintro ⟨front, back, rfl, hFront, hBack, -⟩
    exact List.forall_mem_append.2 ⟨hFront, hBack⟩
  · intro hAll
    exact ⟨line, [], by simp, hAll, by simp, by simp, by simp⟩

theorem wordOfLine?_eq_none_iff :
    WordSet.wordOfLine? line = none ↔ (∀ c ∈ line, isWhite c = true) ∨ ∃ rest, IsTrimmed line ('#' :: rest) := by
  simp only [← isTrimmed_nil_iff, isTrimmed_iff, WordSet.wordOfLine?]
  split
  · rename_i hTrim
    exact iff_of_true rfl (Or.inl hTrim)
  · rename_i rest hTrim
    exact iff_of_true rfl (Or.inr ⟨rest, hTrim⟩)
  · rename_i hNe hMark
    simp only [reduceCtorEq, false_iff, not_or, not_exists]
    exact ⟨hNe, hMark⟩

theorem wordOfLine?_congr (h : IsTrimmed line word) (h' : IsTrimmed line' word) :
    WordSet.wordOfLine? line = WordSet.wordOfLine? line' := by
  rw [WordSet.wordOfLine?, isTrimmed_iff.1 h, WordSet.wordOfLine?, isTrimmed_iff.1 h']

/-- White space behind a line does not count, a carriage return in front of the line end included. -/
theorem wordOfLine?_append_white {c : Char} (hc : isWhite c = true) (line : Text) :
    WordSet.wordOfLine? (line ++ [c]) = WordSet.wordOfLine? line := by
  have hTrimmed : IsTrimmed line line.trim := isTrimmed_iff.2 rfl
  refine wordOfLine?_congr ?_ hTrimmed
  obtain ⟨front, back, hLine, hFront, hBack, hEnds⟩ := hTrimmed
  refine ⟨front, back ++ [c], ?_, hFront, List.forall_mem_append.2 ⟨hBack, List.forall_mem_singleton.2 hc⟩, hEnds⟩
  rw [← List.append_assoc _ back, ← List.append_assoc front, ← hLine]

theorem namesWord_cons : NamesWord (line :: lines) word ↔ WordSet.wordOfLine? line = some word ∨ NamesWord lines word := by
  simp only [← mem_filterMap_wordOfLine?, List.mem_filterMap, List.mem_cons, or_and_right, exists_or, exists_eq_left]

namespace WordSet

theorem wordsOfList_append_cons (text rest : Text) :
    wordsOfList (text ++ '\n' :: rest) = wordsOfList text ++ wordsOfList rest := by
  have hSplit := List.splitOnP_append_cons (p := (· == '\n')) text rest (beq_self_eq_true '\n')
  rw [wordsOfList, hSplit, List.filterMap_append, wordsOfList, wordsOfList]

theorem wordsOfList_of_free (hFree : '\n' ∉ line) : wordsOfList line = (wordOfLine? line).toList := by
  rw [wordsOfList, List.splitOnP_eq_singleton]
  · cases hWord : wordOfLine? line with
    | none => exact List.filterMap_cons_none hWord
    | some word => exact List.filterMap_cons_some hWord
  · intro c hc
    rw [beq_eq_false_iff_ne]
    rintro rfl
    exact hFree hc

theorem wordsOfList_eq (h : HasLines text lines) : wordsOfList text = lines.filterMap wordOfLine? := by
  have hCons (line : Text) (lines : List Text) :
      (line :: lines).filterMap wordOfLine? = (wordOfLine? line).toList ++ lines.filterMap wordOfLine? := by
    rw [List.filterMap_cons]
    cases wordOfLine? line <;> rfl
  induction h with
  | nil => rfl
  | last hNe hFree => rw [wordsOfList_of_free hFree, hCons, List.filterMap_nil, List.append_nil]
  | lf line hFree hEnd h ih => rw [wordsOfList_append_cons, wordsOfList_of_free hFree, ih, hCons]
  | crlf line hFree h ih =>
    have hReturn : '\n' ∉ line ++ ['\r'] := by simpa using hFree
    rw [List.append_cons, wordsOfList_append_cons, wordsOfList_of_free hReturn, wordOfLine?_append_white (by decide), ih,
      hCons]

/-- What a set contains decides how many words it has. -/
theorem holdsExactly_of_contains {set : WordSet} {P : Text → Prop}
    (h : ∀ word, set.contains word = true ↔ P word) : set.HoldsExactly P := by
  refine ⟨h, ⟨set.words.toList.map String.toList, ?_, ?_, ?_⟩, ?_⟩
  · have hDistinct : set.words.toList.Nodup := set.words.distinct_toList.imp fun hne => beq_eq_false_iff_ne.1 hne
    exact List.Pairwise.map String.toList (fun a b hne hab => hne (String.toList_inj.1 hab)) hDistinct
  · intro word
    rw [← h word, contains, ← Std.HashSet.contains_toList, List.contains_iff_mem, List.mem_map]
    constructor
    · rintro ⟨w, hw, rfl⟩
      rwa [String.ofList_toList]
    · intro hMem
      exact ⟨String.ofList word, hMem, String.toList_ofList⟩
  · rw [List.length_map, Std.HashSet.length_toList, size]
  · rw [isEmpty, Std.HashSet.isEmpty_iff_forall_contains]
    constructor
    · intro hNone word hWord
      have hContains := (h word).2 hWord
      rw [contains, hNone] at hContains
      cases hContains
    · intro hNone w
      rw [← Bool.not_eq_true, ← String.ofList_toList (s := w)]
      exact fun hContains => hNone _ ((h w.toList).1 hContains)

theorem holdsExactly_ofWordList (h : HasLines text lines) : (ofWordList text).HoldsExactly (NamesWord lines) := by
  apply holdsExactly_of_contains
  intro word
  rw [ofWordList, contains_ofList, wordsOfList_eq h, List.contains_iff_mem, mem_filterMap_wordOfLine?]

theorem contains_ofWordList_append (text rest word : Text) :
    (ofWordList (text ++ '\n' :: rest)).contains word =
      ((ofWordList text).contains word || (ofWordList rest).contains word) := by
  simp only [ofWordList, contains_ofList, wordsOfList_append_cons, List.contains_append]

end WordSet

namespace Alike

theorem cons (line : Text) (h : Alike lines lines') : Alike (line :: lines) (line :: lines') := by
  -- A step at the first line is made behind one further line, with the two in the other order before and after.
  have hSwap (line line' : Text) (lines : List Text) : Alike (line :: line' :: lines) (line' :: line :: lines) :=
    .order (.swap line' line lines)
  induction h with
  | order h => exact .order (h.cons line)
  | again h => exact (hSwap _ _ _).trans (.again (List.mem_cons_of_mem line h))
  | space lines h h' => exact (hSwap _ _ _).trans ((Alike.space _ h h').trans (hSwap _ _ _))
  | blank lines h => exact (hSwap _ _ _).trans (.blank _ h)
  | comment lines h => exact (hSwap _ _ _).trans (.comment _ h)
  | symm h ih => exact ih.symm
  | trans h h' ih ih' => exact ih.trans ih'

theorem words (lines : List Text) : Alike lines (lines.filterMap WordSet.wordOfLine?) := by
  induction lines with
  | nil => exact .order (.refl [])
  | cons line lines ih =>
    cases hWord : WordSet.wordOfLine? line with
    | none =>
      rw [List.filterMap_cons_none hWord]
      obtain hBlank | ⟨rest, hComment⟩ := wordOfLine?_eq_none_iff.1 hWord
      · exact (Alike.blank lines hBlank).trans ih
      · exact (Alike.comment lines hComment).trans ih
    | some word =>
      rw [List.filterMap_cons_some hWord]
      have hLine := (wordOfLine?_eq_some_iff.1 hWord).2.2
      have hWhole : IsTrimmed word word := by
        obtain ⟨front, back, -, -, -, hEnds⟩ := hLine
        exact ⟨[], [], by simp, by simp, by simp, hEnds⟩
      exact (Alike.space lines hLine hWhole).trans (ih.cons word)

theorem of_subset (h : lines ⊆ lines') : Alike (lines ++ lines') lines' := by
  induction lines with
  | nil => exact .order (.refl lines')
  | cons line lines ih =>
    obtain ⟨hLine, hLines⟩ := List.cons_subset.1 h
    exact (Alike.again (List.mem_append_right lines hLine)).trans (ih hLines)

theorem namesWord_iff (h : Alike lines lines') (word : Text) : NamesWord lines word ↔ NamesWord lines' word := by
  induction h with
  | order h => simp only [NamesWord, h.mem_iff]
  | again h =>
    refine namesWord_cons.trans (or_iff_right_of_imp ?_)
    intro hWord
    exact mem_filterMap_wordOfLine?.1 (List.mem_filterMap.2 ⟨_, h, hWord⟩)
  | space lines h h' => rw [namesWord_cons, wordOfLine?_congr h h', namesWord_cons]
  | blank lines h =>
    rw [namesWord_cons, wordOfLine?_eq_none_iff.2 (Or.inl h)]
    exact or_iff_right_of_imp nofun
  | comment lines h =>
    rw [namesWord_cons, wordOfLine?_eq_none_iff.2 (Or.inr ⟨_, h⟩)]
    exact or_iff_right_of_imp nofun
  | symm h ih => exact ih.symm
  | trans h h' ih ih' => exact ih.trans ih'

end Alike

/-- Two lists of lines name the same words just when these steps lead from one to the other. -/
theorem alike_iff : Alike lines lines' ↔ ∀ word, NamesWord lines word ↔ NamesWord lines' word := by
  constructor
  · exact Alike.namesWord_iff
  · intro h
    have hMem (word : Text) :
        word ∈ lines.filterMap WordSet.wordOfLine? ↔ word ∈ lines'.filterMap WordSet.wordOfLine? := by
      rw [mem_filterMap_wordOfLine?, mem_filterMap_wordOfLine?, h]
    have hLeft := Alike.of_subset fun word => (hMem word).1
    have hRight := Alike.of_subset fun word => (hMem word).2
    have hBoth := hRight.symm.trans ((Alike.order List.perm_append_comm).trans hLeft)
    exact (Alike.words lines).trans (hBoth.trans (Alike.words lines').symm)

theorem engine_ofWordList_of_alike {text' : Text} (h : HasLines text lines) (h' : HasLines text' lines')
    (hAlike : Alike lines lines') : (WordSet.ofWordList text).engine = (WordSet.ofWordList text').engine := by
  have hContains (token : Text) : (WordSet.ofWordList text).contains token = (WordSet.ofWordList text').contains token := by
    rw [Bool.eq_iff_iff, (WordSet.holdsExactly_ofWordList h).contains_iff, hAlike.namesWord_iff,
      (WordSet.holdsExactly_ofWordList h').contains_iff]
  unfold WordSet.engine
  simp only [hContains]

/-- A word list is the set of the words that its lines name: two lists one after another make the union of their
sets, and two lists that differ only in what `Alike` allows transform every document in the same way. -/
theorem word_list_is_set_of_lines :
    (∀ text, ∃! lines, HasLines text lines) ∧
      (∀ text lines, HasLines text lines → (WordSet.ofWordList text).HoldsExactly (NamesWord lines)) ∧
      (∀ text text' word, (WordSet.ofWordList (text ++ '\n' :: text')).contains word =
        ((WordSet.ofWordList text).contains word || (WordSet.ofWordList text').contains word)) ∧
      (∀ lines lines', Alike lines lines' ↔ ∀ word, NamesWord lines word ↔ NamesWord lines' word) ∧
      ∀ text lines text' lines', HasLines text lines → HasLines text' lines' → Alike lines lines' → ∀ o source,
        transform (WordSet.ofWordList text).engine o source = transform (WordSet.ofWordList text').engine o source := by
  refine ⟨?_, ?_, WordSet.contains_ofWordList_append, ?_, ?_⟩
  · intro text
    obtain ⟨lines, h⟩ := exists_hasLines text
    exact ⟨lines, h, fun lines' h' => h'.unique h⟩
  · intro text lines h
    exact WordSet.holdsExactly_ofWordList h
  · intro lines lines'
    exact alike_iff
  · intro text lines text' lines' h h' hAlike o source
    rw [engine_ofWordList_of_alike h h' hAlike]

/-- A comment and a blank line go, one word is repeated, the words change places, and so do the line ends. -/
theorem word_list_is_set_of_lines_two_files :
    HasLines "# utilities\nmt-2\n\n  text-red  \n".toList
        ["# utilities".toList, "mt-2".toList, [], "  text-red  ".toList] ∧
      HasLines "\ttext-red\r\nmt-2\r\n mt-2".toList ["\ttext-red".toList, "mt-2".toList, " mt-2".toList] ∧
      Alike ["# utilities".toList, "mt-2".toList, [], "  text-red  ".toList]
        ["\ttext-red".toList, "mt-2".toList, " mt-2".toList] ∧
      transform (WordSet.ofWordList "# utilities\nmt-2\n\n  text-red  \n".toList).engine {} "<p mt=2>".toList =
        transform (WordSet.ofWordList "\ttext-red\r\nmt-2\r\n mt-2".toList).engine {} "<p mt=2>".toList := by
  have hFirst : HasLines "# utilities\nmt-2\n\n  text-red  \n".toList
      ["# utilities".toList, "mt-2".toList, [], "  text-red  ".toList] :=
    .lf "# utilities".toList (by decide) (by decide) <|
      .lf "mt-2".toList (by decide) (by decide) <|
        .lf [] (by decide) (by decide) <|
          .lf "  text-red  ".toList (by decide) (by decide) .nil
  have hSecond : HasLines "\ttext-red\r\nmt-2\r\n mt-2".toList
      ["\ttext-red".toList, "mt-2".toList, " mt-2".toList] :=
    .crlf "\ttext-red".toList (by decide) <|
      .crlf "mt-2".toList (by decide) (.last (by decide) (by decide))
  have hAlike : Alike ["# utilities".toList, "mt-2".toList, [], "  text-red  ".toList]
      ["\ttext-red".toList, "mt-2".toList, " mt-2".toList] := by
    have hRed : IsTrimmed "  text-red  ".toList "text-red".toList := isTrimmed_iff.2 (by decide)
    have hRedTab : IsTrimmed "\ttext-red".toList "text-red".toList := isTrimmed_iff.2 (by decide)
    have hTop : IsTrimmed "mt-2".toList "mt-2".toList := isTrimmed_iff.2 (by decide)
    have hTopSpace : IsTrimmed " mt-2".toList "mt-2".toList := isTrimmed_iff.2 (by decide)
    have hComment : IsTrimmed "# utilities".toList ('#' :: " utilities".toList) := isTrimmed_iff.2 (by decide)
    have hRest : Alike [[], "  text-red  ".toList] ["\ttext-red".toList] :=
      (Alike.blank _ (List.forall_mem_nil _)).trans (.space [] hRed hRedTab)
    have hAgain : Alike ["mt-2".toList, "\ttext-red".toList] [" mt-2".toList, "mt-2".toList, "\ttext-red".toList] :=
      (Alike.again List.mem_cons_self).symm.trans (.space _ hTop hTopSpace)
    exact (Alike.comment _ hComment).trans ((hRest.cons _).trans (hAgain.trans (.order (List.reverse_perm _).symm)))
  refine ⟨hFirst, hSecond, hAlike, ?_⟩
  exact word_list_is_set_of_lines.2.2.2.2 _ _ _ _ hFirst hSecond hAlike {} "<p mt=2>".toList

end ClassFold

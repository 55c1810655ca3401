import ClassFold.Proofs.Edit.Script
import ClassFold.Proofs.Engine.Tokens
import ClassFold.Proofs.Rewriting.Trimmed

/-!
# A new class attribute read back

A tag with tokens and without a class list gets a new `class` attribute. Its text is read as one tag again,
and the attributes that are read are the old ones and the new one exactly if the region has no open end:
`entry?_new_class`.
-/

set_option autoImplicit false

namespace ClassFold

open TagEnd (IsFiller Passes)

/-- The value of the new attribute. -/
def Quoted.ofTokens (tokens : List Text) : Quoted := ⟨['='], '\x22', Tag.joinTokens tokens, []⟩

/-- A region in which the new attribute has been put. -/
def withClass (tokens : List Text) (x tail : Text) : Text :=
  x ++ (" class=\x22".toList ++ Tag.joinTokens tokens ++ ['\x22'] ++ tail)

section

variable {x tail : Text} {tokens : List Text}

theorem Quoted.wellFormed_ofTokens (hTokens : ∀ t ∈ tokens, IsToken t) : (ofTokens tokens).WellFormed where
  straight := (by decide : isStraightQuote '\x22' = true)
  free := not_mem_joinTokens hTokens (by decide : isQuote '\x22' = true)
  braces := ⟨['='], ⟨[], [], rfl, List.forall_mem_nil _, List.forall_mem_nil _⟩, Or.inl ⟨rfl, rfl⟩⟩

theorem pieces_withClass_nil (hTokens : ∀ t ∈ tokens, IsToken t) (hTail : IsFiller tail) :
    pieces (withClass tokens [] tail) =
      .blanks [' '] :: .valued "class".toList (.ofTokens tokens) :: pieces tail := by
  have hBlank : (Piece.blanks [' ']).WellFormed :=
    ⟨List.cons_ne_nil _ _, List.forall_mem_singleton.2 (by decide)⟩
  have hClass : (Piece.valued "class".toList (.ofTokens tokens)).WellFormed :=
    ⟨isName_class, Quoted.wellFormed_ofTokens hTokens⟩
  have hFirst : (Piece.blanks [' ']).ReadsBefore ((Piece.valued "class".toList (.ofTokens tokens)).text ++ tail) := by
    apply hBlank.readsBefore
    rintro d ⟨⟩
    decide
  have hSecond : (Piece.valued "class".toList (.ofTokens tokens)).ReadsBefore tail := by
    apply hClass.readsBefore
    intro hHead
    rcases hTail '}' (List.mem_of_mem_head? hHead) with hBrace | hBrace
    · exact absurd hBrace (by decide)
    · exact absurd hBrace (by decide)
  have hText : withClass tokens [] tail =
      (Piece.blanks [' ']).text ++ ((Piece.valued "class".toList (.ofTokens tokens)).text ++ tail) := by
    simp [withClass, Piece.text, Quoted.text, Quoted.ofTokens]
  rw [hText, hFirst.pieces_append, hSecond.pieces_append]

/-- Behind a region without an open end the new attribute is read last, and nothing else changes. -/
theorem records_withClass (h : Trimmed x tail) (hOrdinary : ∀ p ∈ pieces (x ++ tail), p.isOrdinary = true)
    (hOpen : endsOpen (x ++ tail) = false) (hTokens : ∀ t ∈ tokens, IsToken t) :
    records (withClass tokens x tail) =
        records (x ++ tail) ++ [("class".toList, some (.ofTokens tokens))] ∧
      sealedTexts (withClass tokens x tail) = sealedTexts (x ++ tail) := by
  obtain ⟨qs, hPieces, hParts, hSealed⟩ := exists_pieces_append (c := 'c')
    (s := "lass=\x22".toList ++ Tag.joinTokens tokens ++ ['\x22'] ++ tail) rfl h hOrdinary hOpen (by decide)
  have hNew : pieces (withClass tokens x tail) = qs ++ pieces (withClass tokens [] tail) := hPieces
  have hNone := fun p hp => eq_none_of_mem_filler (p := p) h.isFiller hp
  have hTailParts : (pieces tail).filterMap Piece.parts? = [] :=
    List.filterMap_eq_nil_iff.2 fun p hp => (hNone p hp).1
  have hTailSealed : (pieces tail).filterMap Piece.sealedText? = [] :=
    List.filterMap_eq_nil_iff.2 fun p hp => (hNone p hp).2.1
  have hClass : (Piece.valued "class".toList (.ofTokens tokens)).parts? =
      some ("class".toList, some (.ofTokens tokens)) := rfl
  rw [pieces_withClass_nil hTokens h.isFiller] at hNew
  constructor
  · rw [records_eq, records_eq, hNew, List.filterMap_append, hParts]
    rw [List.filterMap_cons_none rfl, List.filterMap_cons_some hClass, hTailParts]
  · rw [sealedTexts, sealedTexts, hNew, List.filterMap_append, hSealed]
    rw [List.filterMap_cons_none rfl, List.filterMap_cons_none rfl, hTailSealed, List.append_nil]

/-- Whatever the tokens are, the string around them hides them from the reader of the tag. -/
theorem cut?_withClass (hTokens : ∀ t ∈ tokens, IsToken t) (hTail : IsFiller tail)
    (h : TagEnd.cut? (x ++ tail ++ ['>']) = some (x ++ tail, [])) :
    TagEnd.cut? (withClass tokens x tail ++ ['>']) = some (withClass tokens x tail, []) := by
  obtain ⟨last, hFront⟩ := TagEnd.exists_passes_of_cut? hTail h
  obtain ⟨before, hName⟩ := Passes.plain (s := " class".toList) last (by simp [isQuote])
  have hString : Passes ⟨none, 0, '='⟩ ⟨none, 0, '\x22'⟩ ('\x22' :: (Tag.joinTokens tokens ++ ['\x22'])) :=
    Passes.string (by decide) rfl (not_mem_joinTokens hTokens (by decide))
  have hSign : Passes ⟨none, 0, before⟩ ⟨none, 0, '\x22'⟩ ('=' :: '\x22' :: (Tag.joinTokens tokens ++ ['\x22'])) :=
    Passes.cons rfl hString
  obtain ⟨behind, hRest⟩ := Passes.filler hTail '\x22'
  have hAll := hFront.append ((hName.append hSign).append hRest)
  have hText : withClass tokens x tail =
      x ++ (" class".toList ++ '=' :: '\x22' :: (Tag.joinTokens tokens ++ ['\x22']) ++ tail) := by
    simp [withClass]
  rw [hText]
  exact TagEnd.cut?_of_passes hAll []

end

namespace Tag

theorem edited_new_class (t : Tag) (tokens : List Text) {x tail : Text} (hAttrs : t.attrs = x ++ tail)
    (hTrim : trimRegion t.attrs = x) :
    t.edited { tokens := tokens } = .ok (Tag.mk t.name t.gap (withClass tokens x tail)).text := by
  have hScript := Edit.applyFrom_edits 0
    [.kept (t.head ++ x), .replaced [] (" class=\x22".toList ++ joinTokens tokens ++ ['\x22']), .kept (tail ++ ['>'])]
  have hEdits : (t.edits { tokens := tokens }).mergeSort Edit.standsBefore =
      Script.edits 0 [.kept (t.head ++ x), .replaced [] (" class=\x22".toList ++ joinTokens tokens ++ ['\x22']),
        .kept (tail ++ ['>'])] := by
    simp [edits, classEdit, insertionPoint, hTrim, Script.edits, attrsOffset]
  have hText : t.text = Script.before [.kept (t.head ++ x),
      .replaced [] (" class=\x22".toList ++ joinTokens tokens ++ ['\x22']), .kept (tail ++ ['>'])] := by
    simp [text, hAttrs, Chunk.before]
  rw [edited, hEdits, hText, hScript]
  simp [text, head, withClass, Chunk.after]

end Tag

/-- Tokens put into an element without a class list: the text is one element again with the same name, and
its region is read as before with the new attribute at its end, if and only if the region has no open end. -/
theorem entry?_new_class {source : Text} {e : Element} (he : e ∈ elements source)
    (hClosed : TagEnd.cut? (e.attrs ++ ['>']) = some (e.attrs, []))
    (hOrdinary : ∀ p ∈ pieces e.attrs, p.isOrdinary = true) {tokens : List Text} (hNe : tokens ≠ [])
    (hTokens : ∀ t ∈ tokens, IsToken t) :
    ∃ t : Tag, e.entry? { tokens := tokens } = .ok (some ⟨e.span, t.text⟩) ∧ t.name = e.name ∧
      elements t.text = [⟨t, 0⟩] ∧
      ((records t.attrs = records e.attrs ++ [("class".toList, some (.ofTokens tokens))] ∧
        sealedTexts t.attrs = sealedTexts e.attrs) ↔ endsOpen e.attrs = false) := by
  obtain ⟨tail, hAttrs, hTrimmed⟩ := exists_trimmed e.attrs
  have hRecords (hOrdinary : ∀ p ∈ pieces (trimRegion e.attrs ++ tail), p.isOrdinary = true)
      (hOpen : endsOpen (trimRegion e.attrs ++ tail) = false) :
      records (withClass tokens (trimRegion e.attrs) tail) =
          records (trimRegion e.attrs ++ tail) ++ [("class".toList, some (.ofTokens tokens))] ∧
        sealedTexts (withClass tokens (trimRegion e.attrs) tail) = sealedTexts (trimRegion e.attrs ++ tail) :=
    records_withClass hTrimmed hOrdinary hOpen hTokens
  have hSealed (hOpen : endsOpen (trimRegion e.attrs ++ tail) = true) :
      sealedTexts (withClass tokens (trimRegion e.attrs) tail) ≠ sealedTexts (trimRegion e.attrs ++ tail) :=
    sealedTexts_append_ne (c := 'c') hTrimmed (hAttrs ▸ hOrdinary) hOpen (by decide) (by decide)
  rw [← hAttrs] at hRecords hSealed
  have hHead := headSound_of_mem_elements he
  have hCut := cut?_withClass (x := trimRegion e.attrs) hTokens hTrimmed.isFiller (by rw [← hAttrs]; exact hClosed)
  refine ⟨⟨e.name, e.gap, withClass tokens (trimRegion e.attrs) tail⟩, ?_, rfl, ?_, ?_⟩
  · have hEdited := e.toTag.edited_new_class tokens hAttrs rfl
    have hSome : tokens.isEmpty = false := by simpa using hNe
    rw [Element.entry?, if_neg (by simp [hSome]), hEdited]
    rfl
  · exact Tag.HeadSound.elements_text ⟨hHead.name, hHead.gap⟩ (TagEnd.region?_eq_some_iff.2 (Or.inl hCut))
  · constructor
    · rintro ⟨-, hSame⟩
      rw [← Bool.not_eq_true]
      exact fun hOpen => hSealed hOpen hSame
    · exact fun hOpen => hRecords hOrdinary hOpen

/-- All kinds of attributes in front of a slash that closes the tag. -/
def selfClosing : Element := ⟨⟨['a'], ' ', "b c=\x7bd>1\x7d e=f g=\x22h\x22 /".toList⟩, 0⟩

/-- Outside a string the reader of the tag would stumble over these tokens. -/
theorem entry?_new_class_self_closing :
    selfClosing ∈ elements selfClosing.text ∧
      TagEnd.cut? (selfClosing.attrs ++ ['>']) = some (selfClosing.attrs, []) ∧
      (∀ p ∈ pieces selfClosing.attrs, p.isOrdinary = true) ∧
      ∃ t : Tag, selfClosing.entry? { tokens := ["m>1".toList, "p-\x7b".toList] } =
          .ok (some ⟨selfClosing.span, t.text⟩) ∧
        t.name = selfClosing.name ∧ elements t.text = [⟨t, 0⟩] ∧
        ((records t.attrs = records selfClosing.attrs ++
            [("class".toList, some (.ofTokens ["m>1".toList, "p-\x7b".toList]))] ∧
          sealedTexts t.attrs = sealedTexts selfClosing.attrs) ↔ endsOpen selfClosing.attrs = false) := by
  have hMem : selfClosing ∈ elements selfClosing.text := by decide +kernel
  have hClosed : TagEnd.cut? (selfClosing.attrs ++ ['>']) = some (selfClosing.attrs, []) := by decide +kernel
  have hOrdinary : ∀ p ∈ pieces selfClosing.attrs, p.isOrdinary = true := by decide +kernel
  have hTokens : ∀ t ∈ ["m>1".toList, "p-\x7b".toList], IsToken t := by decide
  exact ⟨hMem, hClosed, hOrdinary, entry?_new_class hMem hClosed hOrdinary (List.cons_ne_nil _ _) hTokens⟩

example : endsOpen selfClosing.attrs = false := by decide +kernel

/-- A bare value that ends in a slash. -/
def bareValue : Element := ⟨⟨['a'], ' ', "href=/x/".toList⟩, 0⟩

/-- The value loses its slash, although the quotes and braces of the tag are in order. -/
theorem entry?_new_class_bare_value :
    bareValue ∈ elements "<a href=/x/>".toList ∧
      TagEnd.cut? (bareValue.attrs ++ ['>']) = some (bareValue.attrs, []) ∧
      (∀ p ∈ pieces bareValue.attrs, p.isOrdinary = true) ∧ IsToken ['t'] ∧
      bareValue.entry? { tokens := [['t']] } =
        .ok (some ⟨bareValue.span, (Tag.mk ['a'] ' ' "href=/x class=\x22t\x22/".toList).text⟩) ∧
      sealedTexts bareValue.attrs = ["href=/x/".toList] ∧
      sealedTexts "href=/x class=\x22t\x22/".toList = ["href=/x".toList] := by
  decide +kernel

end ClassFold

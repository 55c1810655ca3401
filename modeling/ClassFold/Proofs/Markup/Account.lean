import ClassFold.Proofs.Bytes.Attributes
import ClassFold.Proofs.Markup.Cutting

/-!
# What the pieces of a region are

Each piece of a region fits where it stands, `accounts_pieces`, and there is no other cut of which the pieces
fit, `accounts_iff`. That a run has no character of a name before it needs that no piece ends within a run,
which is carried along the cut as `Seam`.
-/

set_option autoImplicit false

namespace ClassFold

theorem isNameChar_eq_false_of_isQuote {q : Char} (hQuote : isQuote q = true) : isNameChar q = false := by
  rw [← Bool.not_eq_true, isNameChar_eq_true_iff]
  rintro ⟨-, hNot, -⟩
  rw [hQuote] at hNot
  cases hNot

theorem Quoted.Sound.exists_text_eq_concat {q : Quoted} (h : q.Sound) :
    ∃ front c, q.text = front ++ [c] ∧ isNameChar c = false := by
  obtain hTail | hTail := h.tail
  · refine ⟨q.lead ++ q.quote :: q.value, q.quote, by simp [Quoted.text, hTail], ?_⟩
    exact isNameChar_eq_false_of_isQuote (isQuote_of_isStraightQuote h.straight)
  · exact ⟨q.lead ++ q.quote :: (q.value ++ [q.quote]), '}', by simp [Quoted.text, hTail], by decide⟩

theorem IsValue.seam {v rest : Text} (h : IsValue v rest) (before : Text) : Seam (before ++ v) rest := by
  cases h with
  | empty | openBinding | openString => exact .nil _
  | @binding e rest hInside =>
    rw [← List.cons_append, ← List.append_assoc]
    exact .concat (by decide) _ _
  | @string q v rest hQuote hFree =>
    rw [← List.cons_append, ← List.append_assoc]
    exact .concat (isNameChar_eq_false_of_isQuote hQuote) _ _
  | bare hOpen hQuote hSolid hRest => exact Or.inr fun d hd => isNameChar_eq_false_of_isBlank (hRest d hd)

namespace Piece

variable {before rest : Text} {p : Piece}

theorem Fits.ne_nil (h : p.Fits before rest) : p.text ≠ [] := by
  cases p with
  | blanks run => exact h.1
  | stray c => exact List.cons_ne_nil _ _
  | string t =>
    obtain ⟨q, v, -, -, hText | ⟨hText, -⟩⟩ := h
    · rw [text, hText]
      exact List.cons_ne_nil _ _
    · rw [text, hText]
      exact List.cons_ne_nil _ _
  | dropped run => exact h.1.ne_nil
  | flag name slashes => exact h.2.2.1.ne_nil
  | valued name value => exact List.append_ne_nil_of_left_ne_nil h.1.ne_nil _
  | sealed name lead value =>
    rw [text, List.append_assoc]
    exact List.append_ne_nil_of_left_ne_nil h.1.ne_nil _

/-- No run goes on behind a piece. -/
theorem Fits.seam (h : p.Fits before rest) : Seam (before ++ p.text) rest := by
  cases p with
  | blanks run =>
    obtain ⟨front, c, hRun⟩ : ∃ front c, run = front ++ [c] :=
      ⟨_, _, (List.dropLast_concat_getLast h.1).symm⟩
    rw [text, hRun, ← List.append_assoc]
    refine .concat (isNameChar_eq_false_of_isBlank (h.2.1 c ?_)) _ _
    rw [hRun]
    exact List.mem_append_right _ List.mem_cons_self
  | stray c =>
    refine .concat ?_ _ _
    obtain rfl | rfl | rfl := h <;> decide
  | string t =>
    obtain ⟨q, v, hQuote, -, rfl | ⟨-, rfl⟩⟩ := h
    · rw [text, ← List.cons_append, ← List.append_assoc]
      exact .concat (isNameChar_eq_false_of_isQuote hQuote) _ _
    · exact .nil _
  | dropped run => exact Or.inr h.1.right
  | flag name slashes => exact Or.inr h.2.2.1.right
  | valued name value =>
    obtain ⟨front, c, hText, hc⟩ := h.2.1.sound.exists_text_eq_concat
    rw [text, hText, ← List.append_assoc, ← List.append_assoc]
    exact .concat hc _ _
  | sealed name lead value =>
    rw [text, ← List.append_assoc]
    exact h.2.2.1.seam _

/-- The pieces of a region fit where they stand. -/
theorem fits_pieces {region : Text} (hSeam : Seam before region) :
    ∀ front p back, pieces region = front ++ p :: back →
      p.Fits (before ++ front.flatMap text) (back.flatMap text) := by
  fun_induction pieces region generalizing before with
  | case1 =>
    intro front p back hPieces
    simp at hPieces
  | case2 c s ih =>
    have hFirst := fits_read hSeam
    intro front p back hPieces
    cases front with
    | nil =>
      obtain ⟨rfl, rfl⟩ := List.cons.inj hPieces
      rw [List.flatMap_nil, List.append_nil, flatMap_text_pieces]
      exact hFirst
    | cons q front =>
      obtain ⟨rfl, hBehind⟩ := List.cons.inj hPieces
      rw [List.flatMap_cons, ← List.append_assoc]
      exact ih hFirst.seam front p back hBehind

end Piece

/-- A cut of the region into pieces that leaves nothing out. -/
structure Accounts (region : Text) (ps : List Piece) : Prop where
  whole : ps.flatMap Piece.text = region
  ne_nil : ∀ p ∈ ps, p.text ≠ []
  fits : ∀ front p back, ps = front ++ p :: back → p.Fits (front.flatMap Piece.text) (back.flatMap Piece.text)

theorem accounts_pieces (region : Text) : Accounts region (pieces region) := by
  have hFits := Piece.fits_pieces (Seam.start region)
  refine ⟨flatMap_text_pieces region, ?_, hFits⟩
  intro p hp
  obtain ⟨front, back, hPieces⟩ := List.append_of_mem hp
  exact (hFits front p back hPieces).ne_nil

/-- Pieces that are each read where they stand are the pieces of their text. -/
theorem pieces_flatMap_text {ps : List Piece}
    (h : ∀ front p back, ps = front ++ p :: back → p.ReadsBefore (back.flatMap Piece.text)) :
    pieces (ps.flatMap Piece.text) = ps := by
  induction ps with
  | nil => rw [List.flatMap_nil, pieces]
  | cons p ps ih =>
    have hRest : pieces (ps.flatMap Piece.text) = ps := by
      apply ih
      rintro front q back rfl
      exact h (p :: front) q back rfl
    rw [List.flatMap_cons, (h [] p ps rfl).pieces_append, hRest]

/-- A region has one cut, that of its pieces. -/
theorem accounts_iff {region : Text} {ps : List Piece} : Accounts region ps ↔ ps = pieces region := by
  constructor
  · intro h
    have hReads := pieces_flatMap_text fun front p back hCut => (h.fits front p back hCut).readsBefore
    rw [← hReads, h.whole]
  · rintro rfl
    exact accounts_pieces region

/-- An attribute of a list of pieces is that of a piece, at the offset where the piece stands. -/
theorem mem_attributesFrom_iff {offset : Nat} {ps : List Piece} {a : Attribute} :
    a ∈ attributesFrom offset ps ↔
      ∃ front p back, ps = front ++ p :: back ∧
        p.attribute? (offset + Text.size (front.flatMap Piece.text)) = some a := by
  induction ps generalizing offset with
  | nil => simp [attributesFrom]
  | cons q ps ih =>
    rw [attributesFrom, List.mem_append, Option.mem_toList, ih]
    constructor
    · rintro (hFirst | ⟨front, p, back, rfl, hPiece⟩)
      · exact ⟨[], q, ps, rfl, hFirst⟩
      · refine ⟨q :: front, p, back, rfl, ?_⟩
        rwa [List.flatMap_cons, Text.size_append, ← Nat.add_assoc]
    · rintro ⟨front, p, back, hPieces, hPiece⟩
      cases front with
      | nil =>
        obtain ⟨rfl, rfl⟩ := List.cons.inj hPieces
        exact Or.inl hPiece
      | cons q' front =>
        obtain ⟨rfl, rfl⟩ := List.cons.inj hPieces
        refine Or.inr ⟨front, p, back, rfl, ?_⟩
        rwa [List.flatMap_cons, Text.size_append, ← Nat.add_assoc] at hPiece

end ClassFold

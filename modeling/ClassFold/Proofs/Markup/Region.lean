import Mathlib.Data.List.TakeWhile
import ClassFold.Markup.Attribute
import ClassFold.Proofs.Text.Split

/-!
# Attributes in their region

What an attribute of a region looks like, and where it stands: its raw text is found at its span, the
spans follow one another, and no raw text ends with a blank or a slash. The last fact keeps an attribute
apart from the blank that is deleted with its successor and from the slash that closes a tag.
-/

set_option autoImplicit false

namespace ClassFold

/-- A run of name characters that makes a name. -/
structure IsName (name : Text) : Prop where
  ne_nil : name ≠ []
  chars : ∀ c ∈ name, isNameChar c = true
  last : name.getLast? ≠ some '/'
  accepted : isRefusedName name = false

instance (name : Text) : Decidable (IsName name) :=
  decidable_of_iff (name ≠ [] ∧ name.all isNameChar = true ∧ name.getLast? ≠ some '/' ∧ isRefusedName name = false)
    ⟨fun h => ⟨h.1, List.all_eq_true.1 h.2.1, h.2.2.1, h.2.2.2⟩,
      fun h => ⟨h.ne_nil, List.all_eq_true.2 h.chars, h.last, h.accepted⟩⟩

structure Quoted.Sound (q : Quoted) : Prop where
  straight : isStraightQuote q.quote = true
  free : q.quote ∉ q.value
  tail : q.tail = [] ∨ q.tail = ['}']

structure Attribute.Sound (a : Attribute) : Prop where
  name : IsName a.name
  quoted : ∀ q, a.quoted? = some q → q.Sound

theorem isNameChar_eq_true_iff {c : Char} :
    isNameChar c = true ↔ isBlank c = false ∧ isQuote c = false ∧ c ≠ '=' ∧ c ≠ '{' ∧ c ≠ '}' := by
  simp [isNameChar, and_assoc]

theorem eq_of_not_isNameChar {c : Char} (hBlank : isBlank c = false) (hQuote : isQuote c = false)
    (hName : isNameChar c = false) : c = '=' ∨ c = '{' ∨ c = '}' := by
  by_contra hNot
  simp only [not_or] at hNot
  rw [isNameChar_eq_true_iff.2 ⟨hBlank, hQuote, hNot⟩] at hName
  cases hName

theorem isRefusedName_cons {c : Char} (h : c ≠ '-') (s : Text) : isRefusedName (c :: s) = c.isDigit := by
  simp [isRefusedName, h]

theorem isRefusedName_dash (d : Char) (s : Text) :
    isRefusedName ('-' :: d :: s) = (d == '-' || d.isDigit) := by
  by_cases hd : d = '-'
  · rw [hd]
    rfl
  · simp [isRefusedName, hd]

theorem isName_splitSlashes {run : Text} (hChars : ∀ c ∈ run, isNameChar c = true)
    (hNe : (splitSlashes run).1 ≠ []) (hAccepted : isRefusedName (splitSlashes run).1 = false) :
    IsName (splitSlashes run).1 where
  ne_nil := hNe
  chars c hc := hChars c (by
    have hMem : c ∈ run.reverse := List.dropWhile_subset _ (List.mem_reverse.1 hc)
    exact List.mem_reverse.1 hMem)
  last h := by
    rw [splitSlashes, List.getLast?_reverse] at h
    have hNot := List.head?_dropWhile_not (· == '/') run.reverse
    rw [h] at hNot
    simp at hNot
  accepted := hAccepted

theorem sound_of_readQuoted? {lead s rest : Text} {q : Quoted}
    (h : readQuoted? lead s = some (q, rest)) : q.Sound := by
  unfold readQuoted? at h
  split at h
  · cases h
  · rename_i c r _
    split at h
    · rename_i hStraight
      split at h
      · cases h
      · rename_i after hDrop
        simp only [Option.some.injEq, Prod.mk.injEq] at h
        obtain ⟨rfl, -⟩ := h
        refine ⟨hStraight, ?_, ?_⟩
        · intro hMem
          simpa using List.mem_takeWhile_imp hMem
        · simp only [closeBrace]
          split
          · exact Or.inr rfl
          · exact Or.inl rfl
    · cases h

namespace Piece

def Sound (p : Piece) : Prop := ∀ offset a, p.attribute? offset = some a → a.Sound

theorem sound_ofName {name : Text} (hName : IsName name) (rest : Text) : (ofName name rest).1.Sound := by
  have hFlag : (flag name []).Sound := by
    rintro offset a h
    cases h
    exact ⟨hName, by simp⟩
  unfold ofName
  split
  · dsimp only
    split
    · split
      · rename_i value after hRead
        rintro offset a h
        cases h
        refine ⟨hName, ?_⟩
        rintro q hq
        cases hq
        exact sound_of_readQuoted? hRead
      · exact hFlag
    · rintro offset a h
      cases h
  · exact hFlag

theorem sound_read (c : Char) (s : Text) : (read c s).1.Sound := by
  unfold read
  split
  · rintro offset a h
    cases h
  · split
    · rintro offset a h
      cases h
    · split
      · rename_i hc
        have hChars : ∀ d ∈ c :: s.takeWhile isNameChar, isNameChar d = true := by
          intro d hd
          rcases List.mem_cons.1 hd with rfl | hd
          · exact hc
          · exact List.mem_takeWhile_imp hd
        dsimp only
        split
        · rintro offset a h
          cases h
        · rename_i hRefused
          simp only [Bool.or_eq_true, List.isEmpty_iff, not_or, Bool.not_eq_true] at hRefused
          have hName := isName_splitSlashes hChars hRefused.1 hRefused.2
          split
          · exact sound_ofName hName _
          · rintro offset a h
            cases h
            exact ⟨hName, by simp⟩
      · rintro offset a h
        cases h

theorem sound_of_mem_pieces {region : Text} {p : Piece} (h : p ∈ pieces region) : p.Sound := by
  fun_induction pieces region with
  | case1 => cases h
  | case2 c s ih =>
    rcases List.mem_cons.1 h with rfl | h
    · exact sound_read c s
    · exact ih h

theorem exists_text_eq_raw_append {offset : Nat} {p : Piece} {a : Attribute}
    (h : p.attribute? offset = some a) : a.start = offset ∧ ∃ post, p.text = a.raw ++ post := by
  cases p with
  | flag name slashes =>
    cases h
    exact ⟨rfl, slashes, by simp [text, Attribute.raw]⟩
  | valued name quoted =>
    cases h
    exact ⟨rfl, [], by simp [text, Attribute.raw]⟩
  | blanks _ | stray _ | string _ | dropped _ | sealed _ _ _ => cases h

end Piece

theorem le_start_of_mem_attributesFrom {offset : Nat} {ps : List Piece} {a : Attribute}
    (h : a ∈ attributesFrom offset ps) : offset ≤ a.start := by
  induction ps generalizing offset with
  | nil => cases h
  | cons p ps ih =>
    rcases List.mem_append.1 h with h | h
    · exact Nat.le_of_eq (Piece.exists_text_eq_raw_append (Option.mem_toList.1 h)).1.symm
    · exact Nat.le_trans (Nat.le_add_right _ _) (ih h)

theorem exists_of_mem_attributesFrom {offset : Nat} {ps : List Piece} {a : Attribute}
    (h : a ∈ attributesFrom offset ps) :
    ∃ pre post : Text, ps.flatMap Piece.text = pre ++ (a.raw ++ post) ∧ a.start = offset + pre.size := by
  induction ps generalizing offset with
  | nil => cases h
  | cons p ps ih =>
    rcases List.mem_append.1 h with h | h
    · obtain ⟨hStart, post, hText⟩ := Piece.exists_text_eq_raw_append (Option.mem_toList.1 h)
      exact ⟨[], post ++ ps.flatMap Piece.text, by simp [hText], by simp [hStart]⟩
    · obtain ⟨pre, post, hText, hStart⟩ := ih h
      refine ⟨p.text ++ pre, post, by simp [hText], ?_⟩
      rw [hStart, Text.size_append, Nat.add_assoc]

theorem pairwise_attributesFrom (offset : Nat) (ps : List Piece) :
    (attributesFrom offset ps).Pairwise fun a b => a.span.stop ≤ b.span.start := by
  induction ps generalizing offset with
  | nil => exact List.Pairwise.nil
  | cons p ps ih =>
    rw [attributesFrom, List.pairwise_append]
    refine ⟨?_, ih _, ?_⟩
    · cases p.attribute? offset <;> simp
    · intro a ha b hb
      obtain ⟨hStart, post, hText⟩ := Piece.exists_text_eq_raw_append (Option.mem_toList.1 ha)
      have hNext := le_start_of_mem_attributesFrom hb
      rw [hText, Text.size_append] at hNext
      simp only [Attribute.span, hStart]
      omega

theorem exists_piece_of_mem_attributesFrom {offset : Nat} {ps : List Piece} {a : Attribute}
    (h : a ∈ attributesFrom offset ps) : ∃ p ∈ ps, ∃ n, p.attribute? n = some a := by
  induction ps generalizing offset with
  | nil => cases h
  | cons p ps ih =>
    rcases List.mem_append.1 h with h | h
    · exact ⟨p, List.mem_cons_self, offset, Option.mem_toList.1 h⟩
    · obtain ⟨p', hp', h'⟩ := ih h
      exact ⟨p', List.mem_cons_of_mem _ hp', h'⟩

/-- Blanks make a piece of their own, which records nothing. -/
theorem attributesFrom_pieces (offset : Nat) (r : Text) :
    attributesFrom offset (pieces r) =
      attributesFrom (offset + Text.size (r.takeWhile isBlank)) (pieces (r.dropWhile isBlank)) := by
  cases r with
  | nil => rfl
  | cons c s =>
    by_cases hc : isBlank c = true
    · rw [pieces, List.takeWhile_cons_of_pos hc, List.dropWhile_cons_of_pos hc]
      simp only [Piece.read, hc, if_true]
      rfl
    · rw [List.takeWhile_cons_of_neg hc, List.dropWhile_cons_of_neg hc]
      rfl

theorem attributesFrom_blanks_append {b : Text} (hb : ∀ c ∈ b, isBlank c = true) (offset : Nat) (rest : Text) :
    attributesFrom offset (pieces (b ++ rest)) = attributesFrom (offset + b.size) (pieces rest) := by
  rw [attributesFrom_pieces, List.takeWhile_append_of_pos hb, List.dropWhile_append_of_pos hb, Text.size_append,
    ← Nat.add_assoc, ← attributesFrom_pieces]

theorem attributesFrom_pieces_cons (offset : Nat) (c : Char) (s : Text) :
    attributesFrom offset (pieces (c :: s)) =
      ((Piece.read c s).1.attribute? offset).toList ++
        attributesFrom (offset + (Piece.read c s).1.text.size) (pieces (Piece.read c s).2) := by
  rw [pieces, attributesFrom]

variable {region : Text} {a : Attribute}

theorem sound_of_mem_attributes (h : a ∈ attributes region) : a.Sound := by
  obtain ⟨p, hp, n, hn⟩ := exists_piece_of_mem_attributesFrom h
  exact Piece.sound_of_mem_pieces hp n a hn

theorem slice?_span_of_mem_attributes (h : a ∈ attributes region) : a.span.slice? region = some a.raw := by
  obtain ⟨pre, post, hText, hStart⟩ := exists_of_mem_attributesFrom h
  rw [flatMap_text_pieces] at hText
  rw [hText]
  apply Span.slice?_append
  · simp [Attribute.span, hStart]
  · simp [Attribute.span, hStart]

theorem exists_valueSpan_of_mem_attributes (h : a ∈ attributes region) {q : Quoted} (hq : a.quoted? = some q) :
    ∃ x y r, region = x ++ q.quote :: (q.value ++ q.quote :: y) ∧ a.valueSpan? = some r ∧
      Text.size (x ++ [q.quote]) = r.start ∧ r.start + q.value.size = r.stop ∧
      a.span.start ≤ r.start ∧ r.stop ≤ a.span.stop := by
  obtain ⟨pre, post, hText, hStart⟩ := exists_of_mem_attributesFrom h
  rw [flatMap_text_pieces] at hText
  obtain ⟨start, name, quoted?⟩ := a
  cases hq
  simp only [Attribute.raw, Option.map_some, Option.getD_some, Quoted.text, Nat.zero_add] at hText hStart
  refine ⟨pre ++ (name ++ q.lead), q.tail ++ post, _, by simp [hText], rfl, ?_, rfl, ?_, ?_⟩
  · simp only [hStart, Text.size_append, Text.size_cons, Text.size_nil]
    omega
  · simp only [Attribute.span]
    omega
  · simp only [Attribute.span, Attribute.raw, Option.map_some, Option.getD_some, Quoted.text, Text.size_append,
      Text.size_cons]
    omega

theorem pairwise_attributes (region : Text) :
    (attributes region).Pairwise fun a b => a.span.stop ≤ b.span.start :=
  pairwise_attributesFrom 0 (pieces region)

namespace Attribute.Sound

theorem exists_getLast?_raw (h : a.Sound) :
    ∃ c, a.raw.getLast? = some c ∧ isBlank c = false ∧ c ≠ '/' := by
  obtain ⟨start, name, quoted?⟩ := a
  cases quoted? with
  | none =>
    simp only [raw, Option.map_none, Option.getD_none, List.append_nil]
    have hName := h.name
    obtain ⟨c, hc⟩ : ∃ c, name.getLast? = some c :=
      ⟨_, List.getLast?_eq_some_getLast hName.ne_nil⟩
    refine ⟨c, hc, ?_, ?_⟩
    · exact (isNameChar_eq_true_iff.1 (hName.chars c (List.mem_of_getLast? hc))).1
    · rintro rfl
      exact hName.last hc
  | some q =>
    have hq := h.quoted q rfl
    simp only [raw, Option.map_some, Option.getD_some, Quoted.text]
    rcases hq.tail with hTail | hTail
    · refine ⟨q.quote, by simp [hTail, List.getLast?_cons], ?_⟩
      have hStraight := hq.straight
      simp only [isStraightQuote, Bool.or_eq_true, beq_iff_eq] at hStraight
      rcases hStraight with hQuote | hQuote <;> rw [hQuote] <;> decide
    · exact ⟨'}', by simp [hTail, List.getLast?_cons], by decide, by decide⟩

theorem raw_ne_nil (h : a.Sound) : a.raw ≠ [] := by
  obtain ⟨c, hc, -⟩ := h.exists_getLast?_raw
  rintro hRaw
  simp [hRaw] at hc

theorem start_lt_stop (h : a.Sound) : a.span.start < a.span.stop :=
  Nat.lt_add_of_pos_right (Text.size_pos h.raw_ne_nil)

end Attribute.Sound

end ClassFold

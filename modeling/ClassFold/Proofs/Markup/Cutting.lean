import ClassFold.Proofs.Markup.Fitting

/-!
# Pieces read back

A text that is put together from pieces is cut into the same pieces again if each of them is well formed
and does not go on in what follows it, and for ordinary pieces only then. What follows counts with its
first character and with its first character that is no blank.
-/

set_option autoImplicit false

namespace ClassFold

namespace Piece

/-- What markup without mistakes is made of: blanks, attributes, and slashes. -/
def isOrdinary : Piece → Bool
  | blanks _ | flag _ _ | valued _ _ => true
  | dropped run => run.all (· == '/')
  | sealed _ _ value => isClosedValue value
  | stray _ | string _ => false

def WellFormed : Piece → Prop
  | blanks run => run ≠ [] ∧ ∀ c ∈ run, isBlank c = true
  | dropped run => run ≠ [] ∧ ∀ c ∈ run, c = '/'
  | flag name slashes => IsName name ∧ ∀ c ∈ slashes, c = '/'
  | valued name value => IsName name ∧ value.WellFormed
  | sealed name lead value => IsName name ∧ IsSign lead ∧ IsSealed value
  | stray _ | string _ => False

/-- What follows the piece is no part of it. -/
def Admits (rest : Text) : Piece → Prop
  | blanks _ => ∀ c, rest.head? = some c → isBlank c = false
  | dropped _ => ∀ c, rest.head? = some c → isNameChar c = false
  | flag _ _ =>
    (∀ c, rest.head? = some c → isNameChar c = false) ∧ (rest.dropWhile isBlank).head? ≠ some '='
  | valued _ _ => rest.head? ≠ some '}'
  | sealed _ _ value =>
    (value = [] → rest = []) ∧ (endsItself value = true ∨ ∀ c, rest.head? = some c → isBlank c = true)
  | stray _ | string _ => True

end Piece

theorem pieces_eq_cons_iff {region : Text} {p : Piece} {ps : List Piece} :
    pieces region = p :: ps ↔ ∃ rest, region = p.text ++ rest ∧ p.ReadsBefore rest ∧ pieces rest = ps := by
  constructor
  · intro h
    cases region with
    | nil =>
      rw [pieces] at h
      cases h
    | cons c u =>
      rw [pieces] at h
      obtain ⟨rfl, rfl⟩ := List.cons.inj h
      have hText := Piece.text_read c u
      obtain ⟨d, s, hCons⟩ := List.exists_cons_of_ne_nil (Piece.text_read_ne_nil c u)
      rw [hCons, List.cons_append, List.cons.injEq] at hText
      obtain ⟨rfl, hu⟩ := hText
      refine ⟨_, ?_, ⟨d, s, hCons, ?_⟩, rfl⟩
      · rw [hCons, List.cons_append, hu]
      · rw [hu]
  · rintro ⟨rest, rfl, hReads, rfl⟩
    exact hReads.pieces_append

namespace Piece

variable {rest : Text} {p : Piece}

/-- A piece that is well formed fits in front of what is no part of it. -/
theorem WellFormed.fits (hp : p.WellFormed) (hRest : p.Admits rest) : p.Fits [] rest := by
  cases p with
  | blanks run => exact ⟨hp.1, hp.2, hRest⟩
  | stray c => exact hp.elim
  | string text => exact hp.elim
  | dropped run =>
    obtain ⟨hNe, hSlashes⟩ := hp
    have hChars : ∀ c ∈ run, isNameChar c = true := fun c hc => hSlashes c hc ▸ isNameChar_slash
    exact ⟨.start hNe hChars hRest, Or.inl hSlashes⟩
  | flag name slashes =>
    obtain ⟨hName, hSlashes⟩ := hp
    have hChars : ∀ c ∈ name ++ slashes, isNameChar c = true := by
      intro c hc
      rcases List.mem_append.1 hc with hc | hc
      · exact hName.chars c hc
      · exact hSlashes c hc ▸ isNameChar_slash
    exact ⟨hName, hSlashes, .start (List.append_ne_nil_of_left_ne_nil hName.ne_nil _) hChars hRest.1,
      fun _ => Or.inl hRest.2⟩
  | valued name value =>
    obtain ⟨hName, hValue⟩ := hp
    obtain ⟨sign, body, hSign, hText, -⟩ := hValue.exists_readQuoted? (Or.inr hRest)
    refine ⟨hName, hValue, Or.inr hRest, .start hName.ne_nil hName.chars ?_⟩
    rw [hText]
    exact isNameChar_sign hSign body
  | sealed name lead value =>
    obtain ⟨hName, hSign, hValue⟩ := hp
    obtain ⟨hNil, hEnd⟩ := hRest
    exact ⟨hName, hSign, hValue.isValue hNil hEnd, hValue.opensQuoted_append hNil,
      .start hName.ne_nil hName.chars (isNameChar_sign hSign _)⟩

theorem WellFormed.readsBefore (hp : p.WellFormed) (hRest : p.Admits rest) : p.ReadsBefore rest :=
  (hp.fits hRest).readsBefore

/-- What an ordinary piece may stand before: a blank, the first character of a name, or the end. -/
structure Continues (rest : Text) : Prop where
  head : ∀ c, rest.head? = some c → isBlank c = true ∨ isNameChar c = true
  noValue : (rest.dropWhile isBlank).head? ≠ some '='

theorem Fits.wellFormed {before : Text} (h : p.Fits before rest) (hOrdinary : p.isOrdinary = true)
    (hNext : Continues rest) : p.WellFormed ∧ p.Admits rest := by
  cases p with
  | blanks run => exact ⟨⟨h.1, h.2.1⟩, h.2.2⟩
  | stray c => cases hOrdinary
  | string text => cases hOrdinary
  | dropped run => exact ⟨⟨h.1.ne_nil, by simpa [isOrdinary] using hOrdinary⟩, h.1.right⟩
  | flag name slashes =>
    obtain ⟨hName, hSlashes, hRun, -⟩ := h
    exact ⟨⟨hName, hSlashes⟩, hRun.right, hNext.noValue⟩
  | valued name value =>
    obtain ⟨hName, hValue, -, -⟩ := h
    refine ⟨⟨hName, hValue⟩, ?_⟩
    intro hBrace
    rcases hNext.head _ hBrace with hBlank | hChar
    · exact absurd hBlank (by decide)
    · exact absurd hChar (by decide)
  | sealed name lead value =>
    obtain ⟨hName, hSign, hValue, hPlain, -⟩ := h
    obtain ⟨hSealed, hAdmits⟩ := hValue.isSealed hPlain hOrdinary
    exact ⟨⟨hName, hSign, hSealed⟩, hAdmits⟩

theorem ReadsBefore.wellFormed (h : p.ReadsBefore rest) (hOrdinary : p.isOrdinary = true)
    (hNext : Continues rest) : p.WellFormed ∧ p.Admits rest :=
  (h.fits (Seam.start _)).wellFormed hOrdinary hNext

end Piece

section

variable {region : Text} {p : Piece} {ps : List Piece}

theorem pieces_eq_nil_iff : pieces region = [] ↔ region = [] := by
  constructor
  · intro h
    rw [← flatMap_text_pieces region, h, List.flatMap_nil]
  · rintro rfl
    rw [pieces]

theorem pieces_dropWhile_subset (region : Text) : pieces (region.dropWhile isBlank) ⊆ pieces region := by
  cases region with
  | nil => exact List.Subset.refl _
  | cons c s =>
    cases hc : isBlank c with
    | true =>
      rw [List.dropWhile_cons_of_pos hc, pieces]
      simp only [Piece.read, hc, if_true]
      exact List.subset_cons_self _ _
    | false =>
      rw [List.dropWhile_cons_of_neg (by simp [hc])]
      exact List.Subset.refl _

theorem head?_of_isOrdinary (h : ∀ p ∈ pieces region, p.isOrdinary = true) :
    ∀ c, region.head? = some c → isBlank c = true ∨ isNameChar c = true := by
  intro c hc
  obtain ⟨s, rfl⟩ := List.head?_eq_some_iff.1 hc
  have hFirst := h (Piece.read c s).1 (by rw [pieces]; exact List.mem_cons_self)
  unfold Piece.read at hFirst
  split at hFirst
  · exact Or.inl ‹_›
  · split at hFirst
    · cases hFirst
    · split at hFirst
      · exact Or.inr ‹_›
      · cases hFirst

theorem continues_of_isOrdinary (h : ∀ p ∈ pieces region, p.isOrdinary = true) : Piece.Continues region := by
  refine ⟨head?_of_isOrdinary h, ?_⟩
  intro hSign
  have hRest : ∀ p ∈ pieces (region.dropWhile isBlank), p.isOrdinary = true :=
    fun p hp => h p (pieces_dropWhile_subset region hp)
  rcases head?_of_isOrdinary hRest '=' hSign with hBlank | hChar
  · exact absurd hBlank (by decide)
  · exact absurd hChar (by decide)

/-- Where ordinary pieces are read, each is well formed and ends where the next one starts. -/
theorem exists_of_pieces_eq_cons (h : pieces region = p :: ps)
    (hOrdinary : ∀ q ∈ pieces region, q.isOrdinary = true) :
    ∃ rest, region = p.text ++ rest ∧ p.WellFormed ∧ p.Admits rest ∧ pieces rest = ps := by
  obtain ⟨rest, hRegion, hReads, rfl⟩ := pieces_eq_cons_iff.1 h
  rw [h] at hOrdinary
  obtain ⟨hFirst, hRest⟩ := List.forall_mem_cons.1 hOrdinary
  obtain ⟨hWellFormed, hAdmits⟩ := hReads.wellFormed hFirst (continues_of_isOrdinary hRest)
  exact ⟨rest, hRegion, hWellFormed, hAdmits, rfl⟩

end

/-- What an attribute says, wherever it stands. -/
def Attribute.parts (a : Attribute) : Text × Option Quoted := (a.name, a.quoted?)

def records (region : Text) : List (Text × Option Quoted) := (attributes region).map Attribute.parts

namespace Piece

def parts? : Piece → Option (Text × Option Quoted)
  | flag name _ => some (name, none)
  | valued name value => some (name, some value)
  | _ => none

/-- The text of an attribute with a bare value or an expression. -/
def sealedText? : Piece → Option Text
  | sealed name lead value => some (name ++ lead ++ value)
  | _ => none

theorem map_parts_attribute? (offset : Nat) (p : Piece) : (p.attribute? offset).map Attribute.parts = p.parts? := by
  cases p <;> rfl

end Piece

def sealedTexts (region : Text) : List Text := (pieces region).filterMap Piece.sealedText?

theorem map_parts_attributesFrom (offset : Nat) (ps : List Piece) :
    (attributesFrom offset ps).map Attribute.parts = ps.filterMap Piece.parts? := by
  induction ps generalizing offset with
  | nil => rfl
  | cons p ps ih =>
    rw [attributesFrom, List.map_append, ih, List.filterMap_cons, ← Piece.map_parts_attribute? offset p]
    cases p.attribute? offset <;> rfl

theorem records_eq (region : Text) : records region = (pieces region).filterMap Piece.parts? :=
  map_parts_attributesFrom 0 (pieces region)

end ClassFold

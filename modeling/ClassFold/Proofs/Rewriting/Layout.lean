import ClassFold.Proofs.Edit.Script
import ClassFold.Proofs.Markup.Placement
import ClassFold.Proofs.Rewriting.Slots

/-!
# Tags laid out in slots

Where a region is read as recorded attributes and blanks only, the tag is laid out in slots; the gap behind
its name belongs to the first of them. A deletion takes the attribute of a slot and the last of its blanks.
The other blanks are carried to the next slot that remains.
-/

set_option autoImplicit false

namespace ClassFold

/-- A run of blanks, or an attribute that is recorded with all its text. -/
def Piece.isPlain : Piece → Bool
  | blanks _ | flag _ [] | valued _ _ => true
  | _ => false

/-- The blanks in front of each attribute. -/
def spaces (before : Text) : List Piece → List Text
  | [] => []
  | .blanks run :: ps => spaces (before ++ run) ps
  | _ :: ps => before :: spaces [] ps

/-- The blanks behind the last attribute. -/
def lastSpace (before : Text) : List Piece → Text
  | [] => before
  | .blanks run :: ps => lastSpace (before ++ run) ps
  | _ :: ps => lastSpace [] ps

def Tag.slots (t : Tag) (js : List Judged) : List Slot := List.zipWith Slot.mk js (spaces [t.gap] (pieces t.attrs))

/-- What remains of the slots, given the blanks that are carried to the first of them. -/
def remaining (o : Options) (carry : Text) : List Slot → List Slot
  | [] => []
  | s :: ss =>
    if s.isFolded o then remaining o (carry ++ s.space.dropLast) ss
    else ⟨s.toJudged, carry ++ s.space⟩ :: remaining o [] ss

/-- The blanks that are carried behind the last slot that remains. -/
def leftover (o : Options) (carry : Text) : List Slot → Text
  | [] => carry
  | s :: ss => if s.isFolded o then leftover o (carry ++ s.space.dropLast) ss else leftover o [] ss

/-- The last blank of a slot. -/
def Slot.blank (s : Slot) : Text := s.space.drop (s.space.length - 1)

/-- How a slot is edited, but for the classes that are put into it. -/
def Slot.script (o : Options) (s : Slot) : Script :=
  if s.isFolded o then [.kept s.space.dropLast, .replaced (s.blank ++ s.attr.raw) []] else [.kept s.text]

/-- Each slot at its place, the first one at `offset` in the text of the tag. -/
def Located (t : Tag) (offset : Nat) : List Slot → Prop
  | [] => True
  | s :: ss => t.attrsOffset + s.attr.start = offset + s.space.size ∧ Located t (offset + s.text.size) ss

structure StandsIn (t : Tag) (front : Text) (ss : List Slot) (rest : Text) : Prop where
  text : t.text = front ++ (ss.flatMap Slot.text ++ rest)
  last : ∀ c, front.getLast? = some c → isBlank c = false
  located : Located t front.size ss

theorem Span.eq_of_ends {r s : Span} (hStart : r.start = s.start) (hStop : r.stop = s.stop) : r = s := by
  obtain ⟨start, stop, _⟩ := r
  subst hStart
  subst hStop
  rfl

namespace Piece

variable {p : Piece}

theorem isOrdinary_of_isPlain (h : p.isPlain = true) : p.isOrdinary = true := by
  cases p with
  | blanks _ | flag _ _ | valued _ _ => rfl
  | stray _ | string _ | dropped _ | sealed _ _ _ => cases h

theorem cases_of_isPlain (h : p.isPlain = true) (offset : Nat) :
    (∃ run, p = .blanks run) ∨ ∃ a, p.attribute? offset = some a ∧ a.start = offset ∧ p = a.piece := by
  cases p with
  | blanks run => exact Or.inl ⟨run, rfl⟩
  | valued name value => exact Or.inr ⟨⟨offset, name, some value⟩, rfl, rfl, rfl⟩
  | flag name slashes =>
    cases slashes with
    | nil => exact Or.inr ⟨⟨offset, name, none⟩, rfl, rfl, rfl⟩
    | cons c slashes => cases h
  | stray _ | string _ | dropped _ | sealed _ _ _ => cases h

end Piece

theorem wellFormed_of_mem_pieces {region : Text} (hOrdinary : ∀ p ∈ pieces region, p.isOrdinary = true) :
    ∀ p ∈ pieces region, p.WellFormed := by
  induction hPieces : pieces region generalizing region with
  | nil => exact List.forall_mem_nil _
  | cons p ps ih =>
    obtain ⟨rest, -, hWellFormed, -, hRest⟩ := exists_of_pieces_eq_cons hPieces hOrdinary
    rw [hPieces] at hOrdinary
    refine List.forall_mem_cons.2 ⟨hWellFormed, ih (fun q hq => ?_) hRest⟩
    exact hOrdinary q (List.mem_cons_of_mem _ (hRest ▸ hq))

/-- Judged attributes laid out in slots, behind `before` and in front of `tail`. -/
structure LaidOut (t : Tag) (offset : Nat) (text : Text) (js : List Judged) (ss : List Slot) (tail : Text) :
    Prop where
  judged : ss.map Slot.toJudged = js
  text : text = ss.flatMap Slot.text ++ tail
  located : Located t offset ss
  wellFormed : ∀ s ∈ ss, s.WellFormed
  blanks : ∀ c ∈ tail, isBlank c = true

section

variable {t : Tag} {before : Text} {ps : List Piece} {js : List Judged} {offset start : Nat}

theorem spaces_piece (before : Text) (a : Attribute) (ps : List Piece) :
    spaces before (a.piece :: ps) = before :: spaces [] ps ∧ lastSpace before (a.piece :: ps) = lastSpace [] ps := by
  obtain ⟨start, name, _ | q⟩ := a <;> exact ⟨rfl, rfl⟩

theorem laidOut_pieces (hPlain : ∀ p ∈ ps, p.isPlain = true) (hPieces : ∀ p ∈ ps, p.WellFormed)
    (hBefore : ∀ c ∈ before, isBlank c = true) (hAttrs : js.map (·.attr) = attributesFrom start ps)
    (hOffset : t.attrsOffset + start = offset + before.size) :
    LaidOut t offset (before ++ ps.flatMap Piece.text) js (List.zipWith Slot.mk js (spaces before ps))
      (lastSpace before ps) := by
  induction ps generalizing js before start offset with
  | nil =>
    obtain rfl := List.map_eq_nil_iff.1 hAttrs
    exact ⟨rfl, by simp [lastSpace], trivial, List.forall_mem_nil _, hBefore⟩
  | cons p ps ih =>
    obtain ⟨hFirst, hPlainRest⟩ := List.forall_mem_cons.1 hPlain
    obtain ⟨hPiece, hPiecesRest⟩ := List.forall_mem_cons.1 hPieces
    rcases Piece.cases_of_isPlain hFirst start with ⟨run, rfl⟩ | ⟨a, hAttr, hStart, rfl⟩
    · have hBlanks : ∀ c ∈ before ++ run, isBlank c = true :=
        List.forall_mem_append.2 ⟨hBefore, hPiece.2⟩
      have hNext : t.attrsOffset + (start + Text.size run) = offset + Text.size (before ++ run) := by
        rw [Text.size_append]
        omega
      have hRest := ih hPlainRest hPiecesRest hBlanks hAttrs hNext
      rw [List.append_assoc] at hRest
      exact hRest
    · rw [attributesFrom, hAttr, Option.toList_some, List.singleton_append, Attribute.text_piece] at hAttrs
      obtain ⟨j, js, rfl, rfl, hAttrs⟩ := List.map_eq_cons_iff.1 hAttrs
      obtain ⟨hSpaces, hLast⟩ := spaces_piece before j.attr ps
      have hSlot : (Slot.mk j before).WellFormed := by
        obtain ⟨hName, hValue⟩ := Attribute.wellFormed_piece_iff.1 hPiece
        exact ⟨hBefore, hName, hValue⟩
      have hNext : t.attrsOffset + (start + j.attr.raw.size) =
          offset + (Slot.mk j before).text.size + Text.size [] := by
        simp only [Slot.text, Text.size_append, Text.size_nil]
        omega
      have hRest := ih hPlainRest hPiecesRest (List.forall_mem_nil _) hAttrs hNext
      rw [hSpaces, hLast]
      constructor
      · exact congrArg (j :: ·) hRest.judged
      · have hText := hRest.text
        rw [List.nil_append] at hText
        rw [List.flatMap_cons, hText, Attribute.text_piece]
        simp [Slot.text]
      · exact ⟨by simp only [hStart, hOffset], hRest.located⟩
      · exact List.forall_mem_cons.2 ⟨hSlot, hRest.wellFormed⟩
      · exact hRest.blanks

theorem Tag.laidOut (hPlain : ∀ p ∈ pieces t.attrs, p.isPlain = true) (hGap : isBlank t.gap = true)
    (hAttrs : js.map (·.attr) = attributes t.attrs) :
    LaidOut t (Text.size ('<' :: t.name)) (t.gap :: t.attrs) js (t.slots js) (lastSpace [t.gap] (pieces t.attrs)) := by
  have hPieces := wellFormed_of_mem_pieces fun p hp => Piece.isOrdinary_of_isPlain (hPlain p hp)
  have hOffset : t.attrsOffset + 0 = Text.size ('<' :: t.name) + Text.size [t.gap] := by
    rw [attrsOffset, head, Text.size_append, Nat.add_zero]
  have hAll := laidOut_pieces hPlain hPieces (List.forall_mem_singleton.2 hGap) hAttrs hOffset
  rwa [flatMap_text_pieces] at hAll

end

section

variable {t : Tag} {o : Options} {carry front rest : Text} {s : Slot} {as bs ss : List Slot}

theorem remaining_append (o : Options) (carry : Text) (as bs : List Slot) :
    remaining o carry (as ++ bs) = remaining o carry as ++ remaining o (leftover o carry as) bs := by
  induction as generalizing carry with
  | nil => rfl
  | cons s as ih =>
    rw [List.cons_append, remaining, remaining, leftover]
    split
    · exact ih _
    · rw [ih, List.cons_append]

theorem map_toJudged_remaining (o : Options) (carry : Text) (ss : List Slot) :
    (remaining o carry ss).map Slot.toJudged = (ss.map Slot.toJudged).filter (!·.isFolded o) := by
  induction ss generalizing carry with
  | nil => rfl
  | cons s ss ih =>
    rw [remaining, List.map_cons, List.filter_cons]
    cases hFolded : s.isFolded o with
    | true => simpa using ih _
    | false => simpa using ih _

theorem blanks_leftover (hCarry : ∀ c ∈ carry, isBlank c = true) (h : ∀ s ∈ ss, s.WellFormed) :
    ∀ c ∈ leftover o carry ss, isBlank c = true := by
  induction ss generalizing carry with
  | nil => exact hCarry
  | cons s ss ih =>
    obtain ⟨hs, hRest⟩ := List.forall_mem_cons.1 h
    rw [leftover]
    split
    · apply ih _ hRest
      exact List.forall_mem_append.2 ⟨hCarry, fun c hc => hs.space c (List.dropLast_subset _ hc)⟩
    · exact ih (List.forall_mem_nil _) hRest

theorem wellFormed_remaining (hCarry : ∀ c ∈ carry, isBlank c = true) (h : ∀ s ∈ ss, s.WellFormed) :
    ∀ s ∈ remaining o carry ss, s.WellFormed := by
  induction ss generalizing carry with
  | nil => exact List.forall_mem_nil _
  | cons s ss ih =>
    obtain ⟨hs, hRest⟩ := List.forall_mem_cons.1 h
    rw [remaining]
    split
    · apply ih _ hRest
      exact List.forall_mem_append.2 ⟨hCarry, fun c hc => hs.space c (List.dropLast_subset _ hc)⟩
    · exact List.forall_mem_cons.2
        ⟨⟨List.forall_mem_append.2 ⟨hCarry, hs.space⟩, hs.name, hs.value⟩, ih (List.forall_mem_nil _) hRest⟩

theorem Slot.dropLast_append_blank (s : Slot) : s.space.dropLast ++ s.blank = s.space := by
  rw [blank, List.dropLast_eq_take, List.take_append_drop]

theorem Slot.before_script (o : Options) (s : Slot) : (s.script o).before = s.text := by
  unfold script
  split
  · simp [Chunk.before, text, ← List.append_assoc, s.dropLast_append_blank]
  · simp [Chunk.before]

theorem before_script (o : Options) (ss : List Slot) :
    Script.before (ss.flatMap (·.script o)) = ss.flatMap Slot.text := by
  induction ss with
  | nil => rfl
  | cons s ss ih => rw [List.flatMap_cons, Script.before_append, ih, s.before_script, List.flatMap_cons]

/-- What remains is what the edits leave. -/
theorem after_script (o : Options) (carry : Text) (ss : List Slot) :
    carry ++ Script.after (ss.flatMap (·.script o)) =
      (remaining o carry ss).flatMap Slot.text ++ leftover o carry ss := by
  induction ss generalizing carry with
  | nil => simp [remaining, leftover]
  | cons s ss ih =>
    rw [List.flatMap_cons, Script.after_append, remaining, leftover, Slot.script]
    cases hFolded : s.isFolded o with
    | true =>
      have hRest := ih (carry ++ s.space.dropLast)
      simpa [Chunk.after] using hRest
    | false =>
      have hRest := ih []
      rw [List.nil_append] at hRest
      simp [Chunk.after, hRest, Slot.text]

theorem Slot.WellFormed.sound (h : s.WellFormed) : s.attr.Sound := ⟨h.name, fun q hq => (h.value q hq).sound⟩

theorem StandsIn.next (h : StandsIn t front (s :: ss) rest) (hs : s.WellFormed) :
    StandsIn t (front ++ s.text) ss rest := by
  constructor
  · simp [h.text]
  · intro c hc
    obtain ⟨d, hLast, hSolid, -⟩ := hs.sound.exists_getLast?_raw
    rw [Slot.text, List.getLast?_append, List.getLast?_append, hLast] at hc
    cases hc
    exact hSolid
  · rw [Text.size_append]
    exact h.located.2

/-- The deletion of an attribute starts at the last blank of its slot. -/
theorem StandsIn.deletion (h : StandsIn t front (s :: ss) rest) (hs : s.WellFormed) :
    (t.deletion s.attr.span).start = front.size + Text.size s.space.dropLast ∧
      (t.deletion s.attr.span).stop = front.size + s.text.size := by
  have hStart := h.located.1
  have hText : t.text = (front ++ s.space) ++ (s.attr.raw ++ (ss.flatMap Slot.text ++ rest)) := by
    rw [h.text]
    simp [Slot.text]
  have hSize : t.attrsOffset + s.attr.span.start = Text.size (front ++ s.space) := by
    rw [Text.size_append]
    exact hStart
  have hBlank := Tag.blankBefore_eq hText
  rw [← hSize] at hBlank
  rw [Tag.start_deletion, Tag.stop_deletion, hBlank, hSize, List.getLast?_append, Slot.text, Text.size_append,
    Text.size_append]
  constructor
  · rcases List.eq_nil_or_concat s.space with hNil | ⟨init, b, hConcat⟩
    · have hNot : front.getLast?.any isBlank = false := by
        rw [Option.any_eq_false]
        exact fun c hc => by simp [h.last c hc]
      simp [hNil, hNot]
    · rw [List.concat_eq_append] at hConcat
      have hb : isBlank b = true := hs.space b (by simp [hConcat])
      simp [hConcat, hb, utf8Size_of_isBlank hb, ← Nat.add_assoc]
  · rw [Text.size_append] at hSize
    simp only [Attribute.span] at hSize ⊢
    omega

theorem StandsIn.edits_slot (h : StandsIn t front (s :: ss) rest) (hs : s.WellFormed) :
    (s.script o).edits front.size = if s.isFolded o then [⟨t.deletion s.attr.span, []⟩] else [] := by
  obtain ⟨hStart, hStop⟩ := h.deletion hs
  have hSize : s.text.size = Text.size s.space.dropLast + Text.size (s.blank ++ s.attr.raw) := by
    rw [← Text.size_append, ← List.append_assoc, s.dropLast_append_blank, Slot.text]
  unfold Slot.script
  split
  · rw [Script.edits, Script.edits, Script.edits]
    congr 2
    apply Span.eq_of_ends hStart.symm
    rw [hStop, hSize]
    exact Nat.add_assoc _ _ _
  · rfl

theorem StandsIn.edits_script (h : StandsIn t front ss rest) (hSlots : ∀ s ∈ ss, s.WellFormed) :
    Script.edits front.size (ss.flatMap (·.script o)) =
      (ss.filter (·.isFolded o)).map fun s => ⟨t.deletion s.attr.span, []⟩ := by
  induction ss generalizing front with
  | nil => rfl
  | cons s ss ih =>
    obtain ⟨hs, hRest⟩ := List.forall_mem_cons.1 hSlots
    have hNext := ih (h.next hs) hRest
    rw [Text.size_append] at hNext
    rw [List.flatMap_cons, Script.edits_append, h.edits_slot hs, s.before_script, hNext, List.filter_cons]
    split <;> rfl

theorem LaidOut.standsIn {text tail : Text} {js : List Judged} (h : LaidOut t front.size text js ss tail)
    (hText : t.text = front ++ (text ++ rest)) (hLast : ∀ c, front.getLast? = some c → isBlank c = false) :
    StandsIn t front ss (tail ++ rest) :=
  ⟨by rw [hText, h.text, List.append_assoc], hLast, h.located⟩

/-- The deletions of a tag are those of its slots. -/
theorem StandsIn.deletions_gather {engine : Engine} {js : List Judged} (h : StandsIn t front ss rest)
    (hSlots : ∀ s ∈ ss, s.WellFormed) (hJudged : ss.map Slot.toJudged = js) :
    (t.gather engine o js).deletions.map (Edit.mk · []) = Script.edits front.size (ss.flatMap (·.script o)) := by
  rw [h.edits_script hSlots, Tag.deletions_gather, ← hJudged, List.filter_map, List.map_map, List.map_map]
  rfl

theorem StandsIn.right (h : StandsIn t front (as ++ bs) rest) (has : ∀ s ∈ as, s.WellFormed) :
    StandsIn t (front ++ as.flatMap Slot.text) bs rest := by
  induction as generalizing front with
  | nil => simpa using h
  | cons s as ih =>
    obtain ⟨hs, hRest⟩ := List.forall_mem_cons.1 has
    have hNext := ih (h.next hs) hRest
    rwa [List.flatMap_cons, ← List.append_assoc]

/-- A new attribute goes behind the last slot. -/
theorem LaidOut.insertionPoint {js : List Judged} {tail : Text} (hGap : isBlank t.gap = true) (hNe : ss ≠ [])
    (h : LaidOut t (Text.size ('<' :: t.name)) (t.gap :: t.attrs) js ss tail) :
    t.insertionPoint = Text.size ('<' :: t.name) + Text.size (ss.flatMap Slot.text) := by
  obtain ⟨c, hLast, hBlank, hSlash⟩ :
      ∃ c, (ss.flatMap Slot.text).getLast? = some c ∧ isBlank c = false ∧ c ≠ '/' := by
    obtain ⟨init, s, hConcat⟩ := (List.eq_nil_or_concat ss).resolve_left hNe
    have hs := h.wellFormed s (by simp [hConcat])
    obtain ⟨c, hLast, hc⟩ := hs.sound.exists_getLast?_raw
    refine ⟨c, ?_, hc⟩
    simp [hConcat, Slot.text, List.getLast?_append, hLast]
  have hText := h.text
  cases hSlots : ss.flatMap Slot.text with
  | nil =>
    rw [hSlots] at hLast
    cases hLast
  | cons b region =>
    rw [hSlots, List.cons_append] at hText
    obtain ⟨rfl, hAttrs⟩ := List.cons.inj hText
    have hRegion : region.getLast? = some c := by
      cases region with
      | nil =>
        rw [hSlots, List.getLast?_singleton, Option.some.injEq] at hLast
        rw [← hLast, hGap] at hBlank
        cases hBlank
      | cons d region => rwa [hSlots, List.getLast?_cons_cons] at hLast
    rw [Tag.insertionPoint, hAttrs, trimRegion_append hRegion hBlank hSlash h.blanks (Or.inl rfl), Tag.attrsOffset, Tag.head,
      Text.size_append, Text.size_cons t.gap region, Text.size_cons t.gap [], Text.size_nil, Nat.add_zero, Nat.add_assoc]

end

end ClassFold

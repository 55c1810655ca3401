import ClassFold.Proofs.Engine.Run
import ClassFold.Proofs.Markup.Crossing
import ClassFold.Proofs.Markup.Cutting

/-!
# Slots

A region that holds nothing but recorded attributes and blanks is a list of slots, each an attribute with the
blanks in front of it, and the blanks at the end. The attributes are read back from a list of slots if and
only if they are apart: wherever an attribute stands behind a bare name, there are blanks between the two.
-/

set_option autoImplicit false

namespace ClassFold

/-- A judged attribute with the blanks in front of it. -/
structure Slot extends Judged where
  space : Text
deriving DecidableEq, Repr

/-- The piece of an attribute with no slashes behind its name. -/
def Attribute.piece (a : Attribute) : Piece :=
  match a.quoted? with
  | none => .flag a.name []
  | some q => .valued a.name q

/-- The text of what an attribute says. -/
def partsText (p : Text × Option Quoted) : Text := p.1 ++ (p.2.map Quoted.text).getD []

/-- How many characters are no blanks. -/
def solidSize (s : Text) : Nat := s.countP (!isBlank ·)

namespace Slot

def text (s : Slot) : Text := s.space ++ s.attr.raw

structure WellFormed (s : Slot) : Prop where
  space : ∀ c ∈ s.space, isBlank c = true
  name : IsName s.attr.name
  value : ∀ q, s.attr.quoted? = some q → q.WellFormed

end Slot

/-- No attribute touches a bare name in front of it. Whether a name stands in front of the first one is given. -/
def apart (named : Bool) : List Slot → Bool
  | [] => true
  | s :: ss => (!named || !s.space.isEmpty) && apart s.attr.quoted?.isNone ss

namespace Attribute

variable {a : Attribute} {rest : Text}

theorem text_piece (a : Attribute) : a.piece.text = a.raw := by
  obtain ⟨start, name, _ | q⟩ := a <;> simp [piece, raw, Piece.text]

theorem parts?_piece (a : Attribute) : a.piece.parts? = some a.parts := by
  obtain ⟨start, name, _ | q⟩ := a <;> rfl

theorem wellFormed_piece_iff :
    a.piece.WellFormed ↔ IsName a.name ∧ ∀ q, a.quoted? = some q → q.WellFormed := by
  obtain ⟨start, name, _ | q⟩ := a <;> simp [piece, Piece.WellFormed]

/-- Only a bare name asks for more than that no `=` and no brace follows. -/
theorem admits_piece (hRest : Piece.Continues rest)
    (hBare : a.quoted? = none → ∀ c, rest.head? = some c → isNameChar c = false) : a.piece.Admits rest := by
  obtain ⟨start, name, _ | q⟩ := a
  · exact ⟨hBare rfl, hRest.noValue⟩
  · intro hBrace
    rcases hRest.head _ hBrace with hBlank | hChar
    · exact absurd hBlank (by decide)
    · exact absurd hChar (by decide)

end Attribute

section

variable {region b name name' rest : Text}

theorem records_dropWhile (region : Text) : records (region.dropWhile isBlank) = records region := by
  rw [records, records, attributes, attributes, attributesFrom_pieces 0 region, map_parts_attributesFrom,
    map_parts_attributesFrom]

theorem records_blanks_append (hb : ∀ c ∈ b, isBlank c = true) (region : Text) :
    records (b ++ region) = records region := by
  rw [← records_dropWhile, List.dropWhile_append_of_pos hb, records_dropWhile]

theorem records_blanks (hb : ∀ c ∈ b, isBlank c = true) : records b = [] := by
  have hNil := records_blanks_append hb []
  rw [List.append_nil] at hNil
  rw [hNil, records_eq, pieces, List.filterMap_nil]

theorem Piece.ReadsBefore.records_append {p : Piece} (h : p.ReadsBefore rest) :
    records (p.text ++ rest) = p.parts?.toList ++ records rest := by
  rw [records_eq, records_eq, h.pieces_append]
  cases hParts : p.parts? with
  | none => rw [List.filterMap_cons_none hParts, Option.toList_none, List.nil_append]
  | some parts => rw [List.filterMap_cons_some hParts, Option.toList_some, List.singleton_append]

theorem solidSize_append (s t : Text) : solidSize (s ++ t) = solidSize s + solidSize t := List.countP_append

theorem solidSize_blanks (hb : ∀ c ∈ b, isBlank c = true) : solidSize b = 0 := by
  rw [solidSize, List.countP_eq_zero]
  intro c hc
  simp [hb c hc]

theorem solidSize_pos {c : Char} (hc : c ∈ b) (hSolid : isBlank c = false) : 0 < solidSize b :=
  List.countP_pos_iff.2 ⟨c, hc, by simp [hSolid]⟩

theorem Piece.solidSize_partsText {p : Piece} {parts : Text × Option Quoted} (h : p.parts? = some parts) :
    solidSize (partsText parts) ≤ solidSize p.text := by
  cases p with
  | flag name slashes =>
    cases h
    simp [partsText, text, solidSize_append]
  | valued name value =>
    cases h
    exact Nat.le_refl _
  | blanks _ | stray _ | string _ | dropped _ | sealed _ _ _ => cases h

/-- Records are a part of the region that they are read from. -/
theorem solidSize_records_le (region : Text) : solidSize ((records region).flatMap partsText) ≤ solidSize region := by
  have hAll (ps : List Piece) :
      solidSize ((ps.filterMap Piece.parts?).flatMap partsText) ≤ solidSize (ps.flatMap Piece.text) := by
    induction ps with
    | nil => exact Nat.le_refl _
    | cons p ps ih =>
      rw [List.flatMap_cons, solidSize_append]
      cases hParts : p.parts? with
      | none =>
        rw [List.filterMap_cons_none hParts]
        omega
      | some parts =>
        have hFirst := Piece.solidSize_partsText hParts
        rw [List.filterMap_cons_some hParts, List.flatMap_cons, solidSize_append]
        omega
  have hRegion := hAll (pieces region)
  rwa [← records_eq, flatMap_text_pieces] at hRegion

namespace Piece

theorem fst_of_parts?_ofName {parts : Text × Option Quoted} (h : (ofName name rest).1.parts? = some parts) :
    parts.1 = name := by
  unfold ofName at h
  split at h
  · dsimp only at h
    split at h
    · split at h <;> cases h <;> rfl
    · cases h
  · cases h
    rfl

/-- An attribute is named by the whole run of name characters, but for slashes at its end. -/
theorem fst_of_parts?_read {c : Char} {s : Text} {parts : Text × Option Quoted} (hc : isNameChar c = true)
    (h : (read c s).1.parts? = some parts) : parts.1 = (splitSlashes (c :: s.takeWhile isNameChar)).1 := by
  obtain ⟨hBlank, hQuote, -⟩ := isNameChar_eq_true_iff.1 hc
  simp only [read, hBlank, hQuote, hc, Bool.false_eq_true, if_false, if_true] at h
  split at h
  · cases h
  · split at h
    · exact fst_of_parts?_ofName h
    · cases h
      rfl

end Piece

/-- A name that is followed by another name is read as a longer one. -/
theorem splitSlashes_names (hName' : IsName name') (run : Text) :
    (splitSlashes (name ++ (name' ++ run))).1 ≠ name := by
  intro hEq
  have hAll := splitSlashes_append (name ++ (name' ++ run))
  rw [hEq, List.append_cancel_left_eq] at hAll
  have hMem : name'.getLast hName'.ne_nil ∈ (splitSlashes (name ++ (name' ++ run))).2 := by
    rw [hAll]
    exact List.mem_append_left _ (List.getLast_mem hName'.ne_nil)
  have hSlash := eq_slash_of_mem_splitSlashes hMem
  exact hName'.last (hSlash ▸ List.getLast?_eq_some_getLast hName'.ne_nil)

/-- Two names without a blank between them: the first is not recorded, or not all of the region is. -/
theorem records_of_names (hName : IsName name) (hName' : IsName name') {v : Option Quoted}
    {rs : List (Text × Option Quoted)} (h : records (name ++ (name' ++ rest)) = (name, v) :: rs) :
    solidSize ((records (name ++ (name' ++ rest))).flatMap partsText) < solidSize (name ++ (name' ++ rest)) := by
  obtain ⟨c, cs, rfl⟩ := List.exists_cons_of_ne_nil hName.ne_nil
  have hc := hName.chars c List.mem_cons_self
  have hcs : ∀ d ∈ cs, isNameChar d = true := fun d hd => hName.chars d (List.mem_cons_of_mem _ hd)
  have hPieces : pieces (c :: cs ++ (name' ++ rest)) =
      (Piece.read c (cs ++ (name' ++ rest))).1 :: pieces (Piece.read c (cs ++ (name' ++ rest))).2 := by
    rw [List.cons_append, pieces]
  obtain ⟨tail, hText, hReads, -⟩ := pieces_eq_cons_iff.1 hPieces
  cases hParts : (Piece.read c (cs ++ (name' ++ rest))).1.parts? with
  | some parts =>
    have hFirst := Piece.fst_of_parts?_read hc hParts
    rw [List.takeWhile_append_of_pos hcs, List.takeWhile_append_of_pos hName'.chars, ← List.cons_append] at hFirst
    rw [records_eq, hPieces, List.filterMap_cons_some hParts] at h
    obtain ⟨rfl, -⟩ := List.cons.inj h
    exact absurd hFirst.symm (splitSlashes_names hName' _)
  | none =>
    rw [hText, hReads.records_append, hParts, Option.toList_none, List.nil_append, solidSize_append]
    have hRest := solidSize_records_le tail
    have hPos : 0 < solidSize (Piece.read c (cs ++ (name' ++ rest))).1.text := by
      obtain ⟨d, s, hCons⟩ := List.exists_cons_of_ne_nil (Piece.text_read_ne_nil c (cs ++ (name' ++ rest)))
      rw [hCons, List.cons_append, List.cons_append, List.cons.injEq] at hText
      rw [hCons]
      exact solidSize_pos List.mem_cons_self (hText.1 ▸ (isNameChar_eq_true_iff.1 hc).1)
    omega

end

section

variable {named : Bool} {s : Slot} {ss : List Slot} {tail : Text}

theorem Slot.WellFormed.exists_raw (h : s.WellFormed) :
    ∃ c r, s.attr.raw = c :: r ∧ isNameChar c = true := by
  obtain ⟨c, cs, hName⟩ := List.exists_cons_of_ne_nil h.name.ne_nil
  exact ⟨c, _, by rw [Attribute.raw, hName, List.cons_append], h.name.chars c (hName ▸ List.mem_cons_self)⟩

/-- What follows an attribute begins with a blank or with a name. -/
theorem continues_slots (h : ∀ s ∈ ss, s.WellFormed) (hTail : ∀ c ∈ tail, isBlank c = true) :
    Piece.Continues (ss.flatMap Slot.text ++ tail) := by
  cases ss with
  | nil =>
    rw [List.flatMap_nil, List.nil_append]
    constructor
    · exact fun c hc => Or.inl (hTail c (List.mem_of_mem_head? hc))
    · rw [List.dropWhile_eq_nil_iff.2 hTail]
      simp
  | cons s ss =>
    have hs := h s List.mem_cons_self
    obtain ⟨c, r, hRaw, hc⟩ := hs.exists_raw
    obtain ⟨hBlank, -, hSign, -⟩ := isNameChar_eq_true_iff.1 hc
    rw [List.flatMap_cons, Slot.text, hRaw, List.append_assoc, List.append_assoc, List.cons_append]
    constructor
    · intro d hd
      cases hSpace : s.space with
      | nil =>
        rw [hSpace] at hd
        cases hd
        exact Or.inr hc
      | cons b bs =>
        rw [hSpace] at hd
        cases hd
        exact Or.inl (hs.space _ (hSpace ▸ List.mem_cons_self))
    · rw [List.dropWhile_append_of_pos hs.space, List.dropWhile_cons_of_neg (by simp [hBlank])]
      simpa using hSign

/-- Behind a bare name the slots are apart if no name character follows it. -/
theorem apart_true_iff (h : ∀ s ∈ ss, s.WellFormed) (hTail : ∀ c ∈ tail, isBlank c = true) :
    apart true ss = true ↔ apart false ss = true ∧
      ∀ c, (ss.flatMap Slot.text ++ tail).head? = some c → isNameChar c = false := by
  cases ss with
  | nil =>
    refine ⟨fun _ => ⟨rfl, fun c hc => ?_⟩, fun _ => rfl⟩
    exact isNameChar_eq_false_of_isBlank (hTail c (List.mem_of_mem_head? hc))
  | cons s ss =>
    have hs := h s List.mem_cons_self
    obtain ⟨c, r, hRaw, hc⟩ := hs.exists_raw
    rw [List.flatMap_cons, Slot.text, hRaw]
    cases hSpace : s.space with
    | nil => simp [apart, hSpace, hc]
    | cons b bs =>
      have hBlank := hs.space b (hSpace ▸ List.mem_cons_self)
      simp [apart, hSpace, isNameChar_eq_false_of_isBlank hBlank]

theorem Slot.WellFormed.records_append (hs : s.WellFormed) {rest : Text} (hRest : Piece.Continues rest)
    (hBare : s.attr.quoted? = none → ∀ c, rest.head? = some c → isNameChar c = false) :
    records (s.text ++ rest) = s.attr.parts :: records rest := by
  have hReads : s.attr.piece.ReadsBefore rest :=
    (Attribute.wellFormed_piece_iff.2 ⟨hs.name, hs.value⟩).readsBefore (Attribute.admits_piece hRest hBare)
  have hRecords := hReads.records_append
  rw [Attribute.parts?_piece, Attribute.text_piece, Option.toList_some, List.singleton_append] at hRecords
  rw [Slot.text, List.append_assoc, records_blanks_append hs.space, hRecords]

theorem records_slots (h : ∀ s ∈ ss, s.WellFormed) (hTail : ∀ c ∈ tail, isBlank c = true)
    (hApart : apart named ss = true) : records (ss.flatMap Slot.text ++ tail) = ss.map (·.attr.parts) := by
  induction ss generalizing named with
  | nil => exact records_blanks hTail
  | cons s ss ih =>
    obtain ⟨hs, hRest⟩ := List.forall_mem_cons.1 h
    rw [apart, Bool.and_eq_true] at hApart
    rw [List.flatMap_cons, List.append_assoc, hs.records_append (continues_slots hRest hTail), ih hRest hApart.2,
      List.map_cons]
    intro hBare
    rw [hBare, Option.isNone_none] at hApart
    exact ((apart_true_iff hRest hTail).1 hApart.2).2

theorem solidSize_slots (h : ∀ s ∈ ss, s.WellFormed) (hTail : ∀ c ∈ tail, isBlank c = true) :
    solidSize (ss.flatMap Slot.text ++ tail) = solidSize ((ss.map (·.attr.parts)).flatMap partsText) := by
  induction ss with
  | nil => exact solidSize_blanks hTail
  | cons s ss ih =>
    obtain ⟨hs, hRest⟩ := List.forall_mem_cons.1 h
    rw [List.flatMap_cons, List.append_assoc, solidSize_append, ih hRest, Slot.text, solidSize_append,
      solidSize_blanks hs.space, Nat.zero_add, List.map_cons, List.flatMap_cons, solidSize_append]
    rfl

/-- A bare name that is recorded is not followed by another name. -/
theorem head?_of_records (h : ∀ k ∈ s :: ss, k.WellFormed) (hTail : ∀ c ∈ tail, isBlank c = true)
    (hBare : s.attr.quoted? = none)
    (hRecords : records ((s :: ss).flatMap Slot.text ++ tail) = (s :: ss).map (·.attr.parts)) :
    ∀ c, (ss.flatMap Slot.text ++ tail).head? = some c → isNameChar c = false := by
  obtain ⟨hs, hRest⟩ := List.forall_mem_cons.1 h
  intro c hc
  rw [← Bool.not_eq_true]
  intro hChar
  have hSize := solidSize_slots h hTail
  have hNoBlank : isBlank c = false := (isNameChar_eq_true_iff.1 hChar).1
  cases ss with
  | nil =>
    rw [hTail c (List.mem_of_mem_head? hc)] at hNoBlank
    cases hNoBlank
  | cons k ks =>
    have hk := hRest k List.mem_cons_self
    cases hSpace : k.space with
    | cons b bs =>
      rw [List.flatMap_cons, Slot.text, hSpace] at hc
      cases hc
      rw [hk.space _ (hSpace ▸ List.mem_cons_self)] at hNoBlank
      cases hNoBlank
    | nil =>
      have hText : (s :: k :: ks).flatMap Slot.text ++ tail = s.space ++ (s.attr.name ++ (k.attr.name ++
          ((k.attr.quoted?.map Quoted.text).getD [] ++ (ks.flatMap Slot.text ++ tail)))) := by
        simp [Slot.text, Attribute.raw, hBare, hSpace]
      rw [hText, records_blanks_append hs.space] at hRecords
      rw [hText, solidSize_append, solidSize_blanks hs.space, Nat.zero_add, ← hRecords] at hSize
      have hLess := records_of_names hs.name hk.name (v := s.attr.quoted?) hRecords
      omega

/-- Where the attributes of the slots are read, no two of them were read as one. -/
theorem apart_of_records (h : ∀ s ∈ ss, s.WellFormed) (hTail : ∀ c ∈ tail, isBlank c = true)
    (hRecords : records (ss.flatMap Slot.text ++ tail) = ss.map (·.attr.parts)) : apart false ss = true := by
  induction ss with
  | nil => rfl
  | cons s ss ih =>
    obtain ⟨hs, hRest⟩ := List.forall_mem_cons.1 h
    -- Read in front of the other slots, the attribute leaves their records to them.
    have hGo (hStop : s.attr.quoted? = none →
        ∀ c, (ss.flatMap Slot.text ++ tail).head? = some c → isNameChar c = false) : apart false ss = true := by
      rw [List.flatMap_cons, List.append_assoc, List.map_cons,
        hs.records_append (continues_slots hRest hTail) hStop] at hRecords
      exact ih hRest (List.cons.inj hRecords).2
    rw [apart, Bool.not_false, Bool.true_or, Bool.true_and]
    cases hQuoted : s.attr.quoted? with
    | some q => exact hGo fun hNone => by rw [hQuoted] at hNone; cases hNone
    | none =>
      have hStop := head?_of_records h hTail hQuoted hRecords
      rw [Option.isNone_none, apart_true_iff hRest hTail]
      exact ⟨hGo fun _ => hStop, hStop⟩

/-- A tag can only be closed behind the slots if every one of them closes what it opens. -/
theorem closed_of_cutAfter? (h : ∀ s ∈ ss, s.WellFormed) (hTail : ∀ c ∈ tail, isBlank c = true) {depth : Nat}
    {last : Char} {behind b : Text}
    (hCut : TagEnd.cutAfter? ⟨none, depth, last⟩ behind (ss.flatMap Slot.text ++ tail ++ '>' :: b) =
      some (behind.reverse ++ (ss.flatMap Slot.text ++ tail), b)) :
    depth = 0 ∧ ∀ s ∈ ss, s.attr.Closed := by
  induction ss generalizing depth last behind with
  | nil =>
    rw [List.flatMap_nil, List.nil_append, TagEnd.Passes.blanks hTail] at hCut
    have hEnd : TagEnd.cutAfter? ⟨none, depth, last⟩ (tail.reverse ++ behind) ('>' :: b) =
        some ((tail.reverse ++ behind).reverse, b) := by
      rw [hCut]
      simp
    have hOutside := TagEnd.isOutside_of_cutAfter? hEnd
    exact ⟨by simpa [TagEnd.State.isOutside] using hOutside, List.forall_mem_nil _⟩
  | cons s ss ih =>
    obtain ⟨hs, hRest⟩ := List.forall_mem_cons.1 h
    have hText : (s :: ss).flatMap Slot.text ++ tail = s.space ++ (s.attr.raw ++ (ss.flatMap Slot.text ++ tail)) := by
      simp [Slot.text]
    have hBehind : TagEnd.cutAfter? ⟨none, depth, last⟩ (s.space.reverse ++ behind)
        (s.attr.raw ++ (ss.flatMap Slot.text ++ tail ++ '>' :: b)) =
          some ((s.space.reverse ++ behind).reverse ++ (s.attr.raw ++ (ss.flatMap Slot.text ++ tail)), b) := by
      rw [hText, List.append_assoc, TagEnd.Passes.blanks hs.space] at hCut
      simpa using hCut
    have hInside : 0 < depth ∨ '>' ∉ s.attr.name := by
      rcases Nat.eq_zero_or_pos depth with rfl | hDepth
      · rw [Attribute.raw, List.append_assoc, List.append_assoc, List.append_assoc] at hBehind
        exact Or.inr (TagEnd.not_mem_of_cutAfter? hs.name.chars hBehind)
      · exact Or.inl hDepth
    obtain ⟨depth', last', hPasses, hle, hClosed⟩ := Attribute.exists_passes hs.name hs.value hInside last
    have hNext : TagEnd.cutAfter? ⟨none, depth', last'⟩ (s.attr.raw.reverse ++ (s.space.reverse ++ behind))
        (ss.flatMap Slot.text ++ tail ++ '>' :: b) =
          some ((s.attr.raw.reverse ++ (s.space.reverse ++ behind)).reverse ++ (ss.flatMap Slot.text ++ tail), b) := by
      rw [← hPasses, hBehind]
      simp
    obtain ⟨hDepth, hAll⟩ := ih hRest hNext
    have hZero : depth = 0 := by omega
    refine ⟨hZero, List.forall_mem_cons.2 ⟨⟨?_, ?_⟩, hAll⟩⟩
    · exact hInside.resolve_left (by omega)
    · exact hClosed.1 (by omega)

theorem exists_passes_slots (h : ∀ s ∈ ss, s.WellFormed) (hTail : ∀ c ∈ tail, isBlank c = true)
    (hClosed : ∀ s ∈ ss, s.attr.Closed) (last : Char) :
    ∃ last', TagEnd.Passes ⟨none, 0, last⟩ ⟨none, 0, last'⟩ (ss.flatMap Slot.text ++ tail) := by
  induction ss generalizing last with
  | nil => exact ⟨last, TagEnd.Passes.blanks hTail 0 last⟩
  | cons s ss ih =>
    obtain ⟨hs, hRest⟩ := List.forall_mem_cons.1 h
    obtain ⟨hFirst, hOther⟩ := List.forall_mem_cons.1 hClosed
    obtain ⟨depth', last', hPasses, -, hDepth⟩ := Attribute.exists_passes hs.name hs.value (Or.inr hFirst.inside) last
    obtain rfl := hDepth.2 hFirst.quoted
    obtain ⟨last'', hAll⟩ := ih hRest hOther last'
    refine ⟨last'', ?_⟩
    rw [List.flatMap_cons, List.append_assoc, Slot.text, List.append_assoc]
    exact (TagEnd.Passes.blanks hs.space 0 last).append (hPasses.append hAll)

/-- A tag around the slots ends behind them if and only if they are all closed, or there is no `>` to stop at. -/
theorem region?_slots_iff (h : ∀ s ∈ ss, s.WellFormed) (hTail : ∀ c ∈ tail, isBlank c = true) {gap : Char}
    (hGap : isBlank gap = true) {attrs : Text} (hText : gap :: attrs = ss.flatMap Slot.text ++ tail) :
    TagEnd.region? (attrs ++ ['>']) = some (attrs, []) ↔
      (∀ s ∈ ss, s.attr.Closed) ∨ '>' ∉ ss.flatMap Slot.text ++ tail := by
  have hNe : '>' ≠ gap := by
    rintro rfl
    exact absurd hGap (by decide)
  rw [← hText, List.mem_cons, not_or]
  constructor
  · intro hRegion
    rcases TagEnd.region?_eq_some_iff.1 hRegion with hCut | ⟨-, hPlain⟩
    · rw [← TagEnd.cut?_blank_cons_iff hGap, hText] at hCut
      exact Or.inl (closed_of_cutAfter? h hTail hCut).2
    · exact Or.inr ⟨hNe, (TagEnd.plainCut?_eq_some_iff.1 hPlain).2⟩
  · rintro (hClosed | ⟨-, hFree⟩)
    · obtain ⟨last, hPasses⟩ := exists_passes_slots h hTail hClosed ' '
      rw [← hText] at hPasses
      exact TagEnd.region?_eq_some_iff.2 (Or.inl ((TagEnd.cut?_blank_cons_iff hGap attrs []).1
        (TagEnd.cut?_of_passes hPasses [])))
    · exact TagEnd.region?_of_not_mem hFree

/-- A tag that is written in slots is one element again, with the name and the attributes that were written,
if and only if the slots are apart, from one another and from the name. -/
theorem exists_tag_iff {t : Tag} (hHead : t.HeadSound) (hNe : ss ≠ []) (h : ∀ s ∈ ss, s.WellFormed)
    (hTail : ∀ c ∈ tail, isBlank c = true)
    (hClosed : (∀ s ∈ ss, s.attr.Closed) ∨ '>' ∉ ss.flatMap Slot.text ++ tail) {text : Text}
    (hText : text = '<' :: t.name ++ (ss.flatMap Slot.text ++ tail ++ ['>'])) :
    (∃ u : Tag, elements text = [⟨u, 0⟩] ∧ u.text = text ∧ u.name = t.name ∧
      records u.attrs = ss.map (·.attr.parts)) ↔ apart true ss = true := by
  constructor
  · rintro ⟨u, hElements, hSame, hName, hRecords⟩
    have hu : u.HeadSound := headSound_of_mem_elements (e := ⟨u, 0⟩) (hElements ▸ List.mem_singleton_self _)
    have hInner : u.gap :: u.attrs = ss.flatMap Slot.text ++ tail := by
      rw [hText, Tag.text, Tag.head, hName] at hSame
      apply List.append_cancel_right
      simpa using hSame
    rw [← records_blanks_append (List.forall_mem_singleton.2 hu.gap), List.singleton_append, hInner] at hRecords
    rw [apart_true_iff h hTail]
    refine ⟨apart_of_records h hTail hRecords, ?_⟩
    rw [← hInner]
    rintro c ⟨⟩
    exact isNameChar_eq_false_of_isBlank hu.gap
  · intro hApart
    obtain ⟨s, ss, rfl⟩ := List.exists_cons_of_ne_nil hNe
    have hSpace : s.space ≠ [] := by
      rw [apart, Bool.and_eq_true] at hApart
      simpa using hApart.1
    obtain ⟨gap, space, hCons⟩ := List.exists_cons_of_ne_nil hSpace
    have hGap : isBlank gap = true := (h s List.mem_cons_self).space gap (hCons ▸ List.mem_cons_self)
    obtain ⟨attrs, hInner⟩ : ∃ attrs, gap :: attrs = (s :: ss).flatMap Slot.text ++ tail := by
      refine ⟨space ++ s.attr.raw ++ ss.flatMap Slot.text ++ tail, ?_⟩
      simp [Slot.text, hCons]
    have hRecords := records_slots h hTail hApart
    rw [← hInner, ← List.singleton_append, records_blanks_append (List.forall_mem_singleton.2 hGap)] at hRecords
    have hTag : (Tag.mk t.name gap attrs).text = text := by
      rw [hText, ← hInner]
      simp [Tag.text, Tag.head]
    refine ⟨⟨t.name, gap, attrs⟩, ?_, hTag, rfl, hRecords⟩
    rw [← hTag]
    exact Tag.HeadSound.elements_text ⟨hHead.name, hGap⟩ ((region?_slots_iff h hTail hGap hInner).2 hClosed)

end

end ClassFold

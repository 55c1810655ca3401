import ClassFold.Proofs.Bytes.Attributes
import ClassFold.Proofs.Markup.Cutting

/-!
# Attributes written and read

A list of attributes is written with blanks between them, around each `=` and at both ends, and with a slash
behind them if the tag closes itself. From the written text the same attributes are read, each at the offset
at which it was written: `attributes_text`.
-/

set_option autoImplicit false

namespace ClassFold

/-- A value in straight quotes as it is written behind a name. -/
structure WrittenValue where
  /-- The blanks before the `=`. -/
  before : Text
  /-- The blanks behind the `=`. -/
  behind : Text
  braced : Bool
  quote : Char
  value : Text
deriving DecidableEq, Repr

namespace WrittenValue

variable {v : WrittenValue}

/-- All that stands between the name and the quote. -/
def opening (v : WrittenValue) : Text := v.before ++ '=' :: (v.behind ++ if v.braced then ['{'] else [])

def closing (v : WrittenValue) : Text := if v.braced then ['}'] else []

def text (v : WrittenValue) : Text := v.opening ++ v.quote :: (v.value ++ v.quote :: v.closing)

structure WellFormed (v : WrittenValue) : Prop where
  before : ∀ c ∈ v.before, isBlank c = true
  behind : ∀ c ∈ v.behind, isBlank c = true
  quote : v.quote = '\x22' ∨ v.quote = '\x27'
  value : v.quote ∉ v.value

def toQuoted (v : WrittenValue) : Quoted := ⟨v.opening, v.quote, v.value, v.closing⟩

theorem text_toQuoted (v : WrittenValue) : v.toQuoted.text = v.text := rfl

theorem WellFormed.toQuoted (h : v.WellFormed) : v.toQuoted.WellFormed := by
  obtain ⟨before, behind, braced, quote, value⟩ := v
  refine ⟨?_, h.value, before ++ '=' :: behind, ⟨before, behind, rfl, h.before, h.behind⟩, ?_⟩
  · obtain hq | hq := h.quote
    · exact Bool.or_eq_true_iff.2 (Or.inl (beq_iff_eq.2 hq))
    · exact Bool.or_eq_true_iff.2 (Or.inr (beq_iff_eq.2 hq))
  · cases braced with
    | false => exact Or.inl ⟨by simp [WrittenValue.toQuoted, opening], rfl⟩
    | true => exact Or.inr ⟨by simp [WrittenValue.toQuoted, opening], Or.inr rfl⟩

end WrittenValue

/-- An attribute as it is written: a bare name, or a name and a value. -/
structure WrittenAttribute where
  name : Text
  value? : Option WrittenValue
deriving DecidableEq, Repr

namespace WrittenAttribute

variable {a : WrittenAttribute} {rest : Text}

def text (a : WrittenAttribute) : Text := a.name ++ (a.value?.map WrittenValue.text).getD []

structure WellFormed (a : WrittenAttribute) : Prop where
  name : IsName a.name
  value : ∀ v, a.value? = some v → v.WellFormed

/-- What is recorded of the attribute if it was written at this offset. -/
def record (offset : Nat) (a : WrittenAttribute) : Checked.Record where
  raw := a.text
  name := a.name
  quote? := a.value?.map (·.quote)
  value? := a.value?.map (·.value)
  span := (offset, offset + a.text.size)
  valueSpan? := a.value?.map fun v =>
    let first := offset + Text.size (a.name ++ (v.opening ++ [v.quote]))
    (first, first + v.value.size)

def toAttribute (offset : Nat) (a : WrittenAttribute) : Attribute :=
  ⟨offset, a.name, a.value?.map WrittenValue.toQuoted⟩

theorem record_toAttribute (offset : Nat) (a : WrittenAttribute) :
    (a.toAttribute offset).record = a.record offset := by
  obtain ⟨name, _ | v⟩ := a
  · rfl
  · have hText := v.text_toQuoted
    rw [WrittenValue.toQuoted] at hText
    simp [toAttribute, record, Attribute.record, Attribute.raw, Attribute.quote?, Attribute.value?,
      Attribute.valueSpan?, Attribute.span, text, WrittenValue.toQuoted, hText, Nat.add_assoc]

theorem WellFormed.exists_text_eq_cons (h : a.WellFormed) :
    ∃ c s, a.text = c :: s ∧ isBlank c = false ∧ c ≠ '=' := by
  obtain ⟨c, cs, hName⟩ := List.exists_cons_of_ne_nil h.name.ne_nil
  have hc := isNameChar_eq_true_iff.1 (h.name.chars c (hName ▸ List.mem_cons_self))
  exact ⟨c, _, by rw [text, hName, List.cons_append], hc.1, hc.2.2.1⟩

end WrittenAttribute

/-- What may follow a written attribute: the slash of a tag that closes itself, or blanks and no `=`. -/
def StandsBehind (rest : Text) : Prop :=
  rest = ['/'] ∨ (∀ c, rest.head? = some c → isBlank c = true) ∧ (rest.dropWhile isBlank).head? ≠ some '='

theorem attributesFrom_slash (offset : Nat) : attributesFrom offset (pieces ['/']) = [] := by
  have hRead : (Piece.dropped ['/']).ReadsBefore [] :=
    Piece.WellFormed.readsBefore ⟨by decide, List.forall_mem_singleton.2 rfl⟩ (by rintro c ⟨⟩)
  have hAll := hRead.attributesFrom_append offset
  rw [pieces] at hAll
  exact hAll

theorem WrittenAttribute.WellFormed.attributesFrom_text_append {a : WrittenAttribute} (h : a.WellFormed)
    {rest : Text} (hRest : StandsBehind rest) (offset : Nat) :
    attributesFrom offset (pieces (a.text ++ rest)) =
      a.toAttribute offset :: attributesFrom (offset + a.text.size) (pieces rest) := by
  obtain ⟨name, _ | v⟩ := a
  · have hText : WrittenAttribute.text ⟨name, none⟩ = name := List.append_nil name
    rw [hText]
    obtain rfl | ⟨hBlank, hSign⟩ := hRest
    · -- The slash goes to the name that it stands behind.
      have hRead : (Piece.flag name ['/']).ReadsBefore [] :=
        Piece.WellFormed.readsBefore ⟨h.name, List.forall_mem_singleton.2 rfl⟩ ⟨by rintro c ⟨⟩, by decide⟩
      have hAll := hRead.attributesFrom_append offset
      rw [pieces, Piece.text, List.append_nil] at hAll
      rw [hAll, attributesFrom_slash]
      rfl
    · have hRead : (Piece.flag name []).ReadsBefore rest :=
        Piece.WellFormed.readsBefore ⟨h.name, List.forall_mem_nil _⟩
          ⟨fun c hc => isNameChar_eq_false_of_isBlank (hBlank c hc), hSign⟩
      have hAll := hRead.attributesFrom_append offset
      rw [Piece.text, List.append_nil] at hAll
      exact hAll
  · have hBrace : rest.head? ≠ some '}' := by
      obtain rfl | ⟨hBlank, -⟩ := hRest
      · decide
      · exact fun hHead => absurd (hBlank _ hHead) (by decide)
    have hRead : (Piece.valued name v.toQuoted).ReadsBefore rest :=
      Piece.WellFormed.readsBefore ⟨h.name, (h.value v rfl).toQuoted⟩ hBrace
    exact hRead.attributesFrom_append offset

/-- A region as it is written. Each attribute comes with the blanks in front of it. -/
structure WrittenRegion where
  attrs : List (Text × WrittenAttribute)
  /-- The blanks behind the last attribute. -/
  tail : Text
  selfClosing : Bool
deriving DecidableEq, Repr

namespace WrittenRegion

def spaced (p : Text × WrittenAttribute) : Text := p.1 ++ p.2.text

def ending (r : WrittenRegion) : Text := r.tail ++ if r.selfClosing then ['/'] else []

def text (r : WrittenRegion) : Text := r.attrs.flatMap spaced ++ r.ending

structure WellFormed (r : WrittenRegion) : Prop where
  attrs : ∀ p ∈ r.attrs, (∀ c ∈ p.1, isBlank c = true) ∧ p.2.WellFormed
  /-- Only the first attribute may stand without blanks in front of it. -/
  apart : ∀ p ∈ r.attrs.tail, p.1 ≠ []
  tail : ∀ c ∈ r.tail, isBlank c = true

/-- What is recorded of attributes that were written from this offset on. -/
def recordsFrom (offset : Nat) : List (Text × WrittenAttribute) → List Checked.Record
  | [] => []
  | (space, a) :: ps => a.record (offset + space.size) :: recordsFrom (offset + space.size + a.text.size) ps

variable {r : WrittenRegion} {ps : List (Text × WrittenAttribute)}

theorem WellFormed.standsBehind_ending (h : r.WellFormed) : StandsBehind r.ending := by
  obtain ⟨attrs, tail, selfClosing⟩ := r
  have hTail : ∀ c ∈ tail, isBlank c = true := h.tail
  cases tail with
  | nil =>
    cases selfClosing with
    | false => exact Or.inr ⟨by rintro c ⟨⟩, by simp [ending]⟩
    | true => exact Or.inl rfl
  | cons c tail =>
    refine Or.inr ⟨?_, ?_⟩
    · rintro d ⟨⟩
      exact hTail c List.mem_cons_self
    · rw [ending, List.dropWhile_append_of_pos hTail]
      cases selfClosing <;> simp [isBlank]

theorem standsBehind_spaced {p : Text × WrittenAttribute} (hSpace : ∀ c ∈ p.1, isBlank c = true) (hNe : p.1 ≠ [])
    (hAttr : p.2.WellFormed) (rest : Text) : StandsBehind (spaced p ++ rest) := by
  obtain ⟨space, a⟩ := p
  obtain ⟨c, s, hText, hBlank, hSign⟩ := hAttr.exists_text_eq_cons
  obtain ⟨b, bs, rfl⟩ := List.exists_cons_of_ne_nil hNe
  refine Or.inr ⟨?_, ?_⟩
  · rintro d ⟨⟩
    exact hSpace b List.mem_cons_self
  · rw [spaced, List.append_assoc, List.dropWhile_append_of_pos hSpace]
    simp [hText, hBlank, hSign]

theorem WellFormed.attributesFrom_ending (h : r.WellFormed) (offset : Nat) :
    attributesFrom offset (pieces r.ending) = [] := by
  rw [ending, attributesFrom_blanks_append h.tail]
  split
  · exact attributesFrom_slash _
  · rw [pieces]
    rfl

theorem WellFormed.map_record_attributesFrom (h : r.WellFormed)
    (hps : ∀ p ∈ ps, (∀ c ∈ p.1, isBlank c = true) ∧ p.2.WellFormed) (hApart : ∀ p ∈ ps.tail, p.1 ≠ [])
    (offset : Nat) :
    (attributesFrom offset (pieces (ps.flatMap spaced ++ r.ending))).map Attribute.record = recordsFrom offset ps := by
  induction ps generalizing offset with
  | nil =>
    rw [List.flatMap_nil, List.nil_append, h.attributesFrom_ending]
    rfl
  | cons p ps ih =>
    obtain ⟨space, a⟩ := p
    obtain ⟨⟨hSpace, hAttr⟩, hps⟩ := List.forall_mem_cons.1 hps
    have hBehind : StandsBehind (ps.flatMap spaced ++ r.ending) := by
      cases ps with
      | nil => exact h.standsBehind_ending
      | cons q qs =>
        obtain ⟨⟨hSpace', hAttr'⟩, -⟩ := List.forall_mem_cons.1 hps
        rw [List.flatMap_cons, List.append_assoc]
        exact standsBehind_spaced hSpace' (hApart q List.mem_cons_self) hAttr' _
    have hNext := ih hps (fun q hq => hApart q (List.mem_of_mem_tail hq))
    rw [List.flatMap_cons, spaced, List.append_assoc, List.append_assoc, attributesFrom_blanks_append hSpace,
      hAttr.attributesFrom_text_append hBehind, List.map_cons, WrittenAttribute.record_toAttribute, hNext]
    rfl

/-- The attributes are read back as they were written. -/
theorem attributes_text (r : WrittenRegion) (h : r.WellFormed) :
    (attributes r.text).map Attribute.record = recordsFrom 0 r.attrs :=
  h.map_record_attributesFrom h.attrs h.apart 0

/-- A bare name right in front of the slash, and values that hold what elsewhere has a meaning. -/
def sampleRegion : WrittenRegion where
  attrs := [
    ([' '], ⟨"größe".toList, some ⟨[' '], ['\t'], true, '\x22', "a > \x7d 'b'".toList⟩⟩),
    (['\n', ' '], ⟨['?'], none⟩),
    ([' '], ⟨":k".toList, some ⟨[], [], false, '\x27', "=\"".toList⟩⟩),
    ([' '], ⟨"w-1/2".toList, none⟩)]
  tail := []
  selfClosing := true

theorem attributes_text_sample :
    sampleRegion.WellFormed ∧ sampleRegion.text = " größe =\t\x7b\"a > \x7d 'b'\"\x7d\n ? :k='=\"' w-1/2/".toList ∧
      (attributes sampleRegion.text).map Attribute.record = recordsFrom 0 sampleRegion.attrs := by
  have h : sampleRegion.WellFormed := by
    have hBlanks {s : Text} (hs : s.all isBlank = true) : ∀ c ∈ s, isBlank c = true := List.all_eq_true.1 hs
    refine ⟨?_, by decide, List.forall_mem_nil _⟩
    refine List.forall_mem_cons.2 ⟨⟨hBlanks (by decide), by decide, ?_⟩,
      List.forall_mem_cons.2 ⟨⟨hBlanks (by decide), by decide, ?_⟩,
      List.forall_mem_cons.2 ⟨⟨hBlanks (by decide), by decide, ?_⟩,
      List.forall_mem_singleton.2 ⟨hBlanks (by decide), by decide, ?_⟩⟩⟩⟩
    all_goals rintro v ⟨⟩
    all_goals exact ⟨hBlanks (by decide), hBlanks (by decide), by decide, by decide⟩
  exact ⟨h, by decide, attributes_text sampleRegion h⟩

end WrittenRegion

end ClassFold

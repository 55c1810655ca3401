import ClassFold.Proofs.Markup.Account

/-!
# Attributes one call at a time

A call of the iterator steps on until something is found and gives the offset for the next call. Calls in a
row give the attributes of the region one after the other, and nothing ever after: `calls_eq`. What each
attribute says of itself is found in the region where it says it.
-/

set_option autoImplicit false

namespace ClassFold

namespace Checked

variable {α : Type} {n i next : Nat} {step : Nat → Checked (Step α)} {found? : Option α}

/-- The next of what is found in a text of `n` bytes, and the offset to go on from. -/
def nextFound (n : Nat) (step : Nat → Checked (Step α)) (i : Nat) : Checked (Option α × Nat) := do
  match ← step i with
  | .done => return (none, n)
  | .move found? next =>
    if i < next ∧ next ≤ n then
      match found? with
      | some x => return (some x, next)
      | none => nextFound n step next
    else throw (.stalled i)
termination_by n - i

/-- What a number of calls in a row give. -/
def calls (n : Nat) (step : Nat → Checked (Step α)) : Nat → Nat → Checked (List (Option α))
  | 0, _ => return []
  | m + 1, i => do
    let (found?, next) ← nextFound n step i
    let rest ← calls n step m next
    return found? :: rest

theorem nextFound_of_done (h : step i = .ok .done) : nextFound n step i = .ok (none, n) := by
  rw [nextFound, h]
  rfl

theorem nextFound_of_move (h : step i = .ok (.move found? next)) (hlt : i < next) (hle : next ≤ n) :
    nextFound n step i = found?.elim (nextFound n step next) fun x => .ok (some x, next) := by
  rw [nextFound, h, ok_bind]
  simp only [hlt, hle, and_self, if_true]
  cases found? <;> rfl

theorem calls_succ {m : Nat} (h : nextFound n step i = .ok (found?, next)) {rest : List (Option α)}
    (hRest : calls n step m next = .ok rest) : calls n step (m + 1) i = .ok (found? :: rest) := by
  rw [calls, h, ok_bind]
  simp only [hRest, ok_bind, pure_eq_ok]

/-- A call from between two characters gives the first attribute behind, and goes on from between two
characters. -/
theorem nextFound_bytes (a r : Text) :
    ∃ x s, ∃ found? : Option Attribute, r = x ++ s ∧
      nextFound (a ++ r).bytes.length (attributeStep (a ++ r)) a.size = .ok (found?.map Attribute.record, (a ++ x).size) ∧
      attributesFrom a.size (pieces r) = found?.toList ++ attributesFrom (a ++ x).size (pieces s) ∧
      (found? = none → s = []) := by
  induction hn : r.length using Nat.strong_induction_on generalizing a r with
  | _ n ih =>
    obtain ⟨hStep, hNone⟩ | ⟨x, s, found?, rfl, hNe, hStep, hFrom⟩ := attributeStep_bytes a r
    · refine ⟨r, [], none, by simp, ?_, ?_, fun _ => rfl⟩
      · rw [nextFound_of_done hStep, Text.length_bytes]
        rfl
      · rw [hNone, pieces]
        rfl
    · have hLength := List.length_pos_iff.2 hNe
      have hSize := Text.size_pos hNe
      have hlt : a.size < (a ++ x).size := by
        rw [Text.size_append]
        omega
      have hle : (a ++ x).size ≤ (a ++ (x ++ s)).bytes.length := by
        simp only [Text.length_bytes, Text.size_append]
        omega
      have hMove := nextFound_of_move hStep hlt hle
      cases found? with
      | some b => exact ⟨x, s, some b, rfl, hMove, hFrom, by rintro ⟨⟩⟩
      | none =>
        have hShort : s.length < n := by
          rw [← hn, List.length_append]
          omega
        obtain ⟨y, t, found?, rfl, hCall, hFrom', hEnd⟩ := ih _ hShort (a ++ x) s rfl
        rw [List.append_assoc] at hCall
        refine ⟨x ++ y, t, found?, (List.append_assoc x y t).symm, ?_, ?_, hEnd⟩
        · rw [hMove, ← List.append_assoc a x y]
          exact hCall
        · rw [hFrom, ← List.append_assoc a]
          exact hFrom'

theorem calls_bytes (m : Nat) (a r : Text) :
    calls (a ++ r).bytes.length (attributeStep (a ++ r)) m a.size =
      .ok ((List.range m).map fun k => (attributesFrom a.size (pieces r))[k]?.map Attribute.record) := by
  induction m generalizing a r with
  | zero => rfl
  | succ m ih =>
    obtain ⟨x, s, found?, rfl, hCall, hFrom, hEnd⟩ := nextFound_bytes a r
    have hRest := ih (a ++ x) s
    rw [List.append_assoc] at hRest
    rw [calls_succ hCall hRest, List.range_succ_eq_map, List.map_cons, List.map_map, hFrom]
    cases found? with
    | some b => rfl
    | none =>
      rw [hEnd rfl, pieces]
      rfl

end Checked

/-- What an attribute says of itself is found in the region. -/
structure Attribute.StandsIn (region : Text) (a : Attribute) : Prop where
  name : IsName a.name
  starts : a.name <+: a.raw
  raw : a.span.slice? region = some a.raw
  bare : a.value? = none → a.quote? = none ∧ a.valueSpan? = none ∧ a.raw = a.name ∧
    ∃ before slashes rest, region = before ++ (a.raw ++ (slashes ++ rest)) ∧ before.size = a.start ∧
      (∀ c ∈ slashes, c = '/') ∧ IsRun before (a.raw ++ slashes) rest
  valued : ∀ v, a.value? = some v → ∃ q r, a.quote? = some q ∧ a.valueSpan? = some r ∧ r.slice? region = some v ∧
    0 < r.start ∧ Checked.byteAt region.bytes (r.start - 1) = .ok q ∧
    Checked.byteAt region.bytes r.stop = .ok q ∧ isStraightQuote q = true ∧ q ∉ v

variable {region : Text} {a : Attribute}

theorem Checked.byteAt_quotes (x : Text) {q : Char} (hq : q.toNat < 128) (v y : Text) :
    byteAt (x ++ q :: (v ++ q :: y)).bytes x.size = .ok q ∧
      byteAt (x ++ q :: (v ++ q :: y)).bytes (x.size + 1 + v.size) = .ok q := by
  have hSize : (x ++ [q] ++ v).size = x.size + 1 + v.size := by
    rw [Text.size_append, size_append_singleton hq]
  have hText : x ++ q :: (v ++ q :: y) = (x ++ [q] ++ v) ++ q :: y := by simp
  refine ⟨?_, ?_⟩
  · rw [byteAt_bytes, firstByte_of_lt hq]
  · rw [hText, ← hSize, byteAt_bytes, firstByte_of_lt hq]

theorem standsIn_of_mem_attributes (h : a ∈ attributes region) : a.StandsIn region := by
  have hSound := sound_of_mem_attributes h
  refine ⟨hSound.name, ⟨_, rfl⟩, slice?_span_of_mem_attributes h, ?_, ?_⟩
  · intro hBare
    obtain ⟨front, p, back, hPieces, hPiece⟩ := mem_attributesFrom_iff.1 h
    have hFits := (accounts_pieces region).fits front p back hPieces
    have hRegion := flatMap_text_pieces region
    rw [hPieces, List.flatMap_append, List.flatMap_cons] at hRegion
    rw [Nat.zero_add] at hPiece
    cases p with
    | flag name slashes =>
      cases hPiece
      have hRaw : Attribute.raw ⟨Text.size (front.flatMap Piece.text), name, none⟩ = name := List.append_nil name
      rw [Piece.text, List.append_assoc] at hRegion
      rw [hRaw]
      exact ⟨rfl, rfl, rfl, _, slashes, _, hRegion.symm, rfl, hFits.2.1, hFits.2.2.1⟩
    | valued name q =>
      cases hPiece
      cases hBare
    | blanks _ | stray _ | string _ | dropped _ | sealed _ _ _ => cases hPiece
  · intro v hValued
    obtain ⟨q, hQuoted, rfl⟩ := Option.map_eq_some_iff.1 hValued
    have hq := hSound.quoted q hQuoted
    have hAscii := lt_of_isStraightQuote hq.straight
    obtain ⟨x, y, r, hRegion, hSpan, hStart, hStop, -⟩ := exists_valueSpan_of_mem_attributes h hQuoted
    obtain ⟨hOpen, hClose⟩ := Checked.byteAt_quotes x hAscii q.value y
    rw [← hRegion] at hOpen hClose
    have hFirst : r.start = x.size + 1 := by
      rw [← hStart, ← Checked.size_append_singleton hAscii]
    rw [← hFirst, hStop] at hClose
    have hBehind : region = (x ++ [q.quote]) ++ (q.value ++ q.quote :: y) := by simp [hRegion]
    refine ⟨q.quote, r, by rw [Attribute.quote?, hQuoted]; rfl, hSpan, ?_, by omega, ?_, hClose, hq.straight, hq.free⟩
    · rw [hBehind]
      apply Span.slice?_append _ _ _ hStart
      rw [hStart, hStop]
    · rw [hFirst, Nat.add_sub_cancel]
      exact hOpen

theorem pairwise_start_attributes (region : Text) :
    (attributes region).Pairwise fun a b => a.span.start < b.span.start ∧ a.span.stop ≤ b.span.start := by
  refine (pairwise_attributes region).imp_of_mem ?_
  intro a b ha hb hle
  exact ⟨Nat.lt_of_lt_of_le (sound_of_mem_attributes ha).start_lt_stop hle, hle⟩

/-- The region is cut into pieces in one way with nothing left over, the attributes are those of the pieces, and
the calls give one after the other and then nothing. -/
theorem attributes_account_for_region (region : Text) :
    (∀ ps, Accounts region ps ↔ ps = pieces region) ∧
      (∀ a, a ∈ attributes region ↔ ∃ front p back, pieces region = front ++ p :: back ∧
        p.attribute? (Text.size (front.flatMap Piece.text)) = some a) ∧
      (attributes region).Pairwise (fun a b => a.span.start < b.span.start ∧ a.span.stop ≤ b.span.start) ∧
      (∀ a ∈ attributes region, a.StandsIn region) ∧
      (∀ x r, region = x ++ r → Checked.attributeStep region x.size = .ok .done ∨
        ∃ y s found?, r = y ++ s ∧ x.size < (x ++ y).size ∧
          Checked.attributeStep region x.size = .ok (.move found? (x ++ y).size)) ∧
      ∀ m, Checked.calls region.bytes.length (Checked.attributeStep region) m 0 =
        .ok ((List.range m).map fun k => (attributes region)[k]?.map Attribute.record) := by
  refine ⟨fun ps => accounts_iff, ?_, pairwise_start_attributes region, fun a => standsIn_of_mem_attributes, ?_, ?_⟩
  · intro a
    rw [attributes, mem_attributesFrom_iff]
    simp only [Nat.zero_add]
  · rintro x r rfl
    obtain ⟨hStep, -⟩ | ⟨y, s, found?, rfl, hNe, hStep, -⟩ := Checked.attributeStep_bytes x r
    · exact Or.inl hStep
    · have hPos := Text.size_pos hNe
      refine Or.inr ⟨y, s, _, rfl, ?_, hStep⟩
      rw [Text.size_append]
      omega
  · exact fun m => Checked.calls_bytes m [] region

end ClassFold

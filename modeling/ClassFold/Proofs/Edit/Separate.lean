import ClassFold.Proofs.Bytes.Encoding
import ClassFold.Proofs.Edit.Script

/-!
# Edits that do not overlap

Spans of a text of which no two overlap have one order only. So edits at such spans make up a script,
however they are listed. If all of them remove, what the script leaves can be said without any order: it
is every byte that none of the spans covers.
-/

set_option autoImplicit false

namespace ClassFold

namespace Span

/-- No part of the text is in both, though they may touch. -/
def Apart (r q : Span) : Prop := r.stop ≤ q.start ∨ q.stop ≤ r.start

instance (r q : Span) : Decidable (r.Apart q) := inferInstanceAs (Decidable (_ ∨ _))

theorem Apart.symm {r q : Span} (h : r.Apart q) : q.Apart r := Or.symm h

/-- Spans between the characters of a text, in any order. -/
structure Separate (s : Text) (rs : List Span) : Prop where
  inside : ∀ r ∈ rs, (r.slice? s).isSome = true
  nonempty : ∀ r ∈ rs, r.start < r.stop
  apart : rs.Pairwise Apart

end Span

namespace Edit

/-- Edits that cover something and do not overlap are, in some order, the edits of a script. -/
theorem exists_script_of_apart {offset : Nat} {s : Text} {es : List Edit}
    (hApart : es.Pairwise fun a b => a.span.Apart b.span) (hNonempty : ∀ e ∈ es, e.span.start < e.span.stop)
    (hInside : ∀ e ∈ es, ∃ x r, Span.slice? r s = some x ∧ e.span = r.shift offset) :
    ∃ σ : Script, σ.before = s ∧ es.Perm (σ.edits offset) := by
  have hPerm := List.mergeSort_perm es startsBefore
  have hSorted := List.pairwise_mergeSort startsBefore_trans startsBefore_total es
  have hOrder : (es.mergeSort startsBefore).Pairwise fun a b => a.span.stop ≤ b.span.start := by
    apply (hSorted.and (hPerm.symm.pairwise hApart Span.Apart.symm)).imp_of_mem
    intro a b ha hb h
    have hStart : a.span.start ≤ b.span.start := by simpa [startsBefore] using h.1
    have hPos := hNonempty b (hPerm.subset hb)
    have hStop := a.span.start_le_stop
    rcases h.2 with hle | hle
    · exact hle
    · omega
  obtain ⟨σ, hBefore, hEdits⟩ := exists_script hOrder fun e he => hInside e (hPerm.subset he)
  exact ⟨σ, hBefore, hEdits ▸ hPerm.symm⟩

end Edit

/-- What stands at spans that are chosen from separate ones can be removed by a script. -/
theorem Span.Separate.exists_script_filter {s s' : Text} {rs : List Span} (h : Span.Separate s rs)
    {p : Span → Bool} {offset : Nat}
    (hInside : ∀ r ∈ rs, p r = true → ∃ x q, Span.slice? q s' = some x ∧ r = q.shift offset) :
    ∃ σ : Script, σ.before = s' ∧ ((rs.filter p).map (Edit.mk · [])).Perm (σ.edits offset) := by
  apply Edit.exists_script_of_apart
  · exact List.pairwise_map.2 (h.apart.filter p)
  · rw [List.forall_mem_map]
    exact fun r hr => h.nonempty r (List.mem_filter.1 hr).1
  · rw [List.forall_mem_map]
    exact fun r hr => hInside r (List.mem_filter.1 hr).1 (List.mem_filter.1 hr).2

namespace Span

def covers (r : Span) (i : Nat) : Bool := r.start ≤ i && i < r.stop

theorem covers_eq_true_iff {r : Span} {i : Nat} : r.covers i = true ↔ r.start ≤ i ∧ i < r.stop := by
  simp [covers]

/-- The bytes that no span covers, in order; the first one stands at `offset`. -/
def uncovered (rs : List Span) (offset : Nat) : List UInt8 → List UInt8
  | [] => []
  | b :: bs =>
    if rs.any (·.covers offset) then uncovered rs (offset + 1) bs else b :: uncovered rs (offset + 1) bs

variable {rs : List Span} {offset : Nat} {bs : List UInt8}

theorem uncovered_append (rs : List Span) (offset : Nat) (as bs : List UInt8) :
    uncovered rs offset (as ++ bs) = uncovered rs offset as ++ uncovered rs (offset + as.length) bs := by
  induction as generalizing offset with
  | nil => rfl
  | cons a as ih =>
    have hOffset : offset + (a :: as).length = offset + 1 + as.length := by
      rw [List.length_cons]
      omega
    rw [List.cons_append, uncovered, uncovered, ih, hOffset]
    split <;> rfl

theorem uncovered_eq_self (h : ∀ r ∈ rs, r.stop ≤ offset ∨ offset + bs.length ≤ r.start) :
    uncovered rs offset bs = bs := by
  induction bs generalizing offset with
  | nil => rfl
  | cons b bs ih =>
    have hNone : ¬ rs.any (·.covers offset) = true := by
      rw [List.any_eq_true]
      rintro ⟨r, hr, hCovers⟩
      have hCovers := covers_eq_true_iff.1 hCovers
      have hApart := h r hr
      rw [List.length_cons] at hApart
      omega
    rw [uncovered, if_neg hNone, ih]
    intro r hr
    have hApart := h r hr
    rw [List.length_cons] at hApart
    omega

theorem uncovered_eq_nil {r : Span} (hr : r ∈ rs) (hStart : r.start ≤ offset)
    (hStop : offset + bs.length ≤ r.stop) : uncovered rs offset bs = [] := by
  induction bs generalizing offset with
  | nil => rfl
  | cons b bs ih =>
    rw [List.length_cons] at hStop
    have hCovered : rs.any (·.covers offset) = true :=
      List.any_eq_true.2 ⟨r, hr, covers_eq_true_iff.2 ⟨hStart, by omega⟩⟩
    rw [uncovered, if_pos hCovered]
    exact ih (by omega) (by omega)

end Span

namespace Script

/-- A script that only removes leaves what is not covered by the spans of its edits, or by more spans that
do not reach its text. -/
theorem bytes_after_eq_uncovered {rs : List Span} {offset : Nat} {σ : Script}
    (hText : ∀ e ∈ σ.edits offset, e.text = []) (hMem : ∀ e ∈ σ.edits offset, e.span ∈ rs)
    (hReach : ∀ r ∈ rs, r ∈ (σ.edits offset).map (·.span) ∨ r.stop ≤ offset ∨ offset + σ.before.size ≤ r.start) :
    σ.after.bytes = Span.uncovered rs offset σ.before.bytes := by
  induction σ generalizing offset with
  | nil => rfl
  | cons c σ ih =>
    cases c with
    | kept s =>
      have hKept : Span.uncovered rs offset s.bytes = s.bytes := by
        apply Span.uncovered_eq_self
        intro r hr
        rw [Text.length_bytes]
        rcases hReach r hr with hEdit | hStop | hStart
        · obtain ⟨e, he, rfl⟩ := List.mem_map.1 hEdit
          exact Or.inr (le_start_of_mem_edits (σ := σ) he)
        · exact Or.inl hStop
        · rw [before_cons, Text.size_append] at hStart
          exact Or.inr (Nat.le_trans (Nat.add_le_add_left (Nat.le_add_right _ _) _) hStart)
      have hRest : (after σ).bytes = Span.uncovered rs (offset + s.size) (before σ).bytes := by
        apply ih hText hMem
        intro r hr
        have hApart := hReach r hr
        rw [before_cons, Text.size_append] at hApart
        exact hApart.imp_right fun h => by simp only [Chunk.before] at h; omega
      rw [before_cons, after_cons, Text.bytes_append, Text.bytes_append, Span.uncovered_append,
        Text.length_bytes, hRest]
      exact congrArg (· ++ _) hKept.symm
    | replaced old new =>
      have hHead : (⟨offset, offset + old.size, Nat.le_add_right _ _⟩ : Span) ∈ rs := hMem _ List.mem_cons_self
      have hNew : new = [] := hText _ List.mem_cons_self
      have hOld : Span.uncovered rs offset old.bytes = [] :=
        Span.uncovered_eq_nil hHead (Nat.le_refl _) (by rw [Text.length_bytes])
      have hRest : (after σ).bytes = Span.uncovered rs (offset + old.size) (before σ).bytes := by
        apply ih (fun e he => hText e (List.mem_cons_of_mem _ he)) fun e he => hMem e (List.mem_cons_of_mem _ he)
        intro r hr
        rcases hReach r hr with hEdit | hApart
        · rcases List.mem_cons.1 hEdit with rfl | hEdit
          · exact Or.inr (Or.inl (Nat.le_refl _))
          · exact Or.inl hEdit
        · rw [before_cons, Text.size_append] at hApart
          simp only [Chunk.before] at hApart
          exact Or.inr (by omega)
      rw [before_cons, after_cons, Text.bytes_append, Text.bytes_append, Span.uncovered_append,
        Text.length_bytes, hRest]
      simp only [Chunk.before, Chunk.after]
      rw [hOld, hNew]
      rfl

/-- The same for edits of a longer list, of which the others stand in front of the text or behind it. -/
theorem bytes_after_of_perm {rs : List Span} {offset : Nat} {σ : Script} (es fs : List Edit)
    (hPerm : (rs.map (Edit.mk · [])).Perm (es ++ σ.edits offset ++ fs))
    (hBefore : ∀ e ∈ es, e.span.stop ≤ offset) (hBehind : ∀ f ∈ fs, offset + σ.before.size ≤ f.span.start) :
    σ.after.bytes = Span.uncovered rs offset σ.before.bytes := by
  have hMem : ∀ e ∈ σ.edits offset, ∃ r ∈ rs, Edit.mk r [] = e := fun e he =>
    List.mem_map.1 (hPerm.symm.subset (List.mem_append_left _ (List.mem_append_right _ he)))
  apply bytes_after_eq_uncovered
  · intro e he
    obtain ⟨r, -, rfl⟩ := hMem e he
    rfl
  · intro e he
    obtain ⟨r, hr, rfl⟩ := hMem e he
    exact hr
  · intro r hr
    rcases List.mem_append.1 (hPerm.subset (List.mem_map_of_mem hr)) with h | h
    · rcases List.mem_append.1 h with h | h
      · exact Or.inr (Or.inl (hBefore _ h))
      · exact Or.inl (List.mem_map_of_mem h)
    · exact Or.inr (Or.inr (hBehind _ h))

end Script

end ClassFold

import ClassFold.Edit
import ClassFold.Proofs.Text.Split

/-!
# Scripts

A script says how one text becomes another: it is the list of the parts that are kept and of the parts
that are replaced. Applying edits is carrying out a script, `applyFrom_edits`, and edits that stand in
order between the characters of a text are the edits of a script, `exists_script`.
-/

set_option autoImplicit false

namespace ClassFold

inductive Chunk where
  | kept (s : Text)
  /-- An empty old part makes an insertion, an empty new part a removal. -/
  | replaced (old new : Text)
deriving DecidableEq, Repr

namespace Chunk

def before : Chunk → Text
  | kept s => s
  | replaced old _ => old

def after : Chunk → Text
  | kept s => s
  | replaced _ new => new

def common : Chunk → Text
  | kept s => s
  | replaced _ _ => []

end Chunk

abbrev Script := List Chunk

namespace Script

def before (σ : Script) : Text := σ.flatMap Chunk.before

def after (σ : Script) : Text := σ.flatMap Chunk.after

/-- The text that is neither removed nor inserted. -/
def common (σ : Script) : Text := σ.flatMap Chunk.common

/-- The replacements of a script for a text that starts at `offset`. -/
def edits (offset : Nat) : Script → List Edit
  | [] => []
  | .kept s :: σ => edits (offset + s.size) σ
  | .replaced old new :: σ =>
    ⟨⟨offset, offset + old.size, Nat.le_add_right _ _⟩, new⟩ :: edits (offset + old.size) σ

@[simp] theorem before_nil : before [] = [] := rfl

@[simp] theorem after_nil : after [] = [] := rfl

@[simp] theorem before_cons (c : Chunk) (σ : Script) : before (c :: σ) = c.before ++ before σ := rfl

@[simp] theorem after_cons (c : Chunk) (σ : Script) : after (c :: σ) = c.after ++ after σ := rfl

@[simp] theorem before_append (σ τ : Script) : before (σ ++ τ) = before σ ++ before τ :=
  List.flatMap_append

@[simp] theorem after_append (σ τ : Script) : after (σ ++ τ) = after σ ++ after τ :=
  List.flatMap_append

@[simp] theorem edits_append (offset : Nat) (σ τ : Script) :
    edits offset (σ ++ τ) = edits offset σ ++ edits (offset + σ.before.size) τ := by
  induction σ generalizing offset with
  | nil => rfl
  | cons c σ ih => cases c <;> simp [edits, ih, Chunk.before, Nat.add_assoc]

end Script

namespace Edit

/-- The edit of a script that puts `new` in the place of `old`. -/
def replacing (offset : Nat) (old new : Text) : Edit :=
  ⟨⟨offset, offset + old.size, Nat.le_add_right _ _⟩, new⟩

def shift (e : Edit) (offset : Nat) : Edit := ⟨e.span.shift offset, e.text⟩

@[simp] theorem span_shift (e : Edit) (n : Nat) : (e.shift n).span = e.span.shift n := rfl

end Edit

namespace Script

theorem edits_replaced (offset : Nat) (old new : Text) (σ : Script) :
    edits offset (.replaced old new :: σ) = .replacing offset old new :: edits (offset + old.size) σ := rfl

theorem edits_add (n offset : Nat) (σ : Script) :
    edits (n + offset) σ = (edits offset σ).map (·.shift n) := by
  induction σ generalizing offset with
  | nil => rfl
  | cons c σ ih => cases c <;> simp [edits, Edit.shift, Span.shift, Nat.add_assoc, ih]

theorem le_start_of_mem_edits {offset : Nat} {σ : Script} {e : Edit} (h : e ∈ edits offset σ) :
    offset ≤ e.span.start := by
  induction σ generalizing offset with
  | nil => cases h
  | cons c σ ih =>
    cases c with
    | kept s => exact Nat.le_trans (Nat.le_add_right _ _) (ih h)
    | replaced old new =>
      rcases List.mem_cons.1 h with rfl | h
      · exact Nat.le_refl _
      · exact Nat.le_trans (Nat.le_add_right _ _) (ih h)

theorem stop_le_of_mem_edits {offset : Nat} {σ : Script} {e : Edit} (h : e ∈ edits offset σ) :
    e.span.stop ≤ offset + σ.before.size := by
  induction σ generalizing offset with
  | nil => cases h
  | cons c σ ih =>
    rw [before_cons, Text.size_append, ← Nat.add_assoc]
    cases c with
    | kept s => exact ih h
    | replaced old new =>
      rcases List.mem_cons.1 h with rfl | h
      · exact Nat.le_add_right _ _
      · exact ih h

theorem pairwise_edits (offset : Nat) (σ : Script) :
    (edits offset σ).Pairwise fun a b => a.span.stop ≤ b.span.start := by
  induction σ generalizing offset with
  | nil => exact List.Pairwise.nil
  | cons c σ ih =>
    cases c with
    | kept s => exact ih _
    | replaced old new => exact List.pairwise_cons.2 ⟨fun e he => le_start_of_mem_edits he, ih _⟩

end Script

namespace Edit

theorem around?_append (offset : Nat) (new kept old rest : Text) :
    around? offset ⟨⟨offset + kept.size, offset + kept.size + old.size, Nat.le_add_right _ _⟩, new⟩
      (kept ++ (old ++ rest)) = some (kept, rest) := by
  have hStart : offset + kept.size - offset = kept.size := by omega
  have hStop : offset + kept.size + old.size - (offset + kept.size) = old.size := by omega
  simp [around?, hStart, hStop]

theorem exists_of_around?_eq_some {offset : Nat} {e : Edit} {s kept rest : Text}
    (h : around? offset e s = some (kept, rest)) :
    ∃ old, s = kept ++ (old ++ rest) ∧ offset + kept.size = e.span.start ∧
      e.span.start + old.size = e.span.stop := by
  have hSpan := e.span.start_le_stop
  unfold around? at h
  split at h
  · simp only [Option.bind_eq_bind, Option.bind_eq_some_iff, Option.pure_def, Option.some.injEq,
      Prod.exists, Text.splitAt?_eq_some_iff, Prod.mk.injEq] at h
    obtain ⟨kept, behind, ⟨rfl, hKept⟩, old, rest, ⟨rfl, hOld⟩, rfl, rfl⟩ := h
    exact ⟨old, rfl, by omega, by omega⟩
  · cases h

/-- Carried out from behind a part that is kept, which the induction needs free. -/
theorem applyFrom_edits_append (offset : Nat) (kept : Text) (σ : Script) :
    applyFrom offset (σ.edits (offset + kept.size)) (kept ++ σ.before) = .ok (kept ++ σ.after) := by
  induction σ generalizing offset kept with
  | nil => simp [Script.edits, applyFrom]
  | cons c σ ih =>
    cases c with
    | kept s =>
      have h := ih offset (kept ++ s)
      simpa [Script.edits, Chunk.before, Chunk.after, Nat.add_assoc] using h
    | replaced old new =>
      have h := ih (offset + kept.size + old.size) []
      simp only [Text.size_nil, Nat.add_zero, List.nil_append] at h
      simp only [Script.edits, Script.before_cons, Script.after_cons, Chunk.before, Chunk.after,
        applyFrom, around?_append, h]
      rfl

theorem applyFrom_edits (offset : Nat) (σ : Script) :
    applyFrom offset (σ.edits offset) σ.before = .ok σ.after := by
  simpa using applyFrom_edits_append offset [] σ

theorem applyFrom_append (offset : Nat) (front s : Text) {es : List Edit}
    (h : ∀ e ∈ es, offset + front.size ≤ e.span.start) :
    applyFrom offset es (front ++ s) = (applyFrom (offset + front.size) es s).map (front ++ ·) := by
  cases es with
  | nil => rfl
  | cons e es =>
    have hStart := h e List.mem_cons_self
    have hAround : around? offset e (front ++ s) =
        (around? (offset + front.size) e s).map fun p => (front ++ p.1, p.2) := by
      rw [around?, around?, if_pos (by omega), if_pos hStart]
      apply Option.ext
      rintro ⟨a, b⟩
      simp only [Option.bind_eq_bind, Option.bind_eq_some_iff, Option.pure_def, Option.some.injEq,
        Prod.exists, Text.splitAt?_eq_some_iff, Option.map_eq_some_iff, Prod.mk.injEq]
      constructor
      · rintro ⟨a, rest, ⟨hs, ha⟩, x, b, hx, rfl, rfl⟩
        obtain ⟨m, rfl, rfl⟩ := Text.exists_append_of_size_le hs (by omega)
        rw [Text.size_append] at ha
        exact ⟨m, b, ⟨m, rest, ⟨rfl, by omega⟩, x, b, hx, rfl, rfl⟩, rfl, rfl⟩
      · rintro ⟨m, b, ⟨m, rest, ⟨rfl, hm⟩, x, b, hx, rfl, rfl⟩, rfl, rfl⟩
        exact ⟨front ++ m, rest, ⟨by simp, by rw [Text.size_append]; omega⟩, x, b, hx, rfl, rfl⟩
    rw [applyFrom, applyFrom, hAround]
    cases around? (offset + front.size) e s with
    | none => rfl
    | some p =>
      simp only [Option.map_some]
      cases applyFrom e.span.stop es p.2 with
      | error e => rfl
      | ok edited => simp [bind, Except.bind, pure, Except.pure, Except.map]

theorem exists_script {offset : Nat} {s : Text} {es : List Edit}
    (hOrder : es.Pairwise fun a b => a.span.stop ≤ b.span.start)
    (hInside : ∀ e ∈ es, ∃ x r, Span.slice? r s = some x ∧ e.span = r.shift offset) :
    ∃ σ : Script, σ.before = s ∧ σ.edits offset = es := by
  induction es generalizing offset s with
  | nil => exact ⟨[.kept s], by simp [Chunk.before], rfl⟩
  | cons e es ih =>
    obtain ⟨hFirst, hOrder⟩ := List.pairwise_cons.1 hOrder
    obtain ⟨x, r, hSlice, hSpan⟩ := hInside e List.mem_cons_self
    obtain ⟨a, b, rfl, ha, hx⟩ := Span.slice?_eq_some_iff.1 hSlice
    -- The other edits are edits of what stands behind the first one.
    have hRest : ∀ e' ∈ es, ∃ y q, Span.slice? q b = some y ∧
        e'.span = q.shift (offset + (a ++ x).size) := by
      intro e' he'
      obtain ⟨y, r', hSlice', hSpan'⟩ := hInside e' (List.mem_cons_of_mem _ he')
      have hle := hFirst e' he'
      rw [hSpan, hSpan', Span.stop_shift, Span.start_shift] at hle
      obtain ⟨a', m, b', hs, ha', hm, hm'⟩ := Span.exists_between hSlice hSlice' (by omega)
      have hb : b = m ++ (y ++ b') := by
        have hEq : (a ++ x) ++ b = (a' ++ x) ++ (m ++ (y ++ b')) := by simpa using hs
        exact (Text.append_inj_of_size_eq hEq (by simp only [Text.size_append]; omega)).2
      have hSize := Span.slice?_eq_some_iff.1 hSlice'
      obtain ⟨_, _, -, hStart', hStop'⟩ := hSize
      refine ⟨y, ⟨m.size, m.size + y.size, Nat.le_add_right _ _⟩, ?_, ?_⟩
      · rw [hb]
        exact Span.slice?_append m y b' rfl rfl
      · rw [hSpan']
        simp only [Span.shift, Text.size_append, Span.mk.injEq]
        omega
    obtain ⟨σ, hBefore, hEdits⟩ := ih hOrder hRest
    refine ⟨.kept a :: .replaced x e.text :: σ, by simp [Chunk.before, hBefore], ?_⟩
    have hEdit : (⟨⟨offset + a.size, offset + a.size + x.size, Nat.le_add_right _ _⟩, e.text⟩ : Edit) = e := by
      obtain ⟨span, text⟩ := e
      simp only at hSpan
      subst hSpan
      simp only [Span.shift, Edit.mk.injEq, Span.mk.injEq, and_true]
      omega
    rw [Script.edits, Script.edits, hEdit]
    rw [Text.size_append, ← Nat.add_assoc] at hEdits
    rw [hEdits]

/-- A list has one order only if no two of its members stand both before one another. -/
theorem mergeSort_eq_of_perm {α : Type} {le : α → α → Bool} {as bs : List α}
    (hTrans : ∀ a b c, le a b → le b c → le a c) (hTotal : ∀ a b, le a b || le b a)
    (hPerm : as.Perm bs) (hOrder : bs.Pairwise fun a b => le a b = true ∧ le b a = false) :
    as.mergeSort le = bs := by
  have hOnce : bs.Pairwise fun a b => le a b = true → le b a = true → a = b :=
    hOrder.imp fun h _ hba => by simp [h.2] at hba
  have hFlip : bs.Pairwise (flip fun a b => le a b = true → le b a = true → a = b) :=
    hOrder.imp fun h hba _ => by simp [h.2] at hba
  have hAntisymm := hOnce.forall_of_forall_of_flip (fun _ _ _ _ => rfl) hFlip
  have hSort := (List.mergeSort_perm as le).trans hPerm
  apply List.Perm.eq_of_pairwise _ (List.pairwise_mergeSort hTrans hTotal as)
    (hOrder.imp fun h => h.1) hSort
  intro a b ha hb hab hba
  exact hAntisymm (hSort.subset ha) hb hab hba

theorem standsBefore_trans (a b c : Edit) (hab : standsBefore a b) (hbc : standsBefore b c) : standsBefore a c := by
  simp only [standsBefore, Bool.or_eq_true, decide_eq_true_eq, Bool.and_eq_true, beq_iff_eq] at hab hbc ⊢
  omega

theorem standsBefore_total (a b : Edit) : standsBefore a b || standsBefore b a := by
  simp only [standsBefore, Bool.or_eq_true, decide_eq_true_eq, Bool.and_eq_true, beq_iff_eq]
  omega

theorem startsBefore_trans (a b c : Edit) (hab : startsBefore a b) (hbc : startsBefore b c) : startsBefore a c := by
  simp only [startsBefore, decide_eq_true_eq] at hab hbc ⊢
  omega

theorem startsBefore_total (a b : Edit) : startsBefore a b || startsBefore b a := by
  simp only [startsBefore, Bool.or_eq_true, decide_eq_true_eq]
  omega

/-- Edits in order, of which no two are insertions at one place, are what sorting makes of them. -/
theorem mergeSort_standsBefore {es fs : List Edit} (hPerm : es.Perm fs)
    (hOrder : fs.Pairwise fun a b => a.span.stop ≤ b.span.start ∧
      (a.span.start < a.span.stop ∨ b.span.start < b.span.stop)) :
    es.mergeSort standsBefore = fs := by
  apply mergeSort_eq_of_perm standsBefore_trans standsBefore_total hPerm
  apply hOrder.imp
  intro a b h
  have ha := a.span.start_le_stop
  have hb := b.span.start_le_stop
  simp only [standsBefore, Bool.or_eq_true, decide_eq_true_eq, Bool.and_eq_true, beq_iff_eq,
    Bool.or_eq_false_iff, decide_eq_false_iff_not, Bool.and_eq_false_iff, beq_eq_false_iff_ne]
  omega

variable {offset : Nat} {σ : Script} {es : List Edit}

/-- However the edits of a script are listed, sorting finds their order again, provided that of any two
one covers something. -/
theorem mergeSort_standsBefore_of_perm (hPerm : es.Perm (σ.edits offset))
    (hEmpty : es.Pairwise fun a b => a.span.start < a.span.stop ∨ b.span.start < b.span.stop) :
    es.mergeSort standsBefore = σ.edits offset :=
  mergeSort_standsBefore hPerm ((Script.pairwise_edits offset σ).and (hPerm.pairwise hEmpty Or.symm))

theorem mergeSort_startsBefore_of_perm (hPerm : es.Perm (σ.edits offset))
    (hNonempty : ∀ e ∈ es, e.span.start < e.span.stop) : es.mergeSort startsBefore = σ.edits offset := by
  apply mergeSort_eq_of_perm startsBefore_trans startsBefore_total hPerm
  apply (Script.pairwise_edits offset σ).imp_of_mem
  intro a b ha hb hle
  have hPos := hNonempty a (hPerm.symm.subset ha)
  simp only [startsBefore, decide_eq_true_eq, decide_eq_false_iff_not]
  omega

end Edit

end ClassFold

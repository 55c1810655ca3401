import Mathlib.Algebra.GroupWithZero.Nat
import ClassFold.Plan
import ClassFold.Proofs.Edit.Separate

/-!
# Applying a plan in parts

A plan is applied in one pass over the document. When its entries do not overlap, the result is the same
as replacing them one at a time from the last to the first, where no replacement moves an entry that is
still to come, and the order in which a plan lists its entries does not matter. Some of the entries may
also be applied first: the others are then moved by what the first ones have made the text longer or
shorter in front of them, `Edit.movedBy`. All of this is `Plan.apply_of_separate`.
-/

set_option autoImplicit false

namespace ClassFold

namespace Edit

/-- The bytes of a text with those of one span replaced. -/
def splice (e : Edit) (bs : List UInt8) : List UInt8 :=
  bs.take e.span.start ++ (e.text.bytes ++ bs.drop e.span.stop)

def added (as : List Edit) : Nat := (as.map (·.text.size)).sum

def removed (as : List Edit) : Nat := (as.map fun a => a.span.stop - a.span.start).sum

/-- Where an offset behind `as` stands once these are made. -/
def displaced (as : List Edit) (i : Nat) : Nat := i + added as - removed as

def before (as : List Edit) (e : Edit) : List Edit := as.filter (·.span.stop ≤ e.span.start)

/-- The edit as it stands once `as` are made: moved by what those before it have made the text longer or
shorter. -/
def movedBy (as : List Edit) (e : Edit) : Edit :=
  ⟨⟨displaced (before as e) e.span.start, displaced (before as e) e.span.stop,
    by have h := e.span.start_le_stop; unfold displaced; omega⟩, e.text⟩

variable {as bs : List Edit} {e : Edit}

theorem added_perm (h : as.Perm bs) : added as = added bs := (h.map _).sum_nat

theorem removed_perm (h : as.Perm bs) : removed as = removed bs := (h.map _).sum_nat

theorem movedBy_perm (h : as.Perm bs) (e : Edit) : movedBy as e = movedBy bs e := by
  have hBefore : (before as e).Perm (before bs e) := h.filter _
  simp only [movedBy, displaced, added_perm hBefore, removed_perm hBefore]

example : [replacing 5 ['o'] [], replacing 0 ['w'] ['v']].map (movedBy [replacing 2 ['l'] ['é']]) =
    [replacing 6 ['o'] [], replacing 0 ['w'] ['v']] := by
  decide

theorem displaced_add {i : Nat} (h : removed as ≤ i) (n : Nat) : displaced as (i + n) = displaced as i + n := by
  unfold displaced
  omega

theorem removed_concat (as : List Edit) (e : Edit) :
    removed (as ++ [e]) = removed as + (e.span.stop - e.span.start) := by simp [removed]

theorem displaced_concat (h : removed as ≤ e.span.start) :
    displaced (as ++ [e]) e.span.stop = displaced as e.span.start + e.text.size := by
  have hStop := e.span.start_le_stop
  have hAdded : added (as ++ [e]) = added as + e.text.size := by simp [added]
  rw [displaced, displaced, hAdded, removed_concat]
  omega

/-- An edit is moved by those that end before it and not by those that end behind its start. -/
theorem before_append (hAs : ∀ a ∈ as, a.span.stop ≤ e.span.start) (hBs : ∀ b ∈ bs, e.span.start < b.span.stop) :
    before (as ++ bs) e = as := by
  rw [before, List.filter_append, List.filter_eq_self.2 (by simpa using hAs),
    List.filter_eq_nil_iff.2 (by simpa using hBs), List.append_nil]

/-- Two parts of a list of different edits are those edits that are in the first part and those that are not. -/
theorem perm_filter_of_perm_append {as bs es : List Edit} (hPerm : (as ++ bs).Perm es) (hNodup : (as ++ bs).Nodup) :
    as.Perm (es.filter (· ∈ as)) ∧ bs.Perm (es.filter fun e => !decide (e ∈ as)) := by
  have hApart : ∀ b ∈ bs, b ∉ as := fun b hb ha => (List.nodup_append.1 hNodup).2.2 b ha b hb rfl
  constructor
  · have hIn := hPerm.filter (· ∈ as)
    rwa [List.filter_append, List.filter_eq_self.2 (by simp), List.filter_eq_nil_iff.2 (by simpa using hApart),
      List.append_nil] at hIn
  · have hOut := hPerm.filter fun e => !decide (e ∈ as)
    rwa [List.filter_append, List.filter_eq_nil_iff.2 (by simp), List.filter_eq_self.2 (by simpa using hApart),
      List.nil_append] at hOut

end Edit

namespace Script

/-- One after another, the last one first, on bytes that start with those of what stands before. -/
theorem foldr_splice_edits (front : List UInt8) (σ : Script) :
    (σ.edits front.length).foldr Edit.splice (front ++ σ.before.bytes) = front ++ σ.after.bytes := by
  induction σ generalizing front with
  | nil => rfl
  | cons c σ ih =>
    cases c with
    | kept s =>
      have h := ih (front ++ s.bytes)
      rw [List.length_append, Text.length_bytes] at h
      simpa [edits, Chunk.before, Chunk.after] using h
    | replaced old new =>
      have h := ih (front ++ old.bytes)
      rw [List.length_append, Text.length_bytes, List.append_assoc] at h
      have hSize : front.length + old.size = (front ++ old.bytes).length := by
        rw [List.length_append, Text.length_bytes]
      rw [edits, List.foldr_cons, before_cons, after_cons, Chunk.before, Chunk.after, Text.bytes_append,
        Text.bytes_append, h]
      simp only [Edit.splice]
      rw [hSize, List.drop_left, List.append_assoc, List.take_left]

variable (p : Edit → Bool)

/-- The script that makes only the edits of a choice. -/
def chosen (offset : Nat) : Script → Script
  | [] => []
  | .kept s :: σ => .kept s :: chosen (offset + s.size) σ
  | .replaced old new :: σ =>
    (if p (.replacing offset old new) then .replaced old new else .kept old) ::
      chosen (offset + old.size) σ

/-- The script that makes the other edits, once the chosen ones are made. -/
def others (offset : Nat) : Script → Script
  | [] => []
  | .kept s :: σ => .kept s :: others (offset + s.size) σ
  | .replaced old new :: σ =>
    (if p (.replacing offset old new) then .kept new else .replaced old new) ::
      others (offset + old.size) σ

variable {p} (offset : Nat) (σ : Script)

theorem before_chosen : (σ.chosen p offset).before = σ.before := by
  induction σ generalizing offset with
  | nil => rfl
  | cons c σ ih =>
    cases c with
    | kept s => rw [chosen, before_cons, before_cons, ih]
    | replaced old new =>
      rw [chosen, before_cons, before_cons, ih]
      split <;> rfl

theorem after_chosen : (σ.chosen p offset).after = (σ.others p offset).before := by
  induction σ generalizing offset with
  | nil => rfl
  | cons c σ ih =>
    cases c with
    | kept s => rw [chosen, others, after_cons, before_cons, ih]; rfl
    | replaced old new =>
      rw [chosen, others, after_cons, before_cons, ih]
      split <;> rfl

theorem after_others : (σ.others p offset).after = σ.after := by
  induction σ generalizing offset with
  | nil => rfl
  | cons c σ ih =>
    cases c with
    | kept s => rw [others, after_cons, after_cons, ih]
    | replaced old new =>
      rw [others, after_cons, after_cons, ih]
      split <;> rfl

theorem edits_chosen : (σ.chosen p offset).edits offset = (σ.edits offset).filter p := by
  induction σ generalizing offset with
  | nil => rfl
  | cons c σ ih =>
    cases c with
    | kept s => exact ih _
    | replaced old new =>
      rw [chosen, edits_replaced, List.filter_cons]
      split
      · rw [edits_replaced, ih]
      · exact ih _

/-- The other edits stand where the chosen ones before them have moved them. Some of these, `as`, may have
been passed already. -/
theorem edits_others {as : List Edit} (hPassed : ∀ a ∈ as, a.span.stop ≤ offset)
    (hRemoved : Edit.removed as ≤ offset) (hNonempty : ∀ e ∈ edits offset σ, e.span.start < e.span.stop) :
    (others p offset σ).edits (Edit.displaced as offset) =
      ((edits offset σ).filter (!p ·)).map (Edit.movedBy (as ++ (edits offset σ).filter p)) := by
  induction σ generalizing offset as with
  | nil => rfl
  | cons c σ ih =>
    cases c with
    | kept s =>
      have h := ih (offset + s.size) (fun a ha => Nat.le_add_right_of_le (hPassed a ha))
        (Nat.le_add_right_of_le hRemoved) hNonempty
      rw [others, edits, edits, ← h, Edit.displaced_add hRemoved]
    | replaced old new =>
      have hHead : (Edit.replacing offset old new).span.stop = offset + old.size := rfl
      have hPos : offset < offset + old.size := hNonempty (.replacing offset old new) List.mem_cons_self
      have hRest : ∀ f ∈ edits (offset + old.size) σ, f.span.start < f.span.stop :=
        fun f hf => hNonempty f (List.mem_cons_of_mem _ hf)
      have hAs : ∀ a ∈ as, a.span.stop ≤ offset + old.size := fun a ha => Nat.le_add_right_of_le (hPassed a ha)
      rw [others, edits_replaced]
      by_cases hChosen : p (.replacing offset old new) = true
      · -- The edit has been made, and from now on it counts among those that have been passed.
        have hAll : ∀ a ∈ as ++ [.replacing offset old new], a.span.stop ≤ offset + old.size := by
          intro a ha
          rcases List.mem_append.1 ha with ha | ha
          · exact hAs a ha
          · rw [List.mem_singleton.1 ha, hHead]
        have hSum : Edit.removed (as ++ [.replacing offset old new]) ≤ offset + old.size := by
          rw [Edit.removed_concat]
          simp only [Edit.replacing]
          omega
        have h := ih (offset + old.size) hAll hSum hRest
        rw [← hHead, Edit.displaced_concat hRemoved, List.append_assoc, List.singleton_append] at h
        rw [if_pos hChosen, List.filter_cons_of_neg (p := (!p ·)) (by simp [hChosen]),
          List.filter_cons_of_pos hChosen, edits]
        exact h
      · -- The edit is still to be made. The chosen ones that follow stand behind it and do not move it.
        have h := ih (offset + old.size) hAs (Nat.le_add_right_of_le hRemoved) hRest
        have hBefore :
            Edit.before (as ++ (edits (offset + old.size) σ).filter p) (.replacing offset old new) = as := by
          apply Edit.before_append hPassed
          intro b hb
          obtain ⟨hb, -⟩ := List.mem_filter.1 hb
          exact Nat.lt_trans (Nat.lt_of_lt_of_le hPos (le_start_of_mem_edits hb)) (hRest b hb)
        have hMoved : Edit.movedBy (as ++ (edits (offset + old.size) σ).filter p) (.replacing offset old new) =
            .replacing (Edit.displaced as offset) old new := by
          simp only [Edit.movedBy, hBefore]
          simp only [Edit.replacing, Edit.displaced_add hRemoved]
        rw [if_neg hChosen, List.filter_cons_of_pos (p := (!p ·)) (by simp [hChosen]),
          List.filter_cons_of_neg hChosen, List.map_cons, hMoved, ← h, edits_replaced, Edit.displaced_add hRemoved]

theorem start_lt_stop_of_mem_edits_others (offset' : Nat) (h : ∀ e ∈ edits offset σ, e.span.start < e.span.stop)
    {e : Edit} (he : e ∈ (others p offset σ).edits offset') : e.span.start < e.span.stop := by
  induction σ generalizing offset offset' with
  | nil => cases he
  | cons c σ ih =>
    cases c with
    | kept s => exact ih _ _ h he
    | replaced old new =>
      have hPos := h _ List.mem_cons_self
      have hRest : ∀ e ∈ edits (offset + old.size) σ, e.span.start < e.span.stop :=
        fun e he => h e (List.mem_cons_of_mem _ he)
      rw [others] at he
      split at he
      · exact ih _ _ hRest he
      · rcases List.mem_cons.1 he with rfl | he
        · simp only at hPos ⊢
          omega
        · exact ih _ _ hRest he

end Script

namespace Plan

variable {plan : Plan} {source : Text}

theorem apply_eq_of_perm {σ : Script} (hPerm : plan.Perm (σ.edits 0))
    (hNonempty : ∀ e ∈ plan, e.span.start < e.span.stop) : plan.apply σ.before = .ok σ.after := by
  rw [apply, Edit.mergeSort_startsBefore_of_perm hPerm hNonempty]
  exact Edit.applyFrom_edits 0 σ

/-- The entries of one part, and then those of the other where the first part has moved them. -/
theorem apply_apply {σ : Script} {as bs : Plan} (hPerm : (as ++ bs).Perm (σ.edits 0))
    (hNonempty : ∀ e ∈ as ++ bs, e.span.start < e.span.stop) :
    ∃ middle, as.apply σ.before = .ok middle ∧ Plan.apply (bs.map (Edit.movedBy as)) middle = .ok σ.after := by
  have hNodup : (as ++ bs).Nodup := by
    apply hPerm.symm.nodup
    apply (Script.pairwise_edits 0 σ).imp_of_mem
    rintro a b ha - hle rfl
    have hPos := hNonempty a (hPerm.symm.subset ha)
    omega
  obtain ⟨hAs, hBs⟩ := Edit.perm_filter_of_perm_append hPerm hNodup
  have hScript : ∀ e ∈ σ.edits 0, e.span.start < e.span.stop := fun e he => hNonempty e (hPerm.symm.subset he)
  have hMoved : (bs.map (Edit.movedBy as)).Perm ((σ.others (· ∈ as) 0).edits 0) := by
    have hNone : ∀ a ∈ ([] : List Edit), a.span.stop ≤ 0 := by simp
    have hOthers := Script.edits_others (p := (· ∈ as)) 0 σ hNone (Nat.zero_le _) hScript
    have hMove : Edit.movedBy as = Edit.movedBy ((σ.edits 0).filter (· ∈ as)) :=
      funext fun e => Edit.movedBy_perm hAs e
    rw [List.nil_append, ← hMove] at hOthers
    exact hOthers ▸ hBs.map _
  refine ⟨(σ.chosen (· ∈ as) 0).after, ?_, ?_⟩
  · rw [← Script.before_chosen (p := (· ∈ as)) 0 σ]
    apply apply_eq_of_perm
    · rw [Script.edits_chosen]
      exact hAs
    · exact fun e he => hNonempty e (List.mem_append_left _ he)
  · rw [Script.after_chosen, ← Script.after_others (p := (· ∈ as)) 0 σ]
    apply apply_eq_of_perm hMoved
    exact fun e he => Script.start_lt_stop_of_mem_edits_others 0 σ 0 hScript (hMoved.subset he)

/-- Entries that do not overlap do not depend on one another. Applying them in one pass is replacing them
one at a time, the last one first, and their order in the plan does not matter. A part of them may be
applied first, and the others then where the lengths of the first part have moved them. -/
theorem apply_of_separate (h : Span.Separate source (plan.map (·.span))) :
    ∃ output, plan.apply source = .ok output ∧
      (∃ es : Plan, es.Perm plan ∧ (es.Pairwise fun a b => a.span.stop ≤ b.span.start) ∧
        output.bytes = es.foldr Edit.splice source.bytes) ∧
      (∀ plan' : Plan, plan'.Perm plan → plan'.apply source = .ok output) ∧
      ∀ as bs : Plan, (as ++ bs).Perm plan → ∃ middle, as.apply source = .ok middle ∧
        Plan.apply (bs.map (Edit.movedBy as)) middle = .ok output := by
  have hNonempty : ∀ e ∈ plan, e.span.start < e.span.stop :=
    fun e he => h.nonempty e.span (List.mem_map_of_mem he)
  have hInside : ∀ e ∈ plan, ∃ x r, Span.slice? r source = some x ∧ e.span = r.shift 0 := by
    intro e he
    obtain ⟨x, hx⟩ := Option.isSome_iff_exists.1 (h.inside e.span (List.mem_map_of_mem he))
    exact ⟨x, e.span, hx, by simp [Span.shift]⟩
  obtain ⟨σ, rfl, hPerm⟩ := Edit.exists_script_of_apart (List.pairwise_map.1 h.apart) hNonempty hInside
  refine ⟨σ.after, apply_eq_of_perm hPerm hNonempty, ?_, ?_, ?_⟩
  · exact ⟨σ.edits 0, hPerm.symm, Script.pairwise_edits 0 σ, (Script.foldr_splice_edits [] σ).symm⟩
  · intro plan' hPlan
    exact apply_eq_of_perm (hPlan.trans hPerm) fun e he => hNonempty e (hPlan.subset he)
  · intro as bs hParts
    exact apply_apply (hParts.trans hPerm) fun e he => hNonempty e (hParts.subset he)

/-- Entries at both ends, two of them close together, one that removes and two that lengthen. -/
def scattered : Plan :=
  [.replacing 5 "o!".toList [], .replacing 0 "hé".toList "wörld".toList, .replacing 3 "l".toList "éé".toList]

theorem apply_of_separate_scattered :
    Span.Separate "héllo!".toList (scattered.map (·.span)) ∧
      ∃ output, scattered.apply "héllo!".toList = .ok output ∧
        (∃ es : Plan, es.Perm scattered ∧ (es.Pairwise fun a b => a.span.stop ≤ b.span.start) ∧
          output.bytes = es.foldr Edit.splice (Text.bytes "héllo!".toList)) ∧
        (∀ plan' : Plan, plan'.Perm scattered → plan'.apply "héllo!".toList = .ok output) ∧
        ∀ as bs : Plan, (as ++ bs).Perm scattered → ∃ middle, as.apply "héllo!".toList = .ok middle ∧
          Plan.apply (bs.map (Edit.movedBy as)) middle = .ok output := by
  have hSeparate : Span.Separate "héllo!".toList (scattered.map (·.span)) :=
    ⟨by decide, by decide, by decide⟩
  exact ⟨hSeparate, apply_of_separate hSeparate⟩

end Plan

end ClassFold

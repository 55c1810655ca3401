import ClassFold.Markup.Element
import ClassFold.Proofs.Text.Split

/-!
# Elements in their document

The elements of a document stand one after another, each found at its span. Where the document starts
only shifts them.
-/

set_option autoImplicit false

namespace ClassFold

theorem elementsFrom_of_read? {offset : Nat} {s rest : Text} {t : Tag}
    (h : Tag.read? s = some (t, rest)) :
    elementsFrom offset s = ⟨t, offset⟩ :: elementsFrom (offset + t.text.size) rest := by
  cases s with
  | nil => cases h
  | cons c s =>
    rw [elementsFrom]
    split
    · rename_i t' rest' h'
      rw [h] at h'
      cases h'
      rfl
    · rename_i h'
      rw [h] at h'
      cases h'

theorem elementsFrom_of_read?_eq_none {offset : Nat} {c : Char} {s : Text}
    (h : Tag.read? (c :: s) = none) : elementsFrom offset (c :: s) = elementsFrom (offset + c.utf8Size) s := by
  rw [elementsFrom]
  split
  · rename_i h'
    rw [h] at h'
    cases h'
  · rfl

theorem Tag.text_ne_nil (t : Tag) : t.text ≠ [] := by
  simp [Tag.text, Tag.head]

namespace Element

def shift (e : Element) (n : Nat) : Element := { e with start := n + e.start }

theorem start_lt_stop (e : Element) : e.span.start < e.span.stop :=
  Nat.lt_add_of_pos_right (Text.size_pos e.text_ne_nil)

end Element

theorem elementsFrom_add (n offset : Nat) (s : Text) :
    elementsFrom (n + offset) s = (elementsFrom offset s).map (·.shift n) := by
  fun_induction elementsFrom offset s with
  | case1 => simp [elementsFrom]
  | case2 offset c s t rest h ih =>
    rw [elementsFrom_of_read? h, Nat.add_assoc, ih]
    rfl
  | case3 offset c s h ih =>
    rw [elementsFrom_of_read?_eq_none h, Nat.add_assoc, ih]

theorem le_start_of_mem_elementsFrom {offset : Nat} {s : Text} {e : Element}
    (h : e ∈ elementsFrom offset s) : offset ≤ e.start := by
  fun_induction elementsFrom offset s with
  | case1 => cases h
  | case2 offset c s t rest _ ih =>
    rcases List.mem_cons.1 h with rfl | h
    · exact Nat.le_refl _
    · exact Nat.le_trans (Nat.le_add_right _ _) (ih h)
  | case3 offset c s _ ih => exact Nat.le_trans (Nat.le_add_right _ _) (ih h)

theorem pairwise_elementsFrom (offset : Nat) (s : Text) :
    (elementsFrom offset s).Pairwise fun e e' => e.span.stop ≤ e'.span.start := by
  fun_induction elementsFrom offset s with
  | case1 => exact List.Pairwise.nil
  | case2 offset c s t rest _ ih =>
    exact List.pairwise_cons.2 ⟨fun e he => le_start_of_mem_elementsFrom he, ih⟩
  | case3 offset c s _ ih => exact ih

theorem exists_of_mem_elementsFrom {offset : Nat} {s : Text} {e : Element}
    (h : e ∈ elementsFrom offset s) :
    ∃ before after : Text, s = before ++ (e.text ++ after) ∧ e.start = offset + before.size ∧
      Tag.read? (e.text ++ after) = some (e.toTag, after) := by
  fun_induction elementsFrom offset s with
  | case1 => cases h
  | case2 offset c s t rest hRead ih =>
    have hText := Tag.eq_of_read? hRead
    rcases List.mem_cons.1 h with rfl | h
    · exact ⟨[], rest, hText, rfl, hText ▸ hRead⟩
    · obtain ⟨before, after, rfl, hStart, hAfter⟩ := ih h
      refine ⟨t.text ++ before, after, by rw [hText, List.append_assoc], ?_, hAfter⟩
      rw [hStart, Text.size_append, Nat.add_assoc]
  | case3 offset c s _ ih =>
    obtain ⟨before, after, rfl, hStart, hAfter⟩ := ih h
    refine ⟨c :: before, after, rfl, ?_, hAfter⟩
    rw [hStart, Text.size_cons, Nat.add_assoc]

theorem slice?_span_of_mem_elements {source : Text} {e : Element} (h : e ∈ elements source) :
    e.span.slice? source = some e.text := by
  obtain ⟨before, after, rfl, hStart, -⟩ := exists_of_mem_elementsFrom h
  exact Span.slice?_append before e.text after (by simp [Element.span, hStart])
    (by simp [Element.span, hStart])

theorem slice?_shift_of_mem_elements {source x : Text} {e : Element} (h : e ∈ elements source) {r : Span}
    (hr : r.slice? e.text = some x) : (r.shift e.start).slice? source = some x := by
  obtain ⟨before, after, rfl, hStart, -⟩ := exists_of_mem_elementsFrom h
  rw [hStart, Nat.zero_add]
  exact Span.slice?_shift hr before after

theorem Tag.slice?_shift_attrsOffset {t : Tag} {r : Span} {x : Text} (hr : r.slice? t.attrs = some x) :
    (r.shift t.attrsOffset).slice? t.text = some x :=
  Span.slice?_shift hr t.head ['>']

end ClassFold

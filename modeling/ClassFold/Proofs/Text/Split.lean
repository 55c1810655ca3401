import Mathlib.Data.List.TakeWhile
import ClassFold.Text.Basic

/-!
# Cuts of one text

Two cuts of a text are compared by their offsets: what stands before the one at the smaller offset is a
front part of what stands before the other. A span covers the middle of a cut in three.
-/

set_option autoImplicit false

namespace ClassFold

namespace Text

theorem size_pos {s : Text} (h : s ≠ []) : 0 < s.size :=
  Nat.pos_of_ne_zero fun hSize => h (size_eq_zero_iff.1 hSize)

theorem exists_append_of_size_le {a b c d : Text} (h : a ++ b = c ++ d) (hle : a.size ≤ c.size) :
    ∃ m, c = a ++ m ∧ b = m ++ d := by
  rcases List.append_eq_append_iff.1 h with ⟨m, hc, hb⟩ | ⟨m, ha, hd⟩
  · exact ⟨m, hc, hb⟩
  · have hm : m = [] := by
      apply size_eq_zero_iff.1
      rw [ha, size_append] at hle
      omega
    subst hm
    exact ⟨[], by simpa using ha.symm, by simpa using hd.symm⟩

theorem append_inj_of_size_eq {a b c d : Text} (h : a ++ b = c ++ d) (hSize : a.size = c.size) :
    a = c ∧ b = d := by
  obtain ⟨m, rfl, rfl⟩ := exists_append_of_size_le h (Nat.le_of_eq hSize)
  have hm : m = [] := by
    apply size_eq_zero_iff.1
    rw [size_append] at hSize
    omega
  simp [hm]

/-- A part of which all characters pass a test, in front of a text whose first character does not. -/
theorem takeWhile_dropWhile_append {p : Char → Bool} {s t : Text} (hs : ∀ c ∈ s, p c = true)
    (ht : ∀ c, t.head? = some c → p c = false) :
    (s ++ t).takeWhile p = s ∧ (s ++ t).dropWhile p = t := by
  rw [List.takeWhile_append_of_pos hs, List.dropWhile_append_of_pos hs]
  cases t with
  | nil => simp
  | cons c t => simp [ht c rfl]

theorem takeWhile_dropWhile_ne {q : Char} {v : Text} (hFree : q ∉ v) (s : Text) :
    (v ++ q :: s).takeWhile (· != q) = v ∧ (v ++ q :: s).dropWhile (· != q) = q :: s := by
  apply takeWhile_dropWhile_append
  · intro c hc
    rw [bne_iff_ne]
    rintro rfl
    exact hFree hc
  · rintro c ⟨⟩
    exact bne_self_eq_false q

theorem dropWhile_ne_eq_nil_iff {q : Char} {v : Text} : v.dropWhile (· != q) = [] ↔ q ∉ v := by
  rw [List.dropWhile_eq_nil_iff]
  constructor
  · intro h hMem
    exact bne_iff_ne.1 (h q hMem) rfl
  · intro hFree c hc
    rw [bne_iff_ne]
    rintro rfl
    exact hFree hc

end Text

theorem head?_dropWhile {q : Char → Bool} {s : Text} {c : Char} (h : (s.dropWhile q).head? = some c) :
    q c = false := by
  have hNot := List.head?_dropWhile_not q s
  rwa [h] at hNot

namespace Span

theorem slice?_eq_some_iff {r : Span} {s x : Text} :
    r.slice? s = some x ↔
      ∃ a b, s = a ++ (x ++ b) ∧ a.size = r.start ∧ a.size + x.size = r.stop := by
  have hr := r.start_le_stop
  simp only [slice?, Option.bind_eq_bind, Option.bind_eq_some_iff, Option.pure_def,
    Option.some.injEq, Prod.exists, Text.splitAt?_eq_some_iff]
  constructor
  · rintro ⟨a, rest, ⟨rfl, ha⟩, y, b, ⟨rfl, hy⟩, rfl⟩
    exact ⟨a, b, rfl, ha, by omega⟩
  · rintro ⟨a, b, rfl, ha, hx⟩
    exact ⟨a, x ++ b, ⟨rfl, ha⟩, x, b, ⟨rfl, by omega⟩, rfl⟩

theorem slice?_append (a x b : Text) {r : Span} (hStart : a.size = r.start)
    (hStop : a.size + x.size = r.stop) : r.slice? (a ++ (x ++ b)) = some x :=
  slice?_eq_some_iff.2 ⟨a, b, rfl, hStart, hStop⟩

/-- A span of a part is, shifted by what stands before the part, a span of the whole. -/
theorem slice?_shift {r : Span} {s x : Text} (h : r.slice? s = some x) (before after : Text) :
    (r.shift before.size).slice? (before ++ (s ++ after)) = some x := by
  obtain ⟨a, b, rfl, ha, hx⟩ := slice?_eq_some_iff.1 h
  refine slice?_eq_some_iff.2 ⟨before ++ a, b ++ after, by simp, ?_, ?_⟩
  · simp [ha]
  · simp only [Text.size_append, stop_shift, ← hx]
    omega

theorem stop_le_of_slice? {r : Span} {s x : Text} (h : r.slice? s = some x) : r.stop ≤ s.size := by
  obtain ⟨a, b, rfl, -, hx⟩ := slice?_eq_some_iff.1 h
  simp only [Text.size_append]
  omega

theorem slice?_of_stop_le {r : Span} {a b x : Text} (h : r.slice? (a ++ b) = some x) (hle : r.stop ≤ a.size) :
    r.slice? a = some x := by
  obtain ⟨pre, post, hText, hStart, hStop⟩ := slice?_eq_some_iff.1 h
  rw [← List.append_assoc] at hText
  obtain ⟨m, rfl, -⟩ := Text.exists_append_of_size_le hText.symm (by rw [Text.size_append]; omega)
  rw [List.append_assoc]
  exact slice?_append pre x m hStart hStop

theorem exists_slice?_of_le_start {r : Span} {a b x : Text} (h : r.slice? (a ++ b) = some x)
    (hle : a.size ≤ r.start) : ∃ q : Span, q.slice? b = some x ∧ r = q.shift a.size := by
  obtain ⟨pre, post, hText, hStart, hStop⟩ := slice?_eq_some_iff.1 h
  obtain ⟨m, rfl, rfl⟩ := Text.exists_append_of_size_le hText (by omega)
  rw [Text.size_append] at hStart hStop
  refine ⟨⟨m.size, m.size + x.size, Nat.le_add_right _ _⟩, slice?_append m x post rfl rfl, ?_⟩
  obtain ⟨start, stop, hle⟩ := r
  simp only [shift, Span.mk.injEq] at hStart hStop ⊢
  omega

theorem exists_between {r r' : Span} {s x x' : Text} (h : r.slice? s = some x)
    (h' : r'.slice? s = some x') (hle : r.stop ≤ r'.start) :
    ∃ a m b, s = a ++ (x ++ (m ++ (x' ++ b))) ∧ a.size = r.start ∧
      a.size + x.size = r.stop ∧ a.size + x.size + m.size = r'.start := by
  obtain ⟨a, b, rfl, ha, hx⟩ := slice?_eq_some_iff.1 h
  obtain ⟨a', b', hs, ha', hx'⟩ := slice?_eq_some_iff.1 h'
  rw [← List.append_assoc] at hs
  obtain ⟨m, rfl, rfl⟩ := Text.exists_append_of_size_le hs (by rw [Text.size_append]; omega)
  refine ⟨a, m, b', rfl, ha, hx, ?_⟩
  rw [← ha', Text.size_append, Text.size_append]

end Span

end ClassFold

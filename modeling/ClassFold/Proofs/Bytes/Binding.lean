import ClassFold.Proofs.Bytes.TagEnd
import ClassFold.Proofs.Markup.Binding

/-!
# The end of a binding among bytes

On any bytes the reader of values ends a binding where the reader of tags comes out of it: at the least offset
behind the brace at which that reader is outside. Where it runs off the end there is no such offset, and in a
region that is closed it never does: `readers_agree_on_bindings`.
-/

set_option autoImplicit false

namespace ClassFold

namespace Checked

/-- The offset behind the brace that closes the expression, if the bytes do not end before it. -/
def bindingEnd? (s : List UInt8) (depth i : Nat) : Checked (Option Nat) :=
  if i < s.length then do
    let c ← byteAt s i
    if c == '{' then bindingEnd? s (depth + 1) (i + 1)
    else if c == '}' then do
      let depth ← minus depth 1
      if depth == 0 then return some (i + 1) else bindingEnd? s depth (i + 1)
    else if isQuote c then do
      let j ← skipQuoted s i
      if i < j then bindingEnd? s depth j else throw (.stalled i)
    else bindingEnd? s depth (i + 1)
  else return none
termination_by s.length - i

/-- The offsets behind `j` at which the reader of tags is outside, if it is outside at `j`. -/
def outsideBehind (s : List UInt8) (j : Nat) (last : Char) : Set Nat :=
  {m | j < m ∧ m ≤ s.length ∧
    ((TagEnd.State.mk none 0 last).run (((s.drop j).take (m - j)).map ofByte)).isOutside = true}

variable {s x y : List UInt8} {i j m : Nat} {last : Char}

/-- The reader of values that tells its two exits apart. -/
theorem skipBinding_eq (s : List UInt8) (depth i : Nat) :
    skipBinding s depth i = (bindingEnd? s depth i).map (·.getD s.length) := by
  fun_induction skipBinding s depth i with
  | case1 depth i hi ihOpen ihClose ihQuote ihPlain =>
    rw [bindingEnd?, if_pos hi]
    cases byteAt s i with
    | error f => rfl
    | ok c =>
      rw [ok_bind, ok_bind]
      split
      · exact ihOpen
      · split
        · cases minus depth 1 with
          | error f => rfl
          | ok depth =>
            rw [ok_bind, ok_bind]
            split
            · rfl
            · exact ihClose depth
        · split
          · cases skipQuoted s i with
            | error f => rfl
            | ok j =>
              rw [ok_bind, ok_bind]
              split
              · rename_i hlt
                exact ihQuote j hlt
              · rfl
          · exact ihPlain
  | case2 depth i hi =>
    rw [bindingEnd?, if_neg hi]
    rfl

theorem skipWhile_append (p : Char → Bool) (x y : List UInt8) :
    skipWhile p (x ++ y) x.length = .ok (x.length + ((y.map ofByte).takeWhile p).length) := by
  induction y generalizing x with
  | nil => simpa using skipWhile_of_le (Nat.le_refl _)
  | cons b y ih =>
    rw [skipWhile, if_pos (by simp), byteAt_append, ok_bind, List.map_cons, List.takeWhile_cons]
    split
    · have hNext := ih (x ++ [b])
      rw [List.append_assoc, List.singleton_append, List.length_append, List.length_singleton] at hNext
      rw [hNext, List.length_cons, Nat.add_assoc, Nat.add_comm 1]
    · rfl

theorem skipQuoted_append (x y : List UInt8) (b : UInt8) :
    skipQuoted (x ++ b :: y) x.length =
      .ok (x.length + 1 + (readString (ofByte b) (y.map ofByte)).1.length) := by
  have hSkip := skipWhile_append (· != ofByte b) (x ++ [b]) y
  have hSplit := congrArg List.length (List.takeWhile_append_dropWhile (p := (· != ofByte b)) (l := y.map ofByte))
  rw [List.append_assoc, List.singleton_append, List.length_append, List.length_singleton] at hSkip
  rw [List.length_append, List.length_map] at hSplit
  rw [skipQuoted, byteAt_append, ok_bind, find, if_pos (by simp), hSkip, ok_bind]
  unfold readString
  cases hDrop : (y.map ofByte).dropWhile (· != ofByte b) with
  | nil =>
    rw [hDrop, List.length_nil] at hSplit
    rw [if_neg (by simp; omega), pure_eq_ok, ok_bind]
    simp [Nat.add_assoc, Nat.add_comm 1]
  | cons c rest =>
    rw [hDrop, List.length_cons] at hSplit
    rw [if_pos (by simp; omega), pure_eq_ok, ok_bind]
    simp
    omega

theorem bindingEnd?_cons (x y : List UInt8) (b : UInt8) (depth : Nat) :
    bindingEnd? (x ++ b :: y) depth x.length =
      if ofByte b == '{' then bindingEnd? (x ++ b :: y) (depth + 1) (x.length + 1)
      else if ofByte b == '}' then do
        let depth ← minus depth 1
        if depth == 0 then return some (x.length + 1) else bindingEnd? (x ++ b :: y) depth (x.length + 1)
      else if isQuote (ofByte b) then
        bindingEnd? (x ++ b :: y) depth (x.length + 1 + (readString (ofByte b) (y.map ofByte)).1.length)
      else bindingEnd? (x ++ b :: y) depth (x.length + 1) := by
  have hlt : x.length < x.length + 1 + (readString (ofByte b) (y.map ofByte)).1.length := by omega
  rw [bindingEnd?, if_pos (by simp), byteAt_append, ok_bind, skipQuoted_append, ok_bind, if_pos hlt]

theorem bindingEnd?_append (depth : Nat) (x y : List UInt8) :
    bindingEnd? (x ++ y) (depth + 1) x.length =
      .ok ((readInside? depth (y.map ofByte)).map fun p => x.length + p.1.length) := by
  generalize hText : y.map ofByte = r
  fun_induction readInside? depth r generalizing x y with
  | case1 depth =>
    rw [List.map_eq_nil_iff.1 hText, bindingEnd?, if_neg (by simp)]
    rfl
  | case2 depth c r hc ih =>
    obtain ⟨b, y, rfl, rfl, rfl⟩ := List.map_eq_cons_iff.1 hText
    have hNext := ih (x ++ [b]) y rfl
    rw [List.append_assoc, List.singleton_append, List.length_append, List.length_singleton] at hNext
    rw [bindingEnd?_cons, if_pos hc, hNext]
    cases readInside? (depth + 1) (y.map ofByte) <;> simp [Nat.add_assoc, Nat.add_comm 1]
  | case3 c r hc hc' =>
    obtain ⟨b, y, rfl, rfl, rfl⟩ := List.map_eq_cons_iff.1 hText
    rw [bindingEnd?_cons, if_neg hc, if_pos hc', minus_eq_ok (Nat.le_refl _)]
    rfl
  | case4 c r hc hc' depth ih =>
    obtain ⟨b, y, rfl, rfl, rfl⟩ := List.map_eq_cons_iff.1 hText
    have hNext := ih (x ++ [b]) y rfl
    rw [List.append_assoc, List.singleton_append, List.length_append, List.length_singleton] at hNext
    rw [bindingEnd?_cons, if_neg hc, if_pos hc', minus_eq_ok (Nat.le_add_left _ _)]
    simp only [ok_bind, Nat.add_sub_cancel, hNext]
    cases readInside? depth (y.map ofByte) <;> simp [Nat.add_assoc, Nat.add_comm 1]
  | case5 depth c r hc hc' hq ih =>
    obtain ⟨b, y, rfl, rfl, rfl⟩ := List.map_eq_cons_iff.1 hText
    have hParts := readString_append (ofByte b) (y.map ofByte)
    obtain ⟨v, rest, rfl, hString, hRest⟩ := List.map_eq_append_iff.1 hParts.symm
    have hNext := ih (x ++ b :: v) rest hRest
    have hLength : (x ++ b :: v).length = x.length + 1 + (readString (ofByte b) ((v ++ rest).map ofByte)).1.length := by
      rw [← hString, List.length_map, List.length_append, List.length_cons, Nat.add_assoc, Nat.add_comm 1]
    rw [List.append_assoc, List.cons_append, hLength] at hNext
    rw [bindingEnd?_cons, if_neg hc, if_neg hc', if_pos hq, hNext]
    cases readInside? depth (readString (ofByte b) ((v ++ rest).map ofByte)).2 <;> simp [Nat.add_assoc, Nat.add_comm 1]
  | case6 depth c r hc hc' hq ih =>
    obtain ⟨b, y, rfl, rfl, rfl⟩ := List.map_eq_cons_iff.1 hText
    have hNext := ih (x ++ [b]) y rfl
    rw [List.append_assoc, List.singleton_append, List.length_append, List.length_singleton] at hNext
    rw [bindingEnd?_cons, if_neg hc, if_neg hc', if_neg hq, hNext]
    cases readInside? depth (y.map ofByte) <;> simp [Nat.add_assoc, Nat.add_comm 1]

theorem exists_of_byteAt {c : Char} (h : byteAt s i = .ok c) :
    ∃ x b y, s = x ++ b :: y ∧ x.length = i ∧ ofByte b = c := by
  obtain ⟨b, hb, hc⟩ := byteAt_eq_ok_iff.1 h
  obtain ⟨hi, rfl⟩ := List.getElem?_eq_some_iff.1 hb
  refine ⟨s.take i, s[i], s.drop (i + 1), ?_, ?_, hc⟩
  · rw [← List.drop_eq_getElem_cons hi, List.take_append_drop]
  · rw [List.length_take, Nat.min_eq_left (Nat.le_of_lt hi)]

theorem mem_outsideBehind_iff {r : List UInt8} :
    m ∈ outsideBehind (x ++ r) x.length last ↔ ∃ a, a <+: r.map ofByte ∧ a ≠ [] ∧
      ((TagEnd.State.mk none 0 last).run a).isOutside = true ∧ m = x.length + a.length := by
  constructor
  · rintro ⟨hlt, hle, hOutside⟩
    rw [List.drop_left] at hOutside
    rw [List.length_append] at hle
    refine ⟨_, List.take_prefix .. |>.map ofByte, ?_, hOutside, ?_⟩
    · rw [← List.length_pos_iff, List.length_map, List.length_take]
      omega
    · rw [List.length_map, List.length_take]
      omega
  · rintro ⟨a, hPrefix, hNe, hOutside, rfl⟩
    have hPos := List.length_pos_iff.2 hNe
    have hLength := hPrefix.length_le
    rw [List.length_map] at hLength
    refine ⟨by omega, by rw [List.length_append]; omega, ?_⟩
    rw [List.drop_left, Nat.add_sub_cancel_left, List.map_take, ← List.prefix_iff_eq_take.1 hPrefix]
    exact hOutside

theorem isLeast_outsideBehind_iff {r : List UInt8} :
    IsLeast (outsideBehind (x ++ r) x.length last) m ↔
      ∃ a, a <+: r.map ofByte ∧ TagEnd.ComesOut ⟨none, 0, last⟩ a ∧ m = x.length + a.length := by
  constructor
  · rintro ⟨hMem, hLeast⟩
    obtain ⟨a, hPrefix, hNe, hOutside, rfl⟩ := mem_outsideBehind_iff.1 hMem
    refine ⟨a, hPrefix, ⟨hNe, hOutside, ?_⟩, rfl⟩
    intro b hb hNe hOutside
    have hle := hLeast (mem_outsideBehind_iff.2 ⟨b, hb.trans hPrefix, hNe, hOutside, rfl⟩)
    exact hb.eq_of_length_le (by omega)
  · rintro ⟨a, hPrefix, hOut, rfl⟩
    refine ⟨mem_outsideBehind_iff.2 ⟨a, hPrefix, hOut.ne_nil, hOut.outside, rfl⟩, ?_⟩
    intro k hk
    obtain ⟨b, hb, hNe, hOutside, rfl⟩ := mem_outsideBehind_iff.1 hk
    obtain hab | hba := List.prefix_or_prefix_of_prefix hPrefix hb
    · exact Nat.add_le_add_left hab.length_le _
    · rw [hOut.first b hba hNe hOutside]

theorem outsideBehind_eq_empty_iff {r : List UInt8} :
    outsideBehind (x ++ r) x.length last = ∅ ↔ TagEnd.NeverComesOut ⟨none, 0, last⟩ (r.map ofByte) := by
  rw [Set.eq_empty_iff_forall_notMem]
  constructor
  · intro h a hPrefix hNe
    rw [← Bool.not_eq_true]
    exact fun hOutside => h _ (mem_outsideBehind_iff.2 ⟨a, hPrefix, hNe, hOutside, rfl⟩)
  · intro h m hm
    obtain ⟨a, hPrefix, hNe, hOutside, -⟩ := mem_outsideBehind_iff.1 hm
    rw [h a hPrefix hNe] at hOutside
    cases hOutside

/-- The bytes from `j` up to `m` are an expression in braces. -/
def IsBindingAt (s : List UInt8) (j m : Nat) : Prop :=
  ∃ e, Balanced e ∧ ((s.drop j).take (m - j)).map ofByte = '{' :: (e ++ ['}'])

theorem bindingEnd?_eq (h : byteAt s j = .ok '{') :
    bindingEnd? s 0 j = .ok ((readBinding? ((s.drop j).map ofByte)).map fun p => j + p.1.length) := by
  obtain ⟨x, b, y, rfl, rfl, hb⟩ := exists_of_byteAt h
  have hInside := bindingEnd?_append 0 (x ++ [b]) y
  rw [List.append_assoc, List.singleton_append, List.length_append, List.length_singleton] at hInside
  rw [bindingEnd?_cons, hb, if_pos (beq_self_eq_true _), hInside, List.drop_left, List.map_cons, hb, readBinding?]
  cases readInside? 0 (y.map ofByte) <;> simp [Nat.add_assoc, Nat.add_comm 1]

theorem tagEnd?_eq_of_open (h : byteAt s j = .ok '{') (last : Char) :
    tagEnd? s ⟨none, 0, last⟩ j =
      .ok ((TagEnd.cutAfter? ⟨none, 0, last⟩ [] ((s.drop j).map ofByte)).map fun p => j + p.1.length) := by
  obtain ⟨x, b, y, rfl, rfl, hb⟩ := exists_of_byteAt h
  have hOpen : Follows ⟨none, 1, '{'⟩ ⟨none, 1, '{'⟩ := ⟨rfl, by simp, rfl, rfl, fun _ => Nat.one_pos⟩
  have hInside := tagEnd?_append hOpen x [b] y
  rw [List.append_assoc, List.singleton_append, List.map_singleton, hb, List.length_append, List.length_singleton]
    at hInside
  rw [tagEnd?, if_pos (by simp), h, List.drop_left, List.map_cons, hb]
  exact hInside

theorem tagEnd?_eq_behind (x e y : List UInt8) :
    tagEnd? (x ++ e ++ y) ⟨none, 0, '}'⟩ (x ++ e).length =
      .ok ((TagEnd.cutAfter? ⟨none, 0, '}'⟩ (e.map ofByte).reverse (y.map ofByte)).map fun p => x.length + p.1.length) :=
  tagEnd?_append ⟨rfl, by simp, rfl, rfl, by decide⟩ x e y

theorem isBindingAt_of_readBinding? {a rest : Text} (h : readBinding? ((s.drop j).map ofByte) = some (a, rest)) :
    IsBindingAt s j (j + a.length) := by
  obtain ⟨e, hInside, rfl, hText⟩ := readBinding?_eq_some_iff.1 h
  refine ⟨e, hInside, ?_⟩
  rw [Nat.add_sub_cancel_left, List.map_take, hText, List.take_left]

/-- Behind a binding the reader of tags goes on as it was. -/
theorem tagEnd?_of_readBinding? (h : byteAt s j = .ok '{') {a rest : Text}
    (hRead : readBinding? ((s.drop j).map ofByte) = some (a, rest)) (last : Char) :
    tagEnd? s ⟨none, 0, last⟩ j = tagEnd? s ⟨none, 0, '}'⟩ (j + a.length) := by
  obtain ⟨e, hInside, rfl, hText⟩ := readBinding?_eq_some_iff.1 hRead
  obtain ⟨binding, y, hSplit, hBinding, hRest⟩ := List.map_eq_append_iff.1 hText
  have hLength : (s.take j).length = j := by
    rw [List.length_take, Nat.min_eq_left (Nat.le_of_lt (lt_length_of_byteAt h))]
  have hBehind := tagEnd?_eq_behind (s.take j) binding y
  rw [List.append_assoc, ← hSplit, List.take_append_drop, List.length_append, hLength, hBinding, hRest,
    ← List.length_map ofByte, hBinding] at hBehind
  rw [tagEnd?_eq_of_open h, hText, TagEnd.Passes.braces hInside last, hBehind, List.append_nil]

theorem tagEnd?_of_readBinding?_eq_none (h : byteAt s j = .ok '{') (hRead : readBinding? ((s.drop j).map ofByte) = none)
    (last : Char) : tagEnd? s ⟨none, 0, last⟩ j = .ok none := by
  rw [tagEnd?_eq_of_open h]
  obtain ⟨x, b, y, rfl, rfl, hb⟩ := exists_of_byteAt h
  rw [List.drop_left, List.map_cons, hb, readBinding?, Option.map_eq_none_iff] at hRead
  have hInside := TagEnd.StaysInside.of_readInside?_eq_none hRead '{'
  rw [List.drop_left, List.map_cons, hb, TagEnd.cutAfter?, if_neg (by simp), TagEnd.State.step_open,
    hInside.cutAfter?_eq_none]
  rfl

/-- On any bytes the two readers agree on the end of a binding, whatever stands before it. -/
theorem exists_bindingEnd?_eq_ok (h : byteAt s j = .ok '{') (last : Char) :
    ∃ end?, bindingEnd? s 0 j = .ok end? ∧ skipBinding s 0 j = .ok (end?.getD s.length) ∧
      (∀ m, end? = some m ↔ IsLeast (outsideBehind s j last) m) ∧ (end? = none ↔ outsideBehind s j last = ∅) ∧
      (∀ m, end? = some m → IsBindingAt s j m ∧ tagEnd? s ⟨none, 0, last⟩ j = tagEnd? s ⟨none, 0, '}'⟩ m) ∧
      (end? = none → tagEnd? s ⟨none, 0, last⟩ j = .ok none) := by
  have hEnd := bindingEnd?_eq h
  obtain ⟨x, b, y, rfl, rfl, hb⟩ := exists_of_byteAt h
  have hText : ((x ++ b :: y).drop x.length).map ofByte = '{' :: y.map ofByte := by
    rw [List.drop_left, List.map_cons, hb]
  refine ⟨_, hEnd, by rw [skipBinding_eq, hEnd]; rfl, ?_, ?_, ?_, ?_⟩
  · intro m
    rw [Option.map_eq_some_iff, isLeast_outsideBehind_iff, hText, List.map_cons, hb]
    constructor
    · rintro ⟨⟨a, rest⟩, hRead, rfl⟩
      obtain ⟨hAll, hOut⟩ := TagEnd.readBinding?_eq_some_iff_comesOut.1 hRead
      exact ⟨a, hAll ▸ List.prefix_append a rest, hOut, rfl⟩
    · rintro ⟨a, ⟨rest, hAll⟩, hOut, rfl⟩
      exact ⟨(a, rest), TagEnd.readBinding?_eq_some_iff_comesOut.2 ⟨hAll.symm, hOut⟩, rfl⟩
  · rw [Option.map_eq_none_iff, outsideBehind_eq_empty_iff, hText, List.map_cons, hb]
    exact TagEnd.readBinding?_eq_none_iff_neverComesOut
  · intro m hm
    obtain ⟨⟨a, rest⟩, hRead, rfl⟩ := Option.map_eq_some_iff.1 hm
    exact ⟨isBindingAt_of_readBinding? hRead, tagEnd?_of_readBinding? h hRead last⟩
  · intro hNone
    exact tagEnd?_of_readBinding?_eq_none h (Option.map_eq_none_iff.1 hNone) last

/-- In a closed region every brace that stands outside is matched inside the region. -/
theorem exists_bindingEnd?_of_tagEnd? {g : Nat} (h : tagEnd? s .start i = .ok (some g)) (hij : i ≤ j) (hjg : j < g)
    (hOpen : byteAt s j = .ok '{')
    (hOutside : (TagEnd.State.start.run (((s.drop i).take (j - i)).map ofByte)).isOutside = true) :
    ∃ m, bindingEnd? ((s.drop i).take (g - i)) 0 (j - i) = .ok (some m) ∧
      skipBinding ((s.drop i).take (g - i)) 0 (j - i) = .ok m ∧ m ≤ g - i ∧
      IsBindingAt ((s.drop i).take (g - i)) (j - i) m := by
  have hByte : byteAt ((s.drop i).take (g - i)) (j - i) = .ok '{' := by
    obtain ⟨b, hb, hc⟩ := byteAt_eq_ok_iff.1 hOpen
    refine byteAt_eq_ok_iff.2 ⟨b, ?_, hc⟩
    rw [List.getElem?_take_of_lt (by omega), List.getElem?_drop, Nat.add_sub_cancel' hij]
    exact hb
  have hFront : ((s.drop i).take (g - i)).take (j - i) = (s.drop i).take (j - i) := by
    rw [List.take_take, Nat.min_eq_left (by omega)]
  rw [tagEnd?_eq, Except.ok.injEq, Option.map_eq_some_iff] at h
  obtain ⟨⟨attrs, rest⟩, hCut, hg⟩ := h
  have hSize : g - i = attrs.length := by
    rw [← hg, Nat.add_sub_cancel_left]
  have hAttrs : ((s.drop i).take (g - i)).map ofByte = attrs := by
    rw [hSize, List.map_take, TagEnd.eq_of_cut? hCut, List.take_left]
  rw [TagEnd.eq_of_cut? hCut] at hCut
  -- From here on the region stands alone, and the bytes around it do not count.
  generalize (s.drop i).take (g - i) = region at hByte hFront hAttrs ⊢
  rw [← hFront] at hOutside
  generalize j - i = k at hByte hOutside ⊢
  obtain ⟨x, b, y, rfl, rfl, hb⟩ := exists_of_byteAt hByte
  rw [List.take_left] at hOutside
  rw [List.map_append, List.map_cons, hb] at hAttrs
  obtain ⟨e, after, -, hText, hRead⟩ := TagEnd.exists_readBinding?_of_cut? hCut hAttrs.symm hOutside
  have hDrop : readBinding? (((x ++ b :: y).drop x.length).map ofByte) = some ('{' :: (e ++ ['}']), after) := by
    rw [List.drop_left, List.map_cons, hb, hRead]
  have hEnd := bindingEnd?_eq hByte
  rw [hDrop] at hEnd
  refine ⟨_, hEnd, by rw [skipBinding_eq, hEnd]; rfl, ?_, isBindingAt_of_readBinding? hDrop⟩
  have hLength := congrArg List.length hAttrs
  rw [hText] at hLength
  simp only [List.length_append, List.length_cons, List.length_nil, List.length_map] at hLength ⊢
  omega

end Checked

open Checked

/-- The reader of values ends a binding where the reader of tags comes out of it, on every text and on any
bytes, and in a closed region it never runs off the end of one that stands outside. -/
theorem readers_agree_on_bindings :
    (∀ (s : Text) (last : Char),
      (∀ a b, readBinding? ('{' :: s) = some (a, b) ↔ '{' :: s = a ++ b ∧ TagEnd.ComesOut ⟨none, 0, last⟩ a) ∧
      (readBinding? ('{' :: s) = none ↔ TagEnd.NeverComesOut ⟨none, 0, last⟩ ('{' :: s))) ∧
    (∀ (s : List UInt8) (j : Nat) (last : Char), byteAt s j = .ok '{' →
      ∃ end?, bindingEnd? s 0 j = .ok end? ∧ skipBinding s 0 j = .ok (end?.getD s.length) ∧
        (∀ m, end? = some m ↔ IsLeast (outsideBehind s j last) m) ∧ (end? = none ↔ outsideBehind s j last = ∅) ∧
        (∀ m, end? = some m → IsBindingAt s j m ∧ tagEnd? s ⟨none, 0, last⟩ j = tagEnd? s ⟨none, 0, '}'⟩ m) ∧
        (end? = none → tagEnd? s ⟨none, 0, last⟩ j = .ok none)) ∧
    (∀ (s : List UInt8) (i g : Nat), tagEnd? s .start i = .ok (some g) → ∀ j, i ≤ j → j < g → byteAt s j = .ok '{' →
      (TagEnd.State.start.run (((s.drop i).take (j - i)).map ofByte)).isOutside = true →
      ∃ m, bindingEnd? ((s.drop i).take (g - i)) 0 (j - i) = .ok (some m) ∧
        skipBinding ((s.drop i).take (g - i)) 0 (j - i) = .ok m ∧ m ≤ g - i ∧
        IsBindingAt ((s.drop i).take (g - i)) (j - i) m) ∧
    ∀ (source : Text) (e : Element), e ∈ elements source → TagEnd.cut? (e.attrs ++ ['>']) = some (e.attrs, []) →
      ∀ x y, e.attrs = x ++ '{' :: y → (TagEnd.State.start.run x).isOutside = true →
        ∃ inner after, Balanced inner ∧ y = inner ++ '}' :: after ∧
          readBinding? ('{' :: y) = some ('{' :: (inner ++ ['}']), after) ∧
          skipBinding e.attrs.bytes 0 x.size = .ok (x ++ '{' :: (inner ++ ['}'])).size := by
  refine ⟨?_, ?_, ?_, ?_⟩
  · exact fun s last => ⟨fun a b => TagEnd.readBinding?_eq_some_iff_comesOut, TagEnd.readBinding?_eq_none_iff_neverComesOut⟩
  · exact fun s j last hOpen => exists_bindingEnd?_eq_ok hOpen last
  · exact fun s i g hEnd j hij hjg hOpen hOutside => exists_bindingEnd?_of_tagEnd? hEnd hij hjg hOpen hOutside
  · intro source e _ hCut x y hText hOutside
    obtain ⟨inner, after, hInside, hBinding, hRead⟩ := TagEnd.exists_readBinding?_of_cut? hCut hText hOutside
    refine ⟨inner, after, hInside, hBinding, hRead, ?_⟩
    have hSkip := skipSealed_bytes x '{' y
    rw [readSealed_cons_brace, hRead, Option.getD_some, skipSealed, byteAt_bytes] at hSkip
    rw [hText]
    exact hSkip

/-- A binding with a brace in a string, the brace of another binding, and a byte of no character. -/
def boundBytes : List UInt8 := [0x3d, 0x7b, 0x27, 0x7d, 0xff, 0x27, 0x7b, 0x7d, 0x7d, 0x3e]

def boundTag : Element := ⟨⟨['a'], ' ', "b=\x7bf('\x7d')\x7d c".toList⟩, 0⟩

theorem readers_agree_on_bindings_around_strings :
    byteAt boundBytes 1 = .ok '{' ∧ tagEnd? boundBytes .start 0 = .ok (some 9) ∧
      (TagEnd.State.start.run ((boundBytes.take 1).map ofByte)).isOutside = true ∧
      (∃ m, bindingEnd? boundBytes 0 1 = .ok (some m) ∧ IsLeast (outsideBehind boundBytes 1 '=') m) ∧
      (∃ m, bindingEnd? (boundBytes.take 9) 0 1 = .ok (some m) ∧ m ≤ 9) ∧
      boundTag ∈ elements boundTag.text ∧ TagEnd.cut? (boundTag.attrs ++ ['>']) = some (boundTag.attrs, []) ∧
      (TagEnd.State.start.run "b=".toList).isOutside = true ∧
      ∃ inner after, Balanced inner ∧ "f('\x7d')\x7d c".toList = inner ++ '}' :: after ∧
        skipBinding boundTag.attrs.bytes 0 2 = .ok (Text.size ("b=".toList ++ '{' :: (inner ++ ['}']))) := by
  obtain ⟨-, hBytes, hRegion, hElement⟩ := readers_agree_on_bindings
  have hOpen : byteAt boundBytes 1 = .ok '{' := rfl
  have hEnd : tagEnd? boundBytes .start 0 = .ok (some 9) := by
    rw [tagEnd?_eq]
    rfl
  have hOutside : (TagEnd.State.start.run ((boundBytes.take 1).map ofByte)).isOutside = true := rfl
  have hMem : boundTag ∈ elements boundTag.text := by decide +kernel
  have hCut : TagEnd.cut? (boundTag.attrs ++ ['>']) = some (boundTag.attrs, []) := by decide
  have hOutside' : (TagEnd.State.start.run "b=".toList).isOutside = true := by decide
  refine ⟨hOpen, hEnd, hOutside, ?_, ?_, hMem, hCut, hOutside', ?_⟩
  · obtain ⟨end?, hFound, -, hLeast, hNone, -⟩ := hBytes boundBytes 1 '=' hOpen
    have hNine : 9 ∈ outsideBehind boundBytes 1 '=' := ⟨by decide, by decide, by decide⟩
    cases end? with
    | some m => exact ⟨m, hFound, (hLeast m).1 rfl⟩
    | none =>
      rw [hNone.1 rfl] at hNine
      exact absurd hNine (Set.notMem_empty 9)
  · obtain ⟨m, hFound, -, hle, -⟩ := hRegion boundBytes 0 9 hEnd 1 (by decide) (by decide) hOpen hOutside
    exact ⟨m, hFound, hle⟩
  · obtain ⟨inner, after, hInside, hText, -, hSkip⟩ := hElement _ boundTag hMem hCut "b=".toList
      "f('\x7d')\x7d c".toList rfl hOutside'
    exact ⟨inner, after, hInside, hText, hSkip⟩

end ClassFold

import Mathlib.Data.List.Basic
import ClassFold.Proofs.Bytes.Value
import ClassFold.Proofs.Edit.Script
import ClassFold.Proofs.Markup.Deletion

/-!
# Checked edits

What is cut and put together after the reading: the parts of a name around a prefix, the bytes looked
at before an attribute and behind the last one, and the parts of a text between its edits. None of these
faults, and each gives what the unchecked definition gives.
-/

set_option autoImplicit false

namespace ClassFold

def Text.find? (pattern : Text) : Text → Option Nat
  | [] => if pattern.isEmpty then some 0 else none
  | c :: s =>
    match pattern.isPrefixOf? (c :: s) with
    | some _ => some 0
    | none => (find? pattern s).map (c.utf8Size + ·)

namespace Checked

def removeFirst (pattern name : Text) : Checked Text :=
  if pattern.isEmpty then return name
  else
    match Text.find? pattern name with
    | none => return name
    | some 0 => slice name pattern.size name.size
    | some i => do
      let before ← slice name 0 i
      let behind ← slice name (i + pattern.size) name.size
      return before ++ behind

def stripBinding (name : Text) : Checked Text :=
  match ["v-bind:".toList, ":".toList].find? (·.isPrefixOf name) with
  | some decoration => slice name (Text.size decoration) name.size
  | none => return name

def deletion (text : Text) (base : Nat) (r : Span) : Checked (Nat × Nat) :=
  if 0 < base + r.start then do
    let i ← minus (base + r.start) 1
    let c ← byteAt text.bytes i
    return if isBlank c then (i, base + r.stop) else (base + r.start, base + r.stop)
  else return (base + r.start, base + r.stop)

/-- The offset before the slash that closes a tag, if there is one in front of the `>`. -/
def beforeSlash (text : Text) (floor : Nat) : Checked Nat :=
  let i := text.bytes.length - 1
  if floor < i then do
    let j ← minus i 1
    let c ← byteAt text.bytes j
    return if c == '/' then j else i
  else return i

def insertionPoint (text : Text) (floor : Nat) : Checked Nat := do
  let i ← beforeSlash text floor
  skipBack isBlank text.bytes floor i

/-- Edits applied in order, the text between them cut out from `i` on. -/
def applyEdits (text : Text) (i : Nat) : List Edit → Checked Text
  | [] => slice text i text.size
  | e :: es => do
    let kept ← slice text i e.span.start
    let edited ← applyEdits text e.span.stop es
    return kept ++ (e.text ++ edited)

theorem exists_byteAt_pred (a : Text) (c : Char) (r : Text) :
    ∃ b ∈ String.utf8EncodeChar c, byteAt (a ++ c :: r).bytes ((a ++ [c]).size - 1) = .ok (ofByte b) := by
  obtain ⟨bs, b, hEncode, hBytes, hLength⟩ := exists_last_byte a c r
  refine ⟨b, by rw [hEncode]; exact List.mem_append_right _ List.mem_cons_self, ?_⟩
  rw [hBytes, ← hLength, Nat.add_sub_cancel, byteAt_append]

theorem applyEdits_eq_ok (a s : Text) {es : List Edit} {out : Text}
    (h : Edit.applyFrom a.size es s = .ok out) : applyEdits (a ++ s) a.size es = .ok out := by
  induction es generalizing a s out with
  | nil =>
    cases h
    have hCut := slice_append a s [] rfl rfl
    rw [List.append_nil] at hCut
    rw [applyEdits, Text.size_append, hCut]
  | cons e es ih =>
    rw [Edit.applyFrom] at h
    split at h
    · cases h
    · rename_i before behind hAround
      obtain ⟨old, rfl, hBefore, hOld⟩ := Edit.exists_of_around?_eq_some hAround
      cases hRest : Edit.applyFrom e.span.stop es behind with
      | error e' =>
        rw [hRest] at h
        cases h
      | ok edited =>
        rw [hRest] at h
        cases h
        have hSize : e.span.stop = (a ++ before ++ old).size := by
          rw [Text.size_append, Text.size_append, hBefore, hOld]
        rw [hSize] at hRest
        have hNext := ih (a ++ before ++ old) behind hRest
        have hText : a ++ before ++ old ++ behind = a ++ (before ++ (old ++ behind)) := by simp
        rw [hText, ← hSize] at hNext
        rw [applyEdits, slice_append a before (old ++ behind) rfl hBefore, ok_bind, hNext]
        rfl

theorem removeFirst_of_find?_eq_none {pattern name : Text} (h : Text.find? pattern name = none) :
    ClassFold.removeFirst pattern name = name := by
  induction name with
  | nil => rfl
  | cons c name ih =>
    rw [Text.find?] at h
    split at h
    · cases h
    · rename_i hNone
      rw [ClassFold.removeFirst, hNone]
      simp only
      rw [ih (Option.map_eq_none_iff.1 h)]

theorem exists_of_find?_eq_some {pattern name : Text} {i : Nat} (h : Text.find? pattern name = some i) :
    ∃ a b, name = a ++ (pattern ++ b) ∧ a.size = i ∧ ClassFold.removeFirst pattern name = a ++ b := by
  induction name generalizing i with
  | nil =>
    rw [Text.find?] at h
    split at h
    · rename_i hEmpty
      cases h
      exact ⟨[], [], by simpa using hEmpty, rfl, rfl⟩
    · cases h
  | cons c name ih =>
    rw [Text.find?] at h
    split at h
    · rename_i rest hSome
      cases h
      refine ⟨[], rest, (List.isPrefixOf?_eq_some_iff_append_eq.1 hSome).symm, rfl, ?_⟩
      rw [ClassFold.removeFirst, hSome]
      rfl
    · rename_i hNone
      obtain ⟨j, hj, rfl⟩ := Option.map_eq_some_iff.1 h
      obtain ⟨a, b, rfl, rfl, hRemove⟩ := ih hj
      refine ⟨c :: a, b, rfl, rfl, ?_⟩
      rw [ClassFold.removeFirst, hNone]
      simp only
      rw [hRemove]
      rfl

/-- What is left of a name is cut out around the first occurrence of the prefix. -/
theorem removeFirst_eq_ok (pattern name : Text) :
    removeFirst pattern name = .ok (ClassFold.removeFirst pattern name) := by
  unfold removeFirst
  split
  · rename_i hEmpty
    rw [List.isEmpty_iff.1 hEmpty]
    cases name <;> rfl
  · split
    · rename_i hFind
      rw [removeFirst_of_find?_eq_none hFind]
      rfl
    · rename_i hFind
      obtain ⟨a, b, rfl, ha, hRemove⟩ := exists_of_find?_eq_some hFind
      rw [Text.size_eq_zero_iff.1 ha] at hRemove ⊢
      rw [hRemove]
      have hCut := slice_append pattern b [] rfl rfl
      rw [List.append_nil] at hCut
      simpa using hCut
    · rename_i i hFind
      obtain ⟨a, b, rfl, rfl, hRemove⟩ := exists_of_find?_eq_some hFind
      have hBefore : slice (a ++ (pattern ++ b)) 0 a.size = .ok a :=
        slice_append [] a (pattern ++ b) rfl (Nat.zero_add _)
      have hBehind := slice_append (a ++ pattern) b [] rfl rfl
      have hSize : (a ++ (pattern ++ b)).size = (a ++ pattern).size + b.size := by simp [Nat.add_assoc]
      rw [List.append_nil, List.append_assoc] at hBehind
      rw [← Text.size_append a pattern, hSize]
      rw [hBefore, ok_bind, hBehind, hRemove]
      rfl

theorem stripBinding_eq_ok (name : Text) : stripBinding name = .ok (ClassFold.stripBinding name) := by
  have hCut : ∀ decoration rest : Text, decoration ++ rest = name →
      slice name decoration.size name.size = .ok rest := by
    rintro decoration rest rfl
    have hSlice := slice_append decoration rest [] rfl rfl
    rw [List.append_nil] at hSlice
    rw [Text.size_append]
    exact hSlice
  unfold stripBinding ClassFold.stripBinding
  rw [List.find?_cons, ← List.isSome_isPrefixOf?_eq_isPrefixOf]
  cases hSome : "v-bind:".toList.isPrefixOf? name with
  | some rest => exact hCut _ rest (List.isPrefixOf?_eq_some_iff_append_eq.1 hSome)
  | none =>
    rw [List.find?_cons, ← List.isSome_isPrefixOf?_eq_isPrefixOf]
    cases hColon : ":".toList.isPrefixOf? name with
    | some rest =>
      have hText := List.isPrefixOf?_eq_some_iff_append_eq.1 hColon
      have hRest := hCut _ rest hText
      subst hText
      exact hRest
    | none =>
      simp only [Option.isSome_none, List.find?_nil]
      split
      · rename_i rest
        simp [List.isPrefixOf?] at hColon
      · rfl

/-- The byte before an attribute is in the text. If it is a blank, it is a character of its own. -/
theorem deletion_eq_ok {t : Tag} {a : Attribute} (h : a ∈ attributes t.attrs) :
    deletion t.text t.attrsOffset a.span = .ok ((t.deletion a.span).start, (t.deletion a.span).stop) := by
  obtain ⟨pre, post, hAttrs, hStart, -⟩ := Span.slice?_eq_some_iff.1 (slice?_span_of_mem_attributes h)
  have hText : t.text = (t.head ++ pre) ++ (a.raw ++ (post ++ ['>'])) := by
    simp [Tag.text_eq, hAttrs]
  have hFront : t.attrsOffset + a.span.start = (t.head ++ pre).size := by
    rw [Text.size_append, hStart, Tag.attrsOffset]
  have hBlank := Tag.blankBefore_eq hText
  rw [← hFront] at hBlank
  obtain ⟨front, c, hLast⟩ : ∃ front c, t.head ++ pre = front ++ [c] :=
    ⟨_, _, (List.dropLast_concat_getLast (by simp [Tag.head])).symm⟩
  obtain ⟨b, hb, hByte⟩ := exists_byteAt_pred front c (a.raw ++ (post ++ ['>']))
  have hTest := asciiTest_isBlank.apply_ofByte hb
  have hPos : 0 < t.attrsOffset + a.span.start := by
    have hc := c.utf8Size_pos
    rw [hFront, hLast, Text.size_append, Text.size_cons]
    omega
  have hAll : t.text = front ++ c :: (a.raw ++ (post ++ ['>'])) := by
    rw [hText, hLast]
    simp
  rw [← hAll, ← hLast, ← hFront] at hByte
  rw [deletion, if_pos hPos, minus_eq_ok hPos, ok_bind, hByte, ok_bind, hTest, Tag.start_deletion,
    Tag.stop_deletion, hBlank, hLast]
  simp only [List.getLast?_append, List.getLast?_singleton, Option.some_or, Option.any_some]
  split <;> rfl

theorem exists_beforeSlash_eq_ok (t : Tag) :
    ∃ front tail, beforeSlash t.text t.attrsOffset = .ok (t.head ++ front).size ∧
      t.text = t.head ++ (front ++ tail) ∧
      trimRegion t.attrs = (front.reverse.dropWhile isBlank).reverse := by
  have hLength : t.text.bytes.length - 1 = (t.head ++ t.attrs).size := by
    rw [Text.length_bytes, Tag.size_text, Text.size_append, Tag.attrsOffset]
    rfl
  rw [beforeSlash, hLength]
  rcases List.eq_nil_or_concat t.attrs with hNil | ⟨front, c, hLast⟩
  · refine ⟨[], ['>'], ?_, ?_, ?_⟩
    · rw [hNil, List.append_nil, if_neg (by rw [Tag.attrsOffset]; omega)]
      rfl
    · rw [Tag.text_eq, hNil]
    · rw [hNil]
      rfl
  · rw [List.concat_eq_append] at hLast
    obtain ⟨b, hb, hByte⟩ := exists_byteAt_pred (t.head ++ front) c ['>']
    have hTest : (ofByte b == '/') = (c == '/') := (AsciiTest.beq (by decide)).apply_ofByte hb
    have hAll : t.text = t.head ++ front ++ c :: ['>'] := by simp [Tag.text_eq, hLast]
    have hFront : t.head ++ t.attrs = t.head ++ front ++ [c] := by simp [hLast]
    have hlt : t.attrsOffset < (t.head ++ front ++ [c]).size := by
      have hPos := c.utf8Size_pos
      simp only [Text.size_append, Text.size_cons, Tag.attrsOffset]
      omega
    have hOne : 1 ≤ (t.head ++ front ++ [c]).size := Nat.lt_of_le_of_lt (Nat.zero_le _) hlt
    rw [← hAll] at hByte
    rw [hFront, if_pos hlt, minus_eq_ok hOne, ok_bind, hByte, ok_bind, hTest]
    by_cases hc : c = '/'
    · subst hc
      refine ⟨front, ['/', '>'], ?_, by simp [hAll], by simp [trimRegion, hLast]⟩
      rw [size_append_singleton (by decide)]
      simp
    · have hNot : (c == '/') = false := by simpa using hc
      refine ⟨front ++ [c], ['>'], by simp [hNot], by simp [hAll], ?_⟩
      simp [trimRegion, hLast, hc]

theorem insertionPoint_eq_ok (t : Tag) : insertionPoint t.text t.attrsOffset = .ok t.insertionPoint := by
  obtain ⟨front, tail, hSlash, hText, hTrim⟩ := exists_beforeSlash_eq_ok t
  have hBack := skipBack_bytes (p := isBlank) (fun _ => lt_of_isBlank) t.head front tail
  rw [← hText] at hBack
  rw [insertionPoint, hSlash, ok_bind, Tag.insertionPoint, hTrim, Tag.attrsOffset, ← Text.size_append]
  exact hBack

end Checked

end ClassFold

import ClassFold.Markup.TagEnd

/-!
# The elements of a document

An element is an opening tag together with the offset at which it stands. The document is read from
left to right: where a tag can be read it is taken whole, elsewhere the reader moves on by one
character.
-/

set_option autoImplicit false

namespace ClassFold

def Tag.read? : Text → Option (Tag × Text)
  | '<' :: c :: s =>
    if isWordChar c then
      match s.dropWhile isTagNameChar with
      | gap :: r =>
        if isBlank gap then
          (TagEnd.region? r).map fun (attrs, rest) =>
            (⟨c :: s.takeWhile isTagNameChar, gap, attrs⟩, rest)
        else none
      | [] => none
    else none
  | _ => none

theorem Tag.eq_of_read? {s rest : Text} {t : Tag} (h : Tag.read? s = some (t, rest)) :
    s = t.text ++ rest := by
  unfold Tag.read? at h
  split at h
  · rename_i c s
    split at h
    · split at h
      · rename_i gap r hd
        split at h
        · simp only [Option.map_eq_some_iff, Prod.exists, Prod.mk.injEq] at h
          obtain ⟨attrs, rest', hr, rfl, rfl⟩ := h
          have hs := List.takeWhile_append_dropWhile (p := isTagNameChar) (l := s)
          rw [hd, TagEnd.eq_of_region? hr] at hs
          simpa [Tag.text, Tag.head] using hs.symm
        · cases h
      · cases h
    · cases h
  · cases h

theorem Tag.length_of_read? {s rest : Text} {t : Tag} (h : Tag.read? s = some (t, rest)) :
    rest.length < s.length := by
  rw [Tag.eq_of_read? h, List.length_append, Tag.length_text]
  omega

structure Element extends Tag where
  start : Nat
deriving DecidableEq, Repr

namespace Element

def span (e : Element) : Span :=
  ⟨e.start, e.start + e.text.size, Nat.le_add_right _ _⟩

end Element

def elementsFrom (offset : Nat) (s : Text) : List Element :=
  match s with
  | [] => []
  | c :: s =>
    match _h : Tag.read? (c :: s) with
    | some (t, rest) => ⟨t, offset⟩ :: elementsFrom (offset + t.text.size) rest
    | none => elementsFrom (offset + c.utf8Size) s
termination_by s.length
decreasing_by
  · exact Tag.length_of_read? _h
  · exact Nat.lt_succ_self _

def elements (s : Text) : List Element := elementsFrom 0 s

end ClassFold

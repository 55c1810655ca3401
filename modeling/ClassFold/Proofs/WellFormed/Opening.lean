import ClassFold.Proofs.Markup.Deletion
import ClassFold.Proofs.Markup.TagReading
import ClassFold.Proofs.WellFormed.Item

/-!
# Openings

An opening is an opening tag as it should be written: a name, items, and `>` or ` />`. An opening with
anything between its name and the closing `>` is read as a tag, whatever follows it, and the attributes
of this tag are those of the items. Without anything in between there is no tag to read.
-/

set_option autoImplicit false

namespace ClassFold

structure Opening where
  name : Text
  items : List Item
  selfClosing : Bool
deriving DecidableEq, Repr

namespace Opening

def closing (t : Opening) : Text := if t.selfClosing then [' ', '/'] else []

/-- What stands between the name and the closing `>`. -/
def inner (t : Opening) : Text := t.items.flatMap Item.text ++ t.closing

def text (t : Opening) : Text := '<' :: (t.name ++ (t.inner ++ ['>']))

structure WellFormed (t : Opening) : Prop where
  name : ∃ c cs, t.name = c :: cs ∧ isWordChar c = true ∧ ∀ d ∈ cs, isTagNameChar d = true
  items : ∀ i ∈ t.items, i.WellFormed

variable {t : Opening} {gap : Char} {attrs : Text}

theorem closing_eq_nil_or (t : Opening) : t.closing = [] ∨ t.closing = [' ', '/'] := by
  unfold closing
  split
  · exact Or.inr rfl
  · exact Or.inl rfl

theorem followsItem_closing (t : Opening) : FollowsItem t.closing := by
  rcases t.closing_eq_nil_or with h | h <;> rw [h]
  · exact ⟨by simp, by simp⟩
  · exact ⟨by simp [isBlank], by decide⟩

theorem attributesFrom_closing (t : Opening) (offset : Nat) : attributesFrom offset (pieces t.closing) = [] := by
  rcases t.closing_eq_nil_or with h | h <;> rw [h]
  · rw [pieces]
    rfl
  · have hEnd : Piece.read '/' [] = (.dropped ['/'], []) := rfl
    rw [attributesFrom_pieces, List.dropWhile_cons_of_pos (by decide), List.dropWhile_cons_of_neg (by decide),
      attributesFrom_pieces_cons, hEnd, pieces]
    rfl

/-- The first blank belongs to the tag; it is that of the first item or that of the slash. -/
theorem cases_of_inner (hInner : t.inner = gap :: attrs) :
    (∃ i is, t.items = i :: is ∧ gap = i.blank ∧ attrs = i.body ++ (is.flatMap Item.text ++ t.closing)) ∨
      t.items = [] ∧ gap = ' ' ∧ attrs = ['/'] := by
  unfold inner at hInner
  cases hItems : t.items with
  | nil =>
    rw [hItems] at hInner
    rcases t.closing_eq_nil_or with hClosing | hClosing <;> rw [hClosing] at hInner
    · cases hInner
    · cases hInner
      exact Or.inr ⟨rfl, rfl, rfl⟩
  | cons i is =>
    rw [hItems, List.flatMap_cons, List.append_assoc, Item.text, List.cons_append, List.cons.injEq] at hInner
    exact Or.inl ⟨i, is, rfl, hInner.1.symm, hInner.2.symm⟩

theorem WellFormed.isBlank_gap (h : t.WellFormed) (hInner : t.inner = gap :: attrs) : isBlank gap = true := by
  rcases cases_of_inner hInner with ⟨i, is, hItems, rfl, -⟩ | ⟨-, rfl, -⟩
  · exact (h.items i (hItems ▸ List.mem_cons_self)).blank
  · decide

theorem WellFormed.attributes_attrs (h : t.WellFormed) (hInner : t.inner = gap :: attrs) :
    attributes attrs = Item.located 0 t.items := by
  rcases cases_of_inner hInner with ⟨i, is, hItems, -, rfl⟩ | ⟨hItems, -, rfl⟩
  · have hAll := h.items
    rw [hItems] at hAll ⊢
    exact Item.attributes_body (hAll i List.mem_cons_self) (fun j hj => hAll j (List.mem_cons_of_mem _ hj))
      t.followsItem_closing t.attributesFrom_closing
  · have hEnd : Piece.read '/' [] = (.dropped ['/'], []) := rfl
    rw [hItems, attributes, attributesFrom_pieces_cons, hEnd, pieces]
    rfl

theorem WellFormed.exists_passes (h : t.WellFormed) (hInner : t.inner = gap :: attrs) :
    ∃ last, TagEnd.Passes .start ⟨none, 0, last⟩ attrs := by
  have hSlash (last : Char) : ∃ last', TagEnd.Passes ⟨none, 0, last⟩ ⟨none, 0, last'⟩ t.closing := by
    apply TagEnd.Passes.plain last
    rcases t.closing_eq_nil_or with hClosing | hClosing <;> rw [hClosing]
    · exact List.forall_mem_nil _
    · exact List.forall_mem_cons.2 ⟨by decide, List.forall_mem_singleton.2 (by decide)⟩
  rcases cases_of_inner hInner with ⟨i, is, hItems, -, rfl⟩ | ⟨-, -, rfl⟩
  · have hAll := h.items
    rw [hItems] at hAll
    obtain ⟨last, hFirst⟩ := (hAll i List.mem_cons_self).exists_passes ' '
    obtain ⟨last', hItems⟩ :=
      Item.exists_passes_flatMap (fun j hj => hAll j (List.mem_cons_of_mem _ hj)) last
    obtain ⟨last'', hClosing⟩ := hSlash last'
    exact ⟨last'', hFirst.append (hItems.append hClosing)⟩
  · exact TagEnd.Passes.plain ' ' (List.forall_mem_singleton.2 (by decide))

theorem WellFormed.read?_append (h : t.WellFormed) (hInner : t.inner = gap :: attrs) (rest : Text) :
    Tag.read? (t.text ++ rest) = some (⟨t.name, gap, attrs⟩, rest) := by
  obtain ⟨c, cs, hName, hc, hcs⟩ := h.name
  obtain ⟨last, hPasses⟩ := h.exists_passes hInner
  have hCut : TagEnd.cut? (attrs ++ '>' :: rest) = some (attrs, rest) := by
    rw [TagEnd.cut?, hPasses, TagEnd.cutAfter?]
    simp [TagEnd.State.isOutside]
  refine Tag.read?_eq_some_iff.2
    ⟨c, cs, attrs ++ '>' :: rest, hName, hc, hcs, h.isBlank_gap hInner, ?_, ?_⟩
  · simp [text, hInner]
  · exact TagEnd.region?_eq_some_iff.2 (Or.inl hCut)

theorem WellFormed.read?_append_of_inner_eq_nil (h : t.WellFormed) (hInner : t.inner = []) (rest : Text) :
    Tag.read? (t.text ++ rest) = none := by
  obtain ⟨c, cs, hName, hc, hcs⟩ := h.name
  have hStop : ∀ d, ('>' :: rest).head? = some d → isTagNameChar d = false := by
    rintro d ⟨⟩
    decide
  have hDrop := (Text.takeWhile_dropWhile_append hcs hStop).2
  simp [text, hInner, hName, Tag.read?, hc, hDrop, isBlank]

theorem text_eq_of_inner (hInner : t.inner = gap :: attrs) : (Tag.mk t.name gap attrs).text = t.text := by
  simp [Tag.text, Tag.head, text, hInner]

theorem WellFormed.trimRegion_attrs (h : t.WellFormed) (hInner : t.inner = gap :: attrs)
    (hItems : t.items ≠ []) : gap :: trimRegion attrs = t.items.flatMap Item.text := by
  rcases cases_of_inner hInner with ⟨i, is, hEq, rfl, rfl⟩ | ⟨hEq, -⟩
  · have hAll := h.items
    rw [hEq] at hAll
    obtain ⟨c, hLast, hBlank, hSlash⟩ :=
      Item.exists_getLast?_items (hAll i List.mem_cons_self) fun j hj => hAll j (List.mem_cons_of_mem _ hj)
    obtain ⟨blanks, hBlanks, hClosing⟩ : ∃ blanks : Text, (∀ b ∈ blanks, isBlank b = true) ∧
        (t.closing = blanks ∨ t.closing = blanks ++ ['/']) := by
      rcases t.closing_eq_nil_or with hNil | hSlash
      · exact ⟨[], List.forall_mem_nil _, Or.inl hNil⟩
      · exact ⟨[' '], List.forall_mem_singleton.2 (by decide), Or.inr hSlash⟩
    rw [← List.append_assoc, trimRegion_append hLast hBlank hSlash hBlanks hClosing, hEq]
    rfl
  · exact absurd hEq hItems

end Opening

end ClassFold

import ClassFold.Disposition
import ClassFold.Proofs.Markup.Extent
import ClassFold.Proofs.Markup.Region

/-!
# Items

An item is an attribute as it should be written: one blank, a name, and one of five kinds of value. In
front of whatever may follow an item, reading it gives back its parts, as a piece and on the way to the
end of the tag.
-/

set_option autoImplicit false

namespace ClassFold

inductive ItemValue where
  /-- The item is a bare name. -/
  | absent
  | quoted (braced : Bool) (quote : Char) (value : Text)
  | bare (text : Text)
  /-- The text between the braces. -/
  | expression (text : Text)
deriving DecidableEq, Repr

namespace ItemValue

def text : ItemValue → Text
  | absent => []
  | quoted false q v => '=' :: q :: (v ++ [q])
  | quoted true q v => '=' :: '{' :: q :: (v ++ [q, '}'])
  | bare w => '=' :: w
  | expression e => '=' :: '{' :: (e ++ ['}'])

def WellFormed : ItemValue → Prop
  | absent => True
  | quoted _ q v => isStraightQuote q = true ∧ q ∉ v
  | bare w => w ≠ [] ∧ w.getLast? ≠ some '/' ∧
      ∀ c ∈ w, isBlank c = false ∧ isQuote c = false ∧ c ≠ '{' ∧ c ≠ '}' ∧ c ≠ '>'
  | expression e => Balanced e ∧ ∀ c, e.head? = some c → isStraightQuote c = false

end ItemValue

structure Item where
  blank : Char
  name : Text
  value : ItemValue
deriving DecidableEq, Repr

namespace Item

def body (i : Item) : Text := i.name ++ i.value.text

def text (i : Item) : Text := i.blank :: i.body

structure WellFormed (i : Item) : Prop where
  blank : isBlank i.blank = true
  name : IsName i.name
  inside : '>' ∉ i.name
  value : i.value.WellFormed

def piece (i : Item) : Piece :=
  match i.value with
  | .absent => .flag i.name []
  | .quoted false q v => .valued i.name ⟨['='], q, v, []⟩
  | .quoted true q v => .valued i.name ⟨['=', '{'], q, v, ['}']⟩
  | .bare w => .sealed i.name ['='] w
  | .expression e => .sealed i.name ['='] ('{' :: (e ++ ['}']))

theorem text_piece (i : Item) : i.piece.text = i.body := by
  obtain ⟨blank, name, value⟩ := i
  rcases value with _ | ⟨_ | _, q, v⟩ | w | e <;>
    simp [piece, body, Piece.text, ItemValue.text, Quoted.text]

end Item

/-- What may follow an item: nothing, or a blank, and behind the blanks no `=`. -/
structure FollowsItem (s : Text) : Prop where
  blank : ∀ c, s.head? = some c → isBlank c = true
  noValue : (s.dropWhile isBlank).head? ≠ some '='

theorem isNameChar_eq_false_of_isBlank {c : Char} (h : isBlank c = true) : isNameChar c = false := by
  simp [isNameChar, h]

theorem splitSlashes_of_getLast? {s : Text} (h : s.getLast? ≠ some '/') : splitSlashes s = (s, []) := by
  have hTake : s.reverse.takeWhile (· == '/') = [] := by
    cases hs : s.reverse with
    | nil => rfl
    | cons c r =>
      have hc : c ≠ '/' := by
        rintro rfl
        exact h (by rw [List.getLast?_eq_head?_reverse, hs, List.head?_cons])
      simp [hc]
  have hSplit := splitSlashes_append s
  simp only [splitSlashes, hTake, List.reverse_nil, List.append_nil] at hSplit ⊢
  rw [hSplit]

namespace Piece

theorem read_name {c : Char} {cs s : Text} (hName : IsName (c :: cs))
    (hStop : ∀ d, s.head? = some d → isNameChar d = false) : read c (cs ++ s) = ofName (c :: cs) s := by
  have hc := hName.chars c List.mem_cons_self
  obtain ⟨hBlank, hQuote, -⟩ := isNameChar_eq_true_iff.1 hc
  have hcs : ∀ d ∈ cs, isNameChar d = true := fun d hd => hName.chars d (List.mem_cons_of_mem _ hd)
  obtain ⟨hTake, hDrop⟩ := Text.takeWhile_dropWhile_append hcs hStop
  simp [read, hBlank, hQuote, hc, hTake, hDrop, splitSlashes_of_getLast? hName.last, hName.accepted]

theorem ofName_of_noValue {name s : Text} (h : (s.dropWhile isBlank).head? ≠ some '=') :
    ofName name s = (flag name [], s) := by
  unfold ofName
  split
  · rename_i r hDrop
    rw [hDrop] at h
    exact absurd rfl h
  · rfl

theorem noBlanks_around_sign {s : Text} (hs : ∀ c, s.head? = some c → isBlank c = false) :
    (s.takeWhile isBlank = [] ∧ s.dropWhile isBlank = s) ∧
      ('=' :: s).takeWhile isBlank = [] ∧ ('=' :: s).dropWhile isBlank = '=' :: s := by
  have hSign : ∀ c, ('=' :: s).head? = some c → isBlank c = false := by
    rintro c ⟨⟩
    decide
  constructor
  · simpa using Text.takeWhile_dropWhile_append (s := []) (by simp) hs
  · simpa using Text.takeWhile_dropWhile_append (s := []) (by simp) hSign

theorem ofName_of_readQuoted? {name s after : Text} {value : Quoted}
    (hs : ∀ c, s.head? = some c → isBlank c = false) (hOpens : opensQuoted s = true)
    (hRead : readQuoted? ['='] s = some (value, after)) :
    ofName name ('=' :: s) = (valued name value, after) := by
  obtain ⟨⟨hTake, hDrop⟩, hTake', hDrop'⟩ := noBlanks_around_sign hs
  simp only [ofName, hTake, hDrop, hTake', hDrop', List.nil_append, hOpens, if_true, hRead]

theorem ofName_of_not_opensQuoted {name s : Text} (hs : ∀ c, s.head? = some c → isBlank c = false)
    (hOpens : opensQuoted s = false) :
    ofName name ('=' :: s) = (sealed name ['='] (readSealed s).1, (readSealed s).2) := by
  obtain ⟨⟨hTake, hDrop⟩, hTake', hDrop'⟩ := noBlanks_around_sign hs
  simp only [ofName, hTake, hDrop, hTake', hDrop', List.nil_append, hOpens, Bool.false_eq_true, if_false]

end Piece

theorem isBlank_eq_false_of_isStraightQuote {q : Char} (h : isStraightQuote q = true) : isBlank q = false := by
  rw [isStraightQuote, Bool.or_eq_true, beq_iff_eq, beq_iff_eq] at h
  rcases h with rfl | rfl <;> decide

theorem isQuote_of_isStraightQuote {q : Char} (h : isStraightQuote q = true) : isQuote q = true := by
  rw [isStraightQuote, Bool.or_eq_true, beq_iff_eq, beq_iff_eq] at h
  rcases h with rfl | rfl <;> decide

theorem splitBrace_of_ne {c : Char} (h : c ≠ '{') (s : Text) : splitBrace (c :: s) = ([], c :: s) := by
  unfold splitBrace
  split
  · rename_i hEq
    exact absurd (List.cons.inj hEq).1 h
  · rfl

theorem splitBrace_of_isStraightQuote {q : Char} (h : isStraightQuote q = true) (s : Text) :
    splitBrace (q :: s) = ([], q :: s) := by
  apply splitBrace_of_ne
  rintro rfl
  exact absurd h (by decide)

theorem opensQuoted_cons_of_isQuote {q : Char} (hQuote : isQuote q = true) (s : Text) :
    opensQuoted (q :: s) = isStraightQuote q := by
  have hNe : q ≠ '{' := by
    rintro rfl
    exact absurd hQuote (by decide)
  rw [opensQuoted, splitBrace_of_ne hNe]
  rfl

theorem readQuoted?_plain {q : Char} {v : Text} (hStraight : isStraightQuote q = true) (hFree : q ∉ v)
    (lead s : Text) : readQuoted? lead (q :: (v ++ q :: s)) = some (⟨lead, q, v, []⟩, s) := by
  obtain ⟨hTake, hDrop⟩ := Text.takeWhile_dropWhile_ne hFree s
  simp [readQuoted?, splitBrace_of_isStraightQuote hStraight, hStraight, hTake, hDrop, closeBrace]

theorem readQuoted?_braced {q : Char} {v : Text} (hStraight : isStraightQuote q = true) (hFree : q ∉ v)
    (lead s : Text) :
    readQuoted? lead ('{' :: q :: (v ++ q :: '}' :: s)) = some (⟨lead ++ ['{'], q, v, ['}']⟩, s) := by
  obtain ⟨hTake, hDrop⟩ := Text.takeWhile_dropWhile_ne hFree ('}' :: s)
  simp [readQuoted?, splitBrace, hStraight, hTake, hDrop, closeBrace]

namespace Item

theorem WellFormed.ofName_value {i : Item} (h : i.WellFormed) {rest : Text} (hRest : FollowsItem rest) :
    Piece.ofName i.name (i.value.text ++ rest) = (i.piece, rest) := by
  obtain ⟨blank, name, value⟩ := i
  have hValue := h.value
  rcases value with _ | ⟨_ | _, q, v⟩ | w | e
  · exact Piece.ofName_of_noValue hRest.noValue
  · obtain ⟨hStraight, hFree⟩ := hValue
    have hText : ItemValue.text (.quoted false q v) ++ rest = '=' :: q :: (v ++ q :: rest) := by
      simp [ItemValue.text]
    rw [hText]
    apply Piece.ofName_of_readQuoted?
    · rintro c ⟨⟩
      exact isBlank_eq_false_of_isStraightQuote hStraight
    · simp [opensQuoted, splitBrace_of_isStraightQuote hStraight, hStraight]
    · exact readQuoted?_plain hStraight hFree ['='] rest
  · obtain ⟨hStraight, hFree⟩ := hValue
    have hText : ItemValue.text (.quoted true q v) ++ rest = '=' :: '{' :: q :: (v ++ q :: '}' :: rest) := by
      simp [ItemValue.text]
    rw [hText]
    apply Piece.ofName_of_readQuoted?
    · rintro c ⟨⟩
      decide
    · simp [opensQuoted, splitBrace, hStraight]
    · exact readQuoted?_braced hStraight hFree ['='] rest
  · obtain ⟨hNe, -, hPlain⟩ := hValue
    obtain ⟨c, w', hw⟩ := List.exists_cons_of_ne_nil hNe
    obtain ⟨hBlank, hQuote, hOpen, -⟩ := hPlain c (hw ▸ List.mem_cons_self)
    have hText : ItemValue.text (.bare w) ++ rest = '=' :: (w ++ rest) := rfl
    have hOpens : opensQuoted (w ++ rest) = false := by
      rw [hw, List.cons_append, opensQuoted, splitBrace_of_ne hOpen, List.head?_cons, Option.any_some]
      rw [← Bool.not_eq_true]
      intro hStraight
      rw [isQuote_of_isStraightQuote hStraight] at hQuote
      cases hQuote
    have hBare : IsValue w rest := by
      rw [hw]
      exact .bare hOpen hQuote (fun d hd => (hPlain d (hw ▸ hd)).1) hRest.blank
    rw [hText, Piece.ofName_of_not_opensQuoted hBare.isBlank_head? hOpens, hBare.readSealed_append]
    rfl
  · obtain ⟨hBalanced, hHead⟩ := hValue
    have hText : ItemValue.text (.expression e) ++ rest = '=' :: ('{' :: (e ++ ['}']) ++ rest) := by
      simp [ItemValue.text]
    have hOpens : opensQuoted ('{' :: (e ++ ['}']) ++ rest) = false := by
      cases e with
      | nil => simp [opensQuoted, splitBrace, isStraightQuote]
      | cons c e => simp [opensQuoted, splitBrace, hHead c rfl]
    have hBinding : IsValue ('{' :: (e ++ ['}'])) rest := .binding hBalanced
    rw [hText, Piece.ofName_of_not_opensQuoted hBinding.isBlank_head? hOpens, hBinding.readSealed_append]
    rfl

theorem WellFormed.exists_getLast?_body {i : Item} (h : i.WellFormed) :
    ∃ c, i.body.getLast? = some c ∧ isBlank c = false ∧ c ≠ '/' := by
  obtain ⟨blank, name, value⟩ := i
  have hValue := h.value
  have hName := h.name
  rcases value with _ | ⟨_ | _, q, v⟩ | w | e
  · have hLast := List.getLast?_eq_some_getLast hName.ne_nil
    refine ⟨name.getLast hName.ne_nil, by simpa [body, ItemValue.text] using hLast, ?_, ?_⟩
    · exact (isNameChar_eq_true_iff.1 (hName.chars _ (List.getLast_mem hName.ne_nil))).1
    · intro hEq
      exact hName.last (hEq ▸ hLast)
  · have hStraight := hValue.1
    refine ⟨q, by simp [body, ItemValue.text, List.getLast?_cons],
      isBlank_eq_false_of_isStraightQuote hStraight, ?_⟩
    rintro rfl
    exact absurd hStraight (by decide)
  · exact ⟨'}', by simp [body, ItemValue.text, List.getLast?_cons], by decide, by decide⟩
  · obtain ⟨hNe, hSlash, hPlain⟩ := hValue
    have hLast := List.getLast?_eq_some_getLast hNe
    refine ⟨w.getLast hNe, by simp [body, ItemValue.text, List.getLast?_cons, hLast], ?_, ?_⟩
    · exact (hPlain _ (List.getLast_mem hNe)).1
    · intro hEq
      exact hSlash (hEq ▸ hLast)
  · exact ⟨'}', by simp [body, ItemValue.text, List.getLast?_cons], by decide, by decide⟩

/-- On the way to the end of the tag an item is passed over, whatever stands before it. -/
theorem WellFormed.exists_passes {i : Item} (h : i.WellFormed) (last : Char) :
    ∃ last', TagEnd.Passes ⟨none, 0, last⟩ ⟨none, 0, last'⟩ i.body := by
  obtain ⟨blank, name, value⟩ := i
  have hValue := h.value
  have hPlain : ∀ c ∈ name, isQuote c = false ∧ c ≠ '{' ∧ c ≠ '}' ∧ c ≠ '>' := by
    intro c hc
    obtain ⟨-, hQuote, -, hOpen, hClose⟩ := isNameChar_eq_true_iff.1 (h.name.chars c hc)
    refine ⟨hQuote, hOpen, hClose, ?_⟩
    rintro rfl
    exact h.inside hc
  obtain ⟨before, hName⟩ := TagEnd.Passes.plain last hPlain
  -- Behind the sign a string may start, whatever the name was.
  have hSign {s : Text} {last' : Char} (hs : TagEnd.Passes ⟨none, 0, '='⟩ ⟨none, 0, last'⟩ s) :
      ∃ last', TagEnd.Passes ⟨none, 0, last⟩ ⟨none, 0, last'⟩ (name ++ '=' :: s) :=
    ⟨last', hName.append (TagEnd.Passes.cons rfl hs)⟩
  rcases value with _ | ⟨_ | _, q, v⟩ | w | e
  · exact ⟨before, by simpa [body, ItemValue.text] using hName⟩
  · exact hSign (TagEnd.Passes.string (isQuote_of_isStraightQuote hValue.1) rfl hValue.2)
  · have hString := Balanced.string (isQuote_of_isStraightQuote hValue.1) hValue.2 Balanced.nil
    simpa [body, ItemValue.text] using hSign (TagEnd.Passes.braces hString '=')
  · obtain ⟨last', hBare⟩ := TagEnd.Passes.plain '=' fun c hc => (hValue.2.2 c hc).2
    exact hSign hBare
  · exact hSign (TagEnd.Passes.braces hValue.1 '=')

def attribute? (offset : Nat) (i : Item) : Option Attribute := i.piece.attribute? offset

theorem start_raw_of_attribute? {i : Item} {offset : Nat} {a : Attribute}
    (h : i.attribute? offset = some a) : a.start = offset ∧ a.raw = i.body := by
  obtain ⟨blank, name, value⟩ := i
  rcases value with _ | ⟨_ | _, q, v⟩ | w | e <;> cases h <;> exact ⟨rfl, rfl⟩

theorem WellFormed.attributesFrom_body {i : Item} (h : i.WellFormed) (offset : Nat) {rest : Text}
    (hRest : FollowsItem rest) :
    attributesFrom offset (pieces (i.body ++ rest)) =
      (i.attribute? offset).toList ++ attributesFrom (offset + i.body.size) (pieces rest) := by
  obtain ⟨c, cs, hName⟩ := List.exists_cons_of_ne_nil h.name.ne_nil
  have hBody : i.body ++ rest = c :: (cs ++ (i.value.text ++ rest)) := by
    rw [body, hName, List.append_assoc, List.cons_append]
  have hStop : ∀ d, (i.value.text ++ rest).head? = some d → isNameChar d = false := by
    intro d hd
    rcases hValue : i.value with _ | ⟨_ | _, q, v⟩ | w | e <;> rw [hValue] at hd
    · exact isNameChar_eq_false_of_isBlank (hRest.blank d hd)
    all_goals
      cases hd
      decide
  have hRead := Piece.read_name (hName ▸ h.name) hStop
  rw [← hName, h.ofName_value hRest] at hRead
  rw [hBody, attributesFrom_pieces_cons, hRead, text_piece]
  rfl

theorem WellFormed.size_text {i : Item} (h : i.WellFormed) : i.text.size = i.body.size + 1 := by
  rw [text, Text.size_cons, utf8Size_of_isBlank h.blank, Nat.add_comm]

def located (offset : Nat) : List Item → List Attribute
  | [] => []
  | i :: is => (i.attribute? offset).toList ++ located (offset + i.text.size) is

theorem WellFormed.exists_body_eq_cons {i : Item} (h : i.WellFormed) :
    ∃ c s, i.body = c :: s ∧ isBlank c = false ∧ c ≠ '=' := by
  obtain ⟨c, cs, hName⟩ := List.exists_cons_of_ne_nil h.name.ne_nil
  have hc := isNameChar_eq_true_iff.1 (h.name.chars c (hName ▸ List.mem_cons_self))
  exact ⟨c, cs ++ i.value.text, by rw [body, hName, List.cons_append], hc.1, hc.2.2.1⟩

variable {items : List Item} {rest : Text}

theorem followsItem_flatMap (h : ∀ i ∈ items, i.WellFormed) (hRest : FollowsItem rest) :
    FollowsItem (items.flatMap text ++ rest) := by
  cases items with
  | nil => exact hRest
  | cons i is =>
    have hi := h i List.mem_cons_self
    obtain ⟨c, s, hBody, hBlank, hSign⟩ := hi.exists_body_eq_cons
    constructor
    · rintro d ⟨⟩
      exact hi.blank
    · simp [text, hBody, hi.blank, hBlank, hSign]

/-- The blank in front of an item is no part of its attribute. -/
theorem attributesFrom_flatMap (h : ∀ i ∈ items, i.WellFormed) (hRest : FollowsItem rest)
    (hNone : ∀ offset, attributesFrom offset (pieces rest) = []) (offset : Nat) :
    attributesFrom offset (pieces (items.flatMap text ++ rest)) = located (offset + 1) items := by
  induction items generalizing offset with
  | nil => exact hNone offset
  | cons i is ih =>
    have hi := h i List.mem_cons_self
    have his : ∀ j ∈ is, j.WellFormed := fun j hj => h j (List.mem_cons_of_mem _ hj)
    obtain ⟨c, s, hBody, hBlank, -⟩ := hi.exists_body_eq_cons
    have hSkip : attributesFrom offset (pieces (i.text ++ (is.flatMap text ++ rest))) =
        attributesFrom (offset + 1) (pieces (i.body ++ (is.flatMap text ++ rest))) := by
      rw [attributesFrom_pieces]
      simp [text, hBody, hi.blank, hBlank, utf8Size_of_isBlank hi.blank]
    rw [List.flatMap_cons, List.append_assoc, hSkip, hi.attributesFrom_body _ (followsItem_flatMap his hRest),
      ih his, located, hi.size_text, Nat.add_assoc, Nat.add_assoc]

/-- The first item of a region has lost its blank to the name of the tag. -/
theorem attributes_body {i : Item} {is : List Item} (hi : i.WellFormed) (his : ∀ j ∈ is, j.WellFormed)
    (hRest : FollowsItem rest) (hNone : ∀ offset, attributesFrom offset (pieces rest) = []) :
    attributes (i.body ++ (is.flatMap text ++ rest)) = located 0 (i :: is) := by
  rw [attributes, hi.attributesFrom_body _ (followsItem_flatMap his hRest),
    attributesFrom_flatMap his hRest hNone, located, hi.size_text, Nat.add_assoc]

theorem exists_passes_flatMap (h : ∀ i ∈ items, i.WellFormed) (last : Char) :
    ∃ last', TagEnd.Passes ⟨none, 0, last⟩ ⟨none, 0, last'⟩ (items.flatMap text) := by
  induction items generalizing last with
  | nil => exact ⟨last, TagEnd.Passes.refl _⟩
  | cons i is ih =>
    have hi := h i List.mem_cons_self
    obtain ⟨before, hBlank⟩ := TagEnd.Passes.plain (s := [i.blank]) last (by
      intro c hc
      rw [List.mem_singleton.1 hc]
      rcases isBlank_eq_true_iff.1 hi.blank with hc | hc | hc | hc | hc <;> rw [hc] <;> decide)
    obtain ⟨behind, hBody⟩ := hi.exists_passes before
    obtain ⟨last', hRest⟩ := ih (fun j hj => h j (List.mem_cons_of_mem _ hj)) behind
    exact ⟨last', (hBlank.append hBody).append hRest⟩

theorem exists_getLast?_items {i : Item} {is : List Item} (hi : i.WellFormed) (his : ∀ j ∈ is, j.WellFormed) :
    ∃ c, (i.body ++ is.flatMap text).getLast? = some c ∧ isBlank c = false ∧ c ≠ '/' := by
  induction is generalizing i with
  | nil => simpa using hi.exists_getLast?_body
  | cons j js ih =>
    obtain ⟨c, hLast, hc⟩ := ih (his j List.mem_cons_self) fun k hk => his k (List.mem_cons_of_mem _ hk)
    refine ⟨c, ?_, hc⟩
    have hText : i.body ++ (j :: js).flatMap text = (i.body ++ [j.blank]) ++ (j.body ++ js.flatMap text) := by
      simp [text]
    rw [hText, List.getLast?_append, hLast]
    rfl

end Item

end ClassFold

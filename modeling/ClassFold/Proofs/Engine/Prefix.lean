import ClassFold.Disposition
import Mathlib.Data.List.Infix
import Mathlib.Data.List.Forall2

/-!
# Prefixed names

The prefix is taken out where it first occurs. In a name that has it right behind the binding decoration no
earlier place is possible, as long as the prefix has no colon and is no part of `v-bind`. So an attribute
with the prefix is classified as the same attribute without it: `classify_prefixed`.
-/

set_option autoImplicit false

namespace ClassFold

theorem removeFirst_append (p n : Text) : removeFirst p (p ++ n) = n := by
  cases h : p ++ n with
  | nil =>
    obtain ⟨-, rfl⟩ := List.append_eq_nil_iff.1 h
    rfl
  | cons c r =>
    have hPrefix : p.isPrefixOf? (c :: r) = some n := List.isPrefixOf?_eq_some_iff_append_eq.2 h
    rw [removeFirst, hPrefix]

theorem removeFirst_cons_of_not_begins {p r : Text} {c : Char} (h : ¬ p <+: c :: r) :
    removeFirst p (c :: r) = c :: removeFirst p r := by
  have hNone : p.isPrefixOf? (c :: r) = none := by
    rw [Option.eq_none_iff_forall_ne_some]
    intro rest hSome
    exact h ⟨rest, List.isPrefixOf?_eq_some_iff_append_eq.1 hSome⟩
  rw [removeFirst, hNone]

/-- A text without a colon that begins in front of a colon ends in front of it. -/
theorem prefix_of_prefix_append_colon {p u r : Text} (hColon : ':' ∉ p) (h : p <+: u ++ ':' :: r) : p <+: u := by
  obtain ⟨t, ht⟩ := h
  rcases List.append_eq_append_iff.1 ht with ⟨m, rfl, -⟩ | ⟨m, rfl, hm⟩
  · exact List.prefix_append _ _
  · cases m with
    | nil => simp
    | cons c m =>
      obtain ⟨rfl, -⟩ := List.cons.inj hm
      exact absurd (List.mem_append_right _ List.mem_cons_self) hColon

theorem removeFirst_append_colon {p u : Text} (hColon : ':' ∉ p) (hPart : ¬ p <:+: u) (n : Text) :
    removeFirst p (u ++ ':' :: (p ++ n)) = u ++ ':' :: n := by
  have hFirst : ¬ p <+: u ++ ':' :: (p ++ n) :=
    fun hPrefix => hPart (prefix_of_prefix_append_colon hColon hPrefix).isInfix
  induction u with
  | nil =>
    rw [List.nil_append] at hFirst ⊢
    rw [removeFirst_cons_of_not_begins hFirst, removeFirst_append]
    rfl
  | cons c u ih =>
    have hRest : ¬ p <:+: u := fun hu => hPart (List.infix_cons hu)
    have hNext : ¬ p <+: u ++ ':' :: (p ++ n) :=
      fun hPrefix => hRest (prefix_of_prefix_append_colon hColon hPrefix).isInfix
    rw [List.cons_append] at hFirst ⊢
    rw [removeFirst_cons_of_not_begins hFirst, ih hRest hNext]
    rfl

/-- What may stand in front of a name to make its attribute a binding. -/
def IsDecoration (d : Text) : Prop := d = [] ∨ d = [':'] ∨ d = "v-bind:".toList

instance (d : Text) : Decidable (IsDecoration d) := inferInstanceAs (Decidable (_ ∨ _))

theorem removeFirst_decorated {p d : Text} (hColon : ':' ∉ p) (hPart : ¬ p <:+: "v-bind".toList)
    (hd : IsDecoration d) (n : Text) : removeFirst p (d ++ (p ++ n)) = d ++ n := by
  rcases hd with rfl | rfl | rfl
  · exact removeFirst_append p n
  · have hNil : ¬ p <:+: [] := fun hNil => hPart (hNil.trans (List.nil_infix))
    exact removeFirst_append_colon hColon hNil n
  · exact removeFirst_append_colon hColon hPart n

example : removeFirst "un-".toList "v-bind:un-un-text".toList = "v-bind:un-text".toList := by
  decide +kernel

/-- The first attribute is the second one with the prefix between decoration and name. -/
structure Attribute.Prefixed (p : Text) (a b : Attribute) : Prop where
  name : ∃ d n, IsDecoration d ∧ a.name = d ++ (p ++ n) ∧ b.name = d ++ n
  value : a.value? = b.value?

namespace Attribute.Prefixed

variable {p : Text} {a b : Attribute}

theorem plainName_eq (h : a.Prefixed p b) (hColon : ':' ∉ p) (hPart : ¬ p <:+: "v-bind".toList) (o : Options) :
    { o with namePrefix := p, prefixedOnly := true : Options }.plainName a.name =
      { o with prefixedOnly := false : Options }.plainName b.name := by
  obtain ⟨d, n, hd, ha, hb⟩ := h.name
  rw [ha, hb]
  exact removeFirst_decorated hColon hPart hd n

theorem namesClassList_eq (h : a.Prefixed p b) (hColon : ':' ∉ p) (effective : Text) :
    namesClassList a.name effective = namesClassList b.name effective := by
  obtain ⟨d, n, -, ha, hb⟩ := h.name
  have hContains : a.name.contains ':' = b.name.contains ':' := by
    rw [Bool.eq_iff_iff, List.contains_iff_mem, List.contains_iff_mem, ha, hb]
    simp [hColon]
  rw [namesClassList, namesClassList, hContains]

theorem classify_eq (h : a.Prefixed p b) (hColon : ':' ∉ p) (hPart : ¬ p <:+: "v-bind".toList) (engine : Engine)
    (o : Options) :
    classify engine { o with namePrefix := p, prefixedOnly := true } a =
      classify engine { o with prefixedOnly := false } b := by
  unfold classify
  rw [h.plainName_eq hColon hPart, h.value]
  simp only [h.namesClassList_eq hColon]
  rfl

theorem candidates_eq (h : a.Prefixed p b) (hColon : ':' ∉ p) (hPart : ¬ p <:+: "v-bind".toList) (engine : Engine)
    (o : Options) :
    candidates engine { o with namePrefix := p, prefixedOnly := true } a =
      candidates engine { o with prefixedOnly := false } b := by
  rw [candidates, candidates, h.classify_eq hColon hPart, h.value]

end Attribute.Prefixed

/-- Taking out the prefix undoes putting it in, also where it occurs again in the name: effective name and
disposition are those of the attribute without it, and so are the candidates of a list of attributes. That
the prefix is no part of `v-bind` implies that it is not empty. -/
theorem classify_prefixed (engine : Engine) (o : Options) {p : Text} (hColon : ':' ∉ p)
    (hPart : ¬ p <:+: "v-bind".toList) :
    (∀ a b : Attribute, a.Prefixed p b →
      classify engine { o with namePrefix := p, prefixedOnly := true } a =
        classify engine { o with prefixedOnly := false } b) ∧
    ∀ as bs : List Attribute, List.Forall₂ (Attribute.Prefixed p) as bs →
      as.flatMap (candidates engine { o with namePrefix := p, prefixedOnly := true }) =
        bs.flatMap (candidates engine { o with prefixedOnly := false }) := by
  constructor
  · intro a b h
    exact h.classify_eq hColon hPart engine o
  · intro as bs h
    induction h with
    | nil => rfl
    | cons hHead _ ih => rw [List.flatMap_cons, List.flatMap_cons, hHead.candidates_eq hColon hPart, ih]

/-- The prefix twice in a binding. -/
def prefixedBinding : Attribute := ⟨0, "v-bind:un-un-text".toList, some ⟨['='], '\x22', "red ~".toList, []⟩⟩

def plainBinding : Attribute := ⟨0, "v-bind:un-text".toList, some ⟨['='], '\x22', "red ~".toList, []⟩⟩

theorem classify_prefixed_binding :
    ':' ∉ "un-".toList ∧ ¬ "un-".toList <:+: "v-bind".toList ∧
      prefixedBinding.Prefixed "un-".toList plainBinding ∧
      classify (.fixed fun _ => .ok true) { prefixedOnly := true } prefixedBinding =
        classify (.fixed fun _ => .ok true) {} plainBinding ∧
      List.Forall₂ (Attribute.Prefixed "un-".toList) [prefixedBinding, ⟨26, ":un-class".toList, none⟩]
        [plainBinding, ⟨23, ":class".toList, none⟩] ∧
      [prefixedBinding, ⟨26, ":un-class".toList, none⟩].flatMap
          (candidates (.fixed fun _ => .ok true) { prefixedOnly := true }) =
        [plainBinding, ⟨23, ":class".toList, none⟩].flatMap (candidates (.fixed fun _ => .ok true) {}) := by
  have hColon : ':' ∉ "un-".toList := by decide
  have hPart : ¬ "un-".toList <:+: "v-bind".toList := by decide
  have hBinding : prefixedBinding.Prefixed "un-".toList plainBinding :=
    ⟨⟨"v-bind:".toList, "un-text".toList, by decide +kernel⟩, by decide +kernel⟩
  have hClass : Attribute.Prefixed "un-".toList ⟨26, ":un-class".toList, none⟩ ⟨23, ":class".toList, none⟩ :=
    ⟨⟨[':'], "class".toList, by decide +kernel⟩, rfl⟩
  have hAll := classify_prefixed (.fixed fun _ => .ok true) {} hColon hPart
  have hBoth := List.Forall₂.cons hBinding (.cons hClass .nil)
  exact ⟨hColon, hPart, hBinding, hAll.1 _ _ hBinding, hBoth, hAll.2 _ _ hBoth⟩

end ClassFold

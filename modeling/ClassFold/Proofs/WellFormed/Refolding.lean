import ClassFold.Proofs.Engine.Tokens
import ClassFold.Proofs.WellFormed.Page

/-!
# Folding a page again

Once the folded attributes are deleted, the engine has nothing left to confirm on a page: what is kept
confirmed nothing, and a class list, old or new, makes no candidates. So a folded page is folded to
itself, and transforming a page a second time changes nothing: `transform_transform_text`.
-/

set_option autoImplicit false

namespace ClassFold

theorem removeFirst_eq_self {pattern s : Text} (h : ¬ pattern <:+: s) : removeFirst pattern s = s := by
  fun_induction removeFirst pattern s with
  | case1 => rfl
  | case2 c r rest hPrefix =>
    rw [← List.isPrefixOf?_eq_some_iff_append_eq.1 hPrefix] at h
    exact absurd (List.prefix_append _ _).isInfix h
  | case3 c r hNone ih => rw [ih fun hTail => h (List.infix_cons hTail)]

theorem mem_changeLast? {α : Type} {p : α → Bool} {f : α → α} {as bs : List α} (h : changeLast? p f as = some bs)
    {b : α} (hb : b ∈ bs) : b ∈ as ∨ ∃ a ∈ as, p a = true ∧ b = f a := by
  induction as generalizing bs with
  | nil => cases h
  | cons a as ih =>
    rw [changeLast?] at h
    split at h
    · rename_i as' hRest
      cases h
      rcases List.mem_cons.1 hb with rfl | hb
      · exact Or.inl List.mem_cons_self
      · rcases ih hRest hb with hb | ⟨c, hc, hChange⟩
        · exact Or.inl (List.mem_cons_of_mem _ hb)
        · exact Or.inr ⟨c, List.mem_cons_of_mem _ hc, hChange⟩
    · split at h
      · rename_i ha
        cases h
        rcases List.mem_cons.1 hb with rfl | hb
        · exact Or.inr ⟨a, List.mem_cons_self, ha, rfl⟩
        · exact Or.inl (List.mem_cons_of_mem _ hb)
      · cases h

variable {engine : Engine} {o : Options} {classes : Text} {asked : List Text} {items : List Item}

/-- An item of a folded opening was there, or it is a class list that was extended, or the new one. -/
theorem mem_addClasses {i : Item} (h : i ∈ addClasses engine o classes items) :
    i ∈ items ∨ (∃ k ∈ items, k.isClassList engine o = true ∧ i = k.extend classes) ∨
      i = Item.ofClasses classes := by
  rw [addClasses] at h
  cases hChange : changeLast? (·.isClassList engine o) (·.extend classes) items with
  | some items' =>
    rw [hChange, Option.getD_some] at h
    rcases mem_changeLast? hChange h with hi | hi
    · exact Or.inl hi
    · exact Or.inr (Or.inl hi)
  | none =>
    rw [hChange, Option.getD_none, List.mem_append, List.mem_singleton] at h
    rcases h with hi | hi
    · exact Or.inl hi
    · exact Or.inr (Or.inr hi)

namespace Item

variable {i : Item}

theorem WellFormed.isToken_of_mem_candidates (h : i.WellFormed) {t : Text} (ht : t ∈ i.candidates engine o) :
    IsToken t := by
  cases hAttr : i.attribute? 0 with
  | none =>
    rw [candidates_of_attribute?_eq_none hAttr] at ht
    cases ht
  | some a =>
    have hRead : attributes (i.body ++ []) = [a] := by
      rw [attributes, h.attributesFrom_body 0 ⟨by simp, by simp⟩, pieces, attributesFrom, List.append_nil, hAttr]
      rfl
    have hSound := sound_of_mem_attributes (hRead ▸ List.mem_singleton_self a)
    rw [← candidates_eq hAttr] at ht
    exact ClassFold.isToken_of_mem_candidates hSound ht

theorem WellFormed.extend (h : i.WellFormed) (hClasses : ∀ q, isStraightQuote q = true → q ∉ classes) :
    (i.extend classes).WellFormed := by
  obtain ⟨blank, name, value⟩ := i
  cases value with
  | quoted braced q v =>
    obtain ⟨hStraight, hFree⟩ := h.value
    have hSpace : q ≠ ' ' := by
      rintro rfl
      exact absurd hStraight (by decide)
    have hAddition := not_mem_addition (hClasses q hStraight) hSpace v
    exact ⟨h.blank, h.name, h.inside, hStraight, List.not_mem_append hFree hAddition⟩
  | _ => exact h

theorem wellFormed_ofClasses (hClasses : ∀ q, isStraightQuote q = true → q ∉ classes) :
    (ofClasses classes).WellFormed :=
  ⟨(by decide : isBlank ' ' = true), isName_class, (by decide : '>' ∉ "class".toList),
    (by decide : isStraightQuote '\x22' = true), hClasses _ (by decide)⟩

/-- Whatever was asked before, the engine confirms nothing for the item. -/
def Settled (engine : Engine) (o : Options) (i : Item) : Prop :=
  ∀ asked, engine.confirmedOf asked (i.candidates engine o) = []

theorem settled_of_candidates_eq_nil (h : i.candidates engine o = []) : i.Settled engine o := by
  intro asked
  rw [h]
  rfl

theorem isClassList_extend (classes : Text) (i : Item) :
    (i.extend classes).isClassList engine o = i.isClassList engine o := by
  obtain ⟨blank, name, value⟩ := i
  rcases value with _ | ⟨_ | _, q, v⟩ | w | e <;> rfl

theorem settled_extend (h : i.isClassList engine o = true) (classes : Text) :
    (i.extend classes).Settled engine o :=
  settled_of_candidates_eq_nil (exists_valueSpan_of_isClassList ((isClassList_extend classes i).trans h) 0).2

/-- A new class list is ignored, or it is a class list, if no prefix is taken out of its name. -/
theorem settled_ofClasses (hPrefix : o.prefixedOnly = false ∨ ¬ o.namePrefix <:+: "class".toList)
    (classes : Text) : (ofClasses classes).Settled engine o := by
  have hPlain : o.plainName "class".toList = "class".toList := by
    rw [Options.plainName]
    rcases hPrefix with hOff | hFree
    · rw [hOff, if_neg Bool.false_ne_true]
    · rw [removeFirst_eq_self hFree, ite_self]
  apply settled_of_candidates_eq_nil
  have hAttr : (ofClasses classes).attribute? 0 =
      some ⟨0, "class".toList, some ⟨['='], '\x22', classes, []⟩⟩ := rfl
  rw [← candidates_eq hAttr, ClassFold.candidates, classify, hPlain]
  have hStrip : stripBinding "class".toList = "class".toList := by decide
  have hList : namesClassList "class".toList "class".toList = true := by decide
  cases o.ignores "class".toList with
  | true => rfl
  | false =>
    simp only [Bool.false_eq_true, if_false, Attribute.value?, Option.map_some, hStrip, hList, if_true]

end Item

theorem not_mem_confirmed (hItems : ∀ i ∈ items, i.WellFormed) {q : Char} (hq : isStraightQuote q = true) :
    q ∉ Tag.joinTokens ((judgeItems engine o asked items).flatMap (·.confirmed)) := by
  refine not_mem_joinTokens ?_ (isQuote_of_isStraightQuote hq)
  intro t ht
  obtain ⟨j, hj, ht⟩ := List.mem_flatMap.1 ht
  have hSound : j.Sound engine o := sound_of_mem_judgeItems hItems hj
  exact hSound.item.isToken_of_mem_candidates (hSound.confirmed.subset ht)

theorem item_mem_of_mem_kept {i : Item} (h : i ∈ JudgedItem.kept o (judgeItems engine o asked items)) :
    i ∈ items := by
  obtain ⟨j, hj, rfl⟩ := List.mem_map.1 h
  rw [← map_item_judgeItems engine o asked items]
  exact List.mem_map_of_mem (List.mem_of_mem_filter hj)

theorem exists_confirmed_eq_of_mem_judgeItems {j : JudgedItem} (h : j ∈ judgeItems engine o asked items) :
    ∃ asked', j.confirmed = engine.confirmedOf asked' (j.item.candidates engine o) := by
  induction items generalizing asked with
  | nil => cases h
  | cons i is ih =>
    rcases List.mem_cons.1 h with rfl | h
    · exact ⟨asked, rfl⟩
    · exact ih h

theorem settled_of_confirmed_eq_nil (hSteady : engine.Steady) {j : JudgedItem}
    (h : j ∈ judgeItems engine o asked items) (hNone : j.confirmed = []) : j.item.Settled engine o := by
  obtain ⟨asked', hConfirmed⟩ := exists_confirmed_eq_of_mem_judgeItems h
  intro asked''
  rw [hSteady.confirmedOf_eq, ← hSteady.confirmedOf_eq asked', ← hConfirmed, hNone]

theorem settled_of_mem_kept (hSteady : engine.Steady) (hDelete : o.deleteFolded = true) {i : Item}
    (h : i ∈ JudgedItem.kept o (judgeItems engine o asked items)) : i.Settled engine o := by
  obtain ⟨j, hj, rfl⟩ := List.mem_map.1 h
  obtain ⟨hj, hFolded⟩ := List.mem_filter.1 hj
  have hNone : j.confirmed = [] := by simpa [JudgedItem.isFolded, hDelete] using hFolded
  exact settled_of_confirmed_eq_nil hSteady hj hNone

theorem judgeItems_of_settled (h : ∀ i ∈ items, i.Settled engine o) :
    (judgeItems engine o asked items).flatMap (·.confirmed) = [] := by
  induction items generalizing asked with
  | nil => rfl
  | cons i is ih =>
    rw [judgeItems, List.flatMap_cons, h i List.mem_cons_self, ih fun k hk => h k (List.mem_cons_of_mem _ hk)]
    rfl

namespace Opening

variable {t : Opening}

theorem WellFormed.folded (h : t.WellFormed) : (t.folded engine o asked).WellFormed := by
  rw [Opening.folded]
  split
  · exact h
  · refine ⟨h.name, ?_⟩
    intro i hi
    have hKept {k : Item} (hk : k ∈ JudgedItem.kept o (judgeItems engine o asked t.items)) : k.WellFormed :=
      h.items k (item_mem_of_mem_kept hk)
    have hFree (q : Char) (hq : isStraightQuote q = true) :
        q ∉ Tag.joinTokens ((judgeItems engine o asked t.items).flatMap (·.confirmed)) :=
      not_mem_confirmed h.items hq
    rcases mem_addClasses hi with hi | ⟨k, hk, -, rfl⟩ | rfl
    · exact hKept hi
    · exact (hKept hk).extend hFree
    · exact Item.wellFormed_ofClasses hFree

theorem settled_folded (hSteady : engine.Steady) (hDelete : o.deleteFolded = true)
    (hPrefix : o.prefixedOnly = false ∨ ¬ o.namePrefix <:+: "class".toList) (t : Opening) :
    ∀ i ∈ (t.folded engine o asked).items, i.Settled engine o := by
  rw [folded]
  intro i hi
  split at hi
  · rename_i hTokens
    rw [List.isEmpty_iff, List.flatMap_eq_nil_iff] at hTokens
    rw [← map_item_judgeItems engine o asked t.items] at hi
    obtain ⟨j, hj, rfl⟩ := List.mem_map.1 hi
    exact settled_of_confirmed_eq_nil hSteady hj (hTokens j hj)
  · rcases mem_addClasses hi with hi | ⟨k, -, hClass, rfl⟩ | rfl
    · exact settled_of_mem_kept hSteady hDelete hi
    · exact Item.settled_extend hClass _
    · exact Item.settled_ofClasses hPrefix _

theorem folded_of_settled (h : ∀ i ∈ t.items, i.Settled engine o) : t.folded engine o asked = t := by
  rw [folded, judgeItems_of_settled h]
  rfl

end Opening

namespace Page

variable {p : Page}

theorem WellFormed.folded (h : p.WellFormed) : (p.folded engine o asked).WellFormed := by
  induction p generalizing asked with
  | nil => exact h
  | cons x p ih =>
    obtain ⟨hFirst, hRest⟩ := List.forall_mem_cons.1 h
    cases x with
    | gap s => exact List.forall_mem_cons.2 ⟨hFirst, ih hRest⟩
    | opening t => exact List.forall_mem_cons.2 ⟨Opening.WellFormed.folded hFirst, ih hRest⟩

theorem folded_folded (hSteady : engine.Steady) (hDelete : o.deleteFolded = true)
    (hPrefix : o.prefixedOnly = false ∨ ¬ o.namePrefix <:+: "class".toList) (asked asked' : List Text) (p : Page) :
    (p.folded engine o asked).folded engine o asked' = p.folded engine o asked := by
  induction p generalizing asked asked' with
  | nil => rfl
  | cons x p ih =>
    cases x with
    | gap s => rw [folded, folded, ih]
    | opening t => rw [folded, folded, Opening.folded_of_settled (t.settled_folded hSteady hDelete hPrefix), ih]

theorem WellFormed.transform_eq (h : p.WellFormed) (hTotal : engine.Total) :
    transform engine o p.text = .ok (p.folded engine o []).text := by
  rw [transform_eq_map_onePass, run_onePass_text hTotal h]
  rfl

theorem WellFormed.transform_folded (h : p.WellFormed) (hSteady : engine.Steady) (hDelete : o.deleteFolded = true)
    (hPrefix : o.prefixedOnly = false ∨ ¬ o.namePrefix <:+: "class".toList) :
    transform engine o (p.folded engine o []).text = .ok (p.folded engine o []).text := by
  rw [h.folded.transform_eq hSteady.total, folded_folded hSteady hDelete hPrefix]

theorem transform_transform_text (hSteady : engine.Steady) (hDelete : o.deleteFolded = true)
    (hPrefix : o.prefixedOnly = false ∨ ¬ o.namePrefix <:+: "class".toList) (h : p.WellFormed) :
    ∃ output, transform engine o p.text = .ok output ∧ transform engine o output = .ok output :=
  ⟨(p.folded engine o []).text, h.transform_eq hSteady.total, h.transform_folded hSteady hDelete hPrefix⟩

/-- The classes of the first opening go into a new class list, those of the second into the one it has. -/
def bothClassLists : Page :=
  [.opening ⟨['p'], [⟨' ', "mt-2".toList, .absent⟩, ⟨'\n', "un-text".toList, .quoted false '\x22' "red x".toList⟩],
    false⟩, .gap "hi</p>".toList,
    .opening ⟨['b'], [⟨' ', "class".toList, .quoted true '\x27' ['a']⟩, ⟨' ', "mt-2".toList, .absent⟩], true⟩]

def twoWords : Engine := .fixed fun t => .ok (["mt-2", "text-red"].map String.toList |>.contains t)

theorem transform_transform_text_both_class_lists :
    twoWords.Steady ∧ ¬ "un-".toList <:+: "class".toList ∧ bothClassLists.WellFormed ∧
    transform twoWords { prefixedOnly := true, deleteFolded := true } bothClassLists.text =
      .ok "<p class=\x22mt-2 text-red\x22>hi</p><b class=\x7b'a mt-2'\x7d />".toList ∧
    transform twoWords { prefixedOnly := true, deleteFolded := true }
      "<p class=\x22mt-2 text-red\x22>hi</p><b class=\x7b'a mt-2'\x7d />".toList =
        .ok "<p class=\x22mt-2 text-red\x22>hi</p><b class=\x7b'a mt-2'\x7d />".toList := by
  have hSteady : twoWords.Steady := ⟨fun _ _ => ⟨_, rfl⟩, fun _ _ _ => rfl⟩
  have hPrefix : ¬ "un-".toList <:+: "class".toList := by decide
  have hPage : bothClassLists.WellFormed := by
    simp only [WellFormed, bothClassLists, List.forall_mem_cons]
    refine ⟨⟨⟨'p', [], rfl, by decide, List.forall_mem_nil _⟩, ?_⟩, (by decide : isGap "hi</p>".toList = true),
      ⟨⟨'b', [], rfl, by decide, List.forall_mem_nil _⟩, ?_⟩, List.forall_mem_nil _⟩
    · simp only [List.forall_mem_cons]
      exact ⟨⟨by decide, by decide, by decide, trivial⟩, ⟨by decide, by decide, by decide, by decide, by decide⟩,
        List.forall_mem_nil _⟩
    · simp only [List.forall_mem_cons]
      exact ⟨⟨by decide, by decide, by decide, by decide, by decide⟩, ⟨by decide, by decide, by decide, trivial⟩,
        List.forall_mem_nil _⟩
  have hFirst : transform twoWords { prefixedOnly := true, deleteFolded := true } bothClassLists.text =
      .ok "<p class=\x22mt-2 text-red\x22>hi</p><b class=\x7b'a mt-2'\x7d />".toList := by
    rw [transform_eq_map_onePass, run_onePass_text hSteady.total hPage]
    decide +kernel
  obtain ⟨output, hOutput, hAgain⟩ := transform_transform_text
    (o := { prefixedOnly := true, deleteFolded := true }) hSteady rfl (Or.inr hPrefix) hPage
  rw [hFirst] at hOutput
  cases hOutput
  exact ⟨hSteady, hPrefix, hPage, hFirst, hAgain⟩

end Page

end ClassFold

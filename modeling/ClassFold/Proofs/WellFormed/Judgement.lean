import ClassFold.Proofs.Engine.Answers
import ClassFold.Proofs.Markup.Placement
import ClassFold.Proofs.WellFormed.Item

/-!
# Judged items

An engine that never fails gives each item the candidates it confirms, one item after another. The
judged attributes of a tag that is made of items are these, at their offsets: `run_mapM_judge_located`.
-/

set_option autoImplicit false

namespace ClassFold

namespace Item

variable (engine : Engine) (o : Options) (i : Item)

def candidates : List Text := ((i.attribute? 0).map (ClassFold.candidates engine o)).getD []

def isClassList : Bool :=
  (i.attribute? 0).any fun a => (classify engine o a).disposition = .existingClass

variable {engine o i}

/-- Where an item stands does not matter for what it is good for. -/
theorem candidates_eq {offset : Nat} {a : Attribute} (h : i.attribute? offset = some a) :
    ClassFold.candidates engine o a = i.candidates engine o := by
  obtain ⟨blank, name, value⟩ := i
  rcases value with _ | ⟨_ | _, q, v⟩ | w | e <;> cases h <;> rfl

theorem isClassList_eq {offset : Nat} {a : Attribute} (h : i.attribute? offset = some a) :
    decide ((classify engine o a).disposition = .existingClass) = i.isClassList engine o := by
  obtain ⟨blank, name, value⟩ := i
  rcases value with _ | ⟨_ | _, q, v⟩ | w | e <;> cases h <;> rfl

theorem candidates_of_attribute?_eq_none {offset : Nat} (h : i.attribute? offset = none) :
    i.candidates engine o = [] := by
  obtain ⟨blank, name, value⟩ := i
  rcases value with _ | ⟨_ | _, q, v⟩ | w | e
  · cases h
  · cases h
  · cases h
  · rfl
  · rfl

theorem exists_valueSpan_of_isClassList (h : i.isClassList engine o = true) (offset : Nat) :
    (∃ a r, i.attribute? offset = some a ∧ a.valueSpan? = some r) ∧ i.candidates engine o = [] := by
  obtain ⟨a, hAttr, hClass⟩ := (Option.any_eq_true _ _).1 h
  rw [decide_eq_true_eq] at hClass
  rw [← candidates_eq hAttr, candidates_of_existingClass hClass]
  obtain ⟨q, hq⟩ := exists_quoted_of_existingClass hClass
  refine ⟨?_, rfl⟩
  obtain ⟨blank, name, value⟩ := i
  rcases value with _ | ⟨_ | _, q, v⟩ | w | e <;> cases hAttr
  · cases hq
  · exact ⟨_, _, rfl, rfl⟩
  · exact ⟨_, _, rfl, rfl⟩

end Item

structure JudgedItem where
  item : Item
  confirmed : List Text
deriving DecidableEq, Repr

namespace JudgedItem

variable (engine : Engine) (o : Options) (j : JudgedItem)

def isFolded : Bool := o.deleteFolded && !j.confirmed.isEmpty

structure Sound : Prop where
  item : j.item.WellFormed
  confirmed : j.confirmed.Sublist (j.item.candidates engine o)

def located? (offset : Nat) : Option Judged := (j.item.attribute? offset).map (⟨·, j.confirmed⟩)

def located (offset : Nat) : List JudgedItem → List Judged
  | [] => []
  | j :: js => (j.located? offset).toList ++ located (offset + j.item.text.size) js

variable {engine o j}

theorem confirmed_eq_nil_of_located?_eq_none (h : j.Sound engine o) {offset : Nat}
    (hNone : j.located? offset = none) : j.confirmed = [] := by
  have hAttr : j.item.attribute? offset = none := by simpa [located?] using hNone
  have hConfirmed := h.confirmed
  rw [Item.candidates_of_attribute?_eq_none hAttr] at hConfirmed
  exact List.sublist_nil.1 hConfirmed

theorem flatMap_confirmed_located {js : List JudgedItem} (h : ∀ j ∈ js, j.Sound engine o) (offset : Nat) :
    (located offset js).flatMap (·.confirmed) = js.flatMap (·.confirmed) := by
  induction js generalizing offset with
  | nil => rfl
  | cons j js ih =>
    rw [located, List.flatMap_append, List.flatMap_cons, ih fun k hk => h k (List.mem_cons_of_mem _ hk)]
    congr 1
    cases hAt : j.located? offset with
    | none => exact (confirmed_eq_nil_of_located?_eq_none (h j List.mem_cons_self) hAt).symm
    | some k =>
      obtain ⟨a, -, rfl⟩ := Option.map_eq_some_iff.1 hAt
      simp

theorem isClassList_of_located? {offset : Nat} {k : Judged} (h : j.located? offset = some k) :
    k.isClassList engine o = j.item.isClassList engine o := by
  obtain ⟨a, hAttr, rfl⟩ := Option.map_eq_some_iff.1 h
  exact Item.isClassList_eq hAttr

theorem filter_isClassList_located {js : List JudgedItem}
    (h : ∀ j ∈ js, j.item.isClassList engine o = false) (offset : Nat) :
    (located offset js).filter (·.isClassList engine o) = [] := by
  induction js generalizing offset with
  | nil => rfl
  | cons j js ih =>
    rw [located, List.filter_append, ih fun k hk => h k (List.mem_cons_of_mem _ hk), List.append_nil]
    cases hAt : j.located? offset with
    | none => rfl
    | some k =>
      have hClass := h j List.mem_cons_self
      rw [← isClassList_of_located? hAt] at hClass
      simp [hClass]

theorem located_append (offset : Nat) (js ks : List JudgedItem) :
    located offset (js ++ ks) =
      located offset js ++ located (offset + Text.size (js.flatMap (·.item.text))) ks := by
  induction js generalizing offset with
  | nil => rfl
  | cons j js ih => simp [located, ih, Nat.add_assoc]

end JudgedItem

/-- The items in order, each with what the engine confirms for it after all questions before. -/
def judgeItems (engine : Engine) (o : Options) (asked : List Text) : List Item → List JudgedItem
  | [] => []
  | i :: is =>
    ⟨i, engine.confirmedOf asked (i.candidates engine o)⟩ ::
      judgeItems engine o ((i.candidates engine o).reverse ++ asked) is

/-- The questions that items make, behind those asked before. -/
def askedBehind (engine : Engine) (o : Options) (asked : List Text) (items : List Item) : List Text :=
  (items.flatMap (·.candidates engine o)).reverse ++ asked

variable {engine : Engine} {o : Options} {asked : List Text} {items : List Item}

theorem map_item_judgeItems (engine : Engine) (o : Options) (asked : List Text) (items : List Item) :
    (judgeItems engine o asked items).map (·.item) = items := by
  induction items generalizing asked with
  | nil => rfl
  | cons i is ih => rw [judgeItems, List.map_cons, ih]

theorem sound_of_mem_judgeItems (hItems : ∀ i ∈ items, i.WellFormed) {j : JudgedItem}
    (h : j ∈ judgeItems engine o asked items) : j.Sound engine o := by
  induction items generalizing asked with
  | nil => cases h
  | cons i is ih =>
    rcases List.mem_cons.1 h with rfl | h
    · exact ⟨hItems i List.mem_cons_self, Engine.sublist_confirmedOf _ _⟩
    · exact ih (fun k hk => hItems k (List.mem_cons_of_mem _ hk)) h

theorem run_mapM_judge_located (hTotal : engine.Total) (asked : List Text) (offset : Nat) :
    ((Item.located offset items).mapM (Attribute.judge engine o)).run asked =
      .ok (JudgedItem.located offset (judgeItems engine o asked items),
        askedBehind engine o asked items) := by
  induction items generalizing asked offset with
  | nil => rfl
  | cons i is ih =>
    have hRest := ih ((i.candidates engine o).reverse ++ asked) (offset + i.text.size)
    have hAsked : askedBehind engine o ((i.candidates engine o).reverse ++ asked) is =
        askedBehind engine o asked (i :: is) := by simp [askedBehind]
    rw [hAsked] at hRest
    rw [Item.located, judgeItems, JudgedItem.located, JudgedItem.located?]
    cases hAttr : i.attribute? offset with
    | none =>
      -- An item without an attribute asks nothing.
      rw [Item.candidates_of_attribute?_eq_none hAttr] at hRest ⊢
      exact hRest
    | some a =>
      have hHead : (a.judge engine o).run asked =
          .ok (⟨a, engine.confirmedOf asked (i.candidates engine o)⟩, (i.candidates engine o).reverse ++ asked) := by
        refine Ask.run_bind_eq_ok_iff.2 ⟨_, _, Engine.run_confirmed_of_total hTotal asked _, ?_⟩
        rw [Item.candidates_eq hAttr]
        rfl
      rw [Option.toList_some, List.singleton_append, List.mapM_cons]
      refine Ask.run_bind_eq_ok_iff.2 ⟨_, _, hHead, ?_⟩
      refine Ask.run_bind_eq_ok_iff.2 ⟨_, _, hRest, ?_⟩
      rfl

end ClassFold

import Mathlib.Logic.Basic
import Mathlib.Tactic.MkIffOfInductiveProp
import ClassFold.Options.Overlay

/-!
# Options laid over the defaults

What a single key does depends on its value alone, and what it sets no other key sets. So a table in which no
key stands twice gives the same options in any order of its keys, while the error is that of the first key in
order that offends.
-/

set_option autoImplicit false

namespace ClassFold

namespace Toml

/-- The items of a value that is a sequence. -/
def Value.elements? : Value → Option (List Value)
  | .array items => some items
  | .tables items => some (items.map (.table .header))
  | _ => none

/-- The key gives the field its content, in the form that the field has as a value, or the table is without the
key and the field has its default. -/
def Table.Sets {α : Type} (t : Table) (key : Text) (IsForm : Value → α → Prop) (default content : α) : Prop :=
  (∃ v, (key, v) ∈ t ∧ IsForm v content) ∨ (key ∉ t.map Prod.fst ∧ content = default)

namespace Table

variable {α : Type} {t : Table} {key k : Text} {v : Value} {IsForm : Value → α → Prop} {default content : α}

theorem sets_of_notMem (h : key ∉ t.map Prod.fst) : t.Sets key IsForm default content ↔ content = default := by
  constructor
  · rintro (⟨v, hMem, -⟩ | ⟨-, hDefault⟩)
    · exact absurd (List.mem_map_of_mem hMem) h
    · exact hDefault
  · exact fun hDefault => Or.inr ⟨h, hDefault⟩

theorem sets_cons_self (h : key ∉ t.map Prod.fst) :
    Sets ((key, v) :: t) key IsForm default content ↔ IsForm v content := by
  constructor
  · rintro (⟨w, hMem, hForm⟩ | ⟨hFree, -⟩)
    · obtain hHead | hMem := List.mem_cons.1 hMem
      · cases hHead
        exact hForm
      · exact absurd (List.mem_map_of_mem hMem) h
    · exact absurd List.mem_cons_self hFree
  · exact fun hForm => Or.inl ⟨v, List.mem_cons_self, hForm⟩

theorem sets_cons_of_ne (h : k ≠ key) :
    Sets ((k, v) :: t) key IsForm default content ↔ t.Sets key IsForm default content := by
  have hMem (w : Value) : (key, w) ∈ (k, v) :: t ↔ (key, w) ∈ t := by
    rw [List.mem_cons, or_iff_right]
    rintro ⟨⟩
    exact h rfl
  simp only [Sets, hMem, List.map_cons, List.mem_cons, Ne.symm h, false_or]

/-- The first value under a key may as well be in the field from the start. -/
theorem sets_moved {first : α} (h : key ∉ t.map Prod.fst) (hForm : IsForm v content ↔ content = first) :
    t.Sets key IsForm first content ↔ Sets ((key, v) :: t) key IsForm default content := by
  rw [sets_of_notMem h, sets_cons_self h, hForm]

end Table

end Toml

open Toml (Value Table)

/-- The value is of the expected type. -/
def Expected.Admits (v : Value) : Expected → Prop
  | string => ∃ s, v = .string s
  | boolean => ∃ b, v = .boolean b
  | sequence => ∃ names : List Text, v.elements? = some (names.map .string)

/-- The error of a value that is not of the expected type. In a sequence it is that of the first item that is no
string. -/
inductive Expected.Rejects : Expected → Value → Misfit → Prop where
  | string {v : Value} (h : ∀ s, v ≠ .string s) : Rejects .string v (.wrongType v .string)
  | boolean {v : Value} (h : ∀ b, v ≠ .boolean b) : Rejects .boolean v (.wrongType v .boolean)
  | sequence {v : Value} (h : v.elements? = none) : Rejects .sequence v (.wrongType v .sequence)
  | item {v item : Value} (names : List Text) (rest : List Value)
      (h : v.elements? = some (names.map .string ++ item :: rest)) (hItem : ∀ s, item ≠ .string s) :
      Rejects .sequence v (.wrongType item .string)

namespace Options

/-- The keys of a table of options, and what each is for. -/
inductive Expects : Text → Expected → Prop where
  | namePrefix : Expects "prefix".toList .string
  | prefixedOnly : Expects "prefixedOnly".toList .boolean
  | bareAttributes : Expects "nonValuedAttribute".toList .boolean
  | ignoredNames : Expects "ignoreAttributes".toList .sequence
  | deleteFolded : Expects "deleteClass".toList .boolean

def Fits (entry : Text × Value) : Prop := ∃ expected, Expects entry.1 expected ∧ expected.Admits entry.2

def Offends (entry : Text × Value) (misfit : Misfit) : Prop :=
  ((∀ expected, ¬ Expects entry.1 expected) ∧ misfit = .unknownKey entry.1) ∨
    ∃ expected, Expects entry.1 expected ∧ expected.Rejects entry.2 misfit

/-- Every field is as the table has it, or as it is in `base` if the table does not have it. -/
@[mk_iff]
structure Overlays (base : Options) (t : Table) (o : Options) : Prop where
  namePrefix : t.Sets "prefix".toList (fun v s => v = .string s) base.namePrefix o.namePrefix
  prefixedOnly : t.Sets "prefixedOnly".toList (fun v b => v = .boolean b) base.prefixedOnly o.prefixedOnly
  bareAttributes : t.Sets "nonValuedAttribute".toList (fun v b => v = .boolean b) base.bareAttributes o.bareAttributes
  ignoredNames : t.Sets "ignoreAttributes".toList (fun v names => v.elements? = some (names.map .string))
    base.ignoredNames o.ignoredNames
  deleteFolded : t.Sets "deleteClass".toList (fun v b => v = .boolean b) base.deleteFolded o.deleteFolded

/-- The error is that of the first entry that does not fit. -/
def IsFirstMisfit (t : Table) (misfit : Misfit) : Prop :=
  ∃ before key v after, t = before ++ (key, v) :: after ∧ (∀ entry ∈ before, Fits entry) ∧ Offends (key, v) misfit

/-- What a table of options should be read as: all of it laid over the defaults, or an error and nothing. -/
structure IsReading (t : Table) (result : Except Misfit Options) : Prop where
  succeeds_iff : (∃ o, result = .ok o) ↔ ∀ entry ∈ t, Fits entry
  eq_ok_iff o : result = .ok o ↔ (∀ entry ∈ t, Fits entry) ∧ Overlays {} t o
  eq_error_iff misfit : result = .error misfit ↔ IsFirstMisfit t misfit

variable {v : Value} {misfit : Misfit} {t : Table} {o o' : Options}

/-- The keys that a message about an unknown key lists are the known ones. -/
theorem mem_keys_iff {key : Text} : key ∈ keys ↔ ∃ expected, Expects key expected := by
  constructor
  · intro h
    simp only [keys, List.map_cons, List.map_nil, List.mem_cons, List.not_mem_nil, or_false] at h
    rcases h with rfl | rfl | rfl | rfl | rfl
    · exact ⟨_, .namePrefix⟩
    · exact ⟨_, .prefixedOnly⟩
    · exact ⟨_, .bareAttributes⟩
    · exact ⟨_, .ignoredNames⟩
    · exact ⟨_, .deleteFolded⟩
  · rintro ⟨expected, h⟩
    cases h <;> decide

theorem readString_of_rejects (h : Expected.string.Rejects v misfit) : readString v = .error misfit := by
  cases h with
  | string h =>
    cases v with
    | string s => exact absurd rfl (h s)
    | _ => rfl

theorem readBoolean_of_rejects (h : Expected.boolean.Rejects v misfit) : readBoolean v = .error misfit := by
  cases h with
  | boolean h =>
    cases v with
    | boolean b => exact absurd rfl (h b)
    | _ => rfl

theorem mapM_readString_append (names : List Text) (items : List Value) :
    (names.map Value.string ++ items).mapM readString = (names ++ ·) <$> items.mapM readString := by
  induction names with
  | nil => exact (id_map _).symm
  | cons name names ih =>
    rw [List.map_cons, List.cons_append, List.mapM_cons, ih]
    cases items.mapM readString <;> rfl

theorem readStrings_of_elements? {items : List Value} (h : v.elements? = some items) :
    readStrings v = items.mapM readString := by
  cases v with
  | array | tables =>
    cases h
    rfl
  | _ => cases h

theorem readStrings_of_strings {names : List Text} (h : v.elements? = some (names.map .string)) :
    readStrings v = .ok names := by
  have hRead := mapM_readString_append names []
  rw [List.append_nil] at hRead
  rw [readStrings_of_elements? h, hRead, List.mapM_nil, map_pure, List.append_nil]
  rfl

theorem readStrings_of_rejects (h : Expected.sequence.Rejects v misfit) : readStrings v = .error misfit := by
  cases h with
  | sequence h =>
    cases v with
    | array | tables => cases h
    | _ => rfl
  | item names rest h hItem =>
    rw [readStrings_of_elements? h, mapM_readString_append, List.mapM_cons, readString_of_rejects (.string hItem)]
    rfl

theorem exists_first_item (items : List Value) :
    (∃ names : List Text, items = names.map .string) ∨
      ∃ (names : List Text) (item : Value) (rest : List Value),
        items = names.map .string ++ item :: rest ∧ ∀ s, item ≠ .string s := by
  induction items with
  | nil => exact Or.inl ⟨[], rfl⟩
  | cons item items ih =>
    by_cases hItem : ∃ s, item = .string s
    · obtain ⟨s, rfl⟩ := hItem
      obtain ⟨names, rfl⟩ | ⟨names, item, rest, rfl, hNot⟩ := ih
      · exact Or.inl ⟨s :: names, rfl⟩
      · exact Or.inr ⟨s :: names, item, rest, rfl, hNot⟩
    · exact Or.inr ⟨[], item, items, rfl, not_exists.1 hItem⟩

theorem admits_or_rejects (expected : Expected) (v : Value) : expected.Admits v ∨ ∃ misfit, expected.Rejects v misfit := by
  cases expected with
  | string => exact or_iff_not_imp_left.2 fun h => ⟨_, .string (not_exists.1 h)⟩
  | boolean => exact or_iff_not_imp_left.2 fun h => ⟨_, .boolean (not_exists.1 h)⟩
  | sequence =>
    cases hItems : v.elements? with
    | none => exact Or.inr ⟨_, .sequence hItems⟩
    | some items =>
      obtain ⟨names, rfl⟩ | ⟨names, item, rest, rfl, hItem⟩ := exists_first_item items
      · exact Or.inl ⟨names, hItems⟩
      · exact Or.inr ⟨_, .item names rest hItems hItem⟩

theorem fits_or_offends (entry : Text × Value) : Fits entry ∨ ∃ misfit, Offends entry misfit := by
  by_cases h : ∃ expected, Expects entry.1 expected
  · obtain ⟨expected, hKey⟩ := h
    obtain hAdmits | ⟨misfit, hRejects⟩ := admits_or_rejects expected entry.2
    · exact Or.inl ⟨expected, hKey, hAdmits⟩
    · exact Or.inr ⟨misfit, Or.inr ⟨expected, hKey, hRejects⟩⟩
  · exact Or.inr ⟨_, Or.inl ⟨not_exists.1 h, rfl⟩⟩

theorem set_namePrefix (o : Options) (v : Value) :
    o.set "prefix".toList v = (fun s => { o with namePrefix := s }) <$> readString v := by
  rw [set, if_pos rfl, map_eq_pure_bind]

theorem set_prefixedOnly (o : Options) (v : Value) :
    o.set "prefixedOnly".toList v = (fun b => { o with prefixedOnly := b }) <$> readBoolean v := by
  rw [set, if_neg (by decide), if_pos rfl, map_eq_pure_bind]

theorem set_bareAttributes (o : Options) (v : Value) :
    o.set "nonValuedAttribute".toList v = (fun b => { o with bareAttributes := b }) <$> readBoolean v := by
  rw [set, if_neg (by decide), if_neg (by decide), if_pos rfl, map_eq_pure_bind]

theorem set_ignoredNames (o : Options) (v : Value) :
    o.set "ignoreAttributes".toList v = (fun names => { o with ignoredNames := names }) <$> readStrings v := by
  rw [set, if_neg (by decide), if_neg (by decide), if_neg (by decide), if_pos rfl, map_eq_pure_bind]

theorem set_deleteFolded (o : Options) (v : Value) :
    o.set "deleteClass".toList v = (fun b => { o with deleteFolded := b }) <$> readBoolean v := by
  rw [set, if_neg (by decide), if_neg (by decide), if_neg (by decide), if_neg (by decide), if_pos rfl,
    map_eq_pure_bind]

theorem set_of_offends {key : Text} (h : Offends (key, v) misfit) (o : Options) : o.set key v = .error misfit := by
  obtain ⟨hUnknown, rfl⟩ | ⟨expected, hKey, hRejects⟩ := h
  · have hNe {k : String} {expected : Expected} (hKnown : Expects k.toList expected) : key ≠ k.toList := by
      rintro rfl
      exact hUnknown expected hKnown
    rw [set, if_neg (hNe .namePrefix), if_neg (hNe .prefixedOnly), if_neg (hNe .bareAttributes),
      if_neg (hNe .ignoredNames), if_neg (hNe .deleteFolded)]
  · change Expects key expected at hKey
    change expected.Rejects v misfit at hRejects
    cases hKey with
    | namePrefix =>
      rw [set_namePrefix, readString_of_rejects hRejects]
      rfl
    | prefixedOnly =>
      rw [set_prefixedOnly, readBoolean_of_rejects hRejects]
      rfl
    | bareAttributes =>
      rw [set_bareAttributes, readBoolean_of_rejects hRejects]
      rfl
    | ignoredNames =>
      rw [set_ignoredNames, readStrings_of_rejects hRejects]
      rfl
    | deleteFolded =>
      rw [set_deleteFolded, readBoolean_of_rejects hRejects]
      rfl

/-- A key sets its field, and leaves the others to the keys behind it. -/
theorem exists_set_of_fits {key : Text} (h : Fits (key, v)) (o : Options) :
    ∃ o₁, o.set key v = .ok o₁ ∧
      ∀ t o', key ∉ t.map Prod.fst → (Overlays o₁ t o' ↔ Overlays o ((key, v) :: t) o') := by
  obtain ⟨expected, hKey, hAdmits⟩ := h
  change Expects key expected at hKey
  have hOther {α : Type} {IsForm : Value → α → Prop} {default content : α} {k : Text} (hne : key ≠ k) (t : Table) :
      t.Sets k IsForm default content ↔ Table.Sets ((key, v) :: t) k IsForm default content :=
    (Table.sets_cons_of_ne hne).symm
  cases hKey with
  | namePrefix =>
    obtain ⟨s, rfl⟩ : ∃ s, v = .string s := hAdmits
    refine ⟨{ o with namePrefix := s }, by rw [set_namePrefix]; rfl, fun t o' hFree => ?_⟩
    rw [overlays_iff, overlays_iff]
    exact and_congr (Table.sets_moved hFree (by simp [eq_comm])) (and_congr (hOther (by decide) t)
      (and_congr (hOther (by decide) t) (and_congr (hOther (by decide) t) (hOther (by decide) t))))
  | prefixedOnly =>
    obtain ⟨b, rfl⟩ : ∃ b, v = .boolean b := hAdmits
    refine ⟨{ o with prefixedOnly := b }, by rw [set_prefixedOnly]; rfl, fun t o' hFree => ?_⟩
    rw [overlays_iff, overlays_iff]
    exact and_congr (hOther (by decide) t) (and_congr (Table.sets_moved hFree (by simp [eq_comm]))
      (and_congr (hOther (by decide) t) (and_congr (hOther (by decide) t) (hOther (by decide) t))))
  | bareAttributes =>
    obtain ⟨b, rfl⟩ : ∃ b, v = .boolean b := hAdmits
    refine ⟨{ o with bareAttributes := b }, by rw [set_bareAttributes]; rfl, fun t o' hFree => ?_⟩
    rw [overlays_iff, overlays_iff]
    exact and_congr (hOther (by decide) t) (and_congr (hOther (by decide) t)
      (and_congr (Table.sets_moved hFree (by simp [eq_comm])) (and_congr (hOther (by decide) t) (hOther (by decide) t))))
  | ignoredNames =>
    obtain ⟨names, hNames⟩ : ∃ names : List Text, v.elements? = some (names.map .string) := hAdmits
    refine ⟨{ o with ignoredNames := names }, by rw [set_ignoredNames, readStrings_of_strings hNames]; rfl,
      fun t o' hFree => ?_⟩
    rw [overlays_iff, overlays_iff]
    have hForm (content : List Text) : v.elements? = some (content.map .string) ↔ content = names := by
      rw [hNames, Option.some.injEq, List.map_inj_right fun _ _ => Value.string.inj]
      exact eq_comm
    exact and_congr (hOther (by decide) t) (and_congr (hOther (by decide) t)
      (and_congr (hOther (by decide) t) (and_congr (Table.sets_moved hFree (hForm _)) (hOther (by decide) t))))
  | deleteFolded =>
    obtain ⟨b, rfl⟩ : ∃ b, v = .boolean b := hAdmits
    refine ⟨{ o with deleteFolded := b }, by rw [set_deleteFolded]; rfl, fun t o' hFree => ?_⟩
    rw [overlays_iff, overlays_iff]
    exact and_congr (hOther (by decide) t) (and_congr (hOther (by decide) t)
      (and_congr (hOther (by decide) t) (and_congr (hOther (by decide) t) (Table.sets_moved hFree (by simp [eq_comm])))))

theorem overlays_nil_iff : Overlays o [] o' ↔ o' = o := by
  rw [overlays_iff]
  simp only [Table.sets_of_notMem, List.map_nil, List.not_mem_nil, not_false_eq_true]
  constructor
  · rintro ⟨hPrefix, hPrefixed, hBare, hIgnored, hDelete⟩
    cases o
    cases o'
    simp_all only
  · rintro rfl
    exact ⟨rfl, rfl, rfl, rfl, rfl⟩

/-- The table is laid over these options. -/
def overlaid (base : Options) (t : Table) : Except Misfit Options :=
  t.foldlM (fun o (key, value) => o.set key value) base

theorem overlaid_cons_of_ok {key : Text} {o₁ : Options} (h : o.set key v = .ok o₁) (t : Table) :
    o.overlaid ((key, v) :: t) = o₁.overlaid t := by
  change (o.set key v >>= fun o => o.overlaid t) = o₁.overlaid t
  rw [h]
  rfl

theorem overlaid_cons_of_error {key : Text} (h : o.set key v = .error misfit) (t : Table) :
    o.overlaid ((key, v) :: t) = .error misfit := by
  change (o.set key v >>= fun o => o.overlaid t) = .error misfit
  rw [h]
  rfl

theorem exists_overlaid_of_fits (hFits : ∀ entry ∈ t, Fits entry) (hDistinct : (t.map Prod.fst).Nodup) (o : Options) :
    ∃ o₁, o.overlaid t = .ok o₁ ∧ ∀ o', Overlays o t o' ↔ o' = o₁ := by
  induction t generalizing o with
  | nil => exact ⟨o, rfl, fun o' => overlays_nil_iff⟩
  | cons entry t ih =>
    obtain ⟨key, v⟩ := entry
    obtain ⟨hEntry, hFits⟩ := List.forall_mem_cons.1 hFits
    rw [List.map_cons, List.nodup_cons] at hDistinct
    obtain ⟨o₁, hSet, hStep⟩ := exists_set_of_fits hEntry o
    obtain ⟨o₂, hRest, hOverlays⟩ := ih hFits hDistinct.2 o₁
    refine ⟨o₂, ?_, fun o' => ?_⟩
    · rw [overlaid_cons_of_ok hSet, hRest]
    · rw [← hStep t o' hDistinct.1, hOverlays]

/-- Keys before the first that offends do not show in the error. -/
theorem overlaid_of_offends {before : Table} {key : Text} (hBefore : ∀ entry ∈ before, Fits entry)
    (h : Offends (key, v) misfit) (after : Table) (o : Options) :
    o.overlaid (before ++ (key, v) :: after) = .error misfit := by
  induction before generalizing o with
  | nil => exact overlaid_cons_of_error (set_of_offends h o) after
  | cons entry before ih =>
    obtain ⟨key', v'⟩ := entry
    obtain ⟨hEntry, hBefore⟩ := List.forall_mem_cons.1 hBefore
    obtain ⟨o₁, hSet, -⟩ := exists_set_of_fits hEntry o
    rw [List.cons_append, overlaid_cons_of_ok hSet, ih hBefore]

theorem forall_fits_or_exists_misfit (t : Table) : (∀ entry ∈ t, Fits entry) ∨ ∃ misfit, IsFirstMisfit t misfit := by
  induction t with
  | nil => exact Or.inl (List.forall_mem_nil _)
  | cons entry t ih =>
    obtain ⟨key, v⟩ := entry
    obtain hEntry | ⟨misfit, hEntry⟩ := fits_or_offends (key, v)
    · obtain hFits | ⟨misfit, before, key', v', after, rfl, hBefore, hOffends⟩ := ih
      · exact Or.inl (List.forall_mem_cons.2 ⟨hEntry, hFits⟩)
      · exact Or.inr ⟨misfit, (key, v) :: before, key', v', after, rfl, List.forall_mem_cons.2 ⟨hEntry, hBefore⟩, hOffends⟩
    · exact Or.inr ⟨misfit, [], key, v, t, rfl, List.forall_mem_nil _, hEntry⟩

/-- With distinct keys the table gives its options if every entry fits, and else the error of the first that does
not. -/
theorem isReading_ofTable (hDistinct : (t.map Prod.fst).Nodup) : IsReading t (ofTable t) := by
  have hOk (hFits : ∀ entry ∈ t, Fits entry) : ∃ o₁, ofTable t = .ok o₁ ∧ ∀ o', Overlays {} t o' ↔ o' = o₁ :=
    exists_overlaid_of_fits hFits hDistinct {}
  have hError {misfit : Misfit} (h : IsFirstMisfit t misfit) : ofTable t = .error misfit := by
    obtain ⟨before, key, v, after, rfl, hBefore, hOffends⟩ := h
    exact overlaid_of_offends hBefore hOffends after {}
  obtain hFits | ⟨misfit, hMisfit⟩ := forall_fits_or_exists_misfit t
  · obtain ⟨o₁, hTable, hOverlays⟩ := hOk hFits
    have hNot (misfit : Misfit) : ¬ IsFirstMisfit t misfit := by
      intro h
      cases hTable.symm.trans (hError h)
    refine ⟨iff_of_true ⟨o₁, hTable⟩ hFits, fun o => ?_, fun misfit => iff_of_false ?_ (hNot misfit)⟩
    · rw [and_iff_right hFits, hOverlays, hTable, Except.ok.injEq]
      exact eq_comm
    · rw [hTable]
      nofun
  · have hTable := hError hMisfit
    have hNot : ¬ ∀ entry ∈ t, Fits entry := by
      intro hFits
      obtain ⟨o₁, hOkTable, -⟩ := hOk hFits
      cases hTable.symm.trans hOkTable
    refine ⟨iff_of_false ?_ hNot, fun o => iff_of_false ?_ fun h => hNot h.1, fun misfit' => ⟨fun h => ?_, hError⟩⟩
    · rintro ⟨o, h⟩
      cases hTable.symm.trans h
    · intro h
      cases hTable.symm.trans h
    · cases hTable.symm.trans h
      exact hMisfit

theorem overlays_perm {t' : Table} (h : t.Perm t') : Overlays o t o' ↔ Overlays o t' o' := by
  simp only [overlays_iff, Table.Sets, h.mem_iff, (h.map Prod.fst).mem_iff]

theorem ofTable_perm {t' : Table} (h : t.Perm t') (hDistinct : (t.map Prod.fst).Nodup) :
    ofTable t = .ok o ↔ ofTable t' = .ok o := by
  have hDistinct' := (h.map Prod.fst).nodup_iff.1 hDistinct
  rw [(isReading_ofTable hDistinct).eq_ok_iff, (isReading_ofTable hDistinct').eq_ok_iff, overlays_perm h]
  simp only [h.mem_iff]

theorem nodup_toTable (o : Options) : (o.toTable.map Prod.fst).Nodup := by
  have hKeys : o.toTable.map Prod.fst = keys := rfl
  rw [hKeys]
  decide

theorem ofTable_toTable (o : Options) : ofTable o.toTable = .ok o := by
  refine ((isReading_ofTable o.nodup_toTable).eq_ok_iff o).2 ⟨?_, ?_⟩
  · rw [toTable]
    simp only [List.forall_mem_cons]
    exact ⟨⟨_, .namePrefix, _, rfl⟩, ⟨_, .prefixedOnly, _, rfl⟩, ⟨_, .bareAttributes, _, rfl⟩,
      ⟨_, .ignoredNames, _, rfl⟩, ⟨_, .deleteFolded, _, rfl⟩, List.forall_mem_nil _⟩
  · exact ⟨Or.inl ⟨_, .head _, rfl⟩, Or.inl ⟨_, .tail _ (.head _), rfl⟩, Or.inl ⟨_, .tail _ (.tail _ (.head _)), rfl⟩,
      Or.inl ⟨_, .tail _ (.tail _ (.tail _ (.head _))), rfl⟩,
      Or.inl ⟨_, .tail _ (.tail _ (.tail _ (.tail _ (.head _)))), rfl⟩⟩

end Options

end ClassFold

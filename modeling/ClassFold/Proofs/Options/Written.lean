import Mathlib.Data.List.Perm.Basic
import ClassFold.Proofs.Options.Overlay
import ClassFold.Proofs.Toml.Keys
import ClassFold.Proofs.Toml.Written

/-!
# Options as text

The keys of a document are distinct, so what holds of a table of options with distinct keys holds of a text of
options. The five lines that options are written as may stand in any order.
-/

set_option autoImplicit false

namespace ClassFold

namespace Options

open Toml (document? Table)

def lines (o : Options) : List Text :=
  [Toml.writtenLine "prefix".toList (Toml.writtenString o.namePrefix),
    Toml.writtenLine "prefixedOnly".toList (Toml.writtenBoolean o.prefixedOnly),
    Toml.writtenLine "nonValuedAttribute".toList (Toml.writtenBoolean o.bareAttributes),
    Toml.writtenLine "ignoreAttributes".toList (Toml.writtenArray o.ignoredNames),
    Toml.writtenLine "deleteClass".toList (Toml.writtenBoolean o.deleteFolded)]

variable {o : Options} {source : Text} {t : Table}

theorem ofToml_of_document? (h : document? source = some t) : ofToml source = (ofTable t).mapError .misfit := by
  rw [ofToml, h]

theorem ofToml_eq_ok_iff (h : document? source = some t) : ofToml source = .ok o ↔ ofTable t = .ok o := by
  rw [ofToml_of_document? h]
  cases ofTable t <;> simp [Except.mapError]

theorem forall₂_lines (o : Options) : List.Forall₂ Toml.IsLineOf o.toTable o.lines := by
  refine .cons (.mk ?_ (.string _)) (.cons (.mk ?_ (.boolean _)) (.cons (.mk ?_ (.boolean _))
    (.cons (.mk ?_ (.strings _)) (.cons (.mk ?_ (.boolean _)) .nil))))
  all_goals decide

theorem ofTable_of_perm (h : t.Perm o.toTable) : ofTable t = .ok o :=
  (ofTable_perm h.symm o.nodup_toTable).1 o.ofTable_toTable

/-- Lines in another order are those of a table with its entries in that order. -/
theorem ofToml_flatten_of_perm {lines : List Text} (h : lines.Perm o.lines) : ofToml lines.flatten = .ok o := by
  obtain ⟨t, hLines, hPerm⟩ := List.perm_comp_forall₂ h (o.forall₂_lines).flip
  have hDistinct : (t.map Prod.fst).Nodup := (hPerm.map Prod.fst).nodup_iff.2 o.nodup_toTable
  rw [ofToml_eq_ok_iff (Toml.document?_flatten_lines hLines.flip hDistinct)]
  exact ofTable_of_perm hPerm

/-- A table of options is laid over the defaults, all of it or nothing; the keys of a text are those of a table,
each once; their order does not show in the options; and what options are written as is read as these options. -/
theorem options_text_is_overlay :
    (∀ t : Table, (t.map Prod.fst).Nodup → IsReading t (ofTable t)) ∧
      (∀ source t, document? source = some t →
        (t.map Prod.fst).Nodup ∧ ofToml source = (ofTable t).mapError .misfit) ∧
      (∀ source t source' t', document? source = some t → document? source' = some t' → t.Perm t' →
        ∀ o, ofToml source = .ok o ↔ ofToml source' = .ok o) ∧
      (∀ (o : Options) source t, document? source = some t → t.Perm o.toTable → ofToml source = .ok o) ∧
      ∀ (o : Options) (lines : List Text), lines.Perm o.lines → ofToml lines.flatten = .ok o := by
  refine ⟨fun t => isReading_ofTable, ?_, ?_, ?_, fun o lines => ofToml_flatten_of_perm⟩
  · intro source t h
    exact ⟨Toml.nodup_keys_of_document? h, ofToml_of_document? h⟩
  · intro source t source' t' h h' hPerm o
    rw [ofToml_eq_ok_iff h, ofToml_eq_ok_iff h', ofTable_perm hPerm (Toml.nodup_keys_of_document? h)]
  · intro o source t h hPerm
    rw [ofToml_eq_ok_iff h, ofTable_of_perm hPerm]

def terseOptions : Options := { namePrefix := "tw-".toList, ignoredNames := [], deleteFolded := true }

def strayTable : Table :=
  [("deleteClass".toList, .boolean true), ("colour".toList, .boolean true), ("prefix".toList, .boolean false)]

/-- An unknown key comes before a value of the wrong type; five lines come in the reverse order. -/
theorem options_text_is_overlay_reversed :
    (strayTable.map Prod.fst).Nodup ∧ ofTable strayTable = .error (.unknownKey "colour".toList) ∧
      document? terseOptions.lines.flatten = some terseOptions.toTable ∧
      document? terseOptions.lines.reverse.flatten = some terseOptions.toTable.reverse ∧
      terseOptions.toTable.reverse.Perm terseOptions.toTable ∧
      terseOptions.lines.reverse.Perm terseOptions.lines ∧
      ofToml terseOptions.lines.reverse.flatten = .ok terseOptions ∧ ofToml terseOptions.lines.flatten = .ok terseOptions := by
  have hDistinct : (strayTable.map Prod.fst).Nodup := by
    decide
  have hMisfit : IsFirstMisfit strayTable (.unknownKey "colour".toList) := by
    refine ⟨[("deleteClass".toList, .boolean true)], "colour".toList, _, _, rfl, ?_, Or.inl ⟨?_, rfl⟩⟩
    · exact List.forall_mem_singleton.2 ⟨_, .deleteFolded, _, rfl⟩
    · intro expected hKnown
      exact absurd (mem_keys_iff.2 ⟨expected, hKnown⟩) (by decide)
  have hLines := terseOptions.forall₂_lines
  have hDocument := Toml.document?_flatten_lines hLines terseOptions.nodup_toTable
  have hReverse := Toml.document?_flatten_lines (List.forall₂_reverse_iff.2 hLines)
    (((List.reverse_perm _).map Prod.fst).nodup_iff.2 terseOptions.nodup_toTable)
  have hTable := ((options_text_is_overlay.1 strayTable hDistinct).eq_error_iff _).2 hMisfit
  have hOk := options_text_is_overlay.2.2.2.2 terseOptions _ (List.reverse_perm _)
  have hOrder := (options_text_is_overlay.2.2.1 _ _ _ _ hReverse hDocument (List.reverse_perm _) terseOptions).1 hOk
  exact ⟨hDistinct, hTable, hDocument, hReverse, List.reverse_perm _, List.reverse_perm _, hOk, hOrder⟩

end Options

end ClassFold

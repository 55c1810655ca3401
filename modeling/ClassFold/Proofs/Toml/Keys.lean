import Mathlib.Data.List.Nodup
import Mathlib.Data.Option.Basic
import ClassFold.Toml.Document

/-!
# No key stands twice

A table grows at its end, and only by a key that it does not have. What a path leads to is put back under the
key that it was found under. So the keys of a document are distinct: `nodup_keys_of_document?`.
-/

set_option autoImplicit false

namespace ClassFold.Toml

namespace Table

/-- A step on the table at the end of a path keeps the keys of that table distinct. -/
def KeepsDistinct {α : Type} (act : Origin → Table → Option (α × Table)) : Prop :=
  ∀ origin t a t', act origin t = some (a, t') → (t.map Prod.fst).Nodup → (t'.map Prod.fst).Nodup

variable {α : Type} {t t' : Table} {key : Text} {value : Value}

theorem map_fst_replace (key : Text) (value : Value) (t : Table) : (replace key value t).map Prod.fst = t.map Prod.fst := by
  induction t with
  | nil => rfl
  | cons entry t ih =>
    obtain ⟨k, v⟩ := entry
    rw [replace]
    split
    · rfl
    · rw [List.map_cons, ih, List.map_cons]

theorem notMem_of_lookup_eq_none (h : t.lookup key = none) : key ∉ t.map Prod.fst := by
  intro hMem
  obtain ⟨entry, hEntry, rfl⟩ := List.mem_map.1 hMem
  simpa using List.lookup_eq_none_iff.1 h entry hEntry

theorem nodup_append (h : t.lookup key = none) (value : Value) (hDistinct : (t.map Prod.fst).Nodup) :
    ((t ++ [(key, value)]).map Prod.fst).Nodup := by
  rw [List.map_append]
  refine List.nodup_append'.2 ⟨hDistinct, List.nodup_singleton _, ?_⟩
  exact List.disjoint_singleton.2 (notMem_of_lookup_eq_none h)

theorem nodup_erase (key : Text) (hDistinct : (t.map Prod.fst).Nodup) : ((erase key t).map Prod.fst).Nodup :=
  hDistinct.sublist (List.filter_sublist.map _)

theorem keepsDistinct_visit {act : Origin → Table → Option (α × Table)} (hAct : KeepsDistinct act) (making : Origin)
    (path : List Text) : KeepsDistinct (visit making act path) := by
  intro origin t a t' h hDistinct
  cases path with
  | nil => exact hAct origin t a t' h hDistinct
  | cons key path =>
    rw [visit] at h
    split at h
    · rename_i hFree
      obtain ⟨⟨b, sub⟩, -, hSome⟩ := Option.bind_eq_some_iff.1 h
      cases hSome
      exact nodup_append hFree _ hDistinct
    · obtain ⟨-, -, h⟩ := Option.bind_eq_some_iff.1 h
      obtain ⟨⟨b, sub⟩, -, hSome⟩ := Option.bind_eq_some_iff.1 h
      cases hSome
      rwa [map_fst_replace]
    · obtain ⟨last, -, h⟩ := Option.bind_eq_some_iff.1 h
      obtain ⟨⟨b, sub⟩, -, hSome⟩ := Option.bind_eq_some_iff.1 h
      cases hSome
      rwa [map_fst_replace]
    · cases h

theorem lookup_eq_none_of_guard {x : Unit} (h : (guard (t.lookup key).isNone : Option Unit) = some x) :
    t.lookup key = none := by
  cases hLookup : t.lookup key with
  | none => rfl
  | some value =>
    rw [hLookup] at h
    cases h

theorem nodup_visited {making origin : Origin} {act : Origin → Table → Option (Unit × Table)} {path : List Text}
    (hAct : KeepsDistinct act) (h : (do let ((), t) ← visit making act path origin t; return t) = some t')
    (hDistinct : (t.map Prod.fst).Nodup) : (t'.map Prod.fst).Nodup := by
  obtain ⟨⟨⟨⟩, t₁⟩, hVisit, hSome⟩ := Option.bind_eq_some_iff.1 h
  cases hSome
  exact keepsDistinct_visit hAct _ _ _ _ _ _ hVisit hDistinct

theorem nodup_add {path : List Text} (h : t.add path key value = some t') (hDistinct : (t.map Prod.fst).Nodup) :
    (t'.map Prod.fst).Nodup := by
  refine nodup_visited ?_ h hDistinct
  intro origin t a t' hAct hDistinct
  obtain ⟨⟨⟩, -, hAct⟩ := Option.bind_eq_some_iff.1 hAct
  obtain ⟨⟨⟩, hFree, hAct⟩ := Option.bind_eq_some_iff.1 hAct
  cases hAct
  exact nodup_append (lookup_eq_none_of_guard hFree) _ hDistinct

theorem nodup_reopen {path : List Text} {sub : Table} (h : t.reopen path key = some (sub, t'))
    (hDistinct : (t.map Prod.fst).Nodup) : (t'.map Prod.fst).Nodup := by
  refine keepsDistinct_visit ?_ _ _ _ _ _ _ h hDistinct
  intro origin t a t' hAct hDistinct
  dsimp only at hAct
  split at hAct
  · cases hAct
    exact hDistinct
  · cases hAct
    exact nodup_erase key hDistinct
  · cases hAct

theorem nodup_put {path : List Text} {sub : Table} (h : t.put path key sub = some t')
    (hDistinct : (t.map Prod.fst).Nodup) : (t'.map Prod.fst).Nodup := by
  refine nodup_visited ?_ h hDistinct
  intro origin t a t' hAct hDistinct
  obtain ⟨⟨⟩, hFree, hAct⟩ := Option.bind_eq_some_iff.1 hAct
  cases hAct
  exact nodup_append (lookup_eq_none_of_guard hFree) _ hDistinct

theorem nodup_openArray {path : List Text} (h : t.openArray path key = some t')
    (hDistinct : (t.map Prod.fst).Nodup) : (t'.map Prod.fst).Nodup := by
  refine nodup_visited ?_ h hDistinct
  intro origin t a t' hAct hDistinct
  dsimp only at hAct
  split at hAct
  · rename_i hFree
    cases hAct
    exact nodup_append hFree _ hDistinct
  · cases hAct
    exact hDistinct
  · cases hAct

theorem nodup_push {path : List Text} {sub : Table} (h : t.push path key sub = some t')
    (hDistinct : (t.map Prod.fst).Nodup) : (t'.map Prod.fst).Nodup := by
  refine nodup_visited ?_ h hDistinct
  intro origin t a t' hAct hDistinct
  dsimp only at hAct
  split at hAct
  · cases hAct
    rwa [map_fst_replace]
  · cases hAct

end Table

namespace Builder

/-- What a header opened comes into the document under a key of its own; only before the first header is it the
document that grows. -/
structure Distinct (b : Builder) : Prop where
  closed : (b.closed.map Prod.fst).Nodup
  current : b.target = .document → (b.current.map Prod.fst).Nodup

variable {b b' : Builder}

theorem nodup_close (hb : b.Distinct) {t : Table} (h : b.close = some t) : (t.map Prod.fst).Nodup := by
  rw [close] at h
  split at h
  · rename_i hTarget
    cases h
    exact hb.current hTarget
  · exact Table.nodup_put h hb.closed
  · exact Table.nodup_push h hb.closed

theorem distinct_apply (hb : b.Distinct) {s : Statement} (h : b.apply s = some b') : b'.Distinct := by
  cases s with
  | pair path key value =>
    obtain ⟨current, hAdd, hSome⟩ := Option.bind_eq_some_iff.1 h
    cases hSome
    exact ⟨hb.closed, fun hTarget => Table.nodup_add hAdd (hb.current hTarget)⟩
  | table path key =>
    obtain ⟨all, hClose, h⟩ := Option.bind_eq_some_iff.1 h
    obtain ⟨⟨current, rest⟩, hReopen, hSome⟩ := Option.bind_eq_some_iff.1 h
    cases hSome
    exact ⟨Table.nodup_reopen hReopen (nodup_close hb hClose), nofun⟩
  | element path key =>
    obtain ⟨all, hClose, h⟩ := Option.bind_eq_some_iff.1 h
    obtain ⟨rest, hOpen, hSome⟩ := Option.bind_eq_some_iff.1 h
    cases hSome
    exact ⟨Table.nodup_openArray hOpen (nodup_close hb hClose), nofun⟩

theorem distinct_foldlM (hb : b.Distinct) {statements : List Statement} (h : statements.foldlM apply b = some b') :
    b'.Distinct := by
  induction statements generalizing b with
  | nil =>
    cases h
    exact hb
  | cons s statements ih =>
    rw [List.foldlM_cons] at h
    obtain ⟨b₁, hStep, h⟩ := Option.bind_eq_some_iff.1 h
    exact ih (distinct_apply hb hStep) h

end Builder

theorem nodup_keys_of_document? {source : Text} {t : Table} (h : document? source = some t) :
    (t.map Prod.fst).Nodup := by
  obtain ⟨⟨statements, rest⟩, -, h⟩ := Option.bind_eq_some_iff.1 h
  obtain ⟨b, hFold, h⟩ := Option.bind_eq_some_iff.1 h
  have hEmpty : Builder.Distinct {} := ⟨List.nodup_nil, fun _ => List.nodup_nil⟩
  exact Builder.nodup_close (Builder.distinct_foldlM hEmpty hFold) h

end ClassFold.Toml

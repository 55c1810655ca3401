import Mathlib.Data.List.Sort
import ClassFold.Fragment
import ClassFold.Proofs.Text.Split

/-!
# The fragments of a value

A value may be cut in two at any separator, and then its fragments are those of the first part and those of
the second: `fragments_append_cons`. The maximal runs of characters between separators are cut in the same
way, so the two are the same.
-/

set_option autoImplicit false

namespace ClassFold

/-- White space, a quote or a semicolon. -/
def Separates (c : Char) : Prop := isWhite c = true ∨ c ∈ ['\x27', '\x22', '\x60', ';']

instance : DecidablePred Separates := fun c => inferInstanceAs (Decidable (isWhite c = true ∨ c ∈ _))

theorem isSeparator_eq_true_iff {c : Char} : isSeparator c = true ↔ Separates c := by
  simp [isSeparator, Separates, or_assoc]

theorem isSeparator_eq_false_iff {c : Char} : isSeparator c = false ↔ ¬ Separates c := by
  rw [← Bool.not_eq_true, isSeparator_eq_true_iff]

/-- A text without a separator, and not empty. -/
def IsRunText (run : Text) : Prop := run ≠ [] ∧ ∀ c ∈ run, ¬ Separates c

instance (run : Text) : Decidable (IsRunText run) := @instDecidableAnd _ _ _ (List.decidableBAll _ run)

/-- From the byte `start` of the value on stands `run`, and on both sides of it is a separator or the end of the
value. -/
def IsMaximalRun (value : Text) (start : Nat) (run : Text) : Prop :=
  ∃ before after, value = before ++ (run ++ after) ∧ before.size = start ∧ IsRunText run ∧
    (∀ c, before.getLast? = some c → Separates c) ∧ ∀ c, after.head? = some c → Separates c

/-- These are all the maximal runs of the value, in the order in which they stand there. -/
def AreRuns (value : Text) (runs : List Text) : Prop :=
  ∃ places : List (Nat × Text), places.map Prod.snd = runs ∧ places.Pairwise (·.1 < ·.1) ∧
    ∀ start run, (start, run) ∈ places ↔ IsMaximalRun value start run

/-- A text of separators only, at least one. -/
def IsSeparation (s : Text) : Prop := s ≠ [] ∧ ∀ c ∈ s, Separates c

instance (s : Text) : Decidable (IsSeparation s) := @instDecidableAnd _ _ _ (List.decidableBAll _ s)

/-- The texts one after another, with a separation between each two. -/
inductive Joined : List Text → Text → Prop where
  | none : Joined [] []
  | one (run : Text) : Joined [run] run
  | more (run : Text) {s rest : Text} {runs : List Text} (hSeparation : IsSeparation s) (hNe : runs ≠ [])
      (hRest : Joined runs rest) : Joined (run :: runs) (run ++ (s ++ rest))

variable {v w run : Text} {c : Char} {start : Nat}

/-- Every value is free of separators, or it is put together at one. -/
theorem separator_induction {P : Text → Prop} (free : ∀ v, (∀ c ∈ v, ¬ Separates c) → P v)
    (cut : ∀ v c w, Separates c → P v → P w → P (v ++ c :: w)) (value : Text) : P value := by
  by_cases hFree : ∀ c ∈ value, ¬ Separates c
  · exact free value hFree
  · obtain ⟨c, hMem, hc⟩ : ∃ c ∈ value, Separates c := by simpa using hFree
    obtain ⟨v, w, rfl⟩ := List.append_of_mem hMem
    exact cut v c w hc (separator_induction free cut v) (separator_induction free cut w)
termination_by value.length
decreasing_by
  all_goals subst_vars
  all_goals simp only [List.length_append, List.length_cons]
  all_goals omega

theorem fragments_append_cons (hc : Separates c) (v w : Text) :
    fragments (v ++ c :: w) = fragments v ++ fragments w := by
  rw [fragments, List.splitOnP_append_cons v w (isSeparator_eq_true_iff.2 hc), List.filter_append, fragments, fragments]

theorem fragments_of_free (hFree : ∀ c ∈ v, ¬ Separates c) : fragments v = [v].filter (!·.isEmpty) := by
  rw [fragments, List.splitOnP_eq_singleton fun c hc => isSeparator_eq_false_iff.2 (hFree c hc)]

theorem fragments_separators_append {s : Text} (hs : ∀ c ∈ s, Separates c) (v : Text) :
    fragments (s ++ v) = fragments v := by
  induction s with
  | nil => rfl
  | cons c s ih =>
    obtain ⟨hc, hs⟩ := List.forall_mem_cons.1 hs
    have hCut := fragments_append_cons hc [] (s ++ v)
    rw [List.nil_append, ih hs] at hCut
    rw [List.cons_append, hCut]
    rfl

theorem fragments_append {s : Text} (hs : IsSeparation s) (v w : Text) :
    fragments (v ++ s ++ w) = fragments v ++ fragments w := by
  obtain ⟨hNe, hAll⟩ := hs
  obtain ⟨c, s, rfl⟩ := List.exists_cons_of_ne_nil hNe
  obtain ⟨hc, hAll⟩ := List.forall_mem_cons.1 hAll
  rw [List.append_assoc, List.cons_append, fragments_append_cons hc, fragments_separators_append hAll]

theorem fragments_of_joined {runs : List Text} (h : Joined runs v)
    (hRuns : ∀ run ∈ runs, IsRunText run) : fragments v = runs := by
  have hOne {run : Text} (hRun : IsRunText run) : fragments run = [run] := by
    rw [fragments_of_free hRun.2]
    simpa using hRun.1
  induction h with
  | none => rfl
  | one run => exact hOne (hRuns run List.mem_cons_self)
  | more run hSeparation _ _ ih =>
    obtain ⟨hRun, hRuns⟩ := List.forall_mem_cons.1 hRuns
    rw [← List.append_assoc, fragments_append hSeparation, hOne hRun, ih hRuns, List.singleton_append]

theorem flatten_fragments (value : Text) : (fragments value).flatten = value.filter fun c => ¬ Separates c := by
  induction value using separator_induction with
  | free v hFree =>
    have hAll : (v.filter fun c => ¬ Separates c) = v := List.filter_eq_self.2 (by simpa using hFree)
    rw [fragments_of_free hFree, hAll]
    cases v with
    | nil => rfl
    | cons c v => exact List.append_nil _
  | cut v c w hc hv hw =>
    rw [fragments_append_cons hc, List.flatten_append, hv, hw, List.filter_append, List.filter_cons_of_neg (by simpa using hc)]

/-- A fragment is made of characters of the value that do not separate. -/
theorem mem_of_mem_fragments {value f : Text} {c : Char} (hf : f ∈ fragments value) (hc : c ∈ f) :
    c ∈ value ∧ ¬ Separates c := by
  have hMem : c ∈ (fragments value).flatten := List.mem_flatten.2 ⟨f, hf, hc⟩
  rw [flatten_fragments, List.mem_filter] at hMem
  simpa using hMem

namespace IsMaximalRun

theorem start_le_size (h : IsMaximalRun v start run) : start ≤ v.size := by
  obtain ⟨before, after, rfl, rfl, -⟩ := h
  simp

theorem iff_of_free (hFree : ∀ c ∈ v, ¬ Separates c) : IsMaximalRun v start run ↔ v ≠ [] ∧ start = 0 ∧ run = v := by
  constructor
  · rintro ⟨before, after, rfl, rfl, ⟨hNe, -⟩, hLeft, hRight⟩
    have hBefore : before = [] := by
      apply List.getLast?_eq_none_iff.1
      rw [Option.eq_none_iff_forall_ne_some]
      intro c hc
      exact hFree c (List.mem_append_left _ (List.mem_of_getLast? hc)) (hLeft c hc)
    have hAfter : after = [] := by
      apply List.head?_eq_none_iff.1
      rw [Option.eq_none_iff_forall_ne_some]
      intro c hc
      exact hFree c (List.mem_append_right _ (List.mem_append_right _ (List.mem_of_head? hc))) (hRight c hc)
    simp [hBefore, hAfter, hNe]
  · rintro ⟨hNe, rfl, rfl⟩
    exact ⟨[], [], by simp, rfl, ⟨hNe, hFree⟩, by simp, by simp⟩

/-- A maximal run stands on one side of each separator. -/
theorem append_cons_iff (hc : Separates c) :
    IsMaximalRun (v ++ c :: w) start run ↔
      IsMaximalRun v start run ∨ ∃ k, start = (v ++ [c]).size + k ∧ IsMaximalRun w k run := by
  constructor
  · rintro ⟨before, after, hText, rfl, hRun, hLeft, hRight⟩
    have hNot : c ∉ run := fun hMem => hRun.2 c hMem hc
    obtain ⟨m, rfl, hRest⟩ | ⟨m, rfl, hRest⟩ := List.append_eq_append_iff.1 hText
    · cases m with
      | nil =>
        obtain ⟨d, run, rfl⟩ := List.exists_cons_of_ne_nil hRun.1
        obtain ⟨rfl, -⟩ := List.cons.inj hRest
        exact absurd List.mem_cons_self hNot
      | cons d m =>
        obtain ⟨rfl, rfl⟩ := List.cons.inj hRest
        refine Or.inr ⟨Text.size m, by simp [Nat.add_assoc], m, after, rfl, rfl, hRun, ?_, hRight⟩
        intro d hd
        exact hLeft d (by rw [List.getLast?_append, List.getLast?_cons, hd, Option.getD_some, Option.some_or])
    · obtain ⟨k, rfl, rfl⟩ | ⟨k, rfl, hTail⟩ := List.append_eq_append_iff.1 hRest
      · refine Or.inl ⟨before, k, rfl, rfl, hRun, hLeft, ?_⟩
        intro d hd
        exact hRight d (by rw [List.head?_append, hd, Option.some_or])
      · cases k with
        | nil => exact Or.inl ⟨before, [], by simp, rfl, hRun, hLeft, by simp⟩
        | cons d k =>
          obtain ⟨rfl, -⟩ := List.cons.inj hTail
          exact absurd (List.mem_append_right m List.mem_cons_self) hNot
  · rintro (⟨before, after, rfl, rfl, hRun, hLeft, hRight⟩ | ⟨k, rfl, before, after, rfl, rfl, hRun, hLeft, hRight⟩)
    · refine ⟨before, after ++ c :: w, by simp, rfl, hRun, hLeft, ?_⟩
      intro d hd
      rw [List.head?_append, List.head?_cons] at hd
      cases hAfter : after.head? with
      | none =>
        rw [hAfter] at hd
        exact Option.some.inj hd ▸ hc
      | some e =>
        rw [hAfter] at hd
        exact Option.some.inj hd ▸ hRight e hAfter
    · refine ⟨v ++ c :: before, after, by simp, by simp [Nat.add_assoc], hRun, ?_, hRight⟩
      intro d hd
      rw [List.getLast?_append, List.getLast?_cons, Option.some_or] at hd
      cases hBefore : before.getLast? with
      | none =>
        rw [hBefore] at hd
        exact Option.some.inj hd ▸ hc
      | some e =>
        rw [hBefore] at hd
        exact Option.some.inj hd ▸ hLeft e hBefore

end IsMaximalRun

namespace AreRuns

theorem of_free (hFree : ∀ c ∈ v, ¬ Separates c) : AreRuns v (fragments v) := by
  refine ⟨([v].filter (!·.isEmpty)).map (0, ·), ?_, ?_, ?_⟩
  · rw [fragments_of_free hFree, List.map_map, Function.comp_def, List.map_id']
  · cases v <;> simp
  · intro start run
    rw [IsMaximalRun.iff_of_free hFree]
    cases v <;> simp

theorem append_cons {runs runs' : List Text} (hc : Separates c) (hv : AreRuns v runs) (hw : AreRuns w runs') :
    AreRuns (v ++ c :: w) (runs ++ runs') := by
  obtain ⟨places, rfl, hOrder, hPlaces⟩ := hv
  obtain ⟨places', rfl, hOrder', hPlaces'⟩ := hw
  refine ⟨places ++ places'.map fun p => ((v ++ [c]).size + p.1, p.2), ?_, ?_, ?_⟩
  · rw [List.map_append, List.map_map]
    rfl
  · refine List.pairwise_append.2 ⟨hOrder, ?_, ?_⟩
    · exact hOrder'.map _ fun p q hlt => Nat.add_lt_add_left hlt _
    · intro p hp q hq
      obtain ⟨q', -, rfl⟩ := List.mem_map.1 hq
      have hle := ((hPlaces p.1 p.2).1 hp).start_le_size
      have hPos := c.utf8Size_pos
      simp only [Text.size_append, Text.size_cons]
      omega
  · intro start run
    rw [IsMaximalRun.append_cons_iff hc, List.mem_append, hPlaces]
    refine or_congr Iff.rfl ?_
    rw [List.mem_map]
    constructor
    · rintro ⟨⟨k, run'⟩, hMem, hEq⟩
      obtain ⟨rfl, rfl⟩ := Prod.mk.inj hEq
      exact ⟨k, rfl, (hPlaces' k run').1 hMem⟩
    · rintro ⟨k, rfl, hRun⟩
      exact ⟨(k, run), (hPlaces' k run).2 hRun, rfl⟩

/-- The places of two such lists ascend strictly and are the same, so they are one list. -/
theorem unique {runs runs' : List Text} (h : AreRuns v runs) (h' : AreRuns v runs') : runs = runs' := by
  obtain ⟨places, rfl, hOrder, hPlaces⟩ := h
  obtain ⟨places', rfl, hOrder', hPlaces'⟩ := h'
  have : Std.Irrefl fun p q : Nat × Text => p.1 < q.1 := ⟨fun p => Nat.lt_irrefl p.1⟩
  have : Std.Antisymm fun p q : Nat × Text => p.1 < q.1 := ⟨fun _ _ hpq hqp => absurd hpq (Nat.lt_asymm hqp)⟩
  rw [hOrder.eq_of_mem_iff hOrder' fun p => (hPlaces p.1 p.2).trans (hPlaces' p.1 p.2).symm]

end AreRuns

theorem areRuns_fragments (value : Text) : AreRuns value (fragments value) := by
  induction value using separator_induction with
  | free v hFree => exact .of_free hFree
  | cut v c w hc hv hw =>
    rw [fragments_append_cons hc]
    exact hv.append_cons hc hw

theorem areRuns_iff {value : Text} {runs : List Text} : AreRuns value runs ↔ fragments value = runs := by
  constructor
  · exact (areRuns_fragments value).unique
  · rintro rfl
    exact areRuns_fragments value

theorem isRunText_of_mem_fragments {value f : Text} (hf : f ∈ fragments value) : IsRunText f := by
  have hNe := (List.mem_filter.1 hf).2
  exact ⟨by simpa using hNe, fun c hc => (mem_of_mem_fragments hf hc).2⟩

/-- The fragments of a value are its maximal runs of characters that do not separate. The fragments around a
separation are those of the two sides, and so are the candidates; runs put together at separations are the fragments
of what they make. -/
theorem fragments_are_maximal_runs :
    (∀ value, (∀ runs, AreRuns value runs ↔ fragments value = runs) ∧ (∀ f ∈ fragments value, IsRunText f) ∧
      (fragments value).flatten = value.filter fun c => ¬ Separates c) ∧
    (∀ v s w, IsSeparation s → fragments (v ++ s ++ w) = fragments v ++ fragments w ∧
      ∀ name, valuedCandidates name (v ++ s ++ w) = valuedCandidates name v ++ valuedCandidates name w) ∧
    ∀ runs text, Joined runs text → (∀ run ∈ runs, IsRunText run) → fragments text = runs := by
  refine ⟨fun value => ⟨fun runs => areRuns_iff, fun f => isRunText_of_mem_fragments, flatten_fragments value⟩, ?_, ?_⟩
  · intro v s w hs
    have hFragments := fragments_append hs v w
    refine ⟨hFragments, fun name => ?_⟩
    rw [valuedCandidates, hFragments, List.map_append, valuedCandidates, valuedCandidates]
  · intro runs text hJoined hRuns
    exact fragments_of_joined hJoined hRuns

/-- Three runs, joined by a quote with a no-break space and by a semicolon. -/
theorem fragments_are_maximal_runs_around_white_space :
    Joined ["red".toList, "~".toList, "2xl".toList] "red'\u00a0~;2xl".toList ∧
      fragments "red'\u00a0~;2xl".toList = ["red".toList, "~".toList, "2xl".toList] ∧
      IsSeparation "'\u00a0".toList ∧
      valuedCandidates "text".toList ("red".toList ++ "'\u00a0".toList ++ "~;2xl".toList) =
        ["text-red".toList] ++ ["text".toList, "text-2xl".toList] := by
  have hFirst : IsSeparation "'\u00a0".toList := by decide
  have hSecond : IsSeparation ";".toList := by decide
  have hJoined : Joined ["red".toList, "~".toList, "2xl".toList] "red'\u00a0~;2xl".toList :=
    .more "red".toList hFirst (by simp) (.more "~".toList hSecond (by simp) (.one "2xl".toList))
  refine ⟨hJoined, ?_, hFirst, ?_⟩
  · exact fragments_are_maximal_runs.2.2 _ _ hJoined (by decide)
  · exact ((fragments_are_maximal_runs.2.1 _ _ _ hFirst).2 _).trans (by decide)

end ClassFold

import ClassFold.Proofs.Document.OnePass
import ClassFold.Proofs.Markup.TagReading

/-!
# Documents cut between elements

A cut that is inside no element leaves the elements on both sides as they are, although the reader of a
tag may look past the cut before it settles on an earlier `>`. For an engine with fixed answers the
document is then transformed part by part.
-/

set_option autoImplicit false

namespace ClassFold

def CutsClean (offset : Nat) (a b : Text) : Prop :=
  ∀ e ∈ elementsFrom offset (a ++ b), ¬ (e.span.start < offset + a.size ∧ offset + a.size < e.span.stop)

namespace CutsClean

variable {offset : Nat} {a b : Text}

theorem read?_append (hClean : CutsClean offset a b) (hNe : a ≠ []) :
    Tag.read? (a ++ b) = (Tag.read? a).map fun (t, rest) => (t, rest ++ b) := by
  cases hWhole : Tag.read? (a ++ b) with
  | some p =>
    obtain ⟨t, rest⟩ := p
    have hFirst := hClean ⟨t, offset⟩ (by rw [elementsFrom_of_read? hWhole]; exact List.mem_cons_self)
    simp only [Element.span] at hFirst
    have hSize : t.text.size ≤ a.size := by
      have hPos := Text.size_pos hNe
      omega
    obtain ⟨m, rfl, rfl⟩ := Text.exists_append_of_size_le (Tag.eq_of_read? hWhole).symm hSize
    rw [Tag.read?_of_append hWhole]
    rfl
  | none =>
    cases hPart : Tag.read? a with
    | none => rfl
    | some p =>
      obtain ⟨t', rest', h⟩ := Tag.exists_read?_append hPart b
      rw [hWhole] at h
      cases h

theorem of_read? {c : Char} {s rest : Text} {t : Tag} (hClean : CutsClean offset (c :: s) b)
    (hRead : Tag.read? (c :: s) = some (t, rest)) : CutsClean (offset + t.text.size) rest b := by
  intro e he
  have hWhole : Tag.read? (c :: s ++ b) = some (t, rest ++ b) := by
    rw [hClean.read?_append (List.cons_ne_nil c s), hRead]
    rfl
  have hOutside := hClean e (by
    rw [elementsFrom_of_read? hWhole]
    exact List.mem_cons_of_mem _ he)
  rw [Tag.eq_of_read? hRead, Text.size_append, ← Nat.add_assoc] at hOutside
  exact hOutside

theorem of_read?_eq_none {c : Char} {s : Text} (hClean : CutsClean offset (c :: s) b)
    (hRead : Tag.read? (c :: s) = none) : CutsClean (offset + c.utf8Size) s b := by
  intro e he
  have hWhole : Tag.read? (c :: (s ++ b)) = none := by
    rw [← List.cons_append, hClean.read?_append (List.cons_ne_nil c s), hRead]
    rfl
  have hOutside := hClean e (by
    rw [List.cons_append, elementsFrom_of_read?_eq_none hWhole]
    exact he)
  rw [Text.size_cons, ← Nat.add_assoc] at hOutside
  exact hOutside

theorem elementsFrom_append (hClean : CutsClean offset a b) :
    elementsFrom offset (a ++ b) = elementsFrom offset a ++ elementsFrom (offset + a.size) b := by
  fun_induction elementsFrom offset a with
  | case1 => simp
  | case2 offset c s t rest hRead ih =>
    have hWhole := hClean.read?_append (List.cons_ne_nil c s)
    rw [hRead] at hWhole
    rw [elementsFrom_of_read? hWhole, ih (hClean.of_read? hRead), Tag.eq_of_read? hRead,
      Text.size_append, Nat.add_assoc]
    rfl
  | case3 offset c s hRead ih =>
    have hWhole := hClean.read?_append (List.cons_ne_nil c s)
    rw [hRead] at hWhole
    rw [List.cons_append] at hWhole ⊢
    rw [elementsFrom_of_read?_eq_none hWhole, ih (hClean.of_read?_eq_none hRead), Text.size_cons,
      Nat.add_assoc]

theorem onePass_append (engine : Engine) (o : Options) (hClean : CutsClean offset a b) :
    onePass engine o (a ++ b) = do
      let x ← onePass engine o a
      let y ← onePass engine o b
      return x ++ y := by
  fun_induction elementsFrom offset a with
  | case1 => simp [onePass]
  | case2 offset c s t rest hRead ih =>
    have hWhole := hClean.read?_append (List.cons_ne_nil c s)
    rw [hRead] at hWhole
    rw [onePass_of_read? hWhole, onePass_of_read? hRead, ih (hClean.of_read? hRead)]
    simp only [bind_assoc, pure_bind, List.append_assoc]
  | case3 offset c s hRead ih =>
    have hWhole := hClean.read?_append (List.cons_ne_nil c s)
    rw [hRead] at hWhole
    rw [List.cons_append] at hWhole ⊢
    rw [onePass_of_read?_eq_none hWhole, onePass_of_read?_eq_none hRead,
      ih (hClean.of_read?_eq_none hRead)]
    simp only [bind_assoc, pure_bind, List.cons_append]

end CutsClean

/-- The result of a run does not depend on what was asked before it. -/
def Ask.Oblivious {α : Type} (x : Ask α) : Prop :=
  ∀ asked asked', (x.run asked).map Prod.fst = (x.run asked').map Prod.fst

namespace Ask.Oblivious

variable {α β : Type}

theorem pure (a : α) : Oblivious (Pure.pure a : Ask α) := fun _ _ => rfl

theorem bind {x : Ask α} {f : α → Ask β} (hx : x.Oblivious) (hf : ∀ a, (f a).Oblivious) :
    (x >>= f).Oblivious := by
  intro asked asked'
  have h := hx asked asked'
  rw [StateT.run_bind, StateT.run_bind]
  cases hRun : x.run asked with
  | error e =>
    rw [hRun] at h
    cases hRun' : x.run asked' with
    | error e' =>
      rw [hRun'] at h
      cases h
      rfl
    | ok p' =>
      rw [hRun'] at h
      cases h
  | ok p =>
    rw [hRun] at h
    cases hRun' : x.run asked' with
    | error e' =>
      rw [hRun'] at h
      cases h
    | ok p' =>
      rw [hRun'] at h
      have hFst : p.1 = p'.1 := Except.ok.inj h
      change ((f p.1).run p.2).map Prod.fst = ((f p'.1).run p'.2).map Prod.fst
      rw [hFst]
      exact hf p'.1 p.2 p'.2

theorem mapM {f : α → Ask β} (hf : ∀ a, (f a).Oblivious) (as : List α) : (as.mapM f).Oblivious := by
  induction as with
  | nil => exact pure []
  | cons a as ih =>
    rw [List.mapM_cons]
    exact (hf a).bind fun b => ih.bind fun bs => pure (b :: bs)

end Ask.Oblivious

section Fixed

variable (answer : Text → Except Text Bool) (selects : Text → Bool) (o : Options)

theorem oblivious_confirmed (tokens : List Text) :
    ((Engine.fixed answer selects).confirmed tokens).Oblivious := by
  induction tokens with
  | nil => exact Ask.Oblivious.pure []
  | cons t ts ih =>
    rw [Engine.confirmed]
    apply Ask.Oblivious.bind _ fun yes => ih.bind fun rest => Ask.Oblivious.pure _
    intro asked asked'
    simp only [Engine.run_ask, Engine.fixed]
    cases answer t <;> rfl

theorem oblivious_rewrite (t : Tag) : (t.rewrite (.fixed answer selects) o).Oblivious := by
  apply Ask.Oblivious.bind _ fun js => Ask.Oblivious.pure _
  apply Ask.Oblivious.mapM
  intro a
  exact (oblivious_confirmed answer selects _).bind fun confirmed => Ask.Oblivious.pure _

theorem oblivious_onePass (s : Text) : (onePass (.fixed answer selects) o s).Oblivious := by
  fun_induction elementsFrom 0 s with
  | case1 =>
    rw [onePass]
    exact Ask.Oblivious.pure []
  | case2 offset c s t rest hRead ih =>
    rw [onePass_of_read? hRead]
    exact (oblivious_rewrite answer selects o t).bind fun folded =>
      ih.bind fun after => Ask.Oblivious.pure _
  | case3 offset c s hRead ih =>
    rw [onePass_of_read?_eq_none hRead]
    exact ih.bind fun after => Ask.Oblivious.pure _

theorem transform_append_of_cutsClean {a b : Text} (hClean : CutsClean 0 a b) :
    transform (.fixed answer selects) o (a ++ b) = do
      let x ← transform (.fixed answer selects) o a
      let y ← transform (.fixed answer selects) o b
      return x ++ y := by
  rw [transform_eq_map_onePass, transform_eq_map_onePass, transform_eq_map_onePass,
    hClean.onePass_append, StateT.run_bind]
  cases hFirst : (onePass (.fixed answer selects) o a).run [] with
  | error e => rfl
  | ok p =>
    have hSame := oblivious_onePass answer selects o b p.2 []
    change ((onePass (.fixed answer selects) o b >>= fun y => pure (p.1 ++ y)).run p.2).map Prod.fst =
      ((onePass (.fixed answer selects) o b).run []).map Prod.fst >>= fun y => pure (p.1 ++ y)
    rw [← hSame, StateT.run_bind]
    cases (onePass (.fixed answer selects) o b).run p.2 <;> rfl

end Fixed

/-- A document that is cut between elements has the elements of its parts, and an engine with fixed
answers makes of it what it makes of the parts, the failure of the first part before that of the second. -/
theorem elements_append_and_transform_append {a b : Text}
    (hCut : ∀ e ∈ elements (a ++ b), ¬ (e.span.start < a.size ∧ a.size < e.span.stop)) :
    elements (a ++ b) = elements a ++ (elements b).map (·.shift a.size) ∧
      ∀ (answer : Text → Except Text Bool) (selects : Text → Bool) (o : Options),
        transform (.fixed answer selects) o (a ++ b) = do
          let x ← transform (.fixed answer selects) o a
          let y ← transform (.fixed answer selects) o b
          return x ++ y := by
  have hClean : CutsClean 0 a b := by
    intro e he
    rw [Nat.zero_add]
    exact hCut e he
  refine ⟨?_, fun answer selects o => transform_append_of_cutsClean answer selects o hClean⟩
  rw [elements, hClean.elementsFrom_append, Nat.zero_add, elements, elements, ← elementsFrom_add,
    Nat.add_zero]

/-- The open quote makes the reader of the first tag run through the second text, and fall back. -/
theorem elements_append_and_transform_append_fallback :
    (∀ e ∈ elements ("<a href=\x22x>".toList ++ "<b p-1>".toList),
      ¬ (e.span.start < Text.size "<a href=\x22x>".toList ∧
        Text.size "<a href=\x22x>".toList < e.span.stop)) ∧
    (elements ("<a href=\x22x>".toList ++ "<b p-1>".toList) =
      elements "<a href=\x22x>".toList ++
        (elements "<b p-1>".toList).map (·.shift (Text.size "<a href=\x22x>".toList)) ∧
      ∀ (answer : Text → Except Text Bool) (selects : Text → Bool) (o : Options),
        transform (.fixed answer selects) o ("<a href=\x22x>".toList ++ "<b p-1>".toList) = do
          let x ← transform (.fixed answer selects) o "<a href=\x22x>".toList
          let y ← transform (.fixed answer selects) o "<b p-1>".toList
          return x ++ y) := by
  have hCut : ∀ e ∈ elements ("<a href=\x22x>".toList ++ "<b p-1>".toList),
      ¬ (e.span.start < Text.size "<a href=\x22x>".toList ∧
        Text.size "<a href=\x22x>".toList < e.span.stop) := by
    decide +kernel
  exact ⟨hCut, elements_append_and_transform_append hCut⟩

end ClassFold

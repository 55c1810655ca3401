import ClassFold.Proofs.WellFormed.Folding

/-!
# Pages

A page is a list of openings with gaps between them. Transforming the text of a page gives the text of
the page with its openings folded, one after another: `transform_text`.
-/

set_option autoImplicit false

namespace ClassFold

/-- Whether every `<` of a text has a character behind it, and one that begins no name. -/
def isGap : Text → Bool
  | [] => true
  | c :: s => (c != '<' || s.head?.any (!isWordChar ·)) && isGap s

theorem isGap_of_not_mem {s : Text} (h : '<' ∉ s) : isGap s = true := by
  induction s with
  | nil => rfl
  | cons c s ih =>
    rw [List.mem_cons, not_or] at h
    simp [isGap, Ne.symm h.1, ih h.2]

inductive Segment where
  | gap (text : Text)
  | opening (t : Opening)
deriving DecidableEq, Repr

namespace Segment

def text : Segment → Text
  | gap s => s
  | opening t => t.text

def WellFormed : Segment → Prop
  | gap s => isGap s = true
  | opening t => t.WellFormed

end Segment

abbrev Page := List Segment

namespace Page

def text (p : Page) : Text := p.flatMap Segment.text

def WellFormed (p : Page) : Prop := ∀ x ∈ p, x.WellFormed

/-- The openings are folded in order; each adds its questions to those asked before. -/
def folded (engine : Engine) (o : Options) (asked : List Text) : Page → Page
  | [] => []
  | .gap s :: p => .gap s :: folded engine o asked p
  | .opening t :: p =>
    .opening (t.folded engine o asked) :: folded engine o (askedBehind engine o asked t.items) p

def asked (engine : Engine) (o : Options) (before : List Text) : Page → List Text
  | [] => before
  | .gap _ :: p => asked engine o before p
  | .opening t :: p => asked engine o (askedBehind engine o before t.items) p

end Page

theorem Tag.read?_eq_none_of_isGap {c : Char} {s : Text} (h : isGap (c :: s) = true) (rest : Text) :
    Tag.read? (c :: (s ++ rest)) = none := by
  rw [isGap, Bool.and_eq_true, Bool.or_eq_true, bne_iff_ne] at h
  rcases h.1 with hc | hHead
  · unfold Tag.read?
    split
    · rename_i hEq
      exact absurd (List.cons.inj hEq).1 hc
    · rfl
  · obtain ⟨d, hHead, hd⟩ := (Option.any_eq_true _ _).1 hHead
    obtain ⟨r, rfl⟩ := List.head?_eq_some_iff.1 hHead
    rw [Bool.not_eq_true'] at hd
    unfold Tag.read?
    split
    · rename_i hEq
      obtain ⟨-, hEq⟩ := List.cons.inj hEq
      rw [← (List.cons.inj hEq).1, if_neg (by simp [hd])]
    · rfl

variable {engine : Engine} {o : Options}

theorem onePass_append_of_isGap {s : Text} (h : isGap s = true) (rest : Text) :
    onePass engine o (s ++ rest) = (s ++ ·) <$> onePass engine o rest := by
  induction s with
  | nil => simp
  | cons c s ih =>
    have hTail : isGap s = true := by
      rw [isGap, Bool.and_eq_true] at h
      exact h.2
    rw [List.cons_append, onePass_of_read?_eq_none (Tag.read?_eq_none_of_isGap h rest), ih hTail]
    simp

namespace Opening

theorem WellFormed.isGap_of_inner_eq_nil {t : Opening} (h : t.WellFormed) (hInner : t.inner = []) :
    ∃ s, t.text = '<' :: s ∧ isGap s = true := by
  refine ⟨t.name ++ ['>'], by simp [text, hInner], isGap_of_not_mem ?_⟩
  obtain ⟨c, cs, hName, hc, hcs⟩ := h.name
  intro hMem
  rw [hName, List.cons_append, List.mem_cons, List.mem_append] at hMem
  rcases hMem with rfl | hMem | hMem
  · exact absurd hc (by decide)
  · exact absurd (hcs '<' hMem) (by decide)
  · exact absurd hMem (by decide)

theorem items_eq_nil_of_inner {t : Opening} (hInner : t.inner = []) : t.items = [] := by
  cases hItems : t.items with
  | nil => rfl
  | cons i is => simp [inner, hItems, Item.text] at hInner

theorem WellFormed.run_onePass_append {t : Opening} (h : t.WellFormed) (hTotal : engine.Total)
    {asked asked' : List Text} {rest after : Text}
    (hRest : (onePass engine o rest).run (askedBehind engine o asked t.items) = .ok (after, asked')) :
    (onePass engine o (t.text ++ rest)).run asked = .ok ((t.folded engine o asked).text ++ after, asked') := by
  cases hInner : t.inner with
  | nil =>
    obtain ⟨s, hText, hGap⟩ := h.isGap_of_inner_eq_nil hInner
    have hItems := items_eq_nil_of_inner hInner
    have hFolded : t.folded engine o asked = t := by
      rw [folded, hItems]
      rfl
    have hNone := h.read?_append_of_inner_eq_nil hInner rest
    rw [hItems] at hRest
    rw [hText, List.cons_append] at hNone
    rw [hFolded, hText, List.cons_append, onePass_of_read?_eq_none hNone, onePass_append_of_isGap hGap]
    refine Ask.run_bind_eq_ok_iff.2 ⟨s ++ after, asked', ?_, rfl⟩
    rw [StateT.run_map, show (onePass engine o rest).run asked = .ok (after, asked') from hRest]
    rfl
  | cons gap attrs =>
    rw [onePass_of_read? (h.read?_append hInner rest)]
    refine Ask.run_bind_eq_ok_iff.2 ⟨_, _, h.run_rewrite hInner hTotal o asked, ?_⟩
    exact Ask.run_bind_eq_ok_iff.2 ⟨_, _, hRest, rfl⟩

end Opening

namespace Page

theorem run_onePass_text (hTotal : engine.Total) {p : Page} (h : p.WellFormed) (before : List Text) :
    (onePass engine o p.text).run before =
      .ok ((p.folded engine o before).text, p.asked engine o before) := by
  induction p generalizing before with
  | nil =>
    rw [text, List.flatMap_nil, onePass]
    rfl
  | cons x p ih =>
    have hx := h x List.mem_cons_self
    have hRest := ih (fun y hy => h y (List.mem_cons_of_mem _ hy))
    rw [text, List.flatMap_cons]
    cases x with
    | gap s =>
      rw [Segment.text, onePass_append_of_isGap hx, StateT.run_map]
      rw [show (onePass engine o (p.flatMap Segment.text)).run before = _ from hRest before]
      rfl
    | opening t => exact Opening.WellFormed.run_onePass_append hx hTotal (hRest _)

/-- On a page that is well written the transformation folds every opening and changes nothing else. -/
theorem transform_text (engine : Engine) (o : Options) (hTotal : engine.Total) (p : Page) (h : p.WellFormed) :
    transform engine o p.text = .ok (p.folded engine o []).text := by
  rw [transform_eq_map_onePass, run_onePass_text hTotal h]
  rfl

/-- Five kinds of items, a closing tag and a tag that closes itself. -/
def twoOpenings : Page :=
  [.opening ⟨['p'],
      [⟨' ', "mt-2".toList, .absent⟩, ⟨'\n', "text".toList, .quoted false '\x22' "red bold".toList⟩,
        ⟨' ', "class".toList, .quoted true '\x27' ['a']⟩, ⟨'\t', "m/t".toList, .bare ['1']⟩,
        ⟨' ', "on".toList, .expression ['x', '>', '\x22', '\x7d', '\x22']⟩], false⟩,
    .gap "hi</p>".toList, .opening ⟨"img".toList, [⟨' ', "p-1".toList, .absent⟩], true⟩]

theorem transform_text_two_openings :
    (Engine.fixed fun t => .ok (["mt-2", "text-red", "p-1"].map String.toList |>.contains t)).Total ∧
    twoOpenings.WellFormed ∧
    transform (.fixed fun t => .ok (["mt-2", "text-red", "p-1"].map String.toList |>.contains t))
      { deleteFolded := true } twoOpenings.text =
        .ok
          "<p class=\x7b'a mt-2 text-red'\x7d\tm/t=1 on=\x7bx>\x22\x7d\x22\x7d>hi</p><img class=\x22p-1\x22 />".toList := by
  have hTotal : (Engine.fixed fun t =>
      .ok (["mt-2", "text-red", "p-1"].map String.toList |>.contains t)).Total := fun _ _ => ⟨_, rfl⟩
  have hBalanced : Balanced ['x', '>', '\x22', '\x7d', '\x22'] :=
    .char (by decide) (by decide) (by decide) (.char (by decide) (by decide) (by decide)
      (.string (v := ['\x7d']) (by decide) (by decide) .nil))
  have hPage : twoOpenings.WellFormed := by
    simp only [Page.WellFormed, twoOpenings, List.forall_mem_cons]
    refine ⟨⟨⟨'p', [], rfl, by decide, List.forall_mem_nil _⟩, ?_⟩, (by decide : isGap "hi</p>".toList = true),
      ⟨⟨'i', ['m', 'g'], by decide, by decide, ?_⟩, ?_⟩, List.forall_mem_nil _⟩
    · simp only [List.forall_mem_cons]
      refine ⟨⟨by decide, by decide, by decide, trivial⟩,
        ⟨by decide, by decide, by decide, by decide, by decide⟩,
        ⟨by decide, by decide, by decide, by decide, by decide⟩,
        ⟨by decide, by decide, by decide, by decide, by decide, List.forall_mem_singleton.2 (by decide)⟩,
        ⟨by decide, by decide, by decide, hBalanced, ?_⟩, List.forall_mem_nil _⟩
      rintro c ⟨⟩
      decide
    · exact List.all_eq_true.1 (by decide)
    · exact List.forall_mem_singleton.2 ⟨by decide, by decide, by decide, trivial⟩
  refine ⟨hTotal, hPage, ?_⟩
  rw [transform_text _ _ hTotal _ hPage]
  decide +kernel

end Page

end ClassFold

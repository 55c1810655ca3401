import ClassFold.Proofs.Document.OnePass
import ClassFold.Proofs.Rewriting.Layout
import ClassFold.Proofs.Rewriting.NewClass
import ClassFold.Proofs.WellFormed.Folding

/-!
# Folded attributes read back

When folded attributes are deleted, a tag of attributes and blanks is written anew. Its text is read as one
tag with the same name, the attributes that were not folded and the classes exactly if what remains of its
slots is apart: `plan_folded`. Where blanks stand in front of every attribute, it always is.
-/

set_option autoImplicit false

namespace ClassFold

def Quoted.extend (classes : Text) (q : Quoted) : Quoted := { q with value := q.value ++ addition classes q.value }

def Attribute.extend (classes : Text) (a : Attribute) : Attribute :=
  { a with quoted? := a.quoted?.map (·.extend classes) }

def Judged.extend (classes : Text) (j : Judged) : Judged := { j with attr := j.attr.extend classes }

/-- The new attribute for tokens; it has no place in a region yet. -/
def Attribute.ofTokens (tokens : List Text) : Attribute := ⟨0, "class".toList, some (.ofTokens tokens)⟩

/-- What is to be read in a tag behind the folding: the attributes without confirmed tokens, and the tokens in
the last class list or in a new one at the end. -/
def recordsBehind (engine : Engine) (o : Options) (js : List Judged) : List (Text × Option Quoted) :=
  let tokens := js.flatMap (·.confirmed)
  let kept := js.filter (·.confirmed.isEmpty)
  match changeLast? (·.isClassList engine o) (·.extend (Tag.joinTokens tokens)) kept with
  | some changed => changed.map (·.attr.parts)
  | none => kept.map (·.attr.parts) ++ [(Attribute.ofTokens tokens).parts]

section

variable {named : Bool} {o : Options} {carry : Text} {s s' : Slot} {as bs ss : List Slot}

/-- Whether slots are apart depends on their blanks, and on where the bare names stand. -/
theorem apart_append_cons (hSpace : s.space = s'.space) (hBare : s.attr.quoted?.isNone = s'.attr.quoted?.isNone) :
    apart named (as ++ s :: bs) = apart named (as ++ s' :: bs) := by
  induction as generalizing named with
  | nil => rw [List.nil_append, List.nil_append, apart, apart, hSpace, hBare]
  | cons a as ih => rw [List.cons_append, List.cons_append, apart, apart, ih]

theorem apart_concat (h : s.space ≠ []) : apart named (as ++ [s]) = apart named as := by
  induction as generalizing named with
  | nil => simp [apart, h]
  | cons a as ih => rw [List.cons_append, apart, apart, ih]

/-- With blanks in front of every attribute the deletions do no harm. -/
theorem apart_remaining (h : ∀ s ∈ ss, s.space ≠ []) : apart named (remaining o carry ss) = true := by
  induction ss generalizing named carry with
  | nil => rfl
  | cons s ss ih =>
    obtain ⟨hs, hRest⟩ := List.forall_mem_cons.1 h
    rw [remaining]
    split
    · exact ih hRest
    · rw [apart, ih hRest]
      simp [hs]

end

section

variable {q : Quoted} {a : Attribute} {tokens : List Text} {classes : Text}

theorem Quoted.WellFormed.extend (hq : q.WellFormed) (hTokens : ∀ t ∈ tokens, IsToken t) :
    (q.extend (Tag.joinTokens tokens)).WellFormed := by
  have hQuote := isQuote_of_isStraightQuote hq.straight
  have hSpace : q.quote ≠ ' ' := by
    intro hSpace
    have hBlank := isBlank_eq_false_of_isStraightQuote hq.straight
    rw [hSpace] at hBlank
    cases hBlank
  have hAddition := not_mem_addition (not_mem_joinTokens hTokens hQuote) hSpace q.value
  exact ⟨hq.straight, List.not_mem_append hq.free hAddition, hq.braces⟩

theorem Attribute.Closed.extend (h : a.Closed) (classes : Text) : (a.extend classes).Closed := by
  refine ⟨h.inside, ?_⟩
  intro q hq
  obtain ⟨r, hr, rfl⟩ := Option.map_eq_some_iff.1 hq
  exact h.quoted r hr

theorem Attribute.closed_ofTokens (tokens : List Text) : (ofTokens tokens).Closed := by
  constructor
  · simp [ofTokens]
  · rintro q ⟨⟩
    simp [Quoted.Closed, Quoted.ofTokens]

theorem Attribute.not_mem_extend (h : '>' ∉ a.raw) (hClasses : '>' ∉ classes) : '>' ∉ (a.extend classes).raw := by
  obtain ⟨start, name, _ | q⟩ := a
  · exact h
  · have hAddition := not_mem_addition hClasses (by decide) q.value
    simpa [raw, Attribute.extend, Quoted.extend, Quoted.text, hAddition] using h

theorem Attribute.not_mem_ofTokens (h : '>' ∉ Tag.joinTokens tokens) : '>' ∉ (ofTokens tokens).raw := by
  simp [ofTokens, raw, Quoted.text, Quoted.ofTokens, h]

end

/-- The slots behind the folding, and the blanks behind the last of them. -/
structure Folds (engine : Engine) (o : Options) (t : Tag) (js : List Judged) (ss : List Slot) (tail : Text) : Prop where
  ne_nil : ss ≠ []
  space : ∀ s ∈ ss, ∀ c ∈ s.space, isBlank c = true
  blanks : ∀ c ∈ tail, isBlank c = true
  origin : ∀ s ∈ ss, (∃ j ∈ js, s.attr = j.attr ∨ s.attr = j.attr.extend (Tag.joinTokens (js.flatMap (·.confirmed)))) ∨
    s.attr = .ofTokens (js.flatMap (·.confirmed))
  records : ss.map (·.attr.parts) = recordsBehind engine o js
  apart_eq : apart true ss = apart true (remaining o [] (t.slots js))
  script : ∃ σ : Script, σ.before = t.text ∧ σ.after = '<' :: t.name ++ (ss.flatMap Slot.text ++ tail ++ ['>']) ∧
    (t.edits (t.gather engine o js)).Perm (σ.edits 0)

namespace Folds

variable {engine : Engine} {o : Options} {t : Tag} {js : List Judged} {ss : List Slot} {tail : Text}

theorem wellFormed (h : Folds engine o t js ss tail) (hJudges : Judges engine o (attributes t.attrs) js)
    (hSlots : ∀ s ∈ t.slots js, s.WellFormed) (hJudged : (t.slots js).map Slot.toJudged = js) :
    ∀ s ∈ ss, s.WellFormed := by
  have hTokens := isToken_of_judges hJudges
  intro s hs
  have hAttr : IsName s.attr.name ∧ ∀ q, s.attr.quoted? = some q → q.WellFormed := by
    rcases h.origin s hs with ⟨j, hj, hEq⟩ | hEq
    · rw [← hJudged] at hj
      obtain ⟨k, hk, rfl⟩ := List.mem_map.1 hj
      obtain ⟨-, hName, hValue⟩ := hSlots k hk
      rcases hEq with hEq | hEq
      · rw [hEq]
        exact ⟨hName, hValue⟩
      · rw [hEq]
        refine ⟨hName, ?_⟩
        intro q hq
        obtain ⟨r, hr, rfl⟩ := Option.map_eq_some_iff.1 hq
        exact (hValue r hr).extend hTokens
    · rw [hEq]
      refine ⟨isName_class, ?_⟩
      rintro q ⟨⟩
      exact Quoted.wellFormed_ofTokens hTokens
  exact ⟨h.space s hs, hAttr.1, hAttr.2⟩

/-- Nothing that is written can move the end of the tag. -/
theorem closed_or_not_mem (h : Folds engine o t js ss tail) (hJudges : Judges engine o (attributes t.attrs) js)
    (hOld : (∀ j ∈ js, j.attr.Closed) ∨ ∀ j ∈ js, '>' ∉ j.attr.raw) :
    (∀ s ∈ ss, s.attr.Closed) ∨ '>' ∉ ss.flatMap Slot.text ++ tail := by
  rcases hOld with hClosed | hFree
  · left
    intro s hs
    rcases h.origin s hs with ⟨j, hj, hEq | hEq⟩ | hEq
    · exact hEq ▸ hClosed j hj
    · exact hEq ▸ (hClosed j hj).extend _
    · exact hEq ▸ Attribute.closed_ofTokens _
  · right
    have hBlank : isBlank '>' = false := by decide
    have hJoined : '>' ∉ Tag.joinTokens (js.flatMap (·.confirmed)) := by
      intro hMem
      rcases exists_mem_of_mem_joinTokens hMem with hEq | ⟨u, hu, hMem⟩
      · cases hEq
      · obtain ⟨j, hj, hu⟩ := List.mem_flatMap.1 hu
        rcases List.mem_cons.1 (subset_of_mem_candidates ((hJudges.sublist j hj).subset hu) hMem) with hEq | hMem
        · cases hEq
        · exact hFree j hj hMem
    rw [List.mem_append, not_or]
    constructor
    · intro hMem
      obtain ⟨s, hs, hMem⟩ := List.mem_flatMap.1 hMem
      rcases List.mem_append.1 hMem with hMem | hMem
      · rw [h.space s hs _ hMem] at hBlank
        cases hBlank
      · rcases h.origin s hs with ⟨j, hj, hEq | hEq⟩ | hEq
        · exact hFree j hj (hEq ▸ hMem)
        · exact Attribute.not_mem_extend (hFree j hj) hJoined (hEq ▸ hMem)
        · exact Attribute.not_mem_ofTokens hJoined (hEq ▸ hMem)
    · intro hMem
      rw [h.blanks _ hMem] at hBlank
      cases hBlank

end Folds

section

variable {engine : Engine} {o : Options} {t : Tag} {front rest : Text} {js : List Judged} {as bs ss : List Slot}

/-- The slot of the new attribute, behind the blanks that are left over. -/
def Slot.ofTokens (carry : Text) (tokens : List Text) : Slot := ⟨⟨.ofTokens tokens, []⟩, carry ++ [' ']⟩

/-- Without a class list the new attribute is written behind what remains. -/
theorem StandsIn.exists_insertion (h : StandsIn t front ss rest) (hSlots : ∀ s ∈ ss, s.WellFormed)
    (hJudged : ss.map Slot.toJudged = js) (hNone : Judged.lastClassList? engine o js = none)
    (hPoint : t.insertionPoint = front.size + Text.size (ss.flatMap Slot.text)) :
    ∃ σ : Script, σ.before = t.text ∧
      σ.after = front ++ ((remaining o [] ss ++ [Slot.ofTokens (leftover o [] ss) (js.flatMap (·.confirmed))]).flatMap
        Slot.text ++ rest) ∧
      (t.edits (t.gather engine o js)).Perm (σ.edits 0) := by
  have hEdit : t.classEdit (t.gather engine o js) = ⟨⟨t.insertionPoint, t.insertionPoint, Nat.le_refl _⟩,
      ' ' :: (Attribute.ofTokens (js.flatMap (·.confirmed))).raw⟩ := by
    rw [Tag.classEdit, Tag.classList?_gather, hNone, Tag.tokens_gather]
    rfl
  refine ⟨.kept front :: (ss.flatMap (·.script o) ++
    [.replaced [] (' ' :: (Attribute.ofTokens (js.flatMap (·.confirmed))).raw), .kept rest]), ?_, ?_, ?_⟩
  · simp [Chunk.before, before_script, h.text]
  · have hAfter := after_script o [] ss
    rw [List.nil_append] at hAfter
    simp [Chunk.after, hAfter, Slot.text, Slot.ofTokens]
  · apply List.Perm.of_eq
    rw [Tag.edits, h.deletions_gather hSlots hJudged, hEdit, hPoint]
    simp [Script.edits, before_script]

theorem Slot.exists_extension {k : Slot} {q : Quoted} (hq : k.attr.quoted? = some q) :
    ∃ (before behind : Text) (r : Span), k.text = before ++ (q.value ++ behind) ∧
      (∀ carry classes, Slot.text ⟨k.toJudged.extend classes, carry ++ k.space⟩ =
        carry ++ (before ++ (q.value ++ (addition classes q.value ++ behind)))) ∧
      k.attr.valueSpan? = some r ∧ k.attr.start + before.size = r.start + k.space.size ∧
      r.start + q.value.size = r.stop := by
  obtain ⟨⟨⟨start, name, quoted?⟩, confirmed⟩, space⟩ := k
  obtain rfl : quoted? = some q := hq
  refine ⟨space ++ (name ++ (q.lead ++ [q.quote])), q.quote :: q.tail, _, ?_, ?_, rfl, ?_, rfl⟩
  · simp [text, Attribute.raw, Quoted.text]
  · intro carry classes
    simp [text, Attribute.raw, Quoted.text, Judged.extend, Attribute.extend, Quoted.extend]
  · simp only [Text.size_append, Text.size_cons, Text.size_nil]
    omega

/-- A class list grows at the end of its value. -/
theorem StandsIn.exists_growth {k : Slot} {q : Quoted} (h : StandsIn t front (as ++ k :: bs) rest)
    (hSlots : ∀ s ∈ as ++ k :: bs, s.WellFormed) (hJudged : (as ++ k :: bs).map Slot.toJudged = js)
    (hLast : Judged.lastClassList? engine o js = some k.toJudged) (hQuoted : k.attr.quoted? = some q)
    (hFolded : k.isFolded o = false) :
    ∃ σ : Script, σ.before = t.text ∧
      σ.after = front ++ ((remaining o [] as ++ ⟨k.toJudged.extend (Tag.joinTokens (js.flatMap (·.confirmed))),
        leftover o [] as ++ k.space⟩ :: remaining o [] bs).flatMap Slot.text ++ (leftover o [] bs ++ rest)) ∧
      (t.edits (t.gather engine o js)).Perm (σ.edits 0) := by
  obtain ⟨before, behind, r, hText, hExtend, hValue, hFirst, hStop⟩ := Slot.exists_extension hQuoted
  have has : ∀ s ∈ as, s.WellFormed := fun s hs => hSlots s (List.mem_append_left _ hs)
  have hPlace : t.attrsOffset + r.stop =
      front.size + (Text.size (as.flatMap Slot.text) + (before.size + q.value.size)) := by
    have hLocated := (h.right has).located.1
    rw [Text.size_append] at hLocated
    omega
  have hEdit : t.classEdit (t.gather engine o js) = ⟨⟨t.attrsOffset + r.stop, t.attrsOffset + r.stop, Nat.le_refl _⟩,
      addition (Tag.joinTokens (js.flatMap (·.confirmed))) q.value⟩ := by
    have hSpan : (r.shift t.attrsOffset).start + q.value.size = (r.shift t.attrsOffset).stop := by
      simp only [Span.start_shift, Span.stop_shift]
      omega
    have hClass : (t.gather engine o js).classList? = some (r.shift t.attrsOffset) := by
      rw [Tag.classList?_gather, hLast, Option.bind_some, hValue, Option.map_some]
    rw [Tag.classEdit, hClass, Tag.tokens_gather, addition_eq _ hSpan]
    rfl
  refine ⟨.kept front :: (as.flatMap (·.script o) ++ (.kept (before ++ q.value) ::
    .replaced [] (addition (Tag.joinTokens (js.flatMap (·.confirmed))) q.value) ::
    .kept behind :: (bs.flatMap (·.script o) ++ [.kept rest]))), ?_, ?_, ?_⟩
  · simp [Chunk.before, before_script, h.text, hText]
  · have hFront := after_script o [] as
    have hBehind := after_script o [] bs
    rw [List.nil_append] at hFront hBehind
    simp [Chunk.after, hFront, hBehind, hExtend]
  · have hScript : k.script o = [.kept k.text] := by simp [Slot.script, hFolded]
    rw [Tag.edits, h.deletions_gather hSlots hJudged, hEdit, hPlace, List.flatMap_append, List.flatMap_cons, hScript]
    simp only [Script.edits, Script.edits_append, before_script, Script.before_cons,
      Script.before_nil, Chunk.before, Nat.zero_add, Text.size_nil, Nat.add_zero, List.append_nil, List.nil_append,
      hText, Text.size_append, Nat.add_assoc, List.append_assoc]
    -- The tag has the addition behind all deletions, the script has it in its place.
    exact (List.perm_append_singleton _ _).append_left _

theorem filter_isEmpty_eq (hDelete : o.deleteFolded = true) (hJudged : ss.map Slot.toJudged = js) :
    js.filter (·.confirmed.isEmpty) = (remaining o [] ss).map Slot.toJudged := by
  rw [map_toJudged_remaining, hJudged]
  apply List.filter_congr
  intro j _
  simp [Judged.isFolded, hDelete]

theorem mem_of_mem_remaining {carry : Text} (hJudged : ss.map Slot.toJudged = js) {s : Slot}
    (hs : s ∈ remaining o carry ss) : s.toJudged ∈ js := by
  have hMem : s.toJudged ∈ (remaining o carry ss).map Slot.toJudged := List.mem_map_of_mem hs
  rw [map_toJudged_remaining, hJudged] at hMem
  exact List.mem_of_mem_filter hMem

theorem lastClassList?_slots (engine : Engine) (o : Options) (hJudged : ss.map Slot.toJudged = js) :
    Judged.lastClassList? engine o js = ((ss.filter (·.isClassList engine o)).getLast?).map Slot.toJudged := by
  rw [Judged.lastClassList?, ← hJudged, List.filter_map, List.getLast?_map]
  rfl

/-- The tag is written with its slots that remain and with a new attribute. -/
theorem folds_of_insertion {tail : Text} (hSlots : ∀ s ∈ t.slots js, s.WellFormed)
    (hJudged : (t.slots js).map Slot.toJudged = js) (hTail : ∀ c ∈ tail, isBlank c = true)
    (hStands : StandsIn t ('<' :: t.name) (t.slots js) (tail ++ ['>'])) (hDelete : o.deleteFolded = true)
    (hNone : ∀ j ∈ js, j.isClassList engine o = false)
    (hPoint : t.insertionPoint = Text.size ('<' :: t.name) + Text.size ((t.slots js).flatMap Slot.text)) :
    Folds engine o t js
      (remaining o [] (t.slots js) ++ [Slot.ofTokens (leftover o [] (t.slots js)) (js.flatMap (·.confirmed))]) tail := by
  have hRemaining : ∀ s ∈ remaining o [] (t.slots js), s.WellFormed :=
    wellFormed_remaining (List.forall_mem_nil _) hSlots
  have hLast : Judged.lastClassList? engine o js = none := by
    rw [Judged.lastClassList?, List.filter_eq_nil_iff.2 (by simpa using hNone), List.getLast?_nil]
  constructor
  · simp
  · rw [List.forall_mem_append, List.forall_mem_singleton]
    refine ⟨fun s hs => (hRemaining s hs).space, ?_⟩
    exact List.forall_mem_append.2
      ⟨blanks_leftover (List.forall_mem_nil _) hSlots, List.forall_mem_singleton.2 (by decide)⟩
  · exact hTail
  · rw [List.forall_mem_append, List.forall_mem_singleton]
    exact ⟨fun s hs => Or.inl ⟨s.toJudged, mem_of_mem_remaining hJudged hs, Or.inl rfl⟩, Or.inr rfl⟩
  · have hOld : ∀ j ∈ (remaining o [] (t.slots js)).map Slot.toJudged, j.isClassList engine o = false := by
      intro j hj
      obtain ⟨s, hs, rfl⟩ := List.mem_map.1 hj
      exact hNone _ (mem_of_mem_remaining hJudged hs)
    simp only [recordsBehind, filter_isEmpty_eq hDelete hJudged, changeLast?_eq_none hOld]
    simp [Slot.ofTokens]
  · exact apart_concat (by simp [Slot.ofTokens])
  · obtain ⟨σ, hBefore, hAfter, hPerm⟩ := hStands.exists_insertion hSlots hJudged hLast hPoint
    exact ⟨σ, hBefore, by rw [hAfter, List.append_assoc _ tail], hPerm⟩

/-- The tag is written with its slots that remain, one of them with a longer class list. -/
theorem folds_of_growth {k : Slot} {tail : Text} (hSlots : ∀ s ∈ t.slots js, s.WellFormed)
    (hJudged : (t.slots js).map Slot.toJudged = js) (hTail : ∀ c ∈ tail, isBlank c = true)
    (hStands : StandsIn t ('<' :: t.name) (t.slots js) (tail ++ ['>'])) (hDelete : o.deleteFolded = true)
    (hJudges : Judges engine o (attributes t.attrs) js) (hSplit : t.slots js = as ++ k :: bs)
    (hLast : Judged.lastClassList? engine o js = some k.toJudged) (hClass : k.isClassList engine o = true)
    (hNone : ∀ s ∈ bs, s.isClassList engine o = false) :
    Folds engine o t js
      (remaining o [] as ++ ⟨k.toJudged.extend (Tag.joinTokens (js.flatMap (·.confirmed))),
        leftover o [] as ++ k.space⟩ :: remaining o [] bs) (leftover o [] bs ++ tail) := by
  have hMem : k ∈ t.slots js := hSplit ▸ List.mem_append_right _ List.mem_cons_self
  have hFolded : k.isFolded o = false :=
    Tag.isFolded_eq_false_of_isClassList hJudges (hJudged ▸ List.mem_map_of_mem hMem) hClass
  have hbs : ∀ s ∈ bs, s.WellFormed :=
    fun s hs => hSlots s (hSplit ▸ List.mem_append_right _ (List.mem_cons_of_mem _ hs))
  have hRemaining : remaining o [] (t.slots js) =
      remaining o [] as ++ ⟨k.toJudged, leftover o [] as ++ k.space⟩ :: remaining o [] bs := by
    rw [hSplit, remaining_append, remaining, if_neg (by simp [hFolded])]
  -- But for the class list, the slots are those that remain.
  have hOld : ∀ s ∈ remaining o [] (t.slots js), s.WellFormed ∧ s.toJudged ∈ js := fun s hs =>
    ⟨wellFormed_remaining (List.forall_mem_nil _) hSlots s hs, mem_of_mem_remaining hJudged hs⟩
  rw [hRemaining, List.forall_mem_append, List.forall_mem_cons] at hOld
  obtain ⟨hFront, hList, hBehind⟩ := hOld
  constructor
  · simp
  · rw [List.forall_mem_append, List.forall_mem_cons]
    exact ⟨fun s hs => (hFront s hs).1.space, hList.1.space, fun s hs => (hBehind s hs).1.space⟩
  · exact List.forall_mem_append.2 ⟨blanks_leftover (List.forall_mem_nil _) hbs, hTail⟩
  · rw [List.forall_mem_append, List.forall_mem_cons]
    exact ⟨fun s hs => Or.inl ⟨s.toJudged, (hFront s hs).2, Or.inl rfl⟩, Or.inl ⟨k.toJudged, hList.2, Or.inr rfl⟩,
      fun s hs => Or.inl ⟨s.toJudged, (hBehind s hs).2, Or.inl rfl⟩⟩
  · have hNoList : ∀ j ∈ (remaining o [] bs).map Slot.toJudged, j.isClassList engine o = false := by
      intro j hj
      rw [map_toJudged_remaining] at hj
      obtain ⟨s, hs, rfl⟩ := List.mem_map.1 (List.mem_of_mem_filter hj)
      exact hNone s hs
    have hChange : changeLast? (·.isClassList engine o) (·.extend (Tag.joinTokens (js.flatMap (·.confirmed))))
        ((remaining o [] as).map Slot.toJudged ++ k.toJudged :: (remaining o [] bs).map Slot.toJudged) = _ :=
      changeLast?_append_cons hClass hNoList
    simp only [recordsBehind, filter_isEmpty_eq hDelete hJudged, hRemaining, List.map_append, List.map_cons, hChange]
    simp [Function.comp_def]
  · rw [hRemaining]
    exact apart_append_cons rfl (by simp [Judged.extend, Attribute.extend])
  · obtain ⟨q, hQuoted⟩ := exists_quoted_of_existingClass (of_decide_eq_true hClass)
    rw [hSplit] at hStands hSlots hJudged
    obtain ⟨σ, hBefore, hAfter, hPerm⟩ := hStands.exists_growth hSlots hJudged hLast hQuoted hFolded
    refine ⟨σ, hBefore, ?_, hPerm⟩
    rw [hAfter]
    simp

theorem exists_folds (hHead : t.HeadSound) (hPlain : ∀ p ∈ pieces t.attrs, p.isPlain = true)
    (hDelete : o.deleteFolded = true) (hJudges : Judges engine o (attributes t.attrs) js)
    (hSome : js ≠ []) : ∃ ss tail, Folds engine o t js ss tail := by
  have hLaid := t.laidOut hPlain hHead.gap hJudges.attrs
  have hJudged := hLaid.judged
  have hStands : StandsIn t ('<' :: t.name) (t.slots js) (lastSpace [t.gap] (pieces t.attrs) ++ ['>']) := by
    apply hLaid.standsIn
    · simp [Tag.text, Tag.head]
    · intro c hc
      rcases List.mem_cons.1 (List.mem_of_getLast? hc) with rfl | hc
      · decide
      · exact hHead.isBlank_of_mem_name c hc
  cases hLast : ((t.slots js).filter (·.isClassList engine o)).getLast? with
  | none =>
    have hNone : ∀ j ∈ js, j.isClassList engine o = false := by
      rw [← hJudged]
      intro j hj
      obtain ⟨s, hs, rfl⟩ := List.mem_map.1 hj
      simpa using List.filter_eq_nil_iff.1 (List.getLast?_eq_none_iff.1 hLast) s hs
    have hNe : t.slots js ≠ [] := by
      intro hNil
      rw [hNil] at hJudged
      exact hSome hJudged.symm
    exact ⟨_, _, folds_of_insertion hLaid.wellFormed hJudged hLaid.blanks hStands hDelete hNone
      (hLaid.insertionPoint hHead.gap hNe)⟩
  | some k =>
    obtain ⟨as, bs, hSplit, hClass, hNone⟩ := exists_of_getLast?_filter hLast
    have hLastClass : Judged.lastClassList? engine o js = some k.toJudged := by
      rw [lastClassList?_slots engine o hJudged, hLast, Option.map_some]
    exact ⟨_, _, folds_of_growth hLaid.wellFormed hJudged hLaid.blanks hStands hDelete hJudges hSplit hLastClass hClass
      fun s hs => Bool.eq_false_iff.2 (hNone s hs)⟩

end

/-- In a tag that can be read, nothing in an attribute hides the end or brings it forward. -/
theorem closed_or_not_mem_of_mem_elements {source : Text} {e : Element} (he : e ∈ elements source)
    (hPlain : ∀ p ∈ pieces e.attrs, p.isPlain = true) {js : List Judged} (hAttrs : js.map (·.attr) = attributes e.attrs) :
    (∀ j ∈ js, j.attr.Closed) ∨ ∀ j ∈ js, '>' ∉ j.attr.raw := by
  have hGap := (headSound_of_mem_elements he).gap
  have hLaid := e.toTag.laidOut hPlain hGap hAttrs
  have hMem {j : Judged} (hj : j ∈ js) : ∃ s ∈ e.toTag.slots js, s.toJudged = j := by
    rw [← hLaid.judged] at hj
    exact List.mem_map.1 hj
  rcases (region?_slots_iff hLaid.wellFormed hLaid.blanks hGap hLaid.text).1 (region?_of_mem_elements he) with
    hClosed | hFree
  · left
    intro j hj
    obtain ⟨s, hs, rfl⟩ := hMem hj
    exact hClosed s hs
  · right
    intro j hj hRaw
    obtain ⟨s, hs, rfl⟩ := hMem hj
    exact hFree (List.mem_append_left _ (List.mem_flatMap.2 ⟨s, hs, List.mem_append_right _ hRaw⟩))

theorem Folds.entry?_eq {engine : Engine} {o : Options} {e : Element} {js : List Judged} {ss : List Slot} {tail : Text}
    (h : Folds engine o e.toTag js ss tail) (hJudges : Judges engine o (attributes e.attrs) js)
    (hSome : js.flatMap (·.confirmed) ≠ []) :
    e.entry? (e.toTag.gather engine o js) =
      .ok (some ⟨e.span, '<' :: e.name ++ (ss.flatMap Slot.text ++ tail ++ ['>'])⟩) := by
  obtain ⟨σ, hBefore, hAfter, hPerm⟩ := h.script
  rw [Element.entry?, Tag.tokens_gather, if_neg (by simpa using hSome), Tag.edited_gather hJudges,
    Tag.applyFrom_orderedEdits hJudges hBefore hPerm, hAfter]
  rfl

/-- With deletions, a tag with confirmed tokens that is read as attributes and blanks is written anew in one
text, whatever the engine and the options are. What is expected to be read there is read if and only if the
slots that remain are apart, and blanks in front of every attribute are enough for that. -/
theorem plan_folded {source : Text} {e : Element} (he : e ∈ elements source)
    (hPlain : ∀ p ∈ pieces e.attrs, p.isPlain = true) {engine : Engine} {o : Options} (hDelete : o.deleteFolded = true)
    {asked asked' : List Text} {js : List Judged} (hRun : (e.toTag.judge engine o).run asked = .ok (js, asked'))
    (hSome : ∃ j ∈ js, j.confirmed ≠ []) :
    ∃ text, (e.plan engine o).run asked = .ok (some ⟨e.span, text⟩, asked') ∧
      ((∃ t : Tag, elements text = [⟨t, 0⟩] ∧ t.text = text ∧ t.name = e.name ∧
        records t.attrs = recordsBehind engine o js) ↔ apart true (remaining o [] (e.toTag.slots js)) = true) ∧
      ((∀ s ∈ e.toTag.slots js, s.space ≠ []) → apart true (remaining o [] (e.toTag.slots js)) = true) := by
  have hHead := headSound_of_mem_elements he
  have hJudges : Judges engine o (attributes e.attrs) js := judges_of_run hRun
  have hLaid := e.toTag.laidOut hPlain hHead.gap hJudges.attrs
  obtain ⟨j, hj, hConfirmed⟩ := hSome
  have hTokens : js.flatMap (·.confirmed) ≠ [] :=
    fun hNil => hConfirmed (List.flatMap_eq_nil_iff.1 hNil j hj)
  obtain ⟨ss, tail, hFolds⟩ := exists_folds hHead hPlain hDelete hJudges (List.ne_nil_of_mem hj)
  refine ⟨'<' :: e.name ++ (ss.flatMap Slot.text ++ tail ++ ['>']), ?_, ?_, apart_remaining⟩
  · have hResolve : (e.toTag.resolve engine o).run asked = .ok (e.toTag.gather engine o js, asked') := by
      rw [Tag.resolve_eq_gather, StateT.run_map, hRun]
      rfl
    refine Ask.run_bind_eq_ok_iff.2 ⟨_, _, hResolve, ?_⟩
    rw [hFolds.entry?_eq hJudges hTokens]
    rfl
  · have hClosed := hFolds.closed_or_not_mem hJudges (closed_or_not_mem_of_mem_elements he hPlain hJudges.attrs)
    rw [← hFolds.records, ← hFolds.apart_eq]
    exact exists_tag_iff hHead hFolds.ne_nil (hFolds.wellFormed hJudges hLaid.wellFormed hLaid.judged) hFolds.blanks
      hClosed rfl

/-- An engine that confirms the tokens with this ending. -/
def endingEngine (ending : Text) : Engine := .fixed fun t => .ok (ending.isSuffixOf t)

/-- Two class lists, blanks in plenty, and an attribute without one in front of it. -/
def twoLists : Element := ⟨⟨['p'], ' ', "class=\x22u\x22 b  c='x y' class=\x22v\x22d=\x221\x22 ".toList⟩, 0⟩

def twoListsJudged : List Judged :=
  (attributes twoLists.attrs).map fun a => ⟨a, (candidates (endingEngine ['x']) {} a).filter (['x'].isSuffixOf ·)⟩

/-- The attribute with confirmed tokens stands before the list that they go to. -/
theorem plan_folded_two_lists :
    twoLists ∈ elements twoLists.text ∧ (∀ p ∈ pieces twoLists.attrs, p.isPlain = true) ∧
      (twoLists.toTag.judge (endingEngine ['x']) { deleteFolded := true }).run [] =
        .ok (twoListsJudged, ["d-1".toList, "c-y".toList, "c-x".toList, "b".toList]) ∧
      (∃ j ∈ twoListsJudged, j.confirmed ≠ []) ∧
      ∃ text, (twoLists.plan (endingEngine ['x']) { deleteFolded := true }).run [] =
          .ok (some ⟨twoLists.span, text⟩, ["d-1".toList, "c-y".toList, "c-x".toList, "b".toList]) ∧
        ((∃ t : Tag, elements text = [⟨t, 0⟩] ∧ t.text = text ∧ t.name = twoLists.name ∧
            records t.attrs = recordsBehind (endingEngine ['x']) { deleteFolded := true } twoListsJudged) ↔
          apart true (remaining { deleteFolded := true } [] (twoLists.toTag.slots twoListsJudged)) = true) ∧
        ((∀ s ∈ twoLists.toTag.slots twoListsJudged, s.space ≠ []) →
          apart true (remaining { deleteFolded := true } [] (twoLists.toTag.slots twoListsJudged)) = true) := by
  have hMem : twoLists ∈ elements twoLists.text := by decide +kernel
  have hPlain : ∀ p ∈ pieces twoLists.attrs, p.isPlain = true := by decide +kernel
  have hRun : (twoLists.toTag.judge (endingEngine ['x']) { deleteFolded := true }).run [] =
      .ok (twoListsJudged, ["d-1".toList, "c-y".toList, "c-x".toList, "b".toList]) := by decide +kernel
  have hSome : ∃ j ∈ twoListsJudged, j.confirmed ≠ [] := by decide +kernel
  exact ⟨hMem, hPlain, hRun, hSome, plan_folded hMem hPlain rfl hRun hSome⟩

example : apart true (remaining { deleteFolded := true } [] (twoLists.toTag.slots twoListsJudged)) = true := by
  decide +kernel

/-- An attribute that stands close behind the value of a folded one. -/
def closeBehind : Element := ⟨⟨['p'], ' ', "a b=\x221\x22c".toList⟩, 0⟩

/-- The blank that is deleted was all that stood between two names. -/
theorem plan_folded_close_behind :
    closeBehind ∈ elements "<p a b=\x221\x22c>".toList ∧ (∀ p ∈ pieces closeBehind.attrs, p.isPlain = true) ∧
      (closeBehind.toTag.judge (endingEngine ['1']) { deleteFolded := true }).run [] =
        .ok ((attributes closeBehind.attrs).map fun a => ⟨a, if a.name = ['b'] then ["b-1".toList] else []⟩,
          ["c".toList, "b-1".toList, "a".toList]) ∧
      recordsBehind (endingEngine ['1']) { deleteFolded := true }
          ((attributes closeBehind.attrs).map fun a => ⟨a, if a.name = ['b'] then ["b-1".toList] else []⟩) =
        [(['a'], none), (['c'], none), ("class".toList, some (.ofTokens ["b-1".toList]))] ∧
      (closeBehind.plan (endingEngine ['1']) { deleteFolded := true }).run [] =
        .ok (some ⟨closeBehind.span, "<p ac class=\x22b-1\x22>".toList⟩, ["c".toList, "b-1".toList, "a".toList]) ∧
      records "ac class=\x22b-1\x22".toList =
        [("ac".toList, none), ("class".toList, some (.ofTokens ["b-1".toList]))] := by
  -- The plan without its sorting of edits, which does not compute here.
  rw [plan_eq]
  decide +kernel

end ClassFold

import ClassFold.Proofs.Document.OnePass
import ClassFold.Proofs.WellFormed.Judgement
import ClassFold.Proofs.WellFormed.Opening

/-!
# Folded openings

Folding an opening is a matter of its items: those whose classes were added are dropped if the options
say so, and the last class list is made longer, or a new one is put last. Rewriting the text of the
opening gives the text of the folded opening.
-/

set_option autoImplicit false

namespace ClassFold

/-- What is put behind the value of a class list. -/
def addition (classes value : Text) : Text := if value.isEmpty then classes else ' ' :: classes

theorem addition_eq (classes : Text) {v : Text} {r : Span} (h : r.start + v.size = r.stop) :
    addition classes v = if r.isEmpty then classes else ' ' :: classes := by
  unfold addition Span.isEmpty
  cases v with
  | nil =>
    rw [Text.size_nil, Nat.add_zero] at h
    simp [h]
  | cons c v =>
    have hPos := c.utf8Size_pos
    have hNe : (r.start == r.stop) = false := by
      rw [beq_eq_false_iff_ne, ← h, Text.size_cons]
      omega
    rw [hNe]
    rfl

theorem not_mem_addition {classes : Text} {c : Char} (hClasses : c ∉ classes) (hSpace : c ≠ ' ') (v : Text) :
    c ∉ addition classes v := by
  unfold addition
  split <;> simp [hClasses, hSpace]

namespace Item

def extend (classes : Text) (i : Item) : Item :=
  match i.value with
  | .quoted braced q v => ⟨i.blank, i.name, .quoted braced q (v ++ addition classes v)⟩
  | _ => i

def ofClasses (classes : Text) : Item := ⟨' ', "class".toList, .quoted false '\x22' classes⟩

theorem exists_extension {i : Item} (hBlank : isBlank i.blank = true) {offset : Nat} {a : Attribute}
    (hAttr : i.attribute? offset = some a) {r : Span} (hValue : a.valueSpan? = some r) :
    ∃ front v tail : Text, i.text = front ++ (v ++ tail) ∧
      (∀ classes, (i.extend classes).text = front ++ (v ++ (addition classes v ++ tail))) ∧
      front.size + offset = r.start + 1 ∧ r.start + v.size = r.stop := by
  have hSize := utf8Size_of_isBlank hBlank
  obtain ⟨blank, name, value⟩ := i
  rcases value with _ | ⟨_ | _, q, v⟩ | w | e <;> cases hAttr <;> cases hValue
  · refine ⟨blank :: (name ++ ['=', q]), v, [q], ?_, ?_, ?_, rfl⟩
    · simp [text, body, ItemValue.text]
    · intro classes
      simp [extend, text, body, ItemValue.text]
    · simp only [Text.size_cons, Text.size_append, Text.size_nil, hSize]
      omega
  · refine ⟨blank :: (name ++ ['=', '{', q]), v, [q, '}'], ?_, ?_, ?_, rfl⟩
    · simp [text, body, ItemValue.text]
    · intro classes
      simp [extend, text, body, ItemValue.text]
    · simp only [Text.size_cons, Text.size_append, Text.size_nil, hSize]
      omega

end Item

/-- The list with a change to the last member of a kind, if there is one. -/
def changeLast? {α : Type} (p : α → Bool) (f : α → α) : List α → Option (List α)
  | [] => none
  | a :: as =>
    match changeLast? p f as with
    | some as' => some (a :: as')
    | none => if p a then some (f a :: as) else none

section

variable {α : Type} {p : α → Bool} {f : α → α} {a : α} {as bs : List α}

theorem changeLast?_eq_none (h : ∀ a ∈ as, p a = false) : changeLast? p f as = none := by
  induction as with
  | nil => rfl
  | cons a as ih =>
    obtain ⟨ha, hRest⟩ := List.forall_mem_cons.1 h
    simp [changeLast?, ih hRest, ha]

theorem changeLast?_append_cons (ha : p a = true) (h : ∀ b ∈ bs, p b = false) :
    changeLast? p f (as ++ a :: bs) = some (as ++ f a :: bs) := by
  induction as with
  | nil => simp [changeLast?, changeLast?_eq_none h, ha]
  | cons c as ih => simp [changeLast?, ih]

end

/-- The items with the classes in the last class list, or in a new one behind them. -/
def addClasses (engine : Engine) (o : Options) (classes : Text) (items : List Item) : List Item :=
  (changeLast? (·.isClassList engine o) (·.extend classes) items).getD (items ++ [Item.ofClasses classes])

namespace JudgedItem

def kept (o : Options) (js : List JudgedItem) : List Item := (js.filter (!·.isFolded o)).map (·.item)

def chunk (o : Options) (j : JudgedItem) : Chunk :=
  if j.isFolded o then .replaced j.item.text [] else .kept j.item.text

def script (o : Options) (js : List JudgedItem) : Script := js.map (·.chunk o)

variable {o : Options}

theorem before_script (o : Options) (js : List JudgedItem) :
    (script o js).before = js.flatMap (·.item.text) := by
  induction js with
  | nil => rfl
  | cons j js ih =>
    have hChunk : (j.chunk o).before = j.item.text := by
      unfold chunk
      split <;> rfl
    rw [script, List.map_cons, Script.before_cons, hChunk, List.flatMap_cons, ← ih, script]

theorem after_script (o : Options) (js : List JudgedItem) :
    (script o js).after = (kept o js).flatMap Item.text := by
  induction js with
  | nil => rfl
  | cons j js ih =>
    rw [script, List.map_cons, Script.after_cons, chunk, kept, List.filter_cons]
    cases j.isFolded o <;> simpa [script, kept, Chunk.after] using ih

/-- The items stand in the text of a tag behind `front`, and the region has the body of the first of
them at `offset`. -/
structure StandsIn (t : Tag) (front : Text) (offset : Nat) (js : List JudgedItem) (rest : Text) : Prop where
  text : t.text = front ++ (js.flatMap (·.item.text) ++ rest)
  size_front : front.size + 1 = t.attrsOffset + offset

variable {engine : Engine} {t : Tag} {front rest : Text} {offset : Nat} {j : JudgedItem}
  {js ks : List JudgedItem}

theorem StandsIn.right (h : StandsIn t front offset (js ++ ks) rest) :
    StandsIn t (front ++ js.flatMap (·.item.text)) (offset + Text.size (js.flatMap (·.item.text))) ks rest := by
  have hSize := h.size_front
  refine ⟨by simp [h.text], ?_⟩
  rw [Text.size_append]
  omega

theorem StandsIn.deletion (h : StandsIn t front offset (j :: js) rest) (hItem : j.item.WellFormed)
    {a : Attribute} (hAttr : j.item.attribute? offset = some a) :
    t.deletion a.span = ⟨front.size, front.size + j.item.text.size, Nat.le_add_right _ _⟩ := by
  obtain ⟨hStart, hRaw⟩ := Item.start_raw_of_attribute? hAttr
  have hOffset := h.size_front
  have hText : t.text = (front ++ [j.item.blank]) ++ (j.item.body ++ (js.flatMap (·.item.text) ++ rest)) := by
    rw [h.text]
    simp [Item.text]
  have hSize : t.attrsOffset + a.span.start = (front ++ [j.item.blank]).size := by
    rw [Text.size_append, Text.size_cons, Text.size_nil, utf8Size_of_isBlank hItem.blank]
    simp only [Attribute.span, hStart]
    omega
  have hBlank := Tag.blankBefore_eq hText
  rw [← hSize, List.getLast?_append] at hBlank
  have hStop := Tag.stop_deletion (t := t) a.span
  have hFirst := Tag.start_deletion (t := t) a.span
  rw [hBlank, if_pos (by simp [hItem.blank])] at hFirst
  -- A span is known by its ends.
  have hEq {r : Span} (hr : r.start = front.size) (hr' : r.stop = front.size + j.item.text.size) :
      r = ⟨front.size, front.size + j.item.text.size, Nat.le_add_right _ _⟩ := by
    obtain ⟨start, stop, hle⟩ := r
    subst hr
    subst hr'
    rfl
  apply hEq
  · rw [hFirst]
    simp only [Attribute.span, hStart]
    omega
  · rw [hStop, hItem.size_text]
    simp only [Attribute.span, hStart, hRaw]
    omega

theorem StandsIn.edits_script (h : StandsIn t front offset js rest) (hSound : ∀ j ∈ js, j.Sound engine o) :
    (script o js).edits front.size =
      ((located offset js).filter (·.isFolded o)).map fun k => ⟨t.deletion k.attr.span, []⟩ := by
  induction js generalizing front offset with
  | nil => rfl
  | cons j js ih =>
    have hj := hSound j List.mem_cons_self
    have hNext : StandsIn t front offset ([j] ++ js) rest := h
    have hRest := ih hNext.right fun k hk => hSound k (List.mem_cons_of_mem _ hk)
    simp only [List.flatMap_singleton, Text.size_append] at hRest
    rw [located, List.filter_append, List.map_append, ← hRest, script, List.map_cons, chunk]
    cases hAt : j.located? offset with
    | none =>
      have hFolded : j.isFolded o = false := by
        simp [isFolded, confirmed_eq_nil_of_located?_eq_none hj hAt]
      rw [hFolded]
      rfl
    | some k =>
      obtain ⟨a, hAttr, rfl⟩ := Option.map_eq_some_iff.1 hAt
      have hSame : (Judged.mk a j.confirmed).isFolded o = j.isFolded o := rfl
      rw [Option.toList_some]
      by_cases hFolded : j.isFolded o = true
      · rw [if_pos hFolded, List.filter_cons_of_pos (hSame.trans hFolded), List.filter_nil, List.map_cons,
          List.map_nil, h.deletion hj.item hAttr]
        rfl
      · rw [if_neg hFolded, List.filter_cons_of_neg (hSame ▸ hFolded)]
        rfl

theorem script_append_cons {k : JudgedItem} (hFolded : k.isFolded o = false) (js ks : List JudgedItem) :
    script o (js ++ k :: ks) = script o js ++ .kept k.item.text :: script o ks := by
  simp [script, chunk, hFolded]

theorem kept_append_cons {k : JudgedItem} (hFolded : k.isFolded o = false) (js ks : List JudgedItem) :
    kept o (js ++ k :: ks) = kept o js ++ k.item :: kept o ks := by
  simp [kept, hFolded]

theorem isClassList_of_mem_kept (hNone : ∀ j ∈ js, j.item.isClassList engine o = false) {i : Item}
    (h : i ∈ kept o js) : i.isClassList engine o = false := by
  obtain ⟨j, hj, rfl⟩ := List.mem_map.1 h
  exact hNone j (List.mem_of_mem_filter hj)

theorem classList?_gather_located {k : JudgedItem} {a : Attribute} {r : Span}
    (hAttr : k.item.attribute? (offset + Text.size (js.flatMap (·.item.text))) = some a)
    (hValue : a.valueSpan? = some r) (hClass : k.item.isClassList engine o = true)
    (hNone : ∀ j ∈ ks, j.item.isClassList engine o = false) :
    (t.gather engine o (located offset (js ++ k :: ks))).classList? = some (r.shift t.attrsOffset) := by
  have hAt : k.located? (offset + Text.size (js.flatMap (·.item.text))) = some ⟨a, k.confirmed⟩ := by
    rw [located?, hAttr]
    rfl
  have hMark := (isClassList_of_located? hAt).trans hClass
  rw [Tag.classList?_gather, Judged.lastClassList?, located_append, located, hAt, Option.toList_some,
    List.singleton_append, List.filter_append, List.filter_cons_of_pos hMark, filter_isClassList_located hNone,
    List.getLast?_concat]
  simp [hValue]

namespace StandsIn

theorem deletions_gather (h : StandsIn t front offset js rest) (hSound : ∀ j ∈ js, j.Sound engine o) :
    (t.gather engine o (located offset js)).deletions.map (Edit.mk · []) = (script o js).edits front.size := by
  rw [h.edits_script hSound, Tag.deletions_gather, List.map_map]
  rfl

/-- Without a class list the classes make a new attribute behind the last item. -/
theorem exists_insertion (h : StandsIn t front offset js rest) (hSound : ∀ j ∈ js, j.Sound engine o)
    (hNone : ∀ j ∈ js, j.item.isClassList engine o = false)
    (hPoint : t.insertionPoint = front.size + Text.size (js.flatMap (·.item.text))) :
    ∃ σ : Script, σ.before = t.text ∧
      σ.after = front ++ ((addClasses engine o (Tag.joinTokens (js.flatMap (·.confirmed))) (kept o js)).flatMap
        Item.text ++ rest) ∧
      (t.edits (t.gather engine o (located offset js))).Perm (σ.edits 0) := by
  have hClassList : (t.gather engine o (located offset js)).classList? = none := by
    rw [Tag.classList?_gather, Judged.lastClassList?, filter_isClassList_located hNone]
    rfl
  have hEdit : t.classEdit (t.gather engine o (located offset js)) =
      ⟨⟨t.insertionPoint, t.insertionPoint, Nat.le_refl _⟩,
        (Item.ofClasses (Tag.joinTokens (js.flatMap (·.confirmed)))).text⟩ := by
    rw [Tag.classEdit, hClassList, Tag.tokens_gather, flatMap_confirmed_located hSound]
    rfl
  refine ⟨.kept front :: (script o js ++
    [.replaced [] (Item.ofClasses (Tag.joinTokens (js.flatMap (·.confirmed)))).text, .kept rest]), ?_, ?_, ?_⟩
  · simp [Chunk.before, before_script, h.text]
  · rw [addClasses, changeLast?_eq_none fun i hi => isClassList_of_mem_kept hNone hi]
    simp [Chunk.after, after_script]
  · apply List.Perm.of_eq
    rw [Tag.edits, h.deletions_gather hSound, hEdit, hPoint]
    simp [Script.edits, before_script]

/-- The last class list grows where it stands, and the items around it stay or go. -/
theorem exists_growth {k : JudgedItem} (h : StandsIn t front offset (js ++ k :: ks) rest)
    (hSound : ∀ j ∈ js ++ k :: ks, j.Sound engine o) (hClass : k.item.isClassList engine o = true)
    (hNone : ∀ j ∈ ks, j.item.isClassList engine o = false) :
    ∃ σ : Script, σ.before = t.text ∧
      σ.after = front ++ ((addClasses engine o (Tag.joinTokens ((js ++ k :: ks).flatMap (·.confirmed)))
        (kept o (js ++ k :: ks))).flatMap Item.text ++ rest) ∧
      (t.edits (t.gather engine o (located offset (js ++ k :: ks)))).Perm (σ.edits 0) := by
  have hk := hSound k (List.mem_append_right _ List.mem_cons_self)
  have hSize := h.size_front
  obtain ⟨⟨a, r, hAttr, hValue⟩, hCandidates⟩ :=
    Item.exists_valueSpan_of_isClassList hClass (offset + Text.size (js.flatMap (·.item.text)))
  -- The engine is not asked about a class list, so it stays.
  have hFolded : k.isFolded o = false := by
    have hConfirmed := hk.confirmed
    rw [hCandidates] at hConfirmed
    simp [isFolded, List.sublist_nil.1 hConfirmed]
  obtain ⟨before, v, behind, hText, hExtend, hFirst, hStop⟩ :=
    Item.exists_extension hk.item.blank hAttr hValue
  have hEdit : t.classEdit (t.gather engine o (located offset (js ++ k :: ks))) =
      ⟨⟨t.attrsOffset + r.stop, t.attrsOffset + r.stop, Nat.le_refl _⟩,
        addition (Tag.joinTokens ((js ++ k :: ks).flatMap (·.confirmed))) v⟩ := by
    have hSpan : (r.shift t.attrsOffset).start + v.size = (r.shift t.attrsOffset).stop := by
      simp only [Span.start_shift, Span.stop_shift]
      omega
    rw [Tag.classEdit, classList?_gather_located hAttr hValue hClass hNone, Tag.tokens_gather,
      flatMap_confirmed_located hSound, addition_eq _ hSpan]
    rfl
  have hPlace : t.attrsOffset + r.stop =
      front.size + (Text.size (js.flatMap (·.item.text)) + (before.size + v.size)) := by omega
  refine ⟨.kept front :: (script o js ++ (.kept (before ++ v) ::
    .replaced [] (addition (Tag.joinTokens ((js ++ k :: ks).flatMap (·.confirmed))) v) ::
    .kept behind :: (script o ks ++ [.kept rest]))), ?_, ?_, ?_⟩
  · simp [Chunk.before, before_script, h.text, hText]
  · rw [addClasses, kept_append_cons hFolded,
      changeLast?_append_cons hClass fun i hi => isClassList_of_mem_kept hNone hi]
    simp [Chunk.after, after_script, hExtend]
  · rw [Tag.edits, h.deletions_gather hSound, script_append_cons hFolded, hEdit, hPlace, Script.edits_append,
      List.append_assoc]
    simp only [Script.edits, Script.edits_append, before_script, Nat.zero_add, Text.size_nil, Nat.add_zero,
      List.append_nil, hText, Text.size_append, Nat.add_assoc]
    -- The tag has the addition behind all deletions, the script has it in its place.
    exact (List.perm_append_singleton _ _).append_left _

end StandsIn

end JudgedItem

namespace Opening

/-- The opening with its classes folded, by an engine that was asked these questions before. -/
def folded (engine : Engine) (o : Options) (asked : List Text) (t : Opening) : Opening :=
  let js := judgeItems engine o asked t.items
  let tokens := js.flatMap (·.confirmed)
  if tokens.isEmpty then t
  else ⟨t.name, addClasses engine o (Tag.joinTokens tokens) (JudgedItem.kept o js), t.selfClosing⟩

variable {engine : Engine} {o : Options} {asked : List Text} {t : Opening} {gap : Char} {attrs : Text}

theorem flatMap_text_judgeItems (engine : Engine) (o : Options) (asked : List Text) (t : Opening) :
    (judgeItems engine o asked t.items).flatMap (·.item.text) = t.items.flatMap Item.text := by
  have hItems := congrArg (List.flatMap Item.text) (map_item_judgeItems engine o asked t.items)
  rwa [List.flatMap_map] at hItems

theorem WellFormed.standsIn (h : t.WellFormed) (hInner : t.inner = gap :: attrs) (engine : Engine)
    (o : Options) (asked : List Text) :
    JudgedItem.StandsIn ⟨t.name, gap, attrs⟩ ('<' :: t.name) 0 (judgeItems engine o asked t.items)
      (t.closing ++ ['>']) := by
  constructor
  · rw [text_eq_of_inner hInner, text, inner, flatMap_text_judgeItems]
    simp
  · simp only [Tag.attrsOffset, Tag.head, Text.size_append, Text.size_cons, Text.size_nil,
      utf8Size_of_isBlank (h.isBlank_gap hInner), Nat.add_zero]

theorem WellFormed.exists_foldScript (h : t.WellFormed) (hInner : t.inner = gap :: attrs)
    (hTokens : ¬ ((judgeItems engine o asked t.items).flatMap (·.confirmed)).isEmpty = true) :
    ∃ σ : Script, σ.before = (Tag.mk t.name gap attrs).text ∧ σ.after = (t.folded engine o asked).text ∧
      ((Tag.mk t.name gap attrs).edits ((Tag.mk t.name gap attrs).gather engine o
        (JudgedItem.located 0 (judgeItems engine o asked t.items)))).Perm (σ.edits 0) := by
  have hStands := h.standsIn hInner engine o asked
  have hSound : ∀ j ∈ judgeItems engine o asked t.items, j.Sound engine o :=
    fun j hj => sound_of_mem_judgeItems h.items hj
  have hFolded : (t.folded engine o asked).text = '<' :: t.name ++
      ((addClasses engine o (Tag.joinTokens ((judgeItems engine o asked t.items).flatMap (·.confirmed)))
        (JudgedItem.kept o (judgeItems engine o asked t.items))).flatMap Item.text ++ (t.closing ++ ['>'])) := by
    rw [folded, if_neg hTokens]
    simp [text, inner, closing]
  rw [hFolded]
  cases hLast : ((judgeItems engine o asked t.items).filter (·.item.isClassList engine o)).getLast? with
  | none =>
    apply hStands.exists_insertion hSound
    · intro j hj
      simpa using List.filter_eq_nil_iff.1 (List.getLast?_eq_none_iff.1 hLast) j hj
    · have hItems : t.items ≠ [] := by
        rintro hItems
        rw [hItems] at hTokens
        exact hTokens rfl
      have hSize := congrArg Text.size (h.trimRegion_attrs hInner hItems)
      have hGap := utf8Size_of_isBlank (h.isBlank_gap hInner)
      rw [Text.size_cons, hGap] at hSize
      simp only [Tag.insertionPoint, Tag.attrsOffset, Tag.head, flatMap_text_judgeItems, ← hSize,
        Text.size_append, Text.size_cons, Text.size_nil, hGap]
      omega
  | some k =>
    obtain ⟨js, ks, hSplit, hClass, hNone⟩ := exists_of_getLast?_filter hLast
    rw [hSplit] at hStands hSound ⊢
    exact hStands.exists_growth hSound hClass fun j hj => Bool.eq_false_iff.2 (hNone j hj)

theorem WellFormed.run_rewrite (h : t.WellFormed) (hInner : t.inner = gap :: attrs) (hTotal : engine.Total)
    (o : Options) (asked : List Text) :
    ((Tag.mk t.name gap attrs).rewrite engine o).run asked =
      .ok ((t.folded engine o asked).text, askedBehind engine o asked t.items) := by
  have hJudge : ((Tag.mk t.name gap attrs).judge engine o).run asked =
      .ok (JudgedItem.located 0 (judgeItems engine o asked t.items), askedBehind engine o asked t.items) := by
    rw [Tag.judge, h.attributes_attrs hInner]
    exact run_mapM_judge_located hTotal asked 0
  refine Ask.run_bind_eq_ok_iff.2 ⟨_, _, hJudge, Ask.run_pure_eq_ok_iff.2 ⟨?_, rfl⟩⟩
  have hSound : ∀ j ∈ judgeItems engine o asked t.items, j.Sound engine o :=
    fun j hj => sound_of_mem_judgeItems h.items hj
  rw [Tag.folded, Tag.tokens_gather, JudgedItem.flatMap_confirmed_located hSound]
  by_cases hTokens : ((judgeItems engine o asked t.items).flatMap (·.confirmed)).isEmpty = true
  · rw [if_pos hTokens, folded, if_pos hTokens, text_eq_of_inner hInner]
  · obtain ⟨σ, hBefore, hAfter, hPerm⟩ := h.exists_foldScript hInner hTokens
    rw [if_neg hTokens, Tag.applyFrom_orderedEdits (judges_of_run hJudge) hBefore hPerm, ← hAfter]

end Opening

end ClassFold

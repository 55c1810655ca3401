import ClassFold.Proofs.Engine.Questions
import ClassFold.Proofs.Engine.WordList
import ClassFold.Proofs.Text.Fragments
import ClassFold.Proofs.WellFormed.Item

/-!
# What a token is made of

A candidate is put together from the name of an attribute, a hyphen and a fragment of its value, and none
of them has a blank or a quote. So a list of classes gives its tokens back when it is cut at the spaces,
and it stays inside the quotes it is put in, whichever they are: `class_value_of_tokens`.
-/

set_option autoImplicit false

namespace ClassFold

/-- A text without a blank and without a quote. -/
def IsToken (s : Text) : Prop := ∀ c ∈ s, isBlank c = false ∧ isQuote c = false

instance (s : Text) : Decidable (IsToken s) := List.decidableBAll _ s

theorem IsToken.of_subset {s t : Text} (ht : IsToken t) (h : s ⊆ t) : IsToken s :=
  fun c hc => ht c (h hc)

theorem removeFirst_subset (pattern s : Text) : removeFirst pattern s ⊆ s := by
  fun_induction removeFirst pattern s with
  | case1 => exact List.Subset.refl _
  | case2 c r rest hPrefix =>
    rw [← List.isPrefixOf?_eq_some_iff_append_eq.1 hPrefix]
    exact List.subset_append_right _ _
  | case3 c r hNone ih => exact List.cons_subset_cons c ih

theorem stripBinding_subset (name : Text) : stripBinding name ⊆ name := by
  unfold stripBinding
  split
  · rename_i rest hPrefix
    rw [← List.isPrefixOf?_eq_some_iff_append_eq.1 hPrefix]
    exact List.subset_append_right _ _
  · split
    · exact List.subset_cons_self _ _
    · exact List.Subset.refl _

theorem isToken_of_mem_fragments {value fragment : Text} (h : fragment ∈ fragments value) : IsToken fragment := by
  intro c hc
  obtain ⟨hWhite, hQuote⟩ := not_or.1 (mem_of_mem_fragments h hc).2
  constructor
  · rw [← Bool.not_eq_true]
    exact fun hBlank => hWhite (isWhite_of_isBlank hBlank)
  · simp only [List.mem_cons, not_or] at hQuote
    simp [isQuote, hQuote]

section

variable {engine : Engine} {o : Options} {a : Attribute} {t : Text}

theorem name_classify_subset (engine : Engine) (o : Options) (a : Attribute) :
    (classify engine o a).name ⊆ a.name := by
  have hPlain : o.plainName a.name ⊆ a.name := by
    unfold Options.plainName
    split
    · exact removeFirst_subset _ _
    · exact List.Subset.refl _
  have hName : stripBinding (o.plainName a.name) ⊆ a.name :=
    List.Subset.trans (stripBinding_subset _) hPlain
  unfold classify
  dsimp only
  split
  · exact hPlain
  · split
    · split <;> exact hName
    · split <;> exact hName

theorem isToken_name_classify (ha : a.Sound) : IsToken (classify engine o a).name := by
  apply IsToken.of_subset _ (name_classify_subset engine o a)
  intro c hc
  have hChar := isNameChar_eq_true_iff.1 (ha.name.chars c hc)
  exact ⟨hChar.1, hChar.2.1⟩

theorem isToken_of_mem_candidates (ha : a.Sound) (ht : t ∈ candidates engine o a) : IsToken t := by
  have hName : IsToken (classify engine o a).name := isToken_name_classify ha
  unfold candidates at ht
  dsimp only at ht
  split at ht
  · cases ht
  · cases ht
  · rwa [List.mem_singleton.1 ht]
  · obtain ⟨fragment, hFragment, rfl⟩ := List.mem_map.1 ht
    rw [candidate]
    split
    · exact hName
    · intro c hc
      rw [List.mem_append, List.mem_cons] at hc
      rcases hc with hc | rfl | hc
      · exact hName c hc
      · decide
      · exact isToken_of_mem_fragments hFragment c hc

/-- But for the hyphen, a candidate is made of what the attribute is made of. -/
theorem subset_of_mem_candidates (ht : t ∈ candidates engine o a) : t ⊆ '-' :: a.raw := by
  have hName : (classify engine o a).name ⊆ '-' :: a.raw := fun c hc =>
    List.mem_cons_of_mem _ (List.mem_append_left _ (name_classify_subset engine o a hc))
  have hValue : a.value?.getD [] ⊆ a.raw := by
    obtain ⟨start, name, _ | q⟩ := a
    · exact List.nil_subset _
    · intro c hc
      have hMem : c ∈ q.value := hc
      simp [Attribute.raw, Quoted.text, hMem]
  unfold candidates at ht
  dsimp only at ht
  split at ht
  · cases ht
  · cases ht
  · rwa [List.mem_singleton.1 ht]
  · obtain ⟨fragment, hFragment, rfl⟩ := List.mem_map.1 ht
    rw [candidate]
    split
    · exact hName
    · intro c hc
      rw [List.mem_append, List.mem_cons] at hc
      rcases hc with hc | rfl | hc
      · exact hName hc
      · exact List.mem_cons_self
      · exact List.mem_cons_of_mem _ (hValue (mem_of_mem_fragments hFragment hc).1)

theorem Tag.isToken_of_mem_questions {tag : Tag} (ht : t ∈ tag.questions engine o) : IsToken t := by
  obtain ⟨a, ha, ht⟩ := List.mem_flatMap.1 ht
  exact isToken_of_mem_candidates (sound_of_mem_attributes ha) ht

end

namespace Ask

/-- Whatever a run that succeeds adds to the record of questions is a token. -/
def AddsTokens {α : Type} (x : Ask α) : Prop :=
  ∀ asked a asked', x.run asked = .ok (a, asked') → ∀ t ∈ asked', t ∈ asked ∨ IsToken t

namespace AddsTokens

variable {α β : Type}

theorem pure (a : α) : AddsTokens (Pure.pure a : Ask α) := by
  intro asked b asked' h t ht
  obtain ⟨-, rfl⟩ := run_pure_eq_ok_iff.1 h
  exact Or.inl ht

theorem bind {x : Ask α} {f : α → Ask β} (hx : x.AddsTokens) (hf : ∀ a, (f a).AddsTokens) :
    (x >>= f).AddsTokens := by
  intro asked b asked' h t ht
  obtain ⟨a, middle, hFirst, hSecond⟩ := run_bind_eq_ok_iff.1 h
  rcases hf a _ _ _ hSecond t ht with ht | ht
  · exact hx _ _ _ hFirst t ht
  · exact Or.inr ht

theorem mapM {f : α → Ask β} {as : List α} (hf : ∀ a ∈ as, (f a).AddsTokens) : (as.mapM f).AddsTokens := by
  induction as with
  | nil => exact pure []
  | cons a as ih =>
    obtain ⟨hFirst, hRest⟩ := List.forall_mem_cons.1 hf
    rw [List.mapM_cons]
    exact hFirst.bind fun b => (ih hRest).bind fun bs => pure (b :: bs)

theorem placing (result : Except Edit α) : (Ask.placing result).AddsTokens := by
  cases result with
  | ok a => exact pure a
  | error e =>
    intro asked a asked' h
    cases h

end AddsTokens

theorem mapM_congr_of_mem {α β : Type} {f g : α → Ask β} {as : List α} (h : ∀ a ∈ as, f a = g a) :
    as.mapM f = as.mapM g := by
  induction as with
  | nil => rfl
  | cons a as ih =>
    obtain ⟨hFirst, hRest⟩ := List.forall_mem_cons.1 h
    rw [List.mapM_cons, List.mapM_cons, hFirst, ih hRest]

end Ask

namespace Engine

/-- The engine that fails on every text that is no token. -/
def onTokens (engine : Engine) (reason : Text) : Engine :=
  ⟨fun asked t => if IsToken t then engine.answer asked t else .error reason, engine.selects⟩

variable {engine : Engine} {o : Options} {tokens : List Text}

theorem addsTokens_confirmed (h : ∀ t ∈ tokens, IsToken t) : (engine.confirmed tokens).AddsTokens := by
  induction tokens with
  | nil => exact .pure []
  | cons t ts ih =>
    obtain ⟨hFirst, hRest⟩ := List.forall_mem_cons.1 h
    rw [confirmed]
    refine Ask.AddsTokens.bind ?_ fun yes => (ih hRest).bind fun rest => .pure _
    intro asked yes asked' hRun u hu
    rw [run_ask] at hRun
    split at hRun
    · cases hRun
      rcases List.mem_cons.1 hu with rfl | hu
      · exact Or.inr hFirst
      · exact Or.inl hu
    · cases hRun

theorem confirmed_onTokens (reason : Text) (h : ∀ t ∈ tokens, IsToken t) :
    (engine.onTokens reason).confirmed tokens = engine.confirmed tokens := by
  induction tokens with
  | nil => rfl
  | cons t ts ih =>
    obtain ⟨hFirst, hRest⟩ := List.forall_mem_cons.1 h
    have hAsk : (engine.onTokens reason).ask t = engine.ask t := by
      funext asked
      simp only [ask, onTokens, if_pos hFirst]
    rw [confirmed, confirmed, hAsk, ih hRest]

end Engine

variable {engine : Engine} {o : Options}

theorem addsTokens_resolve (t : Tag) : (t.resolve engine o).AddsTokens := by
  refine Ask.AddsTokens.bind (.mapM fun a ha => ?_) fun parts => .pure _
  exact (Engine.addsTokens_confirmed fun t ht =>
    isToken_of_mem_candidates (sound_of_mem_attributes ha) ht).bind fun confirmed => .pure _

theorem addsTokens_runOn (source : Text) : (runOn engine o source).AddsTokens := by
  refine Ask.AddsTokens.bind (.bind (.mapM fun e _ => ?_) fun entries => .pure _) fun plan => .placing _
  exact (addsTokens_resolve e.toTag).bind fun c => .placing _

theorem resolve_onTokens (reason : Text) (t : Tag) :
    t.resolve (engine.onTokens reason) o = t.resolve engine o := by
  rw [Tag.resolve, Tag.resolve]
  congr 1
  refine Ask.mapM_congr_of_mem fun a ha => ?_
  have hConfirmed := engine.confirmed_onTokens reason fun t (ht : t ∈ candidates engine o a) =>
    isToken_of_mem_candidates (sound_of_mem_attributes ha) ht
  rw [Attribute.resolve, Attribute.resolve]
  exact congrArg (· >>= _) hConfirmed

theorem outcome_onTokens (reason source : Text) :
    outcome (engine.onTokens reason) o source = outcome engine o source := by
  have hPlan : (fun e : Element => e.plan (engine.onTokens reason) o) = fun e => e.plan engine o := by
    funext e
    rw [Element.plan, Element.plan, resolve_onTokens]
  rw [outcome, outcome, runOn, runOn, planOf, planOf, hPlan]

theorem isToken_of_outcome {source output : Text} {asked : List Text}
    (h : outcome engine o source = .ok ⟨output, asked⟩) : ∀ t ∈ asked, IsToken t := by
  have hAdds : (runOn engine o source).AddsTokens := addsTokens_runOn source
  rw [outcome] at h
  cases hRun : (runOn engine o source).run [] with
  | error e =>
    rw [hRun] at h
    cases h
  | ok p =>
    rw [hRun] at h
    cases h
    intro t ht
    rcases hAdds _ _ _ hRun t (List.mem_reverse.1 ht) with hNone | hToken
    · cases hNone
    · exact hToken

theorem isToken_of_judges {t : Tag} {js : List Judged} (hJudges : Judges engine o (attributes t.attrs) js) :
    ∀ u ∈ js.flatMap (·.confirmed), IsToken u := by
  intro u hu
  obtain ⟨j, hj, hu⟩ := List.mem_flatMap.1 hu
  have ha : j.attr ∈ attributes t.attrs := Tag.attr_mem_of_judges hJudges hj
  exact isToken_of_mem_candidates (sound_of_mem_attributes ha) ((hJudges.sublist j hj).subset hu)

theorem isToken_of_run_resolve {t : Tag} {asked asked' : List Text} {c : Contribution}
    (h : (t.resolve engine o).run asked = .ok (c, asked')) : ∀ u ∈ c.tokens, IsToken u := by
  rw [Tag.resolve_eq_gather, StateT.run_map] at h
  cases hRun : (t.judge engine o).run asked with
  | error e =>
    rw [hRun] at h
    cases h
  | ok p =>
    rw [hRun] at h
    cases h
    rw [Tag.tokens_gather]
    exact isToken_of_judges (judges_of_run hRun)

section

variable {tokens : List Text}

theorem not_mem_of_isToken {s : Text} (hs : IsToken s) {c : Char} (hc : isBlank c = true ∨ isQuote c = true) :
    c ∉ s := by
  intro hMem
  obtain ⟨hBlank, hQuote⟩ := hs c hMem
  rcases hc with hc | hc
  · rw [hc] at hBlank
    cases hBlank
  · rw [hc] at hQuote
    cases hQuote

theorem splitOn_joinTokens (h : ∀ t ∈ tokens, IsToken t) (hNe : tokens ≠ []) :
    (Tag.joinTokens tokens).splitOn ' ' = tokens :=
  List.splitOn_intercalate ' ' (fun t ht => not_mem_of_isToken (h t ht) (Or.inl (by decide))) hNe

theorem exists_mem_of_mem_joinTokens {c : Char} (hc : c ∈ Tag.joinTokens tokens) :
    c = ' ' ∨ ∃ t ∈ tokens, c ∈ t := by
  induction tokens with
  | nil => cases hc
  | cons t ts ih =>
    cases ts with
    | nil => exact Or.inr ⟨t, List.mem_cons_self, by simpa [Tag.joinTokens] using hc⟩
    | cons u us =>
      rw [Tag.joinTokens, List.intercalate_cons_cons, List.mem_append, List.mem_append,
        List.mem_singleton] at hc
      rcases hc with (hc | hc) | hc
      · exact Or.inr ⟨t, List.mem_cons_self, hc⟩
      · exact Or.inl hc
      · rcases ih hc with hSpace | ⟨w, hw, hc⟩
        · exact Or.inl hSpace
        · exact Or.inr ⟨w, List.mem_cons_of_mem _ hw, hc⟩

theorem not_mem_joinTokens (h : ∀ t ∈ tokens, IsToken t) {q : Char} (hq : isQuote q = true) :
    q ∉ Tag.joinTokens tokens := by
  intro hMem
  rcases exists_mem_of_mem_joinTokens hMem with rfl | ⟨t, ht, hMem⟩
  · exact absurd hq (by decide)
  · exact not_mem_of_isToken (h t ht) (Or.inr hq) hMem

end

/-- A name with a value in straight quotes is one attribute, if the value is free of the quote. -/
theorem attributes_quoted {name : Text} (hName : IsName name) {q : Char} {v : Text}
    (hStraight : isStraightQuote q = true) (hFree : q ∉ v) :
    attributes (name ++ '=' :: q :: (v ++ [q])) = [⟨0, name, some ⟨['='], q, v, []⟩⟩] := by
  obtain ⟨c, cs, rfl⟩ := List.exists_cons_of_ne_nil hName.ne_nil
  have hRead : Piece.read c (cs ++ '=' :: q :: (v ++ [q])) = (.valued (c :: cs) ⟨['='], q, v, []⟩, []) := by
    rw [Piece.read_name hName (by rintro d ⟨⟩; decide)]
    apply Piece.ofName_of_readQuoted?
    · rintro d ⟨⟩
      exact isBlank_eq_false_of_isStraightQuote hStraight
    · simp [opensQuoted, splitBrace_of_isStraightQuote hStraight, hStraight]
    · exact readQuoted?_plain hStraight hFree ['='] []
  rw [List.cons_append, attributes, attributesFrom_pieces_cons, hRead, pieces]
  rfl

theorem isName_class : IsName "class".toList := by decide

theorem text_classEdit (t : Tag) (c : Contribution) :
    ∃ ins, (c.classList? = none ∧ (t.classEdit c).text = " class=\x22".toList ++ ins ++ ['\x22'] ∨
        c.classList? ≠ none ∧ (t.classEdit c).text = ins) ∧
      (ins = Tag.joinTokens c.tokens ∨ ins = ' ' :: Tag.joinTokens c.tokens) := by
  unfold Tag.classEdit
  split
  · rename_i r hClass
    refine ⟨_, Or.inr ⟨by simp [hClass], rfl⟩, ?_⟩
    split
    · exact Or.inl rfl
    · exact Or.inr rfl
  · rename_i hNone
    exact ⟨_, Or.inl ⟨hNone, rfl⟩, Or.inl rfl⟩

theorem exists_line_of_mem_wordsOfList {list word : Text} (h : word ∈ WordSet.wordsOfList list) :
    word ≠ [] ∧ word.head? ≠ some '#' ∧ ∃ line ∈ list.splitOnP (· == '\n'), Text.trim line = word := by
  obtain ⟨line, hLine, hWord⟩ := List.mem_filterMap.1 h
  obtain ⟨hNe, hMark, hTrimmed⟩ := wordOfLine?_eq_some_iff.1 hWord
  exact ⟨hNe, hMark, line, hLine, isTrimmed_iff.1 hTrimmed⟩

theorem mem_wordsOfList_of_run_resolve {list : Text} {t : Tag} {asked asked' : List Text} {c : Contribution}
    (h : (t.resolve (WordSet.ofWordList list).engine o).run asked = .ok (c, asked')) {u : Text}
    (hu : u ∈ c.tokens) : u ∈ WordSet.wordsOfList list := by
  have hAsks := Engine.asks_judge_tag (fun token => .ok ((WordSet.ofWordList list).contains token))
    isValidSelector o t asked
  rw [Tag.resolve_eq_gather, StateT.run_map, WordSet.engine, hAsks] at h
  split at h
  · cases h
    rw [Tag.tokens_gather, List.flatMap_map] at hu
    obtain ⟨a, -, hu⟩ := List.mem_flatMap.1 hu
    have hYes := (List.mem_filter.1 hu).2
    rw [isYes, WordSet.ofWordList, WordSet.contains_ofList] at hYes
    exact List.contains_iff_mem.1 hYes
  · cases h

/-- Every text that an engine is asked about is a token, in runs that fail too: an engine that fails on all
other texts changes nothing. The tokens that are added to an element can be told apart again at the
spaces, and whatever was in the class list and whichever quotes it is in, its value ends where it did. The
engine of a word list adds only words of the list. -/
theorem class_value_of_tokens (engine : Engine) (o : Options) (source : Text) :
    (∀ t ∈ questions engine o source, IsToken t) ∧
    (∀ reason, outcome (engine.onTokens reason) o source = outcome engine o source) ∧
    (∀ output asked, outcome engine o source = .ok ⟨output, asked⟩ → ∀ t ∈ asked, IsToken t) ∧
    (∀ e ∈ elements source, ∀ asked c asked', (e.toTag.resolve engine o).run asked = .ok (c, asked') →
      c.tokens ≠ [] →
      (∀ t ∈ c.tokens, IsToken t) ∧ (Tag.joinTokens c.tokens).splitOn ' ' = c.tokens ∧
      ∃ ins, (c.classList? = none ∧ (e.toTag.classEdit c).text = " class=\x22".toList ++ ins ++ ['\x22'] ∨
          c.classList? ≠ none ∧ (e.toTag.classEdit c).text = ins) ∧
        (ins = Tag.joinTokens c.tokens ∨ ins = ' ' :: Tag.joinTokens c.tokens) ∧
        ∀ q v, isStraightQuote q = true → q ∉ v →
          attributes ("class=".toList ++ q :: (v ++ ins ++ [q])) =
            [⟨0, "class".toList, some ⟨['='], q, v ++ ins, []⟩⟩]) ∧
    ∀ list, ∀ e ∈ elements source, ∀ asked c asked',
      (e.toTag.resolve (WordSet.ofWordList list).engine o).run asked = .ok (c, asked') → ∀ t ∈ c.tokens,
        t ≠ [] ∧ t.head? ≠ some '#' ∧ ∃ line ∈ list.splitOnP (· == '\n'), Text.trim line = t := by
  refine ⟨?_, ?_, ?_, ?_, ?_⟩
  · intro t ht
    obtain ⟨e, -, ht⟩ := List.mem_flatMap.1 ht
    exact Tag.isToken_of_mem_questions ht
  · exact fun reason => outcome_onTokens reason source
  · exact fun output asked h => isToken_of_outcome h
  · intro e _ asked c asked' hRun hNe
    have hTokens := isToken_of_run_resolve hRun
    obtain ⟨ins, hText, hIns⟩ := text_classEdit e.toTag c
    refine ⟨hTokens, splitOn_joinTokens hTokens hNe, ins, hText, hIns, ?_⟩
    intro q v hStraight hFree
    have hQuote := isQuote_of_isStraightQuote hStraight
    have hJoined := not_mem_joinTokens hTokens hQuote
    have hIns : q ∉ ins := by
      rcases hIns with rfl | rfl
      · exact hJoined
      · intro hMem
        rcases List.mem_cons.1 hMem with rfl | hMem
        · exact absurd hQuote (by decide)
        · exact hJoined hMem
    have hAll : q ∉ v ++ ins := by
      rw [List.mem_append, not_or]
      exact ⟨hFree, hIns⟩
    exact attributes_quoted isName_class hStraight hAll
  · intro list e _ asked c asked' hRun t ht
    exact exists_line_of_mem_wordsOfList (mem_wordsOfList_of_run_resolve hRun ht)

end ClassFold

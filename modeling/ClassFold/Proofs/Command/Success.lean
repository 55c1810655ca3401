import ClassFold.Proofs.Command.Arguments
import ClassFold.Proofs.Command.Steps
import ClassFold.Proofs.WellFormed.Page

/-!
# A run that succeeds

A run that succeeds writes the transformed input, and nothing else changes. The options are those of the
configuration with what the command line gives laid over them, and everything is read from the directory
as it was, whichever of the paths lead to one file: `runIn_success`.
-/

set_option autoImplicit false

namespace ClassFold.Command

variable {d d' : Directory} {a : Arguments} {path : Text}

theorem exists_of_map_eq_ok {ε α β : Type} {x : Except ε α} {f : α → β} {b : β} (h : f <$> x = .ok b) :
    ∃ a, x = .ok a ∧ f a = b := by
  cases x with
  | error e => cases h
  | ok a =>
    cases h
    exact ⟨a, rfl, rfl⟩

/-- The options that a run starts from. -/
inductive StartsFrom (d : Directory) (a : Arguments) : Options → Prop where
  | defaults (hConfig : a.config? = none) : StartsFrom d a {}
  | config {path source : Text} {o : Options} (hConfig : a.config? = some path) (hText : d.text path = .ok source)
    (hToml : Options.ofToml source = .ok o) : StartsFrom d a o

/-- The options `o'` are `o` but for what was given. -/
structure LaidOver (gs : List Given) (o o' : Options) : Prop where
  namePrefix : o'.namePrefix = (valuesOf .namePrefix gs).head?.getD o.namePrefix
  prefixedOnly : o'.prefixedOnly = true ↔ .prefixedOnly ∈ switchesOf gs ∨ o.prefixedOnly = true
  bareAttributes : o'.bareAttributes = true ↔ .noBare ∉ switchesOf gs ∧ o.bareAttributes = true
  ignoredNames : o'.ignoredNames = if valuesOf .ignore gs = [] then o.ignoredNames else valuesOf .ignore gs
  deleteFolded : o'.deleteFolded = true ↔ .deleteFolded ∈ switchesOf gs ∨ o.deleteFolded = true

theorem LaidOver.eq {gs : List Given} {o o₁ o₂ : Options} (h₁ : LaidOver gs o o₁) (h₂ : LaidOver gs o o₂) :
    o₁ = o₂ := by
  obtain ⟨namePrefix, prefixedOnly, bareAttributes, ignoredNames, deleteFolded⟩ := o₁
  have hPrefix := h₁.namePrefix.trans h₂.namePrefix.symm
  have hOnly := Bool.eq_iff_iff.2 (h₁.prefixedOnly.trans h₂.prefixedOnly.symm)
  have hBare := Bool.eq_iff_iff.2 (h₁.bareAttributes.trans h₂.bareAttributes.symm)
  have hIgnored := h₁.ignoredNames.trans h₂.ignoredNames.symm
  have hDelete := Bool.eq_iff_iff.2 (h₁.deleteFolded.trans h₂.deleteFolded.symm)
  simp only at hPrefix hOnly hBare hIgnored hDelete
  rw [hPrefix, hOnly, hBare, hIgnored, hDelete]

theorem Says.laidOver {gs : List Given} (h : Says gs a) (o : Options) : LaidOver gs o (a.overrides.apply o) where
  namePrefix := by rw [h.namePrefix, Option.head?_toList, Overrides.apply]
  prefixedOnly := by rw [← h.prefixedOnly, ← Bool.or_eq_true, Overrides.apply]
  bareAttributes := by rw [← h.noBare, Bool.not_eq_true, ← Bool.not_eq_true', ← Bool.and_eq_true, Overrides.apply]
  ignoredNames := by
    rw [h.ignored, Overrides.apply]
    cases a.overrides.ignored <;> rfl
  deleteFolded := by rw [← h.deleteFolded, ← Bool.or_eq_true, Overrides.apply]

theorem mapError_eq_ok_iff {ε ε' α : Type} {x : Except ε α} {f : ε → ε'} {v : α} :
    x.mapError f = .ok v ↔ x = .ok v := by
  cases x <;> simp [Except.mapError]

theorem configured_eq_ok_iff {o : Options} : d.configured a = .ok o ↔ StartsFrom d a o := by
  unfold Directory.configured
  constructor
  · intro h
    cases hConfig : a.config? with
    | none =>
      rw [hConfig] at h
      cases h
      exact .defaults hConfig
    | some path =>
      rw [hConfig] at h
      obtain ⟨source, hText, hToml⟩ := exists_of_bind_eq_ok h
      exact .config hConfig (mapError_eq_ok_iff.1 hText) (mapError_eq_ok_iff.1 hToml)
  · intro h
    cases h with
    | defaults hConfig => rw [hConfig]
    | config hConfig hText hToml =>
      rw [hConfig]
      dsimp only
      rw [Directory.load, hText]
      exact mapError_eq_ok_iff.2 hToml

theorem turned_eq_ok_iff :
    d.turned a = .ok d' ↔ ∃ o words source output names, StartsFrom d a o ∧ d.text a.utilities = .ok words ∧
      d.text a.input = .ok source ∧
      transform (WordSet.ofWordList words).engine (a.overrides.apply o) source = .ok output ∧
      d.destination a.target = .ok names ∧ d' = d.put names (String.ofList output).toUTF8 := by
  unfold Directory.turned
  constructor
  · intro h
    obtain ⟨o', hOptions, hWords⟩ := exists_of_bind_eq_ok h
    obtain ⟨set, hSet, hInput⟩ := exists_of_bind_eq_ok hWords
    obtain ⟨source, hSource, hResult⟩ := exists_of_bind_eq_ok hInput
    obtain ⟨output, hOutput, hTarget⟩ := exists_of_bind_eq_ok hResult
    obtain ⟨names, hNames, hPut⟩ := exists_of_bind_eq_ok hTarget
    obtain ⟨o, hStart, hLaid⟩ := exists_of_map_eq_ok hOptions
    obtain ⟨words, hList, hRead⟩ := exists_of_map_eq_ok hSet
    refine ⟨o, words, source, output, names, configured_eq_ok_iff.1 hStart, mapError_eq_ok_iff.1 hList,
      mapError_eq_ok_iff.1 hSource, ?_, mapError_eq_ok_iff.1 hNames, ?_⟩
    · rw [hRead, hLaid]
      exact mapError_eq_ok_iff.1 hOutput
    · cases hPut
      rfl
  · rintro ⟨o, words, source, output, names, hStart, hWords, hSource, hOutput, hNames, rfl⟩
    rw [configured_eq_ok_iff.2 hStart, Directory.load, hWords, Directory.load, hSource]
    simp only [Functor.map, Except.map, Except.mapError, bind, Except.bind, hOutput, hNames]
    rfl

theorem failure?_ne_transform (d : Directory) (args : List Text) (e : Error) :
    (runIn d args).1.failure? ≠ some (.transform e) := by
  intro hFailure
  cases hRead : Arguments.read args with
  | error stop =>
    rw [(runIn_of_stop hRead d).2.1] at hFailure
    cases hFailure
  | ok a =>
    rw [(runIn_of_read hRead d).2.1, failureOf?_turned, List.findSome?_eq_some_iff] at hFailure
    obtain ⟨before, p, after, -, hFails, -⟩ := hFailure
    cases Phase.failure?_eq_some_iff.1 hFails

/-- A run never fails for its transformation. One that succeeds has taken each of its texts from the
directory as it was; behind it the target holds the transformed input, and all else is as it was. -/
theorem runIn_success (d : Directory) (args : List Text) :
    (∀ e, (runIn d args).1.failure? ≠ some (.transform e)) ∧
      ∀ a, Arguments.read args = .ok a → (runIn d args).1.exit = 0 →
        ∃ gs o o' words source output names,
          Spells args gs ∧ Says gs a ∧ StartsFrom d a o ∧ LaidOver gs o o' ∧
          d.text a.utilities = .ok words ∧ d.text a.input = .ok source ∧
          transform (WordSet.ofWordList words).engine o' source = .ok output ∧
          d.destination a.target = .ok names ∧ (runIn d args).2.text a.target = .ok output ∧
          ∀ n, Directory.entry? (runIn d args).2 n =
            if n = names then some (.file (String.ofList output).toUTF8) else d.entry? n := by
  refine ⟨failure?_ne_transform d args, ?_⟩
  intro a hRead hExit
  obtain ⟨hZero, -, hLeft⟩ := runIn_of_read hRead d
  cases hTurned : d.turned a with
  | error failure =>
    rw [hZero, hTurned] at hExit
    cases hExit
  | ok d' =>
    obtain ⟨gs, hSpells, -, hSays⟩ := read_eq_ok_iff.1 hRead
    obtain ⟨o, words, source, output, names, hStart, hWords, hSource, hOutput, hNames, rfl⟩ :=
      turned_eq_ok_iff.1 hTurned
    rw [hTurned] at hLeft
    rw [hLeft]
    have hAfter := Directory.text_of_read (Directory.read_put_of_destination hNames (String.ofList output).toUTF8)
    exact ⟨gs, o, _, words, source, output, names, hSpells, hSays, hStart, hSays.laidOver o, hWords, hSource,
      hOutput, hNames, hAfter, d.entry?_put names _⟩

def marginPage : Page :=
  [.opening ⟨['p'], [⟨' ', ['x'], .absent⟩, ⟨' ', "mt-2".toList, .absent⟩], false⟩]

/-- A configuration, a list of utilities and an input. -/
def threeFiles : Directory where
  entries := [([['c']], .file (String.ofList "deleteClass = true".toList).toUTF8),
    ([['u']], .file (String.ofList "x\nmt-2".toList).toUTF8),
    ([['i']], .file (String.ofList marginPage.text).toUTF8)]

/-- The output goes to the configuration. -/
def overConfig : Arguments where
  utilities := ['u']
  config? := some ['c']
  overrides := { ignored := [['x']] }
  input := ['i']
  output? := some ['c']

def overConfigArgs : List Text := ["-c", "c", "-uu", "--ignore=x", "i", "c"].map String.toList

theorem transform_marginPage :
    transform (WordSet.ofWordList "x\nmt-2".toList).engine
      (overConfig.overrides.apply { deleteFolded := true }) marginPage.text =
        .ok "<p x class=\x22mt-2\x22>".toList := by
  have hEngine : (WordSet.ofWordList "x\nmt-2".toList).engine =
      .fixed fun token => .ok ((WordSet.wordsOfList "x\nmt-2".toList).contains token) := by
    simp only [WordSet.engine, WordSet.ofWordList, WordSet.contains_ofList]
  have hPage : marginPage.WellFormed :=
    List.forall_mem_singleton.2 ⟨⟨'p', [], rfl, by decide, List.forall_mem_nil _⟩,
      List.forall_mem_cons.2 ⟨⟨by decide, by decide, by decide, trivial⟩,
        List.forall_mem_singleton.2 ⟨by decide, by decide, by decide, trivial⟩⟩⟩
  rw [hEngine, transform_eq_map_onePass, Page.run_onePass_text (fun _ _ => ⟨_, rfl⟩) hPage]
  decide +kernel

theorem runIn_success_over_config :
    Arguments.read overConfigArgs = .ok overConfig ∧ (runIn threeFiles overConfigArgs).1.exit = 0 ∧
    (runIn threeFiles overConfigArgs).2.text ['c'] = .ok "<p x class=\x22mt-2\x22>".toList := by
  have hRead : Arguments.read overConfigArgs = .ok overConfig := rfl
  have hText {name s : Text} (hPlace : threeFiles.place name = .ok (.named [] name false))
      (hShort : name.size ≤ Directory.longestName)
      (hEntry : threeFiles.entry? [name] = some (.file (String.ofList s).toUTF8)) : threeFiles.text name = .ok s :=
    Directory.text_of_read (Directory.read_of_entry hPlace hShort hEntry)
  have hConfig : threeFiles.text ['c'] = .ok "deleteClass = true".toList := hText rfl (by decide) rfl
  have hWords : threeFiles.text ['u'] = .ok "x\nmt-2".toList := hText rfl (by decide) rfl
  have hInput : threeFiles.text ['i'] = .ok marginPage.text := hText rfl (by decide) rfl
  have hToml : Options.ofToml "deleteClass = true".toList = .ok { deleteFolded := true } := by
    have hSome : (Options.ofToml "deleteClass = true".toList).toOption = some { deleteFolded := true } := by
      decide +kernel
    revert hSome
    cases Options.ofToml "deleteClass = true".toList <;> simp [Except.toOption]
  have hStart : StartsFrom threeFiles overConfig { deleteFolded := true } := .config rfl hConfig hToml
  have hTarget : threeFiles.destination overConfig.target = .ok [['c']] := rfl
  have hTurned := turned_eq_ok_iff.2 ⟨_, _, _, _, _, hStart, hWords, hInput, transform_marginPage, hTarget, rfl⟩
  have hExit : (runIn threeFiles overConfigArgs).1.exit = 0 := by
    rw [(runIn_of_read hRead threeFiles).1, hTurned]
    rfl
  refine ⟨hRead, hExit, ?_⟩
  obtain ⟨gs, o, o', words, source, output, names, -, hSays, hStart', hLaid, hWords', hInput', hOutput', -, hAfter,
    -⟩ := (runIn_success threeFiles _).2 overConfig hRead hExit
  -- Each part of the outcome is the only one there can be.
  cases (configured_eq_ok_iff.2 hStart').symm.trans (configured_eq_ok_iff.2 hStart)
  cases hLaid.eq (hSays.laidOver _)
  cases hWords'.symm.trans hWords
  cases hInput'.symm.trans hInput
  cases hOutput'.symm.trans transform_marginPage
  exact hAfter

end ClassFold.Command

import ClassFold.Proofs.Command.Directory
import ClassFold.Proofs.Document.Safety

/-!
# The outcome of a run

A run fails with the failure of the first of its phases that fails on the directory as it was, and then
the directory is as it was: `runIn_failure`. A run without a failure puts the text it made under the one
name it writes to.
-/

set_option autoImplicit false

namespace ClassFold.Command

/-- Started in `d`, with a warning given or not, the steps end with `result` and leave `d'` behind. -/
def Ends {α : Type} (x : Steps (StateM Directory) α) (d : Directory) (result : Except Failure α)
    (d' : Directory) : Prop :=
  ∀ warned, ∃ warned', (x.run.run warned).run d = ((result, warned'), d')

namespace Ends

variable {α β : Type} {x : Steps (StateM Directory) α} {f : α → Steps (StateM Directory) β}
  {d d' d'' : Directory}

theorem pure (a : α) (d : Directory) : Ends (Pure.pure a) d (.ok a) d := fun warned => ⟨warned, rfl⟩

theorem throw (e : Failure) (d : Directory) :
    Ends (MonadExcept.throw e : Steps (StateM Directory) α) d (.error e) d :=
  fun warned => ⟨warned, rfl⟩

theorem bind {a : α} {result : Except Failure β} (hx : Ends x d (.ok a) d') (hf : Ends (f a) d' result d'') :
    Ends (x >>= f) d result d'' := by
  intro warned
  obtain ⟨warned', hx⟩ := hx warned
  obtain ⟨warned'', hf⟩ := hf warned'
  refine ⟨warned'', ?_⟩
  rw [ExceptT.run_bind, StateT.run_bind, StateT.run_bind, hx]
  exact hf

theorem bind_error {e : Failure} (hx : Ends x d (.error e) d') : Ends (x >>= f) d (.error e) d' := by
  intro warned
  obtain ⟨warned', hx⟩ := hx warned
  refine ⟨warned', ?_⟩
  rw [ExceptT.run_bind, StateT.run_bind, StateT.run_bind, hx]
  rfl

/-- Steps that only read come to what their results come to. -/
theorem bind_reading {r : Except Failure α} {g : α → Except Failure β} (hx : Ends x d r d)
    (hf : ∀ a, Ends (f a) d (g a) d) : Ends (x >>= f) d (r >>= g) d := by
  cases r with
  | error e => exact hx.bind_error
  | ok a => exact hx.bind (hf a)

end Ends

/-- The steps leave behind what `r` gives; if it gives a failure, they end with it and leave `d` behind. -/
def Turns (x : Steps (StateM Directory) Unit) (d : Directory) (r : Except Failure Directory) : Prop :=
  Ends x d (r.map fun _ => ()) (r.toOption.getD d)

theorem Ends.bind_turns {α : Type} {x : Steps (StateM Directory) α} {f : α → Steps (StateM Directory) Unit}
    {d : Directory} {r : Except Failure α} {g : α → Except Failure Directory} (hx : Ends x d r d)
    (hf : ∀ a, Turns (f a) d (g a)) : Turns (x >>= f) d (r >>= g) := by
  cases r with
  | error e => exact hx.bind_error
  | ok a => exact hx.bind (hf a)

/-- A failure to read the text of a file is one of the file. -/
def Directory.load (d : Directory) (path : Text) : Except Failure Text := (d.text path).mapError (.file path)

/-- The options of the configuration, or the defaults without one. -/
def Directory.configured (d : Directory) (a : Arguments) : Except Failure Options :=
  match a.config? with
  | none => .ok {}
  | some path => do (Options.ofToml (← d.load path)).mapError (.options path)

variable {d d' : Directory} {a : Arguments} {path : Text}

theorem ends_readText (d : Directory) (path : Text) : Ends (readText Directory.files path) d (d.load path) d := by
  have hRead : Ends (Directory.files.read path : Steps (StateM Directory) _) d (.ok (d.read path)) d :=
    fun warned => ⟨warned, rfl⟩
  refine hRead.bind ?_
  unfold Directory.load Directory.text
  cases d.read path with
  | error cause => exact Ends.throw _ d
  | ok bytes =>
    simp only [bind, Except.bind]
    cases String.fromUTF8? bytes with
    | none => exact Ends.throw _ d
    | some s => exact Ends.pure _ d

theorem ends_readOptions (d : Directory) (a : Arguments) :
    Ends (readOptions Directory.files a) d (a.overrides.apply <$> d.configured a) d := by
  unfold readOptions Directory.configured
  cases a.config? with
  | none => exact Ends.pure _ d
  | some path =>
    dsimp only
    rw [map_bind]
    apply (ends_readText d path).bind_reading
    intro source
    cases Options.ofToml source with
    | error e => exact Ends.throw _ d
    | ok o => exact Ends.pure _ d

theorem ends_readWords (d : Directory) (a : Arguments) :
    Ends (readWords Directory.files a) d (WordSet.ofWordList <$> d.load a.utilities) d := by
  rw [map_eq_pure_bind]
  apply (ends_readText d a.utilities).bind_reading
  intro source
  dsimp only
  split
  · exact fun warned => ⟨true, rfl⟩
  · exact Ends.pure _ d

def failureOf? {α : Type} : Except Failure α → Option Failure
  | .ok _ => none
  | .error failure => some failure

theorem exists_transform_wordSet (set : WordSet) (o : Options) (source : Text) :
    ∃ output, transform set.engine o source = .ok output := by
  cases h : transform set.engine o source with
  | ok output => exact ⟨output, rfl⟩
  | error e =>
    obtain ⟨asked, token, reason, hAnswer, -⟩ := failsWith_of_transform h
    cases hAnswer

/-- The directory behind the steps of a run. Everything is read from the directory before it. -/
def Directory.turned (d : Directory) (a : Arguments) : Except Failure Directory := do
  let o ← a.overrides.apply <$> d.configured a
  let words ← WordSet.ofWordList <$> d.load a.utilities
  let source ← d.load a.input
  let output ← (transform words.engine o source).mapError .transform
  let names ← (d.destination a.target).mapError (.file a.target)
  return d.put names (String.ofList output).toUTF8

theorem ends_write (d : Directory) (path : Text) (bytes : ByteArray) :
    Ends (Directory.files.write path bytes : Steps (StateM Directory) _) d
      (.ok ((d.write path bytes).map fun _ => ())) ((d.write path bytes).toOption.getD d) := by
  intro warned
  refine ⟨warned, ?_⟩
  have hRun : (Directory.files.write path bytes).run d =
      ((d.write path bytes).map fun _ => (), (d.write path bytes).toOption.getD d) := by
    simp only [Directory.files, StateT.run_bind, StateT.run_get, pure_bind]
    cases d.write path bytes <;> rfl
  exact congrArg (fun p : Except Cause Unit × Directory => ((Except.ok p.1, warned), p.2)) hRun

theorem turns_steps (d : Directory) (a : Arguments) : Turns (steps Directory.files a) d (d.turned a) := by
  refine (ends_readOptions d a).bind_turns fun o => (ends_readWords d a).bind_turns fun words =>
    (ends_readText d a.input).bind_turns fun source => ?_
  obtain ⟨output, hOutput⟩ := exists_transform_wordSet words o source
  rw [hOutput]
  refine (ends_write d a.target (String.ofList output).toUTF8).bind ?_
  rw [Directory.write_eq]
  cases d.destination a.target with
  | error cause => exact Ends.throw _ d
  | ok names => exact Ends.pure _ _

theorem runIn_of_read {args : List Text} (hRead : Arguments.read args = .ok a) (d : Directory) :
    (runIn d args).1.exit = (if (failureOf? (d.turned a)).isSome then 1 else 0) ∧
      (runIn d args).1.failure? = failureOf? (d.turned a) ∧
      (runIn d args).2 = (d.turned a).toOption.getD d := by
  obtain ⟨warned, hSteps⟩ := turns_steps d a false
  unfold runIn run
  rw [hRead]
  dsimp only
  rw [StateT.run_bind, hSteps]
  cases d.turned a <;> exact ⟨rfl, rfl, rfl⟩

theorem runIn_of_stop {args : List Text} {stop : Stop} (hRead : Arguments.read args = .error stop) (d : Directory) :
    (runIn d args).1.exit = (if stop = .usage then 2 else 0) ∧ (runIn d args).1.failure? = none ∧
      (runIn d args).2 = d := by
  unfold runIn run
  rw [hRead]
  cases stop <;> exact ⟨rfl, rfl, rfl⟩

/-- What a run is made of, in order. -/
inductive Phase where
  | config
  | words
  | input
  | output
deriving DecidableEq, Repr

namespace Phase

def all : List Phase := [config, words, input, output]

/-- A phase fails in a directory, whatever the other phases do there. -/
inductive Fails (d : Directory) (a : Arguments) : Phase → Failure → Prop where
  | noConfig {path : Text} {cause : Cause} (hConfig : a.config? = some path) (h : d.text path = .error cause) :
    Fails d a config (.file path cause)
  | badConfig {path source : Text} {e : OptionsError} (hConfig : a.config? = some path)
    (hText : d.text path = .ok source) (h : Options.ofToml source = .error e) :
    Fails d a config (.options path e)
  | noWords {cause : Cause} (h : d.text a.utilities = .error cause) : Fails d a words (.file a.utilities cause)
  | noInput {cause : Cause} (h : d.text a.input = .error cause) : Fails d a input (.file a.input cause)
  | noOutput {cause : Cause} (h : d.destination a.target = .error cause) :
    Fails d a output (.file a.target cause)

def failure? (d : Directory) (a : Arguments) : Phase → Option Failure
  | config => failureOf? (d.configured a)
  | words => failureOf? (d.load a.utilities)
  | input => failureOf? (d.load a.input)
  | output => failureOf? ((d.destination a.target).mapError (.file a.target))

theorem failureOf?_mapError_eq_some_iff {ε α : Type} {x : Except ε α} {f : ε → Failure} {failure : Failure} :
    failureOf? (x.mapError f) = some failure ↔ ∃ e, x = .error e ∧ f e = failure := by
  cases x <;> simp [Except.mapError, failureOf?]

theorem failure?_config_of_some (hConfig : a.config? = some path) :
    failure? d a config = match d.text path with
      | .error cause => some (.file path cause)
      | .ok source => failureOf? ((Options.ofToml source).mapError (.options path)) := by
  rw [failure?, Directory.configured, hConfig]
  dsimp only
  rw [Directory.load]
  cases d.text path <;> rfl

theorem fails_of_failure? {p : Phase} {failure : Failure} (h : p.failure? d a = some failure) :
    p.Fails d a failure := by
  cases p with
  | config =>
    cases hConfig : a.config? with
    | none =>
      rw [failure?, Directory.configured, hConfig] at h
      cases h
    | some path =>
      rw [failure?_config_of_some hConfig] at h
      cases hText : d.text path with
      | error cause =>
        rw [hText] at h
        cases h
        exact .noConfig hConfig hText
      | ok source =>
        rw [hText] at h
        obtain ⟨e, hToml, rfl⟩ := failureOf?_mapError_eq_some_iff.1 h
        exact .badConfig hConfig hText hToml
  | words =>
    obtain ⟨cause, hText, rfl⟩ := failureOf?_mapError_eq_some_iff.1 h
    exact .noWords hText
  | input =>
    obtain ⟨cause, hText, rfl⟩ := failureOf?_mapError_eq_some_iff.1 h
    exact .noInput hText
  | output =>
    obtain ⟨cause, hDestination, rfl⟩ := failureOf?_mapError_eq_some_iff.1 h
    exact .noOutput hDestination

theorem Fails.failure?_eq {p : Phase} {failure : Failure} (h : p.Fails d a failure) :
    p.failure? d a = some failure := by
  cases h with
  | noConfig hConfig hText => rw [failure?_config_of_some hConfig, hText]
  | badConfig hConfig hText hToml =>
    rw [failure?_config_of_some hConfig, hText]
    exact failureOf?_mapError_eq_some_iff.2 ⟨_, hToml, rfl⟩
  | noWords hText => exact failureOf?_mapError_eq_some_iff.2 ⟨_, hText, rfl⟩
  | noInput hText => exact failureOf?_mapError_eq_some_iff.2 ⟨_, hText, rfl⟩
  | noOutput hDestination => exact failureOf?_mapError_eq_some_iff.2 ⟨_, hDestination, rfl⟩

theorem failure?_eq_some_iff {p : Phase} {failure : Failure} :
    p.failure? d a = some failure ↔ p.Fails d a failure :=
  ⟨fails_of_failure?, Fails.failure?_eq⟩

theorem failure?_eq_none_iff {p : Phase} : p.failure? d a = none ↔ ∀ failure, ¬ p.Fails d a failure := by
  rw [Option.eq_none_iff_forall_ne_some]
  exact forall_congr' fun failure => not_congr failure?_eq_some_iff

end Phase

theorem failureOf?_turned (d : Directory) (a : Arguments) :
    failureOf? (d.turned a) = Phase.all.findSome? (·.failure? d a) := by
  rw [Directory.turned, Phase.all]
  simp only [List.findSome?_cons, List.findSome?_nil, Phase.failure?]
  cases d.configured a with
  | error failure => rfl
  | ok o =>
    cases d.load a.utilities with
    | error failure => rfl
    | ok words =>
      cases d.load a.input with
      | error failure => rfl
      | ok source =>
        obtain ⟨output, hOutput⟩ := exists_transform_wordSet (.ofWordList words) (a.overrides.apply o) source
        simp only [bind, Except.bind, Functor.map, Except.map, hOutput, Except.mapError, failureOf?]
        cases d.destination a.target <;> rfl

/-- A run fails exactly if its arguments are a mistake or if one of its phases fails, and with the failure
of the first such phase. A run that fails leaves the directory as it was. -/
theorem runIn_failure (d : Directory) (args : List Text) :
    ((runIn d args).1.exit ≠ 0 → (runIn d args).2 = d) ∧
      ((runIn d args).1.exit = 2 ↔ Arguments.read args = .error .usage) ∧
      ((runIn d args).1.exit = 1 ↔ ∃ failure, (runIn d args).1.failure? = some failure) ∧
      ∀ failure, (runIn d args).1.failure? = some failure ↔
        ∃ a, Arguments.read args = .ok a ∧ ∃ before p after, Phase.all = before ++ p :: after ∧
          p.Fails d a failure ∧ ∀ q ∈ before, ∀ other, ¬ q.Fails d a other := by
  cases hRead : Arguments.read args with
  | error stop =>
    obtain ⟨hExit, hFailure, hLeft⟩ := runIn_of_stop hRead d
    rw [hExit, hFailure, hLeft]
    cases stop <;> simp
  | ok a =>
    obtain ⟨hExit, hFailure, hLeft⟩ := runIn_of_read hRead d
    rw [hExit, hLeft, hFailure]
    refine ⟨?_, ?_, ?_, ?_⟩
    · cases d.turned a with
      | error failure => exact fun _ => rfl
      | ok d' => exact fun h => absurd rfl h
    · cases d.turned a <;> simp [failureOf?]
    · cases d.turned a <;> simp [failureOf?]
    · intro failure
      rw [failureOf?_turned, List.findSome?_eq_some_iff]
      simp only [Phase.failure?_eq_some_iff, Phase.failure?_eq_none_iff, Except.ok.injEq, exists_eq_left']

end ClassFold.Command

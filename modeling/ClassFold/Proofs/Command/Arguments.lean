import Mathlib.Data.List.Nodup
import ClassFold.Command.Arguments
import ClassFold.Markup.Value
import ClassFold.Proofs.Text.Split

/-!
# What a command line says

A command line spells a list of things, each of them a value for an option, a switch or a file, in one of
a few ways. Exactly those command lines are accepted that spell an admissible list, and the arguments say
what is in the list: `read_eq_ok_iff`.
-/

set_option autoImplicit false

namespace ClassFold.Command

theorem exists_of_bind_eq_ok {ε α β : Type} {x : Except ε α} {f : α → Except ε β} {b : β} (h : x >>= f = .ok b) :
    ∃ a, x = .ok a ∧ f a = .ok b := by
  cases x with
  | error e => cases h
  | ok a => exact ⟨a, rfl, h⟩

/-- One thing that a command line says. -/
inductive Given where
  | value (option : ValueOption) (value : Text)
  | switch (switch : Switch)
  | file (path : Text)
deriving DecidableEq, Repr

namespace Given

def pair? : Given → Option (ValueOption × Text)
  | value o v => some (o, v)
  | _ => none

def switch? : Given → Option Switch
  | switch s => some s
  | _ => none

def file? : Given → Option Text
  | file path => some path
  | _ => none

end Given

def valuesOf (o : ValueOption) (gs : List Given) : List Text :=
  ((gs.filterMap Given.pair?).filter (·.1 == o)).map (·.2)

def switchesOf (gs : List Given) : List Switch := gs.filterMap Given.switch?

def filesOf (gs : List Given) : List Text := gs.filterMap Given.file?

section

variable (o : ValueOption) (gs hs : List Given)

@[simp] theorem valuesOf_append : valuesOf o (gs ++ hs) = valuesOf o gs ++ valuesOf o hs := by simp [valuesOf]

@[simp] theorem switchesOf_append : switchesOf (gs ++ hs) = switchesOf gs ++ switchesOf hs := by
  simp [switchesOf]

@[simp] theorem filesOf_append : filesOf (gs ++ hs) = filesOf gs ++ filesOf hs := by simp [filesOf]

@[simp] theorem valuesOf_value (o' : ValueOption) (v : Text) :
    valuesOf o [.value o' v] = if o' = o then [v] else [] := by
  by_cases h : o' = o <;> simp [valuesOf, Given.pair?, h]

@[simp] theorem valuesOf_switch (s : Switch) : valuesOf o [.switch s] = [] := rfl

@[simp] theorem valuesOf_file (path : Text) : valuesOf o [.file path] = [] := rfl

@[simp] theorem switchesOf_value (v : Text) : switchesOf [.value o v] = [] := rfl

@[simp] theorem switchesOf_switch (s : Switch) : switchesOf [.switch s] = [s] := rfl

@[simp] theorem switchesOf_file (path : Text) : switchesOf [.file path] = [] := rfl

@[simp] theorem filesOf_value (v : Text) : filesOf [.value o v] = [] := rfl

@[simp] theorem filesOf_switch (s : Switch) : filesOf [.switch s] = [] := rfl

@[simp] theorem filesOf_file (path : Text) : filesOf [.file path] = [path] := rfl

end

/-- An argument that says something by itself. -/
inductive Joined : Text → Given → Prop where
  | switch {name : Text} {s : Switch} (h : longNames.lookup name = some (.switch s)) :
    Joined ('-' :: '-' :: name) (.switch s)
  | long {name : Text} {o : ValueOption} (h : longNames.lookup name = some (.value o)) (v : Text) :
    Joined ('-' :: '-' :: (name ++ '=' :: v)) (.value o v)
  | short {c : Char} {o : ValueOption} {v : Text} (h : shortNames.lookup c = some (.value o)) (hNe : v ≠ [])
    (hSign : v.head? ≠ some '=') : Joined ('-' :: c :: v) (.value o v)
  | signed {c : Char} {o : ValueOption} (h : shortNames.lookup c = some (.value o)) (v : Text) :
    Joined ('-' :: c :: '=' :: v) (.value o v)

/-- An argument whose value is the next argument. -/
inductive Announces : Text → ValueOption → Prop where
  | long {name : Text} {o : ValueOption} (h : longNames.lookup name = some (.value o)) :
    Announces ('-' :: '-' :: name) o
  | short {c : Char} {o : ValueOption} (h : shortNames.lookup c = some (.value o)) : Announces ['-', c] o

inductive Spells : List Text → List Given → Prop where
  | nil : Spells [] []
  /-- Behind two hyphens, all that follows is files. -/
  | files (paths : List Text) : Spells (['-', '-'] :: paths) (paths.map .file)
  | file {path : Text} {args : List Text} {gs : List Given} (hPath : Draft.looksLikeOption path = false)
    (h : Spells args gs) : Spells (path :: args) (.file path :: gs)
  | joined {arg : Text} {g : Given} {args : List Text} {gs : List Given} (hArg : Joined arg g)
    (h : Spells args gs) : Spells (arg :: args) (g :: gs)
  | apart {arg v : Text} {o : ValueOption} {args : List Text} {gs : List Given} (hArg : Announces arg o)
    (hValue : Draft.looksLikeOption v = false) (h : Spells args gs) :
    Spells (arg :: v :: args) (.value o v :: gs)

/-- A list that a command line may spell. -/
structure Admissible (gs : List Given) : Prop where
  once : ∀ o, o ≠ .ignore → (valuesOf o gs).length ≤ 1
  paths : ∀ o, o.isPath = true → [] ∉ valuesOf o gs
  switches : (switchesOf gs).Nodup
  files : (filesOf gs).length ≤ 2
  named : [] ∉ filesOf gs

theorem not_mem_of_lookup_longNames {name : Text} {n : Name} (h : longNames.lookup name = some n) : '=' ∉ name := by
  have hNames : ∀ p ∈ longNames, '=' ∉ p.1 := by decide
  obtain ⟨before, after, hSplit, -⟩ := List.lookup_eq_some_iff.1 h
  exact hNames (name, n) (hSplit ▸ List.mem_append_right _ List.mem_cons_self)

theorem lookup_shortNames_ne_switch (c : Char) (s : Switch) : shortNames.lookup c ≠ some (.switch s) := by
  have hNames : ∀ p ∈ shortNames, ∀ t ∈ [Switch.prefixedOnly, .noBare, .deleteFolded], p.2 ≠ .switch t := by decide
  intro h
  obtain ⟨before, after, hSplit, -⟩ := List.lookup_eq_some_iff.1 h
  refine hNames (c, .switch s) (hSplit ▸ List.mem_append_right _ List.mem_cons_self) s ?_ rfl
  cases s <;> decide

namespace Draft

def give (d : Draft) : Given → Except Stop Draft
  | .value o v => d.addValue o v
  | .switch s => d.addSwitch s
  | .file path => d.addPositional path

variable {d d' : Draft} {arg : Text} {pending : Option ValueOption}

theorem eq_none_of_return {x : Except Stop Draft}
    (h : (do return (← x, none) : Except Stop (Draft × Option ValueOption)) = .ok (d', pending)) :
    pending = none := by
  cases x with
  | error stop => cases h
  | ok d => cases h; rfl

end Draft

/-- What an argument that is an option comes to: it says something by itself, or a value is to come. -/
def Begins (arg : Text) : Option ValueOption → Prop
  | none => ∃ g, Joined arg g
  | some o => Announces arg o

namespace Draft

variable {d d' : Draft} {arg : Text} {pending : Option ValueOption}

theorem begins_of_readLong {body : Text} (h : d.readLong body = .ok (d', pending)) :
    Begins ('-' :: '-' :: body) pending := by
  have hBody := List.takeWhile_append_dropWhile (p := (· != '=')) (l := body)
  unfold readLong at h
  cases hDrop : body.dropWhile (· != '=') with
  | nil =>
    rw [hDrop, List.append_nil] at hBody
    rw [hDrop, hBody] at h
    cases hName : longNames.lookup body with
    | none =>
      rw [hName] at h
      cases h
    | some name =>
      rw [hName] at h
      cases name with
      | value o =>
        cases h
        exact .long hName
      | switch s =>
        rw [eq_none_of_return h]
        exact ⟨_, .switch hName⟩
      | help => cases h
      | version => cases h
  | cons c v =>
    have hSplit := eq_of_dropWhile_ne hDrop
    rw [hDrop] at h
    cases hName : longNames.lookup (body.takeWhile (· != '=')) with
    | none =>
      rw [hName] at h
      cases h
    | some name =>
      rw [hName] at h
      cases name with
      | value o =>
        rw [hSplit, eq_none_of_return h]
        exact ⟨_, .long hName v⟩
      | switch s => cases h
      | help => cases h
      | version => cases h

theorem begins_of_readShort {c : Char} {letters : Text} (h : d.readShort (c :: letters) = .ok (d', pending)) :
    Begins ('-' :: c :: letters) pending := by
  rw [readShort] at h
  cases hName : shortNames.lookup c with
  | none =>
    rw [hName] at h
    cases h
  | some name =>
    rw [hName] at h
    cases name with
    | value o =>
      dsimp only at h
      split at h
      · cases h
        exact .short hName
      · rw [eq_none_of_return h]
        exact ⟨_, .signed hName _⟩
      · rename_i hNe hSign
        rw [eq_none_of_return h]
        refine ⟨_, .short hName (fun hNil => hNe hNil) ?_⟩
        intro hHead
        obtain ⟨v, hv⟩ := List.head?_eq_some_iff.1 hHead
        exact hSign v hv
    | switch s => exact absurd hName (lookup_shortNames_ne_switch c s)
    | help => cases h
    | version => cases h

theorem read_long {body : Text} (hNe : body ≠ []) (rest : List Text) :
    d.read none (('-' :: '-' :: body) :: rest) = d.readLong body >>= fun (d, pending) => d.read pending rest := by
  rw [read]
  simpa using hNe

theorem read_short {c : Char} (hc : c ≠ '-') (letters : Text) (rest : List Text) :
    d.read none (('-' :: c :: letters) :: rest) =
      d.readShort (c :: letters) >>= fun (d, pending) => d.read pending rest := by
  rw [read]
  · exact fun h => absurd h hc
  · exact fun h => absurd h hc

theorem read_file {path : Text} (hPath : looksLikeOption path = false) (rest : List Text) :
    d.read none (path :: rest) = d.addPositional path >>= fun d => d.read none rest := by
  rw [read]
  · rintro rfl
    cases hPath
  · rintro body rfl
    cases hPath
  · rintro c letters rfl
    cases hPath

theorem ne_hyphen_of_lookup_shortNames {c : Char} {n : Name} (h : shortNames.lookup c = some n) : c ≠ '-' := by
  rintro rfl
  cases h

theorem ne_nil_of_lookup_longNames {name : Text} {n : Name} (h : longNames.lookup name = some n) : name ≠ [] := by
  rintro rfl
  cases h

theorem cut_of_lookup_longNames {name : Text} {n : Name} (h : longNames.lookup name = some n) :
    (name.takeWhile (· != '=') = name ∧ name.dropWhile (· != '=') = []) ∧
      ∀ v, (name ++ '=' :: v).takeWhile (· != '=') = name ∧ (name ++ '=' :: v).dropWhile (· != '=') = '=' :: v := by
  have hFree := not_mem_of_lookup_longNames h
  refine ⟨?_, Text.takeWhile_dropWhile_ne hFree⟩
  have hAll : ∀ c ∈ name, (c != '=') = true := fun c hc => bne_iff_ne.2 fun hEq => hFree (hEq ▸ hc)
  simpa using Text.takeWhile_dropWhile_append (t := []) hAll (by simp)

theorem read_joined {g : Given} (hArg : Joined arg g) (rest : List Text) :
    d.read none (arg :: rest) = d.give g >>= fun d => d.read none rest := by
  cases hArg with
  | switch hName =>
    obtain ⟨⟨hTake, hDrop⟩, -⟩ := cut_of_lookup_longNames hName
    rw [read_long (ne_nil_of_lookup_longNames hName), readLong, hTake, hDrop, hName, give]
    simp only [bind_assoc, pure_bind]
  | long hName v =>
    obtain ⟨hTake, hDrop⟩ := (cut_of_lookup_longNames hName).2 v
    rw [read_long (by simp), readLong, hTake, hDrop, hName, give]
    simp only [bind_assoc, pure_bind]
  | short hName hNe hSign =>
    rw [read_short (ne_hyphen_of_lookup_shortNames hName), readShort, hName, give]
    dsimp only
    split
    · exact absurd rfl hNe
    · exact absurd rfl hSign
    · simp only [bind_assoc, pure_bind]
  | signed hName v =>
    rw [read_short (ne_hyphen_of_lookup_shortNames hName), readShort, hName, give]
    simp only [bind_assoc, pure_bind]

theorem read_apart {o : ValueOption} (hArg : Announces arg o) (rest : List Text) :
    d.read none (arg :: rest) = d.read (some o) rest := by
  cases hArg with
  | long hName =>
    obtain ⟨⟨hTake, hDrop⟩, -⟩ := cut_of_lookup_longNames hName
    rw [read_long (ne_nil_of_lookup_longNames hName), readLong, hTake, hDrop, hName]
    rfl
  | short hName =>
    rw [read_short (ne_hyphen_of_lookup_shortNames hName), readShort, hName]
    rfl

/-- Reading a command line takes what it spells, one thing after another. -/
theorem read_of_spells {args : List Text} {gs : List Given} (h : Spells args gs) (d : Draft) :
    d.read none args = gs.foldlM give d := by
  induction h generalizing d with
  | nil => rfl
  | files paths =>
    rw [read, List.foldlM_map]
    rfl
  | file hPath h ih =>
    rw [read_file hPath, List.foldlM_cons]
    exact bind_congr fun d => ih d
  | joined hArg h ih =>
    rw [read_joined hArg, List.foldlM_cons]
    exact bind_congr fun d => ih d
  | apart hArg hValue h ih =>
    rw [read_apart hArg, read, hValue, List.foldlM_cons]
    exact bind_congr fun d => ih d

/-- The arguments spell something, behind a value that may be to come. -/
def SpelledBehind (args : List Text) : Option ValueOption → Prop
  | none => ∃ gs, Spells args gs
  | some _ => ∃ v rest gs, args = v :: rest ∧ looksLikeOption v = false ∧ Spells rest gs

theorem exists_spells_of_begins {rest : List Text} (hArg : Begins arg pending) (h : SpelledBehind rest pending) :
    ∃ gs, Spells (arg :: rest) gs := by
  cases pending with
  | none =>
    obtain ⟨g, hArg⟩ := hArg
    obtain ⟨gs, h⟩ := h
    exact ⟨_, .joined hArg h⟩
  | some o =>
    obtain ⟨v, rest, gs, rfl, hValue, h⟩ := h
    exact ⟨_, .apart hArg hValue h⟩

theorem spelledBehind_of_read {args : List Text} (h : d.read pending args = .ok d') :
    SpelledBehind args pending := by
  induction args generalizing d pending with
  | nil =>
    cases pending with
    | none => exact ⟨[], .nil⟩
    | some o => cases h
  | cons arg rest ih =>
    cases pending with
    | some o =>
      rw [read] at h
      cases hArg : looksLikeOption arg with
      | true =>
        rw [hArg] at h
        cases h
      | false =>
        rw [hArg] at h
        obtain ⟨d₁, -, h⟩ := exists_of_bind_eq_ok h
        obtain ⟨gs, h⟩ := ih h
        exact ⟨arg, rest, gs, rfl, hArg, h⟩
    | none =>
      rw [read.eq_def] at h
      dsimp only at h
      split at h
      · exact ⟨_, .files rest⟩
      · obtain ⟨⟨d₁, pending⟩, hLong, h⟩ := exists_of_bind_eq_ok h
        exact exists_spells_of_begins (begins_of_readLong hLong) (ih h)
      · obtain ⟨⟨d₁, pending⟩, hShort, h⟩ := exists_of_bind_eq_ok h
        exact exists_spells_of_begins (begins_of_readShort hShort) (ih h)
      · obtain ⟨d₁, -, h⟩ := exists_of_bind_eq_ok h
        obtain ⟨gs, h⟩ := ih h
        refine ⟨_, .file ?_ h⟩
        unfold looksLikeOption
        split
        · rename_i hNone
          exact absurd rfl (hNone _ _)
        · rfl

/-- The draft that holds what was given. -/
def ofGiven (gs : List Given) : Draft := ⟨gs.filterMap Given.pair?, switchesOf gs, filesOf gs⟩

end Draft

theorem lookup_eq_head? {α : Type} [BEq α] [LawfulBEq α] {β : Type} (l : List (α × β)) (a : α) :
    l.lookup a = ((l.filter (·.1 == a)).map (·.2)).head? := by
  induction l with
  | nil => rfl
  | cons x l ih =>
    obtain ⟨k, b⟩ := x
    rw [List.lookup_cons, List.filter_cons]
    by_cases h : a = k
    · subst h
      simp
    · simp [beq_false_of_ne h, beq_false_of_ne (Ne.symm h), ih]

namespace Admissible

variable {gs hs : List Given} {o : ValueOption} {v path : Text} {s : Switch}

theorem nil : Admissible [] :=
  ⟨fun _ _ => Nat.zero_le _, fun _ _ => List.not_mem_nil, List.nodup_nil, Nat.zero_le _, List.not_mem_nil⟩

theorem of_append (h : Admissible (gs ++ hs)) : Admissible gs where
  once o ho := by
    have hOnce := h.once o ho
    rw [valuesOf_append, List.length_append] at hOnce
    omega
  paths o ho hMem := h.paths o ho (by simp [hMem])
  switches := by
    have hSwitches := h.switches
    rw [switchesOf_append] at hSwitches
    exact hSwitches.sublist (List.sublist_append_left _ _)
  files := by
    have hFiles := h.files
    rw [filesOf_append, List.length_append] at hFiles
    omega
  named hMem := h.named (by simp [hMem])

theorem append_value_iff (h : Admissible gs) :
    Admissible (gs ++ [.value o v]) ↔ (o ≠ .ignore → valuesOf o gs = []) ∧ (o.isPath = true → v ≠ []) := by
  constructor
  · intro hAll
    constructor
    · intro ho
      have hOnce := hAll.once o ho
      rw [valuesOf_append, valuesOf_value, if_pos rfl, List.length_append, List.length_singleton] at hOnce
      exact List.length_eq_zero_iff.1 (by omega)
    · rintro ho rfl
      exact hAll.paths o ho (by simp)
  · rintro ⟨hOnce, hPath⟩
    refine ⟨?_, ?_, by simpa using h.switches, by simpa using h.files, by simpa using h.named⟩
    · intro o' ho'
      by_cases ho : o = o'
      · subst ho
        simp [hOnce ho']
      · simpa [ho] using h.once o' ho'
    · intro o' ho'
      by_cases ho : o = o'
      · subst ho
        simpa [h.paths o ho'] using (hPath ho').symm
      · simpa [ho] using h.paths o' ho'

theorem append_switch_iff (h : Admissible gs) : Admissible (gs ++ [.switch s]) ↔ s ∉ switchesOf gs := by
  have hSwitches : (switchesOf (gs ++ [.switch s])).Nodup ↔ s ∉ switchesOf gs := by
    rw [switchesOf_append, switchesOf_switch, ← List.concat_eq_append, List.nodup_concat]
    exact and_iff_left h.switches
  constructor
  · exact fun hAll => hSwitches.1 hAll.switches
  · intro hNew
    refine ⟨by simpa using h.once, by simpa using h.paths, hSwitches.2 hNew, ?_, ?_⟩
    · simpa using h.files
    · simpa using h.named

theorem append_file_iff (h : Admissible gs) :
    Admissible (gs ++ [.file path]) ↔ (filesOf gs).length < 2 ∧ path ≠ [] := by
  constructor
  · intro hAll
    have hFiles := hAll.files
    rw [filesOf_append, filesOf_file, List.length_append, List.length_singleton] at hFiles
    refine ⟨hFiles, ?_⟩
    rintro rfl
    exact hAll.named (by simp)
  · rintro ⟨hFiles, hPath⟩
    refine ⟨by simpa using h.once, by simpa using h.paths, by simpa using h.switches, ?_, ?_⟩
    · rw [filesOf_append, filesOf_file, List.length_append, List.length_singleton]
      exact hFiles
    · simpa [h.named] using hPath.symm

end Admissible

namespace Draft

variable {gs : List Given} {d : Draft}

theorem lookup_ofGiven (o : ValueOption) (gs : List Given) : (ofGiven gs).values.lookup o = (valuesOf o gs).head? :=
  lookup_eq_head? _ o

theorem give_ofGiven (h : Admissible gs) (g : Given) :
    (ofGiven gs).give g = .ok d ↔ Admissible (gs ++ [g]) ∧ d = ofGiven (gs ++ [g]) := by
  cases g with
  | value o v =>
    have hNext : ofGiven (gs ++ [.value o v]) = { ofGiven gs with values := (ofGiven gs).values ++ [(o, v)] } := by
      simp [ofGiven, Given.pair?]
    have hTwice : (o != .ignore && ((ofGiven gs).values.lookup o).isSome) = false ↔
        (o ≠ .ignore → valuesOf o gs = []) := by
      rw [lookup_ofGiven]
      cases valuesOf o gs <;> simp
    have hPath : (o.isPath && v.isEmpty) = false ↔ (o.isPath = true → v ≠ []) := by
      cases o.isPath <;> simp
    rw [h.append_value_iff, give, addValue, ← hTwice, ← hPath, ← hNext]
    cases o != .ignore && ((ofGiven gs).values.lookup o).isSome <;> cases o.isPath && v.isEmpty <;>
      simp [eq_comm]
  | switch s =>
    have hNext : ofGiven (gs ++ [.switch s]) = { ofGiven gs with switches := (ofGiven gs).switches ++ [s] } := by
      simp [ofGiven, Given.pair?]
    rw [h.append_switch_iff, give, addSwitch, ← hNext]
    by_cases hs : s ∈ switchesOf gs <;> simp [ofGiven, hs, eq_comm]
  | file path =>
    have hNext : ofGiven (gs ++ [.file path]) =
        { ofGiven gs with positionals := (ofGiven gs).positionals ++ [path] } := by
      simp [ofGiven, Given.pair?]
    have hRefused : (path.isEmpty || decide ((ofGiven gs).positionals.length ≥ 2)) = false ↔
        (filesOf gs).length < 2 ∧ path ≠ [] := by
      simp [ofGiven, and_comm]
    rw [h.append_file_iff, give, addPositional, ← hRefused, ← hNext]
    cases path.isEmpty || decide ((ofGiven gs).positionals.length ≥ 2) <;> simp [eq_comm]

theorem foldlM_give_ofGiven {before : List Given} (h : Admissible before) :
    gs.foldlM give (ofGiven before) = .ok d ↔ Admissible (before ++ gs) ∧ d = ofGiven (before ++ gs) := by
  induction gs generalizing before with
  | nil =>
    rw [List.append_nil]
    constructor
    · rintro ⟨⟩
      exact ⟨h, rfl⟩
    · rintro ⟨-, rfl⟩
      rfl
  | cons g gs ih =>
    rw [List.foldlM_cons, List.append_cons]
    constructor
    · intro hGive
      obtain ⟨d₁, hFirst, hRest⟩ := exists_of_bind_eq_ok hGive
      obtain ⟨hNext, rfl⟩ := (give_ofGiven h g).1 hFirst
      exact (ih hNext).1 hRest
    · rintro ⟨hAll, rfl⟩
      have hNext := hAll.of_append
      rw [(give_ofGiven h g).2 ⟨hNext, rfl⟩]
      exact (ih hNext).2 ⟨hAll, rfl⟩

end Draft

/-- The arguments say what was given, and nothing else. -/
structure Says (gs : List Given) (a : Arguments) : Prop where
  utilities : valuesOf .utilities gs = [a.utilities]
  config : valuesOf .config gs = a.config?.toList
  namePrefix : valuesOf .namePrefix gs = a.overrides.namePrefix?.toList
  ignored : valuesOf .ignore gs = a.overrides.ignored
  prefixedOnly : a.overrides.prefixedOnly = true ↔ .prefixedOnly ∈ switchesOf gs
  noBare : a.overrides.noBare = true ↔ .noBare ∈ switchesOf gs
  deleteFolded : a.overrides.deleteFolded = true ↔ .deleteFolded ∈ switchesOf gs
  files : filesOf gs = a.input :: a.output?.toList

theorem Admissible.valuesOf_eq {gs : List Given} (h : Admissible gs) {o : ValueOption} (ho : o ≠ .ignore) :
    valuesOf o gs = (valuesOf o gs).head?.toList := by
  have hOnce := h.once o ho
  revert hOnce
  rcases valuesOf o gs with _ | ⟨v, _ | ⟨w, vs⟩⟩ <;> simp

theorem Admissible.tail_filesOf_eq {gs : List Given} (h : Admissible gs) :
    (filesOf gs).tail = (filesOf gs).tail.head?.toList := by
  have hFiles := h.files
  revert hFiles
  rcases filesOf gs with _ | ⟨input, _ | ⟨output, _ | ⟨more, rest⟩⟩⟩ <;> simp

theorem finish_ofGiven {gs : List Given} {a : Arguments} (h : Admissible gs) :
    (Draft.ofGiven gs).finish = .ok a ↔ Says gs a := by
  have hSwitch (s : Switch) : (Draft.ofGiven gs).switches.contains s = true ↔ s ∈ switchesOf gs :=
    List.contains_iff_mem
  constructor
  · intro hFinish
    unfold Draft.finish at hFinish
    split at hFinish
    · rename_i u input rest hUtilities hPositionals
      cases hFinish
      have hFiles : filesOf gs = input :: rest := hPositionals
      have hRest := h.tail_filesOf_eq
      rw [hFiles, List.tail_cons] at hRest
      refine ⟨?_, ?_, ?_, rfl, hSwitch _, hSwitch _, hSwitch _, ?_⟩
      · rw [Draft.lookup_ofGiven] at hUtilities
        have hOne := h.valuesOf_eq (o := .utilities) (by decide)
        rwa [hUtilities] at hOne
      · simpa only [Draft.lookup_ofGiven] using h.valuesOf_eq (by decide)
      · simpa only [Draft.lookup_ofGiven] using h.valuesOf_eq (by decide)
      · rw [hFiles, ← hRest]
    · cases hFinish
  · intro hSays
    obtain ⟨utilities, config?, ⟨namePrefix?, prefixedOnly, noBare, ignored, deleteFolded⟩, input, output?⟩ := a
    have hPositionals : (Draft.ofGiven gs).positionals = input :: output?.toList := hSays.files
    have hIgnored : ((Draft.ofGiven gs).values.filter (·.1 == .ignore)).map (·.2) = ignored := hSays.ignored
    have hOnly := Bool.eq_iff_iff.2 ((hSwitch _).trans hSays.prefixedOnly.symm)
    have hBare := Bool.eq_iff_iff.2 ((hSwitch _).trans hSays.noBare.symm)
    have hDelete := Bool.eq_iff_iff.2 ((hSwitch _).trans hSays.deleteFolded.symm)
    simp only [Draft.finish, Draft.lookup_ofGiven, hSays.utilities, hSays.config, hSays.namePrefix, hPositionals,
      hIgnored, hOnly, hBare, hDelete, List.head?_cons, Option.head?_toList]

theorem read_eq_ok_iff {args : List Text} {a : Arguments} :
    Arguments.read args = .ok a ↔ ∃ gs, Spells args gs ∧ Admissible gs ∧ Says gs a := by
  have hNone : Draft.ofGiven [] = {} := rfl
  rw [Arguments.read, ← hNone]
  constructor
  · intro h
    obtain ⟨d, hRead, hFinish⟩ := exists_of_bind_eq_ok h
    obtain ⟨gs, hSpells⟩ := Draft.spelledBehind_of_read hRead
    rw [Draft.read_of_spells hSpells] at hRead
    obtain ⟨hAll, rfl⟩ := (Draft.foldlM_give_ofGiven .nil).1 hRead
    exact ⟨gs, hSpells, hAll, (finish_ofGiven hAll).1 hFinish⟩
  · rintro ⟨gs, hSpells, hAll, hSays⟩
    rw [Draft.read_of_spells hSpells, (Draft.foldlM_give_ofGiven .nil).2 ⟨hAll, rfl⟩]
    exact (finish_ofGiven hAll).2 hSays

end ClassFold.Command

import ClassFold.Options.Basic

/-!
# The command line

Arguments are read from left to right, and the first that settles the outcome does so: a mistake, or a
question for the version or for help. Options and positional arguments mix freely until `--`; what
follows is positional. Every option but `--ignore` may be given once.
-/

set_option autoImplicit false

namespace ClassFold.Command

inductive ValueOption where
  | utilities
  | config
  | namePrefix
  | ignore
deriving DecidableEq, Repr

inductive Switch where
  | prefixedOnly
  | noBare
  | deleteFolded
deriving DecidableEq, Repr

inductive Name where
  | value (option : ValueOption)
  | switch (switch : Switch)
  | help
  | version
deriving DecidableEq, Repr

/-- Why the reading of arguments ends before the last one. -/
inductive Stop where
  | usage
  | help
  | version
deriving DecidableEq, Repr

def longNames : List (Text × Name) :=
  [("utilities".toList, .value .utilities), ("config".toList, .value .config),
    ("prefix".toList, .value .namePrefix), ("ignore".toList, .value .ignore),
    ("prefixed-only".toList, .switch .prefixedOnly), ("no-non-valued".toList, .switch .noBare),
    ("delete-class".toList, .switch .deleteFolded), ("help".toList, .help),
    ("version".toList, .version)]

def shortNames : List (Char × Name) :=
  [('u', .value .utilities), ('c', .value .config), ('h', .help), ('V', .version)]

/-- Options whose value names a file, which must not be empty. -/
def ValueOption.isPath : ValueOption → Bool
  | utilities | config => true
  | namePrefix | ignore => false

structure Draft where
  values : List (ValueOption × Text) := []
  switches : List Switch := []
  positionals : List Text := []
deriving DecidableEq, Repr

namespace Draft

def addValue (d : Draft) (o : ValueOption) (v : Text) : Except Stop Draft :=
  if o != .ignore && (d.values.lookup o).isSome then .error .usage
  else if o.isPath && v.isEmpty then .error .usage
  else .ok { d with values := d.values ++ [(o, v)] }

def addSwitch (d : Draft) (s : Switch) : Except Stop Draft :=
  if d.switches.contains s then .error .usage else .ok { d with switches := d.switches ++ [s] }

/-- A positional argument names a file, and there are at most two. -/
def addPositional (d : Draft) (v : Text) : Except Stop Draft :=
  if v.isEmpty || d.positionals.length ≥ 2 then .error .usage
  else .ok { d with positionals := d.positionals ++ [v] }

/-- The rest of an argument with two hyphens. The result names the option whose value is to come. -/
def readLong (d : Draft) (body : Text) : Except Stop (Draft × Option ValueOption) := do
  let attached? := match body.dropWhile (· != '=') with
    | _ :: v => some v
    | [] => none
  match longNames.lookup (body.takeWhile (· != '=')), attached? with
  | some (.value o), some v => return (← d.addValue o v, none)
  | some (.value o), none => return (d, some o)
  | some (.switch s), none => return (← d.addSwitch s, none)
  | some .help, none => throw .help
  | some .version, none => throw .version
  | _, _ => throw .usage

/-- The letters of an argument with one hyphen. The value of an option may follow its letter at once. -/
def readShort (d : Draft) : Text → Except Stop (Draft × Option ValueOption)
  | [] => .ok (d, none)
  | c :: rest =>
    match shortNames.lookup c with
    | some (.value o) =>
      match rest with
      | [] => .ok (d, some o)
      | '=' :: v => do return (← d.addValue o v, none)
      | v => do return (← d.addValue o v, none)
    | some (.switch s) => do readShort (← d.addSwitch s) rest
    | some .help => .error .help
    | some .version => .error .version
    | none => .error .usage

/-- Whether an argument is read as an option; a lone hyphen is not. -/
def looksLikeOption : Text → Bool
  | '-' :: _ :: _ => true
  | _ => false

def read (d : Draft) : Option ValueOption → List Text → Except Stop Draft
  | none, [] => .ok d
  | some _, [] => .error .usage
  | some o, arg :: rest => do
    if looksLikeOption arg then throw .usage
    read (← d.addValue o arg) none rest
  | none, arg :: rest =>
    match arg with
    | ['-', '-'] => rest.foldlM addPositional d
    | '-' :: '-' :: body => do
      let (d, pending) ← d.readLong body
      read d pending rest
    | '-' :: c :: letters => do
      let (d, pending) ← d.readShort (c :: letters)
      read d pending rest
    | _ => do read (← d.addPositional arg) none rest

end Draft

/-- What the command line says about options, to be laid over those of the configuration. -/
structure Overrides where
  namePrefix? : Option Text := none
  prefixedOnly : Bool := false
  noBare : Bool := false
  ignored : List Text := []
  deleteFolded : Bool := false
deriving DecidableEq, Repr

def Overrides.apply (f : Overrides) (o : Options) : Options where
  namePrefix := f.namePrefix?.getD o.namePrefix
  prefixedOnly := f.prefixedOnly || o.prefixedOnly
  bareAttributes := !f.noBare && o.bareAttributes
  ignoredNames := if f.ignored.isEmpty then o.ignoredNames else f.ignored
  deleteFolded := f.deleteFolded || o.deleteFolded

structure Arguments where
  utilities : Text
  config? : Option Text
  overrides : Overrides
  input : Text
  output? : Option Text
deriving DecidableEq, Repr

def Arguments.target (a : Arguments) : Text := a.output?.getD a.input

def Draft.finish (d : Draft) : Except Stop Arguments :=
  match d.values.lookup .utilities, d.positionals with
  | some utilities, input :: rest =>
    .ok {
      utilities
      config? := d.values.lookup .config
      overrides := {
        namePrefix? := d.values.lookup .namePrefix
        prefixedOnly := d.switches.contains .prefixedOnly
        noBare := d.switches.contains .noBare
        ignored := (d.values.filter (·.1 == .ignore)).map (·.2)
        deleteFolded := d.switches.contains .deleteFolded }
      input
      output? := rest.head? }
  | _, _ => .error .usage

def Arguments.read (args : List Text) : Except Stop Arguments := do
  (← Draft.read {} none args).finish

end ClassFold.Command

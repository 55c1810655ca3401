import ClassFold.Command.Arguments
import ClassFold.Options.Overlay
import ClassFold.Transform
import ClassFold.WordSet

/-!
# A run of the command

A run reads the configuration, the word list and the input, transforms the input and writes the result,
in this order, and the first step that fails ends it. Files are reached through an interface, so the same
run works on a real file system and on a model of one.
-/

set_option autoImplicit false

namespace ClassFold.Command

inductive Cause where
  | missing
  | notDirectory
  | isDirectory
  | nameTooLong
  | notText
  | other (text : String)
deriving DecidableEq, Repr

def Cause.text : Cause → String
  | missing => "No such file or directory (os error 2)"
  | notDirectory => "Not a directory (os error 20)"
  | isDirectory => "Is a directory (os error 21)"
  | nameTooLong => "File name too long (os error 36)"
  | notText => "stream did not contain valid UTF-8"
  | other text => text

structure Files (m : Type → Type) where
  read : Text → m (Except Cause ByteArray)
  write : Text → ByteArray → m (Except Cause Unit)

inductive Failure where
  | file (path : Text) (cause : Cause)
  | options (path : Text) (error : OptionsError)
  | transform (error : Error)

namespace Failure

def line : Failure → String
  | file path _ => "attributify: i/o error on " ++ String.ofList path
  | options path _ => "attributify: invalid options in " ++ String.ofList path
  | transform error => "attributify: " ++ error.message

def causeLine? : Failure → Option String
  | file _ cause => some ("  caused by: " ++ cause.text)
  | options _ _ => none
  | transform (.engine _ reason) => some ("  caused by: " ++ String.ofList reason)
  | transform (.misplaced _) => none

end Failure

structure Report where
  exit : Nat := 0
  stdout : String := ""
  failure? : Option Failure := none
  warnedEmpty : Bool := false

section

variable {m : Type → Type} [Monad m]

/-- The steps of a run; the state says whether a warning was given. -/
abbrev Steps (m : Type → Type) := ExceptT Failure (StateT Bool m)

def readText (files : Files m) (path : Text) : Steps m Text := do
  match ← (files.read path : m _) with
  | .error cause => throw (.file path cause)
  | .ok bytes =>
    match String.fromUTF8? bytes with
    | some s => return s.toList
    | none => throw (.file path .notText)

def readOptions (files : Files m) (a : Arguments) : Steps m Options := do
  match a.config? with
  | none => return a.overrides.apply {}
  | some path =>
    match Options.ofToml (← readText files path) with
    | .ok o => return a.overrides.apply o
    | .error error => throw (.options path error)

def readWords (files : Files m) (a : Arguments) : Steps m WordSet := do
  let words := WordSet.ofWordList (← readText files a.utilities)
  if words.isEmpty then set true
  return words

def steps (files : Files m) (a : Arguments) : Steps m Unit := do
  let o ← readOptions files a
  let words ← readWords files a
  let source ← readText files a.input
  match ClassFold.transform words.engine o source with
  | .error error => throw (.transform error)
  | .ok output =>
    match ← (files.write a.target (String.ofList output).toUTF8 : m _) with
    | .ok () => return
    | .error cause => throw (.file a.target cause)

def versionText : String := "attributify 0.1.0\n"

def helpText : String :=
  "Usage: attributify [OPTIONS] --utilities <UTILITIES> <INPUT> [OUTPUT]\n"

def run (files : Files m) (args : List Text) : m Report := do
  match Arguments.read args with
  | .error .usage => return { exit := 2 }
  | .error .help => return { stdout := helpText }
  | .error .version => return { stdout := versionText }
  | .ok a =>
    let (result, warnedEmpty) ← (steps files a).run.run false
    match result with
    | .ok () => return { warnedEmpty }
    | .error failure => return { exit := 1, failure? := some failure, warnedEmpty }

end

end ClassFold.Command

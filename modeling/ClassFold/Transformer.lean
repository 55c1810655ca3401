import ClassFold.Transform

/-!
# Configured transformers

A host keeps a list of transformers and asks each for its name and for its place among the others.
Stages run one after another on a text that every success replaces.
-/

set_option autoImplicit false

namespace ClassFold

inductive Enforce where
  | pre
  | post
deriving DecidableEq, Repr

structure Transformer where
  options : Options := {}

namespace Transformer

def name (_ : Transformer) : String := "transformer-attributify"

/-- It runs before other transformers, so that they see the final classes. -/
def enforce (_ : Transformer) : Enforce := .pre

def transform (t : Transformer) (engine : Engine) (source : Text) : Except Error Text :=
  ClassFold.transform engine t.options source

end Transformer

structure Stage where
  transformer : Transformer
  engine : Engine
  /-- Replaces the current text first. -/
  source? : Option Text := none

def Stage.runAll (current : Text) : List Stage → List (Except Error Text)
  | [] => []
  | s :: rest =>
    let source := s.source?.getD current
    let result := s.transformer.transform s.engine source
    result :: runAll (result.toOption.getD source) rest

end ClassFold

import ClassFold.Markup.Piece

/-!
# Attributes

An attribute is a flag or a valued attribute of a region, at the offset where its name starts. Its raw
text, its span and the span of its value follow from its parts.
-/

set_option autoImplicit false

namespace ClassFold

structure Attribute where
  start : Nat
  name : Text
  /-- Absent for a bare name. -/
  quoted? : Option Quoted
deriving DecidableEq, Repr

namespace Attribute

/-- The name through the quote or brace that ends the value. -/
def raw (a : Attribute) : Text := a.name ++ (a.quoted?.map Quoted.text).getD []

def value? (a : Attribute) : Option Text := a.quoted?.map (·.value)

def quote? (a : Attribute) : Option Char := a.quoted?.map (·.quote)

def span (a : Attribute) : Span :=
  ⟨a.start, a.start + a.raw.size, Nat.le_add_right _ _⟩

def valueSpan? (a : Attribute) : Option Span :=
  a.quoted?.map fun q =>
    let first := a.start + a.name.size + q.lead.size + q.quote.utf8Size
    ⟨first, first + q.value.size, Nat.le_add_right _ _⟩

end Attribute

/-- The attribute that a piece records, if the piece stands at `offset`. -/
def Piece.attribute? (offset : Nat) : Piece → Option Attribute
  | .flag name _ => some ⟨offset, name, none⟩
  | .valued name quoted => some ⟨offset, name, some quoted⟩
  | _ => none

def attributesFrom (offset : Nat) : List Piece → List Attribute
  | [] => []
  | p :: ps => (p.attribute? offset).toList ++ attributesFrom (offset + p.text.size) ps

def attributes (region : Text) : List Attribute := attributesFrom 0 (pieces region)

end ClassFold

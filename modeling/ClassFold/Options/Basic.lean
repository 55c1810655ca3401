import ClassFold.Text.Basic

/-!
# Options of a transformation
-/

set_option autoImplicit false

namespace ClassFold

structure Options where
  /-- Taken out of attribute names when `prefixedOnly` is set. -/
  namePrefix : Text := "un-".toList
  prefixedOnly : Bool := false
  bareAttributes : Bool := true
  ignoredNames : List Text := ["placeholder", "setup", "lang", "scoped"].map String.toList
  /-- Attributes whose classes were added are removed. -/
  deleteFolded : Bool := false
deriving DecidableEq, Repr

instance : Inhabited Options := ⟨{}⟩

def Options.ignores (o : Options) (name : Text) : Bool := o.ignoredNames.contains name

end ClassFold

import ClassFold.Markup.Element
import ClassFold.Disposition

/-!
# What the attributes of a tag contribute

Each attribute contributes the tokens that were confirmed for it, perhaps the place of the class list,
and perhaps its own deletion. A tag contributes what its attributes do, one after another; of several
class lists the last one counts. All spans are relative to the text of the tag.
-/

set_option autoImplicit false

namespace ClassFold

structure Contribution where
  tokens : List Text := []
  classList? : Option Span := none
  deletions : List Span := []
deriving DecidableEq, Repr

namespace Contribution

instance : EmptyCollection Contribution := ⟨{}⟩

instance : Append Contribution :=
  ⟨fun a b => ⟨a.tokens ++ b.tokens, b.classList?.or a.classList?, a.deletions ++ b.deletions⟩⟩

@[simp] theorem tokens_append (a b : Contribution) : (a ++ b).tokens = a.tokens ++ b.tokens := rfl

@[simp] theorem classList?_append (a b : Contribution) :
    (a ++ b).classList? = b.classList?.or a.classList? := rfl

@[simp] theorem deletions_append (a b : Contribution) :
    (a ++ b).deletions = a.deletions ++ b.deletions := rfl

def concat : List Contribution → Contribution
  | [] => ∅
  | c :: cs => c ++ concat cs

end Contribution

namespace Tag

def blankBefore (t : Tag) (offset : Nat) : Bool :=
  match Text.splitAt? offset t.text with
  | some (before, _) => before.getLast?.any isBlank
  | none => false

/-- The span to delete for an attribute that covers `r` of the region: with one blank before it, if
there is one. -/
def deletion (t : Tag) (r : Span) : Span :=
  let r := r.shift t.attrsOffset
  if t.blankBefore r.start then
    ⟨r.start - 1, r.stop, Nat.le_trans (Nat.sub_le _ _) r.start_le_stop⟩
  else r

end Tag

def Attribute.contribution (engine : Engine) (o : Options) (t : Tag) (a : Attribute)
    (confirmed : List Text) : Contribution where
  tokens := confirmed
  classList? :=
    if (classify engine o a).disposition = .existingClass then
      a.valueSpan?.map (·.shift t.attrsOffset)
    else none
  deletions := if o.deleteFolded && !confirmed.isEmpty then [t.deletion a.span] else []

def Attribute.resolve (engine : Engine) (o : Options) (t : Tag) (a : Attribute) :
    Ask Contribution := do
  let confirmed ← engine.confirmed (candidates engine o a)
  return a.contribution engine o t confirmed

def Tag.resolve (engine : Engine) (o : Options) (t : Tag) : Ask Contribution := do
  let parts ← (attributes t.attrs).mapM (·.resolve engine o t)
  return .concat parts

end ClassFold

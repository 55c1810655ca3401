import ClassFold.Contribution

/-!
# From contributions to a plan of edits

The tokens of a tag go to the end of its class list, or into a new `class` attribute behind the last
attribute. A tag without tokens is left alone. The edited text of a tag is one entry of the plan for
the document, and the plan is itself a list of edits.
-/

set_option autoImplicit false

namespace ClassFold

/-- A region without a slash that closes the tag and without the blanks at its end. -/
def trimRegion (region : Text) : Text :=
  let r := region.reverse
  let r := match r with
    | '/' :: s => s
    | _ => r
  (r.dropWhile isBlank).reverse

namespace Tag

def insertionPoint (t : Tag) : Nat := t.attrsOffset + (trimRegion t.attrs).size

def joinTokens (tokens : List Text) : Text := [' '].intercalate tokens

def classEdit (t : Tag) (c : Contribution) : Edit :=
  match c.classList? with
  | some r =>
    ⟨⟨r.stop, r.stop, Nat.le_refl _⟩,
      if r.isEmpty then joinTokens c.tokens else ' ' :: joinTokens c.tokens⟩
  | none =>
    ⟨⟨t.insertionPoint, t.insertionPoint, Nat.le_refl _⟩,
      " class=\x22".toList ++ joinTokens c.tokens ++ ['\x22']⟩

def edits (t : Tag) (c : Contribution) : List Edit :=
  c.deletions.map (⟨·, []⟩) ++ [t.classEdit c]

def edited (t : Tag) (c : Contribution) : Except Edit Text :=
  Edit.applyFrom 0 ((t.edits c).mergeSort Edit.standsBefore) t.text

end Tag

def Element.entry? (e : Element) (c : Contribution) : Except Edit (Option Edit) :=
  if c.tokens.isEmpty then .ok none
  else do
    let text ← e.toTag.edited c
    return some ⟨e.span, text⟩

abbrev Plan := List Edit

/-- The document with every entry of a plan in place, whatever the order of the entries. -/
def Plan.apply (plan : Plan) (source : Text) : Except Edit Text :=
  Edit.applyFrom 0 (plan.mergeSort Edit.startsBefore) source

end ClassFold

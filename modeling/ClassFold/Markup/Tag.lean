import ClassFold.Text.Blank

/-!
# Opening tags

An opening tag that carries attributes is a name, one blank, the attribute region and the closing `>`.
The four parts are kept apart, and the text of the tag and every offset in it follow from them.
-/

set_option autoImplicit false

namespace ClassFold

/-- A letter or digit of ASCII, or the underscore. -/
def isWordChar (c : Char) : Bool := c.isAlphanum || c == '_'

def isTagNameChar (c : Char) : Bool :=
  isWordChar c || c == ':' || c == '.' || c == '$' || c == '-'

def isQuote (c : Char) : Bool := c == '\x22' || c == '\x27' || c == '\x60'

structure Tag where
  name : Text
  gap : Char
  attrs : Text
deriving DecidableEq, Repr

namespace Tag

def head (t : Tag) : Text := '<' :: t.name ++ [t.gap]

def text (t : Tag) : Text := t.head ++ (t.attrs ++ ['>'])

def attrsOffset (t : Tag) : Nat := t.head.size

theorem length_text (t : Tag) : t.text.length = t.name.length + t.attrs.length + 3 := by
  simp only [text, head, List.length_append, List.length_cons, List.length_nil]
  omega

theorem size_text (t : Tag) : t.text.size = t.attrsOffset + t.attrs.size + 1 := by
  have h : '>'.utf8Size = 1 := by decide
  simp [text, attrsOffset, h, Nat.add_assoc]

end Tag

end ClassFold

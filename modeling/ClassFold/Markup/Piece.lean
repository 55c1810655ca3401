import ClassFold.Markup.Value

/-!
# Cutting an attribute region into pieces

Every character of a region belongs to exactly one piece, `flatMap_text_pieces`. A record of an
attribute is made of two kinds of piece: a flag, which is a bare name, and a valued attribute. The
others hold what is passed over: blanks, strays, dropped runs and attributes with a sealed value.
-/

set_option autoImplicit false

namespace ClassFold

inductive Piece where
  | blanks (run : Text)
  /-- An `=` or a brace that no name stands before. -/
  | stray (c : Char)
  /-- A string that no name stands before, its quotes included. -/
  | string (text : Text)
  /-- A run of name characters that makes no name. -/
  | dropped (run : Text)
  /-- A name with the slashes behind it. -/
  | flag (name slashes : Text)
  | valued (name : Text) (value : Quoted)
  /-- A name whose value is bare or an expression. -/
  | sealed (name lead value : Text)
deriving DecidableEq, Repr

namespace Piece

def text : Piece → Text
  | blanks run => run
  | stray c => [c]
  | string text => text
  | dropped run => run
  | flag name slashes => name ++ slashes
  | valued name value => name ++ value.text
  | sealed name lead value => name ++ lead ++ value

end Piece

def isNameChar (c : Char) : Bool :=
  !(isBlank c || isQuote c || c == '=' || c == '{' || c == '}')

/-- Numbers and what looks like a negative number or a long option are no names. -/
def isRefusedName : Text → Bool
  | '-' :: '-' :: _ => true
  | '-' :: d :: _ => d.isDigit
  | d :: _ => d.isDigit
  | [] => false

/-- A run of name characters without the slashes that end it, and these slashes. -/
def splitSlashes (run : Text) : Text × Text :=
  ((run.reverse.dropWhile (· == '/')).reverse, (run.reverse.takeWhile (· == '/')).reverse)

theorem splitSlashes_append (run : Text) : (splitSlashes run).1 ++ (splitSlashes run).2 = run := by
  rw [splitSlashes, ← List.reverse_append, List.takeWhile_append_dropWhile, List.reverse_reverse]

namespace Piece

/-- The piece that a name begins, given what follows the name. A value whose quote is not closed is
none: the name then stands alone. -/
def ofName (name rest : Text) : Piece × Text :=
  match rest.dropWhile isBlank with
  | '=' :: r =>
    let lead := rest.takeWhile isBlank ++ '=' :: r.takeWhile isBlank
    let body := r.dropWhile isBlank
    if opensQuoted body then
      match readQuoted? lead body with
      | some (value, after) => (valued name value, after)
      | none => (flag name [], rest)
    else (sealed name lead (readSealed body).1, (readSealed body).2)
  | _ => (flag name [], rest)

def read (c : Char) (s : Text) : Piece × Text :=
  if isBlank c then (blanks (c :: s.takeWhile isBlank), s.dropWhile isBlank)
  else if isQuote c then (string (c :: (readString c s).1), (readString c s).2)
  else if isNameChar c then
    let run := c :: s.takeWhile isNameChar
    let rest := s.dropWhile isNameChar
    let (name, slashes) := splitSlashes run
    if name.isEmpty || isRefusedName name then (dropped run, rest)
    else if slashes.isEmpty then ofName name rest
    else (flag name slashes, rest)
  else (stray c, s)

theorem text_ofName (name rest : Text) :
    (ofName name rest).1.text ++ (ofName name rest).2 = name ++ rest := by
  unfold ofName
  split
  · rename_i r hr
    have hrest := List.takeWhile_append_dropWhile (p := isBlank) (l := rest)
    have hbody := List.takeWhile_append_dropWhile (p := isBlank) (l := r)
    dsimp only
    split
    · split
      · rename_i value after hq
        have := eq_of_readQuoted? hq
        simp only [List.append_assoc, List.cons_append, hbody, ← hr, hrest] at this
        simp [text, this]
      · simp [text]
    · simp only [text, List.append_assoc, readSealed_append, List.cons_append, hbody, ← hr, hrest]
  · simp [text]

theorem text_read (c : Char) (s : Text) : (read c s).1.text ++ (read c s).2 = c :: s := by
  have hrun := List.takeWhile_append_dropWhile (p := isNameChar) (l := s)
  unfold read
  split
  · simp [text, List.takeWhile_append_dropWhile]
  · split
    · simp [text, readString_append]
    · split
      · have hs := splitSlashes_append (c :: s.takeWhile isNameChar)
        dsimp only
        split
        · simp [text, hrun]
        · split
          · rename_i he
            rw [List.isEmpty_iff.1 he, List.append_nil] at hs
            rw [text_ofName, hs, List.cons_append, hrun]
          · simp only [text]
            rw [hs, List.cons_append, hrun]
      · simp [text]

theorem text_ofName_ne_nil {name rest : Text} (h : name ≠ []) : (ofName name rest).1.text ≠ [] := by
  unfold ofName
  split
  · dsimp only
    split
    · split <;> simp [text, h]
    · simp [text, h]
  · simp [text, h]

theorem text_read_ne_nil (c : Char) (s : Text) : (read c s).1.text ≠ [] := by
  unfold read
  split
  · simp [text]
  · split
    · simp [text]
    · split
      · dsimp only
        split
        · simp [text]
        · rename_i hn
          simp only [Bool.or_eq_true, List.isEmpty_iff, not_or] at hn
          split
          · exact text_ofName_ne_nil hn.1
          · simp [text, hn.1]
      · simp [text]

theorem length_read (c : Char) (s : Text) : (read c s).2.length < (c :: s).length := by
  have h := congrArg List.length (text_read c s)
  have hpos := List.length_pos_iff.2 (text_read_ne_nil c s)
  rw [List.length_append] at h
  omega

end Piece

def pieces (region : Text) : List Piece :=
  match region with
  | [] => []
  | c :: s => (Piece.read c s).1 :: pieces (Piece.read c s).2
termination_by region.length
decreasing_by exact Piece.length_read c s

theorem flatMap_text_pieces (region : Text) : (pieces region).flatMap Piece.text = region := by
  fun_induction pieces region with
  | case1 => rfl
  | case2 c s ih => rw [List.flatMap_cons, ih, Piece.text_read]

end ClassFold

import ClassFold.Markup.Tag

/-!
# Values of attributes

A value is either quoted, in straight quotes with or without braces around them, or sealed: an
expression in braces, a string in other quotes, or bare text. The readers take a value from the front
of a text and give back what follows; nothing is lost on the way.
-/

set_option autoImplicit false

namespace ClassFold

/-- A quoted value with all that stands between the name and the next piece. -/
structure Quoted where
  /-- The `=` with the blanks around it, and the brace before the quote if there is one. -/
  lead : Text
  quote : Char
  value : Text
  /-- The brace after the quote, if one was opened and is closed there. -/
  tail : Text
deriving DecidableEq, Repr

def Quoted.text (q : Quoted) : Text := q.lead ++ q.quote :: (q.value ++ q.quote :: q.tail)

/-- A string from behind its opening quote `q`: through the closing quote, or all there is. -/
def readString (q : Char) (s : Text) : Text × Text :=
  match s.dropWhile (· != q) with
  | [] => (s, [])
  | c :: rest => (s.takeWhile (· != q) ++ [c], rest)

theorem readString_append (q : Char) (s : Text) : (readString q s).1 ++ (readString q s).2 = s := by
  unfold readString
  split
  · simp
  · rename_i c rest h
    rw [List.append_assoc, List.singleton_append, ← h, List.takeWhile_append_dropWhile]

theorem length_readString (q : Char) (s : Text) : (readString q s).2.length ≤ s.length := by
  have h := congrArg List.length (readString_append q s)
  rw [List.length_append] at h
  omega

/-- An expression from inside `depth` further braces, through the brace that closes it. Strings in it
are passed over whole. -/
def readInside? (depth : Nat) (s : Text) : Option (Text × Text) :=
  match s with
  | [] => none
  | c :: s =>
    if c == '{' then (readInside? (depth + 1) s).map fun (a, b) => (c :: a, b)
    else if c == '}' then
      match depth with
      | 0 => some ([c], s)
      | depth + 1 => (readInside? depth s).map fun (a, b) => (c :: a, b)
    else if isQuote c then
      (readInside? depth (readString c s).2).map fun (a, b) => (c :: ((readString c s).1 ++ a), b)
    else (readInside? depth s).map fun (a, b) => (c :: a, b)
termination_by s.length
decreasing_by
  all_goals simp only [List.length_cons]
  all_goals have := length_readString c s
  all_goals omega

theorem eq_of_readInside? {depth : Nat} {s a b : Text} (h : readInside? depth s = some (a, b)) :
    s = a ++ b := by
  fun_induction readInside? depth s generalizing a with
  | case1 => cases h
  | case2 depth c s hc ih =>
    obtain ⟨p, hp, rfl, rfl⟩ := by simpa using h
    simp [ih hp]
  | case3 c s hc hc' => cases h; rfl
  | case4 c s hc hc' depth ih =>
    obtain ⟨p, hp, rfl, rfl⟩ := by simpa using h
    simp [ih hp]
  | case5 depth c s hc hc' hq ih =>
    obtain ⟨p, hp, rfl, rfl⟩ := by simpa using h
    simp only [List.cons_append, List.append_assoc, List.cons.injEq, true_and]
    rw [← ih hp, readString_append]
  | case6 depth c s hc hc' hq ih =>
    obtain ⟨p, hp, rfl, rfl⟩ := by simpa using h
    simp [ih hp]

/-- The expression in braces at the front of a text, if it is closed. -/
def readBinding? : Text → Option (Text × Text)
  | '{' :: s => (readInside? 0 s).map fun (a, b) => ('{' :: a, b)
  | _ => none

theorem eq_of_readBinding? {s a b : Text} (h : readBinding? s = some (a, b)) : s = a ++ b := by
  unfold readBinding? at h
  split at h
  · obtain ⟨p, hp, rfl, rfl⟩ := by simpa using h
    simp [eq_of_readInside? hp]
  · cases h

/-- A value that is not in straight quotes: an expression through its closing brace, a string through
its closing quote, anything else up to the next blank. What is not closed takes all there is. -/
def readSealed (s : Text) : Text × Text :=
  match s with
  | [] => ([], [])
  | c :: r =>
    if c == '{' then (readBinding? s).getD (s, [])
    else if isQuote c then (c :: (readString c r).1, (readString c r).2)
    else (s.takeWhile (!isBlank ·), s.dropWhile (!isBlank ·))

theorem readSealed_append (s : Text) : (readSealed s).1 ++ (readSealed s).2 = s := by
  unfold readSealed
  split
  · rfl
  · split
    · cases h : readBinding? _ with
      | none => simp
      | some p => exact (eq_of_readBinding? h).symm
    · split
      · simp [readString_append]
      · exact List.takeWhile_append_dropWhile

def splitBrace : Text → Text × Text
  | '{' :: s => (['{'], s)
  | s => ([], s)

theorem splitBrace_append (s : Text) : (splitBrace s).1 ++ (splitBrace s).2 = s := by
  unfold splitBrace
  split <;> rfl

/-- The closing brace at the front of a text, if one was opened, and the rest. -/
def closeBrace (opened s : Text) : Text × Text :=
  match opened, s with
  | _ :: _, '}' :: s => (['}'], s)
  | _, s => ([], s)

theorem closeBrace_append (opened s : Text) : (closeBrace opened s).1 ++ (closeBrace opened s).2 = s := by
  unfold closeBrace
  split <;> rfl

def isStraightQuote (c : Char) : Bool := c == '\x22' || c == '\x27'

/-- Whether a value in straight quotes starts here, closed or not. -/
def opensQuoted (s : Text) : Bool := (splitBrace s).2.head?.any isStraightQuote

/-- The value in straight quotes at the front of a text, if its quote is closed. -/
def readQuoted? (lead s : Text) : Option (Quoted × Text) :=
  match (splitBrace s).2 with
  | [] => none
  | q :: r =>
    if isStraightQuote q then
      match r.dropWhile (· != q) with
      | [] => none
      | _ :: after =>
        let closed := closeBrace (splitBrace s).1 after
        some (⟨lead ++ (splitBrace s).1, q, r.takeWhile (· != q), closed.1⟩, closed.2)
    else none

theorem eq_of_dropWhile_ne {q c : Char} {s rest : Text} (h : s.dropWhile (· != q) = c :: rest) :
    s = s.takeWhile (· != q) ++ q :: rest := by
  have hc : c = q := by
    have := List.head?_dropWhile_not (· != q) s
    simpa [h] using this
  have hs := List.takeWhile_append_dropWhile (p := (· != q)) (l := s)
  rw [h, hc] at hs
  exact hs.symm

theorem eq_of_readQuoted? {lead s rest : Text} {v : Quoted} (h : readQuoted? lead s = some (v, rest)) :
    lead ++ s = v.text ++ rest := by
  unfold readQuoted? at h
  split at h
  · cases h
  · rename_i q r hs
    split at h
    · split at h
      · cases h
      · rename_i c after hd
        simp only [Option.some.injEq, Prod.mk.injEq] at h
        obtain ⟨rfl, rfl⟩ := h
        have hr := eq_of_dropWhile_ne hd
        have hb := splitBrace_append s
        rw [hs] at hb
        simp only [Quoted.text, List.append_assoc, List.cons_append, closeBrace_append]
        rw [← hr, hb]
    · cases h

end ClassFold

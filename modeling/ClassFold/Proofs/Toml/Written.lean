import Mathlib.Algebra.Group.Nat.Defs
import Mathlib.Data.List.Forall2
import Mathlib.Data.List.Nodup
import Mathlib.Data.List.ReduceOption
import Mathlib.Data.Option.Basic
import ClassFold.Proofs.Toml.Reading
import ClassFold.Toml.Document

/-!
# Tables written as text

A table of strings, booleans and arrays of strings is written a key a line. Characters that may not stand in a
string by themselves are written by their number. The document is read back as the table it was written from,
entries in the same order: `document?_flatten_lines`.
-/

set_option autoImplicit false

namespace ClassFold.Toml

def hexDigit (d : Nat) : Char := if d < 10 then Char.ofNat ('0'.toNat + d) else Char.ofNat ('A'.toNat + (d - 10))

def hexText : Nat → Nat → Text
  | 0, _ => []
  | width + 1, n => hexText width (n / 16) ++ [hexDigit (n % 16)]

def writtenChar (c : Char) : Text := if isBasicChar c then [c] else '\\' :: 'U' :: hexText 8 c.toNat

def writtenString (s : Text) : Text := '\x22' :: (s.flatMap writtenChar ++ ['\x22'])

def writtenFurther (names : List Text) : Text := names.flatMap fun name => ',' :: ' ' :: writtenString name

def writtenItems : List Text → Text
  | [] => []
  | name :: names => writtenString name ++ writtenFurther names

def writtenArray (names : List Text) : Text := '[' :: (writtenItems names ++ [']'])

def writtenBoolean (b : Bool) : Text := (if b then "true" else "false").toList

def writtenLine (key text : Text) : Text := key ++ (' ' :: '=' :: ' ' :: (text ++ ['\n']))

/-- A value as it stands behind a key. -/
inductive Writes : Value → Text → Prop where
  | string (s : Text) : Writes (.string s) (writtenString s)
  | boolean (b : Bool) : Writes (.boolean b) (writtenBoolean b)
  | strings (names : List Text) : Writes (.array (names.map .string)) (writtenArray names)

def IsBareKey (key : Text) : Prop := key ≠ [] ∧ ∀ c ∈ key, isBareKeyChar c = true

instance (key : Text) : Decidable (IsBareKey key) := @instDecidableAnd _ _ _ (List.decidableBAll _ key)

/-- An entry as a line of its own. -/
inductive IsLineOf : Text × Value → Text → Prop where
  | mk {key text : Text} {v : Value} (hKey : IsBareKey key) (hText : Writes v text) :
      IsLineOf (key, v) (writtenLine key text)

theorem isHexDigit_hexDigit {d : Nat} (h : d < 16) : isHexDigit (hexDigit d) = true := by
  revert d
  decide

theorem digitValue_hexDigit {d : Nat} (h : d < 16) : digitValue (hexDigit d) = d := by
  revert d
  decide

theorem length_hexText (width n : Nat) : (hexText width n).length = width := by
  induction width generalizing n with
  | zero => rfl
  | succ width ih => rw [hexText, List.length_append, ih, List.length_singleton]

theorem isHexDigit_of_mem_hexText {width n : Nat} {c : Char} (h : c ∈ hexText width n) : isHexDigit c = true := by
  induction width generalizing n with
  | zero => cases h
  | succ width ih =>
    obtain h | h := List.mem_append.1 h
    · exact ih h
    · rw [List.mem_singleton.1 h]
      exact isHexDigit_hexDigit (Nat.mod_lt _ (by decide))

theorem numberOf_hexText {width n : Nat} (h : n < 16 ^ width) : numberOf 16 (hexText width n) = n := by
  induction width generalizing n with
  | zero =>
    rw [Nat.lt_one_iff.1 h]
    rfl
  | succ width ih =>
    have hStep (t : Text) (d : Char) : numberOf 16 (t ++ [d]) = numberOf 16 t * 16 + digitValue d := by
      simp [numberOf]
    have hDiv : n / 16 < 16 ^ width := Nat.div_lt_of_lt_mul (by rwa [Nat.pow_succ, Nat.mul_comm] at h)
    rw [hexText, hStep, ih hDiv, digitValue_hexDigit (Nat.mod_lt _ (by decide))]
    omega

namespace Reader

variable {rest : Text} {c : Char}

theorem takes_escape (c : Char) (rest : Text) : Takes escape ('\\' :: 'U' :: hexText 8 c.toNat) c rest := by
  have hValid : c.toNat.isValidChar := c.valid
  have hSmall : c.toNat < 16 ^ 8 := by
    rw [Nat.isValidChar] at hValid
    omega
  have hNumber : Takes (guard (numberOf 16 (hexText 8 c.toNat)).isValidChar >>=
      fun _ => pure (Char.ofNat (numberOf 16 (hexText 8 c.toNat))) : Reader Char) [] c rest := by
    rw [numberOf_hexText hSmall, guard, if_pos hValid, Char.ofNat_toNat]
    rfl
  have hDigits : ∀ d ∈ hexText 8 c.toNat, isHexDigit d = true := fun d => isHexDigit_of_mem_hexText
  have hTimes := Takes.times hDigits rest
  rw [length_hexText] at hTimes
  have hScalar : Takes (scalar 8) (hexText 8 c.toNat) c rest := hTimes.bind_last hNumber
  have hLetter : Takes (satisfying fun _ => true) ['U'] 'U' (hexText 8 c.toNat ++ rest) := rfl
  exact (Takes.char '\\' _).bind (hLetter.bind hScalar)

theorem takes_writtenChar (c : Char) (rest : Text) :
    Takes (satisfying isBasicChar <|> escape) (writtenChar c) c rest := by
  rw [writtenChar]
  split
  · rename_i hBasic
    have hTaken : Takes (satisfying isBasicChar) [c] c rest := if_pos hBasic
    exact hTaken.orElse_left escape
  · exact .orElse_right rfl (takes_escape c rest)

theorem head?_writtenChar_ne (c : Char) (s : Text) : (writtenChar c ++ s).head? ≠ some '\x22' := by
  rw [writtenChar]
  split
  · rename_i hBasic
    rintro ⟨⟩
    cases hBasic
  · nofun

theorem steps_writtenString (s rest : Text) :
    Steps (satisfying isBasicChar <|> escape) (s.flatMap writtenChar) s ('\x22' :: rest) := by
  induction s with
  | nil => exact .nil rfl
  | cons c s ih =>
    have hNe : writtenChar c ≠ [] := by
      rw [writtenChar]
      split <;> nofun
    exact .cons hNe (takes_writtenChar c _) ih

theorem takes_basicString (s rest : Text) : Takes basicString (writtenString s) s rest :=
  (Takes.char '\x22' _).bind ((Takes.many (steps_writtenString s rest)).bind
    ((Takes.char '\x22' rest).bind_pure fun _ => s))

/-- An empty string is not mistaken for the three quotes of a long one unless a further quote follows. -/
theorem longBasicString_eq_none (s : Text) (hRest : rest.head? ≠ some '\x22') :
    longBasicString (writtenString s ++ rest) = none := by
  refine bind_eq_none (bind_eq_none (exactly_eq_none ?_) _) _
  rintro ⟨t, hText⟩
  cases s with
  | nil =>
    have hQuote : '\x22' :: t = rest := (List.cons.inj (List.cons.inj hText).2).2
    exact hRest (congrArg List.head? hQuote.symm)
  | cons c s =>
    have hHead : ∀ more, writtenString (c :: s) ++ rest = '\x22' :: more → more.head? ≠ some '\x22' := by
      rintro more hMore
      obtain ⟨-, rfl⟩ := List.cons.inj hMore
      rw [List.flatMap_cons, List.append_assoc, List.append_eq, List.append_assoc]
      exact head?_writtenChar_ne c _
    exact hHead _ hText.symm rfl

theorem takes_plainString (s : Text) (hRest : rest.head? ≠ some '\x22') :
    Takes plainValue (writtenString s) (.string s) rest := by
  have hString : Takes string (writtenString s) s rest :=
    .orElse_right (longBasicString_eq_none s hRest) ((takes_basicString s rest).orElse_left _)
  exact (hString.bind_pure Value.string).orElse_left _

theorem takes_plainBoolean (b : Bool) (rest : Text) : Takes plainValue (writtenBoolean b) (.boolean b) rest := by
  cases b <;> rfl

theorem takes_valueWithin {v : Value} {text : Text} (h : Takes plainValue text v rest) (depth : Nat) :
    Takes (valueWithin depth) text v rest := by
  cases depth with
  | zero => exact h
  | succ depth => exact h.orElse_left _

/-- Behind an item stands a comma or the bracket. -/
theorem exists_writtenFurther (names : List Text) (rest : Text) :
    ∃ s, writtenFurther names ++ ']' :: rest = ',' :: s ∨ writtenFurther names ++ ']' :: rest = ']' :: s := by
  cases names with
  | nil => exact ⟨rest, Or.inr rfl⟩
  | cons => exact ⟨_, Or.inl rfl⟩

/-- An item of an array, with the gap before it, if there is one. -/
theorem takes_item {gapText : Text} (hGap : gapText = [] ∨ gapText = [' ']) (name : Text) (depth : Nat)
    (hRest : ∃ s, rest = ',' :: s ∨ rest = ']' :: s) :
    Takes (gap *> valueWithin depth <* gap) (gapText ++ writtenString name) (.string name) rest := by
  have hBefore : Takes gap gapText () (writtenString name ++ rest) := by
    rcases hGap with rfl | rfl <;> rfl
  have hBehind : Takes gap [] () rest := by
    obtain ⟨s, rfl | rfl⟩ := hRest <;> rfl
  have hQuote : rest.head? ≠ some '\x22' := by
    obtain ⟨s, rfl | rfl⟩ := hRest <;> nofun
  exact (hBefore.seqRight (takes_valueWithin (takes_plainString name hQuote) depth)).seqLeft_last hBehind

theorem steps_writtenFurther (names : List Text) (depth : Nat) (rest : Text) :
    Steps (char ',' *> (gap *> valueWithin depth <* gap)) (writtenFurther names) (names.map Value.string)
      (']' :: rest) := by
  induction names with
  | nil => exact .nil rfl
  | cons name names ih =>
    have hItem := takes_item (Or.inr rfl) name depth (exists_writtenFurther names rest)
    exact .cons nofun ((Takes.char ',' _).seqRight hItem) ih

theorem takes_items (names : List Text) (depth : Nat) (rest : Text) :
    Takes (items (valueWithin depth)) (writtenItems names) (names.map .string) (']' :: rest) := by
  cases names with
  | nil =>
    have hNone : (gap *> valueWithin depth <* gap) (']' :: rest) = none := by
      cases depth <;> rfl
    have hNothing : Takes (optional (separated (gap *> valueWithin depth <* gap) (char ','))) [] none (']' :: rest) :=
      .optional_none (bind_eq_none hNone _)
    have hEnd : Takes (gap >>= fun _ => pure []) [] ([] : List Value) (']' :: rest) := rfl
    exact hNothing.bind_last hEnd
  | cons name names =>
    have hFirst := takes_item (Or.inl rfl) name depth (exists_writtenFurther names rest)
    have hItems := (hFirst.separated (steps_writtenFurther names depth rest)).optional_some
    have hEnd : Takes (optional (char ',' *> gap) >>= fun _ => pure (.string name :: names.map Value.string)) []
        (.string name :: names.map .string) (']' :: rest) := rfl
    exact hItems.bind_last hEnd

theorem takes_array (names : List Text) (depth : Nat) (rest : Text) :
    Takes (array (valueWithin depth)) (writtenArray names) (.array (names.map .string)) rest :=
  (Takes.char '[' _).bind ((takes_items names depth rest).bind ((Takes.char ']' rest).bind_pure _))

theorem takes_value {v : Value} {text : Text} (h : Writes v text) (hRest : rest.head? ≠ some '\x22') :
    Takes value text v rest := by
  cases h with
  | string s => exact takes_valueWithin (takes_plainString s hRest) _
  | boolean b => exact takes_valueWithin (takes_plainBoolean b rest) _
  | strings names =>
    have hArray : Takes (valueWithin (78 + 1)) (writtenArray names) (.array (names.map .string)) rest :=
      .orElse_right rfl ((takes_array names 78 rest).orElse_left _)
    exact hArray

/-- A text that starts as a bare key does, if at all. -/
def StartsBare (s : Text) : Prop := ∀ c, s.head? = some c → isBareKeyChar c = true

variable {s key text : Text} {v : Value} {entry : Text × Value} {entries : Table} {lines : List Text}

theorem startsBare (hKey : IsBareKey key) (s : Text) : StartsBare (key ++ s) := by
  obtain ⟨hNe, hChars⟩ := hKey
  obtain ⟨c, key, rfl⟩ := List.exists_cons_of_ne_nil hNe
  rintro d ⟨⟩
  exact hChars c List.mem_cons_self

theorem StartsBare.head?_ne (h : StartsBare s) {c : Char} (hc : isBareKeyChar c = false) : s.head? ≠ some c := by
  intro hHead
  cases (h c hHead).symm.trans hc

theorem StartsBare.isSpace_head? (h : StartsBare s) : ∀ c, s.head? = some c → isSpace c = false := by
  intro c hHead
  rw [← Bool.not_eq_true]
  intro hSpace
  rcases Bool.or_eq_true_iff.1 hSpace with hc | hc
  all_goals
    rw [beq_iff_eq.1 hc] at hHead
    exact h.head?_ne rfl hHead

theorem StartsBare.exactly_eq_none (h : StartsBare s) {c : Char} (hc : isBareKeyChar c = false) (t : Text) :
    exactly (c :: t) s = none := by
  refine Reader.exactly_eq_none ?_
  rintro ⟨rest, rfl⟩
  exact h.head?_ne hc rfl

theorem takes_noSpaces (h : StartsBare rest) : Takes spaces [] () rest :=
  (Takes.run (List.forall_mem_nil _) h.isSpace_head?).bind_pure fun _ => ()

theorem takes_dottedKey (hKey : IsBareKey key) (rest : Text) :
    Takes dottedKey (key ++ [' ']) ([], key) ('=' :: rest) := by
  have hStart (s : Text) := startsBare hKey s
  have hSimple : Takes simpleKey key key (' ' :: '=' :: rest) := by
    refine .orElse_right (bind_eq_none (char_eq_none ((hStart _).head?_ne rfl)) _) ?_
    refine .orElse_right (bind_eq_none (char_eq_none ((hStart _).head?_ne rfl)) _) ?_
    exact .run1 hKey.1 hKey.2 (by rintro c ⟨⟩; rfl)
  have hSpace : Takes spaces [' '] () ('=' :: rest) := rfl
  have hPart : Takes (spaces *> simpleKey <* spaces) (key ++ [' ']) key ('=' :: rest) :=
    ((takes_noSpaces (hStart _)).seqRight hSimple).seqLeft hSpace
  have hParts : Takes (separated (spaces *> simpleKey <* spaces) (char '.')) (key ++ [' ']) [key] ('=' :: rest) :=
    hPart.separated_one rfl
  have hEnd : Takes (guard ([key].length < depthLimit) >>= fun _ => pure ([], key) : Reader (List Text × Text)) []
      ([], key) ('=' :: rest) := rfl
  exact hParts.bind_last hEnd

/-- A value starts with a quote, a bracket or a letter. -/
theorem isSpace_head?_of_writes (h : Writes v text) (s : Text) : ∀ c, (text ++ s).head? = some c → isSpace c = false := by
  cases h with
  | string s => rintro c ⟨⟩; rfl
  | boolean b => cases b <;> rintro c ⟨⟩ <;> rfl
  | strings names => rintro c ⟨⟩; rfl

theorem takes_pairOf (hKey : IsBareKey key) (hText : Writes v text) (rest : Text) :
    Takes (pairOf value) (key ++ [' '] ++ ('=' :: ' ' :: text)) (([], key), v) ('\n' :: rest) := by
  have hSpace : Takes spaces [' '] () (text ++ '\n' :: rest) :=
    (Takes.run (by simp [isSpace]) (isSpace_head?_of_writes hText _)).bind_pure fun _ => ()
  have hValue : Takes value text v ('\n' :: rest) := takes_value hText nofun
  exact (takes_dottedKey hKey _).bind ((Takes.char '=' _).bind (hSpace.bind (hValue.bind_pure _)))

theorem startsBare_line (h : IsLineOf entry text) (s : Text) : StartsBare (text ++ s) := by
  cases h with
  | mk hKey hText =>
    rw [writtenLine, List.append_assoc]
    exact startsBare hKey _

theorem takes_statement (h : IsLineOf entry text) (rest : Text) :
    Takes statement text (.pair [] entry.1 entry.2) rest := by
  have hStart := startsBare_line h rest
  refine .orElse_right (bind_eq_none (bind_eq_none (hStart.exactly_eq_none rfl _) _) _) ?_
  refine .orElse_right (bind_eq_none (bind_eq_none (hStart.exactly_eq_none rfl _) _) _) ?_
  cases h with
  | @mk key text v hKey hText =>
    have hEnd : Takes lineEnd ['\n'] () rest := rfl
    have hLine : writtenLine key text = key ++ [' '] ++ ('=' :: ' ' :: text) ++ ['\n'] := by simp [writtenLine]
    rw [hLine]
    exact Takes.bind (takes_pairOf hKey hText rest) (hEnd.bind_pure fun _ => Statement.pair [] key v)

/-- A line is a statement, and no empty one. -/
theorem takes_line (h : IsLineOf entry text) (hRest : StartsBare rest) :
    Takes (((do emptyLine; return none) <|> (do return some (← statement))) <* spaces) text
      (some (.pair [] entry.1 entry.2)) rest := by
  have hStart := startsBare_line h rest
  have hNewline : newline (text ++ rest) = none :=
    orElse_eq_none (hStart.exactly_eq_none rfl _) (hStart.exactly_eq_none rfl _)
  have hComment : comment (text ++ rest) = none := bind_eq_none (char_eq_none (hStart.head?_ne rfl)) _
  have hEmpty : emptyLine (text ++ rest) = none := orElse_eq_none hNewline (bind_eq_none hComment _)
  have hStatement : Takes ((do emptyLine; return none) <|> (do return some (← statement))) text
      (some (.pair [] entry.1 entry.2)) rest :=
    .orElse_right (bind_eq_none hEmpty _) ((takes_statement h rest).bind_pure some)
  exact hStatement.seqLeft_last (takes_noSpaces hRest)

theorem startsBare_lines (h : List.Forall₂ IsLineOf entries lines) : StartsBare lines.flatten := by
  cases h with
  | nil => nofun
  | cons hLine _ => exact startsBare_line hLine _

theorem steps_lines (h : List.Forall₂ IsLineOf entries lines) :
    Steps (((do emptyLine; return none) <|> (do return some (← statement))) <* spaces) lines.flatten
      (entries.map fun entry => some (.pair [] entry.1 entry.2)) [] := by
  induction h with
  | nil => exact .nil rfl
  | @cons entry text entries lines hLine hLines ih =>
    have hNe : text ≠ [] := by
      cases hLine with
      | mk hKey hText => simp [writtenLine]
    refine .cons hNe (takes_line hLine ?_) ih
    rw [List.append_nil]
    exact startsBare_lines hLines

theorem takes_statements (h : List.Forall₂ IsLineOf entries lines) :
    Takes statements lines.flatten (entries.map fun entry => .pair [] entry.1 entry.2) [] := by
  have hStart : StartsBare (lines.flatten ++ []) := by
    rw [List.append_nil]
    exact startsBare_lines h
  have hMark : Takes (optional (char '\ufeff')) [] none (lines.flatten ++ []) :=
    .optional_none (char_eq_none (hStart.head?_ne rfl))
  have hReduce : (entries.map fun entry => some (Statement.pair [] entry.1 entry.2)).reduceOption =
      entries.map fun entry => .pair [] entry.1 entry.2 := by
    rw [List.reduceOption, List.filterMap_map, Function.id_comp, List.filterMap_eq_map']
  have hEnd : Takes (atEnd >>= fun _ => pure
      (entries.map fun entry => some (Statement.pair [] entry.1 entry.2)).reduceOption) []
      (entries.map fun entry => .pair [] entry.1 entry.2) [] := by
    rw [hReduce]
    rfl
  exact hMark.bind ((takes_noSpaces hStart).bind ((Takes.many (steps_lines h)).bind_last hEnd))

end Reader

/-- Pairs with keys of their own come behind each other in the table that is open. -/
theorem foldlM_pairs {b : Builder} {entries : Table} (hDistinct : ((b.current ++ entries).map Prod.fst).Nodup) :
    (entries.map fun entry => Statement.pair [] entry.1 entry.2).foldlM Builder.apply b =
      some { b with current := b.current ++ entries } := by
  induction entries generalizing b with
  | nil =>
    rw [List.append_nil]
    rfl
  | cons entry entries ih =>
    rw [List.map_cons, List.foldlM_cons]
    have hFree : b.current.lookup entry.1 = none := by
      rw [List.map_append, List.map_cons] at hDistinct
      have hNotMem := (List.nodup_middle.1 hDistinct).notMem
      rw [List.lookup_eq_none_iff]
      intro other hOther
      rw [bne_iff_ne]
      intro hKey
      refine hNotMem (List.mem_append_left _ ?_)
      rw [hKey]
      exact List.mem_map_of_mem hOther
    have hAdd : b.apply (.pair [] entry.1 entry.2) = some { b with current := b.current ++ [entry] } := by
      change b.add [] entry.1 entry.2 = _
      rw [Builder.add, Table.add, Table.visit, hFree]
      rfl
    have hNext : (((b.current ++ [entry]) ++ entries).map Prod.fst).Nodup := by rwa [List.append_assoc]
    have hRest := ih (b := { b with current := b.current ++ [entry] }) hNext
    rw [List.append_assoc] at hRest
    rw [hAdd]
    exact hRest

/-- A document of lines that are entries is the table of these entries. -/
theorem document?_flatten_lines {entries : Table} {lines : List Text} (h : List.Forall₂ IsLineOf entries lines)
    (hDistinct : (entries.map Prod.fst).Nodup) : document? lines.flatten = some entries := by
  have hStatements := Reader.takes_statements h
  rw [Reader.Takes, List.append_nil] at hStatements
  have hFold := foldlM_pairs (b := {}) hDistinct
  rw [document?, hStatements]
  change ((entries.map fun entry => Statement.pair [] entry.1 entry.2).foldlM Builder.apply {}).bind Builder.close = _
  rw [hFold]
  rfl

end ClassFold.Toml

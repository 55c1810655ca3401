import ClassFold.Plan
import ClassFold.Proofs.Markup.Closing
import ClassFold.Proofs.Markup.Cutting

/-!
# Regions trimmed for a new attribute

What is put behind the trimmed part of a region leaves the attributes in front of it as they are, unless
the last of them has a bare value that takes the closing slash, or no value behind its sign: then the text
of that attribute changes.
-/

set_option autoImplicit false

namespace ClassFold

open TagEnd (IsFiller)

/-- What is left of a region and what is trimmed from it. -/
structure Trimmed (x tail : Text) : Prop where
  last : ∀ c, x.getLast? = some c → isBlank c = false
  filler : ∃ bs : Text, (∀ c ∈ bs, isBlank c = true) ∧ (tail = bs ∨ tail = bs ++ ['/'])
  slash : tail = [] → x.getLast? ≠ some '/'

theorem exists_trimmed (region : Text) :
    ∃ tail, region = trimRegion region ++ tail ∧ Trimmed (trimRegion region) tail := by
  have hLast (s : Text) (c : Char) (hc : (s.dropWhile isBlank).reverse.getLast? = some c) : isBlank c = false := by
    rw [List.getLast?_reverse] at hc
    exact head?_dropWhile hc
  have hParts (s : Text) : (s.dropWhile isBlank).reverse ++ (s.takeWhile isBlank).reverse = s.reverse := by
    rw [← List.reverse_append, List.takeWhile_append_dropWhile]
  have hBlanks (s : Text) : ∀ c ∈ (s.takeWhile isBlank).reverse, isBlank c = true := by
    intro c hc
    exact List.mem_takeWhile_imp (List.mem_reverse.1 hc)
  unfold trimRegion
  dsimp only
  split
  · rename_i s hs
    refine ⟨(s.takeWhile isBlank).reverse ++ ['/'], ?_, hLast s, ⟨_, hBlanks s, Or.inr rfl⟩, by simp⟩
    rw [← List.append_assoc, hParts, ← List.reverse_cons, ← hs, List.reverse_reverse]
  · rename_i hs
    refine ⟨(region.reverse.takeWhile isBlank).reverse, ?_, hLast _, ⟨_, hBlanks _, Or.inl rfl⟩, ?_⟩
    · rw [hParts, List.reverse_reverse]
    · intro hNil hSlash
      have hNone : region.reverse.takeWhile isBlank = [] := List.reverse_eq_nil_iff.1 hNil
      have hAll := List.takeWhile_append_dropWhile (p := isBlank) (l := region.reverse)
      rw [hNone, List.nil_append] at hAll
      rw [List.getLast?_reverse, hAll] at hSlash
      obtain ⟨s, hs'⟩ := List.head?_eq_some_iff.1 hSlash
      exact hs s hs'

namespace Trimmed

variable {x y tail m rest : Text}

theorem isFiller (h : Trimmed x tail) : IsFiller tail := by
  obtain ⟨bs, hBlanks, rfl | rfl⟩ := h.filler
  · exact fun c hc => Or.inl (hBlanks c hc)
  · intro c hc
    rcases List.mem_append.1 hc with hc | hc
    · exact Or.inl (hBlanks c hc)
    · exact Or.inr (List.mem_singleton.1 hc)

theorem right (h : Trimmed (y ++ x) tail) : Trimmed x tail := by
  have hGo {c : Char} (hc : x.getLast? = some c) : (y ++ x).getLast? = some c := by
    rw [List.getLast?_append, hc]
    rfl
  exact ⟨fun c hc => h.last c (hGo hc), h.filler, fun hNil hSlash => h.slash hNil (hGo hSlash)⟩

/-- A slash is the last thing that is trimmed. -/
theorem eq_nil_of_slash (h : Trimmed x (m ++ rest)) (hm : m.getLast? = some '/') : rest = [] := by
  obtain ⟨m', rfl⟩ := List.getLast?_eq_some_iff.1 hm
  obtain ⟨bs, hBlanks, hEq | hEq⟩ := h.filler
  · have hSlash := hBlanks '/' (by rw [← hEq]; simp)
    exact absurd hSlash (by decide)
  · rw [List.append_assoc, List.singleton_append] at hEq
    rcases List.eq_nil_or_concat rest with rfl | ⟨init, d, rfl⟩
    · rfl
    · rw [List.concat_eq_append, ← List.cons_append, ← List.append_assoc] at hEq
      have hInit := (List.append_inj' hEq rfl).1
      have hSlash := hBlanks '/' (by rw [← hInit]; simp)
      exact absurd hSlash (by decide)

/-- Of a text without blanks at most the slash at its end is trimmed. -/
theorem eq_slash_of_solid (h : Trimmed x (m ++ rest)) (hNe : m ≠ []) (hSolid : ∀ c ∈ m, isBlank c = false) :
    m = ['/'] ∧ rest = [] := by
  obtain ⟨c, m, rfl⟩ := List.exists_cons_of_ne_nil hNe
  have hc := hSolid c List.mem_cons_self
  obtain ⟨bs, hBlanks, hEq⟩ := h.filler
  cases bs with
  | nil => simpa [and_assoc] using hEq
  | cons d bs =>
    have hd := hBlanks d List.mem_cons_self
    have hcd : c = d := by
      rcases hEq with hEq | hEq
      · exact (List.cons.inj hEq).1
      · exact (List.cons.inj hEq).1
    rw [hcd, hd] at hc
    cases hc

end Trimmed

namespace Piece

/-- What is put behind the attribute becomes a part of it, or the closing slash is one. -/
def isOpen : Piece → Bool
  | sealed _ _ value => value.isEmpty || value.getLast? == some '/'
  | _ => false

variable {p : Piece} {rest rest' : Text}

/-- Two characters of what follows are looked at, and whether there is any. -/
theorem Admits.congr (h : p.Admits rest) (hNil : rest = [] → rest' = []) (hHead : rest'.head? = rest.head?)
    (hDrop : (rest'.dropWhile isBlank).head? = (rest.dropWhile isBlank).head?) : p.Admits rest' := by
  cases p with
  | blanks run => rwa [Admits, hHead]
  | stray c => trivial
  | string text => trivial
  | dropped run => rwa [Admits, hHead]
  | flag name slashes => rwa [Admits, hHead, hDrop]
  | valued name value => rwa [Admits, hHead]
  | sealed name lead value =>
    rw [Admits, hHead]
    exact ⟨fun hValue => hNil (h.1 hValue), h.2⟩

/-- A piece that neither ends in a blank nor waits for its value is read in front of a blank. -/
theorem admits_blank {b c : Char} {s : Text} (hb : isBlank b = true) (hc : isBlank c = false) (hSign : c ≠ '=')
    (hLast : ∀ d, p.text.getLast? = some d → isBlank d = false)
    (hValue : ∀ name lead, p ≠ .sealed name lead []) (hp : p.WellFormed) : p.Admits (b :: c :: s) := by
  have hName : isNameChar b = false := isNameChar_eq_false_of_isBlank hb
  cases p with
  | blanks run =>
    obtain ⟨hNe, hBlanks⟩ := hp
    have hEnd := hBlanks _ (List.getLast_mem hNe)
    rw [hLast _ (List.getLast?_eq_some_getLast hNe)] at hEnd
    cases hEnd
  | stray c => trivial
  | string text => trivial
  | dropped run =>
    rintro d ⟨⟩
    exact hName
  | flag name slashes =>
    refine ⟨?_, ?_⟩
    · rintro d ⟨⟩
      exact hName
    · simp [hb, hc, hSign]
  | valued name value =>
    rintro ⟨⟩
    exact absurd hb (by decide)
  | sealed name lead value =>
    refine ⟨fun hNil => absurd (hNil ▸ rfl) (hValue name lead), Or.inr ?_⟩
    rintro d ⟨⟩
    exact hb

end Piece

/-- Whether a new attribute behind the region would not stand for itself. -/
def endsOpen (region : Text) : Bool := (pieces region).getLast?.any Piece.isOpen

section

variable {x m tail rest : Text} {p : Piece} {ps : List Piece} {c : Char} {s : Text}

/-- Behind the first piece, which may take what was trimmed only if nothing else is left. -/
theorem admits_of_trimmed (hp : p.WellFormed) (h : Trimmed (p.text ++ m) tail) (hAdmits : p.Admits (m ++ tail))
    (hOpen : p.isOpen = true → m ++ tail ≠ []) (hc : isNameChar c = true) :
    p.Admits (m ++ ' ' :: c :: s) := by
  obtain ⟨hBlank, -, hSign, -⟩ := isNameChar_eq_true_iff.1 hc
  cases m with
  | nil =>
    rw [List.append_nil] at h
    apply Piece.admits_blank (by decide) hBlank hSign h.last _ hp
    rintro name lead rfl
    exact hOpen rfl (hAdmits.1 rfl)
  | cons d m =>
    refine hAdmits.congr (fun hNil => by cases hNil) rfl ?_
    have hSolid : (d :: m).dropWhile isBlank ≠ [] := by
      intro hNil
      have hEnd := List.dropWhile_eq_nil_iff.1 hNil _ (List.getLast_mem (List.cons_ne_nil d m))
      have hLast := h.right.last _ (List.getLast?_eq_some_getLast (List.cons_ne_nil d m))
      rw [hEnd] at hLast
      cases hLast
    obtain ⟨e, u, hCons⟩ := List.exists_cons_of_ne_nil hSolid
    have hDrop (t : Text) : ((d :: m ++ t).dropWhile isBlank).head? = some e := by
      rw [List.dropWhile_append, hCons]
      rfl
    rw [hDrop, hDrop]

theorem read_of_isFiller (h : IsFiller (c :: s)) :
    (∃ run, (Piece.read c s).1 = .blanks run ∨ (Piece.read c s).1 = .dropped run) ∧ IsFiller (Piece.read c s).2 := by
  obtain ⟨hc, hs⟩ := List.forall_mem_cons.1 h
  have hRest (q : Char → Bool) : IsFiller (s.dropWhile q) := fun d hd => hs d (List.dropWhile_subset _ hd)
  rcases hc with hc | rfl
  · simp only [Piece.read, hc, if_true]
    exact ⟨⟨_, Or.inl rfl⟩, hRest _⟩
  · have hRun : ∀ d ∈ '/' :: s.takeWhile isNameChar, d = '/' := by
      rw [List.forall_mem_cons]
      refine ⟨rfl, fun d hd => ?_⟩
      rcases hs d (List.takeWhile_subset _ hd) with hBlank | hSlash
      · have hName := List.mem_takeWhile_imp hd
        rw [isNameChar_eq_false_of_isBlank hBlank] at hName
        cases hName
      · exact hSlash
    have hSplit : splitSlashes ([] ++ '/' :: s.takeWhile isNameChar) = ([], '/' :: s.takeWhile isNameChar) :=
      splitSlashes_append_slashes (by simp) hRun
    rw [List.nil_append] at hSplit
    have hRead : Piece.read '/' s = (.dropped ('/' :: s.takeWhile isNameChar), s.dropWhile isNameChar) := by
      simp [Piece.read, isBlank, isQuote, isNameChar_slash, hSplit]
    rw [hRead]
    exact ⟨⟨_, Or.inr rfl⟩, hRest _⟩

/-- A filler holds no attribute. -/
theorem eq_none_of_mem_filler (h : IsFiller tail) (hp : p ∈ pieces tail) :
    p.parts? = none ∧ p.sealedText? = none ∧ p.isOpen = false := by
  fun_induction pieces tail with
  | case1 => cases hp
  | case2 c s ih =>
    obtain ⟨⟨run, hRun⟩, hRest⟩ := read_of_isFiller h
    rcases List.mem_cons.1 hp with rfl | hp
    · rcases hRun with hRun | hRun <;> rw [hRun] <;> exact ⟨rfl, rfl, rfl⟩
    · exact ih hRest hp

/-- Two cuts of a text lie one behind the other. -/
theorem append_eq_append_cases {a b c d : Text} (h : a ++ b = c ++ d) :
    (∃ m, a = c ++ m ∧ d = m ++ b) ∨ ∃ m, m ≠ [] ∧ c = a ++ m ∧ b = m ++ d := by
  rcases List.append_eq_append_iff.1 h with ⟨m, hc, hb⟩ | ⟨m, ha, hd⟩
  · cases m with
    | nil => exact Or.inl ⟨[], by simpa using hc.symm, by simpa using hb.symm⟩
    | cons d m => exact Or.inr ⟨d :: m, List.cons_ne_nil d m, hc, hb⟩
  · exact Or.inl ⟨m, ha, hd⟩

theorem exists_getLast?_valued {name : Text} {value : Quoted} (hp : (Piece.valued name value).WellFormed) :
    ∃ d, (Piece.valued name value).text.getLast? = some d ∧ isBlank d = false ∧ d ≠ '/' := by
  have hSound : (Attribute.mk 0 name (some value)).Sound := by
    refine ⟨hp.1, ?_⟩
    rintro q ⟨⟩
    exact hp.2.sound
  exact hSound.exists_getLast?_raw

/-- A piece that reaches into what was trimmed has taken the slash; without it, it is the same piece, unless
it is open. -/
theorem exists_truncated (hp : p.WellFormed) (hAdmits : p.Admits rest) (hm : m ≠ []) (hx : x ≠ [])
    (hText : p.text = x ++ m) (h : Trimmed x (m ++ rest)) (hOpen : p.isOpen = true → rest ≠ []) :
    rest = [] ∧ ∃ q : Piece, q.text = x ∧ q.WellFormed ∧ q.parts? = p.parts? ∧ q.sealedText? = p.sealedText? ∧
      q.isOpen = false := by
  have hFiller : IsFiller m := fun c hc => h.isFiller c (List.mem_append_left _ hc)
  have hEnd {d : Char} (hd : m.getLast? = some d) (hBlank : isBlank d = false) : d = '/' := by
    rcases hFiller d (List.mem_of_getLast? hd) with hd | hd
    · rw [hd] at hBlank
      cases hBlank
    · exact hd
  have hLast : p.text.getLast? = m.getLast? := by
    rw [hText, List.getLast?_append, List.getLast?_eq_some_getLast hm]
    rfl
  have hRun (hChars : ∀ c ∈ p.text, isNameChar c = true) : m = ['/'] ∧ rest = [] := by
    apply h.eq_slash_of_solid hm
    intro c hc
    exact (isNameChar_eq_true_iff.1 (hChars c (hText ▸ List.mem_append_right _ hc))).1
  cases p with
  | blanks run =>
    have hEq : run = x ++ m := hText
    have hMem := List.getLast_mem hx
    have hSolid := h.last _ (List.getLast?_eq_some_getLast hx)
    rw [hp.2 _ (hEq ▸ List.mem_append_left _ hMem)] at hSolid
    cases hSolid
  | stray c => exact hp.elim
  | string text => exact hp.elim
  | dropped run =>
    obtain ⟨rfl, rfl⟩ := hRun fun c hc => hp.2 c hc ▸ isNameChar_slash
    have hEq : run = x ++ ['/'] := hText
    exact ⟨rfl, .dropped x, rfl, ⟨hx, fun c hc => hp.2 c (hEq ▸ List.mem_append_left _ hc)⟩, rfl, rfl, rfl⟩
  | flag name slashes =>
    obtain ⟨hName, hSlashes⟩ := hp
    obtain ⟨rfl, rfl⟩ := hRun fun c hc => by
      rcases List.mem_append.1 hc with hc | hc
      · exact hName.chars c hc
      · exact hSlashes c hc ▸ isNameChar_slash
    rcases List.eq_nil_or_concat slashes with rfl | ⟨init, d, rfl⟩
    · rw [Piece.text, List.append_nil] at hText
      exact absurd (by rw [hText, List.getLast?_concat]) hName.last
    · rw [Piece.text, List.concat_eq_append, ← List.append_assoc] at hText
      obtain ⟨rfl, -⟩ := List.append_inj' hText rfl
      refine ⟨rfl, .flag name init, rfl, ⟨hName, fun c hc => hSlashes c ?_⟩, rfl, rfl, rfl⟩
      rw [List.concat_eq_append]
      exact List.mem_append_left _ hc
  | valued name value =>
    obtain ⟨d, hd, hBlank, hSlash⟩ := exists_getLast?_valued hp
    exact absurd (hEnd (hLast ▸ hd) hBlank) hSlash
  | sealed name lead value =>
    obtain ⟨-, -, hValue⟩ := hp
    cases hNil : value.getLast? with
    | none =>
      obtain rfl := List.getLast?_eq_none_iff.1 hNil
      exact absurd (hAdmits.1 rfl) (hOpen rfl)
    | some d =>
      -- The last character of a value is no blank: it would be the slash.
      rw [Piece.text, List.getLast?_append, hNil, Option.some_or] at hLast
      obtain rfl := hEnd hLast.symm (hValue.isBlank_getLast hNil)
      exact absurd (h.eq_nil_of_slash hLast.symm) (hOpen (by simp [Piece.isOpen, hNil]))

theorem endsOpen_eq {region : Text} (h : pieces region = p :: pieces rest) :
    endsOpen region = if rest = [] then p.isOpen else endsOpen rest := by
  rw [endsOpen, endsOpen, h]
  split
  · rename_i hNil
    rw [hNil, pieces]
    rfl
  · rename_i hNe
    obtain ⟨q, qs, hCons⟩ := List.exists_cons_of_ne_nil fun hNil => hNe (pieces_eq_nil_iff.1 hNil)
    rw [hCons, List.getLast?_cons_cons]

theorem endsOpen_of_isFiller (h : IsFiller tail) : endsOpen tail = false := by
  rw [endsOpen]
  cases hLast : (pieces tail).getLast? with
  | none => rfl
  | some p => exact (eq_none_of_mem_filler h (List.mem_of_getLast? hLast)).2.2

/-- A first piece that reaches into what was trimmed is read without it, unless it is open at the end. -/
theorem exists_pieces_of_reach (hRegion : pieces (x ++ (m ++ rest)) = p :: pieces rest) (hp : p.WellFormed)
    (hAdmits : p.Admits rest) (hm : m ≠ []) (hText : p.text = x ++ m) (h : Trimmed x (m ++ rest))
    (hOpen : p.isOpen = true → rest ≠ []) (hc : isNameChar c = true) :
    ∃ qs, pieces (x ++ ' ' :: c :: s) = qs ++ pieces (' ' :: c :: s) ∧
      qs.filterMap Piece.parts? = (p :: pieces rest).filterMap Piece.parts? ∧
      qs.filterMap Piece.sealedText? = (p :: pieces rest).filterMap Piece.sealedText? := by
  cases x with
  | nil =>
    rw [List.nil_append] at hRegion
    have hNone := fun q hq => eq_none_of_mem_filler (p := q) h.isFiller (hRegion ▸ hq)
    exact ⟨[], rfl, (List.filterMap_eq_nil_iff.2 fun q hq => (hNone q hq).1).symm,
      (List.filterMap_eq_nil_iff.2 fun q hq => (hNone q hq).2.1).symm⟩
  | cons d x =>
    obtain ⟨rfl, q, hq, hWellFormed, hParts, hSealed, hClosed⟩ :=
      exists_truncated hp hAdmits hm (List.cons_ne_nil d x) hText h hOpen
    have hReads : q.ReadsBefore (' ' :: c :: s) := by
      obtain ⟨hBlank, -, hSign, -⟩ := isNameChar_eq_true_iff.1 hc
      apply hWellFormed.readsBefore
      apply Piece.admits_blank (by decide) hBlank hSign (hq ▸ h.last) _ hWellFormed
      rintro name lead rfl
      cases hClosed
    refine ⟨[q], ?_, ?_, ?_⟩
    · rw [← hq, hReads.pieces_append]
      rfl
    · rw [pieces, List.filterMap_cons, List.filterMap_cons, hParts]
    · rw [pieces, List.filterMap_cons, List.filterMap_cons, hSealed]

/-- Without an open end the attributes stay, and what is put behind them is read for itself. -/
theorem exists_pieces_append (hRegion : pieces (x ++ tail) = ps) (h : Trimmed x tail)
    (hOrdinary : ∀ p ∈ ps, p.isOrdinary = true) (hOpen : endsOpen (x ++ tail) = false)
    (hc : isNameChar c = true) :
    ∃ qs, pieces (x ++ ' ' :: c :: s) = qs ++ pieces (' ' :: c :: s) ∧
      qs.filterMap Piece.parts? = ps.filterMap Piece.parts? ∧
      qs.filterMap Piece.sealedText? = ps.filterMap Piece.sealedText? := by
  induction ps generalizing x with
  | nil =>
    obtain ⟨rfl, -⟩ := List.append_eq_nil_iff.1 (pieces_eq_nil_iff.1 hRegion)
    exact ⟨[], rfl, rfl, rfl⟩
  | cons p ps ih =>
    obtain ⟨rest, hText, hp, hAdmits, rfl⟩ := exists_of_pieces_eq_cons hRegion (hRegion ▸ hOrdinary)
    rw [endsOpen_eq hRegion] at hOpen
    rcases append_eq_append_cases hText with ⟨m, rfl, rfl⟩ | ⟨m, hm, hCut, rfl⟩
    · have hOpenRest : endsOpen (m ++ tail) = false := by
        split at hOpen
        · rename_i hNil
          rw [hNil]
          exact endsOpen_of_isFiller (List.forall_mem_nil _)
        · exact hOpen
      obtain ⟨qs, hPieces, hParts, hSealed⟩ :=
        ih rfl h.right (fun q hq => hOrdinary q (List.mem_cons_of_mem _ hq)) hOpenRest
      have hReads : p.ReadsBefore (m ++ ' ' :: c :: s) := by
        apply hp.readsBefore
        apply admits_of_trimmed hp h hAdmits _ hc
        intro hTrue hNil
        rw [if_pos hNil, hTrue] at hOpen
        cases hOpen
      refine ⟨p :: qs, ?_, ?_, ?_⟩
      · rw [List.append_assoc, hReads.pieces_append, hPieces, List.cons_append]
      · rw [List.filterMap_cons, List.filterMap_cons, hParts]
      · rw [List.filterMap_cons, List.filterMap_cons, hSealed]
    · apply exists_pieces_of_reach hRegion hp hAdmits hm hCut h _ hc
      intro hTrue hNil
      rw [if_pos hNil, hTrue] at hOpen
      cases hOpen

/-- With nothing behind its sign a name takes the new text for its value. -/
theorem readsBefore_of_taken {name b : Text} (hName : IsName name) (hb : ∀ d ∈ b, isBlank d = true)
    (hc : isNameChar c = true) :
    (Piece.sealed name (b ++ ['=', ' ']) (c :: s.takeWhile (!isBlank ·))).ReadsBefore
      (s.dropWhile (!isBlank ·)) := by
  obtain ⟨hBlank, hQuote, -, hOpen, -⟩ := isNameChar_eq_true_iff.1 hc
  have hSign : IsSign (b ++ ['=', ' ']) := ⟨b, [' '], rfl, hb, List.forall_mem_singleton.2 (by decide)⟩
  have hSolid : ∀ d ∈ c :: s.takeWhile (!isBlank ·), isBlank d = false := by
    rw [List.forall_mem_cons]
    exact ⟨hBlank, fun d hd => by simpa using List.mem_takeWhile_imp hd⟩
  have hp : (Piece.sealed name (b ++ ['=', ' ']) (c :: s.takeWhile (!isBlank ·))).WellFormed :=
    ⟨hName, hSign, .bare hOpen hQuote hSolid⟩
  apply hp.readsBefore
  refine ⟨fun hNil => absurd hNil (List.cons_ne_nil _ _), Or.inr ?_⟩
  intro d hd
  simpa using head?_dropWhile hd

/-- Without its slash a bare value ends in front of the new text. -/
theorem readsBefore_of_cut {name lead v : Text} (hp : (Piece.sealed name lead (v ++ tail)).WellFormed)
    (hOpen : (Piece.sealed name lead (v ++ tail)).isOpen = true) (hv : v ≠ []) (hText : x = name ++ lead ++ v)
    (h : Trimmed x tail) : tail ≠ [] ∧ (Piece.sealed name lead v).ReadsBefore (' ' :: c :: s) := by
  obtain ⟨hName, hSign, hValue⟩ := hp
  have hLast : (v ++ tail).getLast? = some '/' := by
    simpa [Piece.isOpen, hv] using hOpen
  have hEnd : endsItself (v ++ tail) = false := by
    rw [← Bool.not_eq_true]
    intro hEnd
    rcases hValue.getLast?_of_endsItself hEnd with hOther | hOther <;> rw [hLast] at hOther <;>
      exact absurd hOther (by decide)
  have hCut : (Piece.sealed name lead v).WellFormed := ⟨hName, hSign, hValue.of_append hEnd⟩
  constructor
  · intro hNil
    apply h.slash hNil
    rw [hText, List.getLast?_append]
    rw [hNil, List.append_nil] at hLast
    rw [hLast, Option.some_or]
  · apply hCut.readsBefore
    refine ⟨fun hNil => absurd hNil hv, Or.inr ?_⟩
    rintro d ⟨⟩
    decide

/-- What is left behind a sign is more than blanks, since its last character is none; so the rest of the sign
and a part of the value are left. -/
theorem exists_eq_append_of_value {b y value : Text} (hy : y ≠ []) (hb : ∀ d ∈ b, isBlank d = true)
    (hRest : b ++ value = y ++ tail) (h : Trimmed y tail) : ∃ v, v ≠ [] ∧ y = b ++ v ∧ value = v ++ tail := by
  have hSolid : ¬ y ⊆ b := by
    intro hSubset
    have hLast := h.last _ (List.getLast?_eq_some_getLast hy)
    rw [hb _ (hSubset (List.getLast_mem hy))] at hLast
    cases hLast
  rcases append_eq_append_cases hRest.symm with ⟨v, hCut, hValue⟩ | ⟨m, -, hBlanks, -⟩
  · refine ⟨v, ?_, hCut, hValue⟩
    rintro rfl
    apply hSolid
    rw [hCut, List.append_nil]
    exact List.Subset.refl b
  · rw [hBlanks] at hSolid
    exact absurd (List.subset_append_left _ _) hSolid

/-- What is put behind an open piece makes its text another one. -/
theorem exists_reading_of_isOpen (hp : p.WellFormed) (hOpen : p.isOpen = true) (hText : p.text = x ++ tail)
    (h : Trimmed x tail) (hc : isNameChar c = true) (hSlash : c ≠ '/') :
    p.sealedText? = some (x ++ tail) ∧ ∃ (q : Piece) (after text : Text), x ++ ' ' :: c :: s = q.text ++ after ∧
      q.ReadsBefore after ∧ q.sealedText? = some text ∧ text ≠ x ++ tail := by
  cases p with
  | sealed name lead value =>
    obtain ⟨hName, hSign, hValue⟩ := hp
    refine ⟨congrArg some hText, ?_⟩
    obtain ⟨b, b', rfl, hb, hb'⟩ := hSign
    have hParts : x ++ tail = (name ++ b ++ ['=']) ++ (b' ++ value) := by
      rw [← hText]
      simp [Piece.text]
    rcases append_eq_append_cases hParts with ⟨y, rfl, hRest⟩ | ⟨m, hm, hCut, rfl⟩
    · cases y with
      | nil =>
        refine ⟨_, _, _, ?_, readsBefore_of_taken (s := s) hName hb hc, rfl, ?_⟩
        · simp [Piece.text, List.takeWhile_append_dropWhile]
        · intro hEq
          have hTail : tail = ' ' :: c :: s.takeWhile (!isBlank ·) := by simpa using hEq.symm
          rcases h.isFiller c (by rw [hTail]; simp) with hBlank | hSlash'
          · rw [(isNameChar_eq_true_iff.1 hc).1] at hBlank
            cases hBlank
          · exact hSlash hSlash'
      | cons e y =>
        obtain ⟨v, hv, hy, rfl⟩ := exists_eq_append_of_value (List.cons_ne_nil e y) hb' hRest h.right
        obtain ⟨hNe, hReads⟩ := readsBefore_of_cut (c := c) (s := s) ⟨hName, ⟨b, b', rfl, hb, hb'⟩, hValue⟩ hOpen hv
          (by rw [hy]; simp) h
        refine ⟨_, _, _, ?_, hReads, rfl, ?_⟩
        · rw [hy]
          simp [Piece.text]
        · rw [hy]
          simpa using hNe
    · -- No sign is trimmed.
      have hSignMem : '=' ∈ m := by
        have hLast := congrArg List.getLast? hCut
        rw [List.getLast?_concat, List.getLast?_append, List.getLast?_eq_some_getLast hm, Option.some_or,
          Option.some.injEq] at hLast
        exact hLast ▸ List.getLast_mem hm
      rcases h.isFiller '=' (List.mem_append_left _ hSignMem) with hBlank | hEq
      · exact absurd hBlank (by decide)
      · exact absurd hEq (by decide)
  | blanks _ | stray _ | string _ | dropped _ | flag _ _ | valued _ _ => cases hOpen

/-- Behind an open end another text is read. -/
theorem sealedTexts_append_ne (h : Trimmed x tail) (hOrdinary : ∀ p ∈ pieces (x ++ tail), p.isOrdinary = true)
    (hOpen : endsOpen (x ++ tail) = true) (hc : isNameChar c = true) (hSlash : c ≠ '/') :
    sealedTexts (x ++ ' ' :: c :: s) ≠ sealedTexts (x ++ tail) := by
  induction hPieces : pieces (x ++ tail) generalizing x with
  | nil =>
    rw [endsOpen, hPieces] at hOpen
    cases hOpen
  | cons p ps ih =>
    obtain ⟨rest, hText, hp, hAdmits, rfl⟩ := exists_of_pieces_eq_cons hPieces hOrdinary
    rw [endsOpen_eq hPieces] at hOpen
    split at hOpen
    · rename_i hNil
      subst hNil
      rw [List.append_nil] at hText
      obtain ⟨hOld, q, after, text, hSplit, hReads, hNew, hNe⟩ :=
        exists_reading_of_isOpen (s := s) hp hOpen hText.symm h hc hSlash
      rw [sealedTexts, sealedTexts, hPieces, hSplit, hReads.pieces_append, List.filterMap_cons_some hNew,
        List.filterMap_cons_some hOld]
      exact fun hEq => hNe (List.cons.inj hEq).1
    · rename_i hRest
      rcases append_eq_append_cases hText with ⟨m, rfl, rfl⟩ | ⟨m, hm, hCut, rfl⟩
      · have hReads : p.ReadsBefore (m ++ ' ' :: c :: s) :=
          hp.readsBefore (admits_of_trimmed hp h hAdmits (fun _ => hRest) hc)
        have hNe := ih h.right (fun q hq => hOrdinary q (hPieces ▸ List.mem_cons_of_mem _ hq)) hOpen rfl
        rw [sealedTexts, sealedTexts, hPieces, List.append_assoc, hReads.pieces_append, List.filterMap_cons,
          List.filterMap_cons]
        cases p.sealedText? with
        | none => exact hNe
        | some text => exact fun hEq => hNe (List.cons.inj hEq).2
      · have hFiller : IsFiller rest := fun d hd => h.isFiller d (List.mem_append_right _ hd)
        rw [endsOpen_of_isFiller hFiller] at hOpen
        cases hOpen

end

end ClassFold

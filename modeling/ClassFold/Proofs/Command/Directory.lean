import ClassFold.Command.Directory

/-!
# Reading behind a write

A write puts its bytes under one list of names, which depends on the path and on the directory only. In
the directory behind it these names hold the bytes, all others hold what they held, and the path still
leads there.
-/

set_option autoImplicit false

namespace ClassFold.Command.Directory

/-- The names under which a write to a path puts its bytes, or why the write is refused. -/
def destination (d : Directory) (path : Text) : Except Cause (List Text) := do
  match ← d.place path with
  | .directory => throw .isDirectory
  | .named parent name slashed =>
    if slashed then throw .isDirectory
    if longestName < name.size then throw .nameTooLong
    match d.entry? (parent ++ [name]) with
    | some .directory => throw .isDirectory
    | _ => return parent ++ [name]

/-- The text of a file, or why it cannot be read as one. -/
def text (d : Directory) (path : Text) : Except Cause Text := do
  match String.fromUTF8? (← d.read path) with
  | some s => return s.toList
  | none => throw .notText

variable {d d' : Directory} {names : List Text} {path : Text}

theorem write_eq (d : Directory) (path : Text) (bytes : ByteArray) :
    d.write path bytes = (d.destination path).map (d.put · bytes) := by
  unfold write destination
  cases d.place path with
  | error cause => rfl
  | ok place =>
    rcases place with _ | ⟨parent, name, _ | _⟩
    · rfl
    · by_cases hLong : longestName < name.size
      · simp only [bind, Except.bind, hLong, if_true, Bool.false_eq_true, if_false]
        rfl
      · simp only [bind, Except.bind, hLong, Bool.false_eq_true, if_false]
        rcases d.entry? (parent ++ [name]) with _ | ⟨held⟩ | _ <;> rfl
    · rfl

theorem destination_eq_ok_iff :
    d.destination path = .ok names ↔
      ∃ parent name, d.place path = .ok (.named parent name false) ∧ name.size ≤ longestName ∧
        d.entry? (parent ++ [name]) ≠ some .directory ∧ names = parent ++ [name] := by
  unfold destination
  cases d.place path with
  | error cause => simp [bind, Except.bind]
  | ok place =>
    rcases place with _ | ⟨parent, name, _ | _⟩
    · simp [bind, Except.bind, throw, throwThe, MonadExceptOf.throw]
    · by_cases hLong : longestName < name.size
      · simp only [bind, Except.bind, hLong, if_true, Bool.false_eq_true, if_false]
        constructor
        · rintro ⟨⟩
        · rintro ⟨parent', name', ⟨⟩, hle, -⟩
          omega
      · simp only [bind, Except.bind, hLong, Bool.false_eq_true, if_false]
        constructor
        · intro h
          refine ⟨parent, name, rfl, Nat.le_of_not_lt hLong, ?_⟩
          rcases hEntry : d.entry? (parent ++ [name]) with _ | ⟨held⟩ | _ <;> rw [hEntry] at h <;> cases h
          · exact ⟨by simp, rfl⟩
          · exact ⟨by simp, rfl⟩
        · rintro ⟨parent', name', ⟨⟩, -, hEntry, rfl⟩
          rcases hHeld : d.entry? (parent ++ [name]) with _ | ⟨held⟩ | _
          · rfl
          · rfl
          · exact absurd hHeld hEntry
    · simp [bind, Except.bind, throw, throwThe, MonadExceptOf.throw]

theorem lookup_map_put (es : List (List Text × Entry)) (names : List Text) (e : Entry) (n : List Text) :
    (es.map fun (m, held) => if m = names then (m, e) else (m, held)).lookup n =
      (es.lookup n).map fun held => if n = names then e else held := by
  induction es with
  | nil => rfl
  | cons x es ih =>
    obtain ⟨m, held⟩ := x
    have hHead : (if m = names then (m, e) else (m, held)) = (m, if m = names then e else held) := by
      split <;> rfl
    rw [List.map_cons]
    dsimp only
    rw [hHead, List.lookup_cons, List.lookup_cons, ih]
    by_cases hn : n = m
    · subst hn
      simp
    · simp [beq_false_of_ne hn]

theorem entry?_put (d : Directory) (names : List Text) (bytes : ByteArray) (n : List Text) :
    entry? (d.put names bytes) n = if n = names then some (.file bytes) else d.entry? n := by
  unfold put
  by_cases hThere : (d.entry? names).isSome = true
  · rw [if_pos hThere, entry?, lookup_map_put]
    by_cases hn : n = names
    · obtain ⟨e, he⟩ := Option.isSome_iff_exists.1 hThere
      rw [hn, show d.entries.lookup names = some e from he]
      simp
    · simp [hn, entry?]
  · rw [if_neg hThere, entry?, List.lookup_append]
    by_cases hn : n = names
    · rw [hn, show d.entries.lookup names = none from Option.not_isSome_iff_eq_none.1 hThere]
      simp
    · simp [hn, entry?, List.lookup_cons, beq_false_of_ne hn]

/-- A path that leads somewhere leads there as long as all directories are kept. -/
theorem follow_of_directories (h : ∀ n, d.entry? n = some .directory → d'.entry? n = some .directory)
    {here parts : List Text} {p : Place} (hFollow : d.follow here parts = .ok p) :
    d'.follow here parts = .ok p := by
  fun_induction follow d here parts with
  | case1 => exact hFollow
  | case2 here part rest hStay ih =>
    rw [follow, if_pos hStay]
    exact ih hFollow
  | case3 rest hStay =>
    rw [follow, if_neg hStay]
    exact hFollow
  | case4 here rest hStay hTop ih =>
    rw [follow, if_neg hStay, if_pos rfl, if_neg hTop]
    exact ih hFollow
  | case5 here part rest hStay hUp hLast =>
    rw [follow, if_neg hStay, if_neg hUp, if_pos hLast]
    exact hFollow
  | case6 => cases hFollow
  | case7 here part rest hStay hUp hLast hLong hEntry ih =>
    rw [follow, if_neg hStay, if_neg hUp, if_neg hLast, if_neg hLong, h _ hEntry]
    exact ih hFollow
  | case8 => cases hFollow
  | case9 => cases hFollow

theorem place_of_directories (h : ∀ n, d.entry? n = some .directory → d'.entry? n = some .directory)
    {p : Place} (hPlace : d.place path = .ok p) : d'.place path = .ok p := by
  unfold place at hPlace ⊢
  split at hPlace
  · cases hPlace
  · rename_i hShort
    rw [if_neg hShort]
    split at hPlace
    · cases hPlace
    · exact hPlace
    · exact follow_of_directories h hPlace

theorem read_of_entry {parent : List Text} {name : Text} {bytes : ByteArray}
    (hPlace : d.place path = .ok (.named parent name false)) (hShort : name.size ≤ longestName)
    (hEntry : d.entry? (parent ++ [name]) = some (.file bytes)) : d.read path = .ok bytes := by
  simp only [read, hPlace, bind, Except.bind, if_neg (Nat.not_lt.2 hShort), hEntry, Bool.false_eq_true, if_false]
  rfl

theorem read_put_of_destination (h : d.destination path = .ok names) (bytes : ByteArray) :
    (d.put names bytes).read path = .ok bytes := by
  obtain ⟨parent, name, hPlace, hShort, hEntry, rfl⟩ := destination_eq_ok_iff.1 h
  have hKept (n : List Text) (hn : d.entry? n = some .directory) :
      entry? (d.put (parent ++ [name]) bytes) n = some .directory := by
    rw [entry?_put, if_neg, hn]
    rintro rfl
    exact hEntry hn
  apply read_of_entry (place_of_directories hKept hPlace) hShort
  rw [entry?_put, if_pos rfl]

theorem fromUTF8?_toUTF8 (s : String) : String.fromUTF8? s.toUTF8 = some s := by
  simp [String.fromUTF8?, String.fromUTF8, s.isValidUTF8]

theorem text_of_read {s : Text} (h : d.read path = .ok (String.ofList s).toUTF8) : d.text path = .ok s := by
  simp only [text, h, bind, Except.bind, fromUTF8?_toUTF8, String.toList_ofList]
  rfl

end ClassFold.Command.Directory

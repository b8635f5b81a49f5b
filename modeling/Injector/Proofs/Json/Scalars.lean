import Injector.Json.Printer
import Injector.Json.Reader

/-!
# Scalars of JSON as they are printed

What is printed for an integer of 64 bits or for a text is read as the same integer or text,
whatever follows it; an integer only asks that what follows does not go on with it. Main statements:
`scalarAt_integer` and `textAt_quoted`.
-/

namespace Injector.Json

/-! ## Integers -/

/-- Whether a number ends before these characters. -/
def EndsNumber (cs : List Char) : Prop :=
  ∀ c ∈ cs.head?, c.isDigit = false ∧ c ≠ '.' ∧ c ≠ 'e' ∧ c ≠ 'E'

theorem EndsNumber.nil : EndsNumber [] := by
  simp [EndsNumber]

theorem EndsNumber.cons {c : Char} (cs : List Char)
    (h : c.isDigit = false ∧ c ≠ '.' ∧ c ≠ 'e' ∧ c ≠ 'E') : EndsNumber (c :: cs) := by
  simpa [EndsNumber] using h

/-- Digits are told apart from what follows a number. -/
theorem EndsNumber.digits {rest : List Char} (h : EndsNumber rest) :
    rest.takeWhile Char.isDigit = [] ∧ rest.dropWhile Char.isDigit = rest := by
  cases rest with
  | nil => exact ⟨rfl, rfl⟩
  | cons c rest =>
      have hc : c.isDigit = false := (h c (by simp)).1
      simp [hc]

/-- After a whole number that ends there is no part behind a point. -/
theorem partAt_of_ends {rest : List Char} (h : EndsNumber rest) :
    partAt rest = some ([], rest) := by
  cases rest with
  | nil => rfl
  | cons c rest =>
      have hc : c ≠ '.' := (h c (by simp)).2.1
      unfold partAt
      split
      · next heq => exact absurd (List.cons.inj heq).1 hc
      · rfl

/-- After a whole number that ends there is no exponent. -/
theorem exponentAt_of_ends {rest : List Char} (h : EndsNumber rest) :
    exponentAt rest = some (none, rest) := by
  cases rest with
  | nil => rfl
  | cons c rest =>
      obtain ⟨-, -, he, hE⟩ := h c (by simp)
      simp [exponentAt, he, hE]

theorem le_ofDigitChars (init : Nat) (ds : List Char) : init ≤ Nat.ofDigitChars 10 ds init := by
  rw [Nat.ofDigitChars_eq_ofDigitChars_zero]
  calc init = 1 * init := (Nat.one_mul init).symm
    _ ≤ 10 ^ ds.length * init := Nat.mul_le_mul_right _ (Nat.one_le_pow _ _ (by decide))
    _ ≤ _ := Nat.le_add_right _ _

/-- Digits of a number of 64 bits all fit. -/
theorem foldl_pushWhole (ds : List Char) {init : Nat}
    (h : Nat.ofDigitChars 10 ds init ≤ maxWord) :
    ds.foldl Significand.pushWhole ⟨init, 0, false⟩ = ⟨Nat.ofDigitChars 10 ds init, 0, false⟩ := by
  induction ds generalizing init with
  | nil => simp
  | cons c ds ih =>
      rw [Nat.ofDigitChars_cons] at h ⊢
      have hfit : init * 10 + Text.digitValue c ≤ maxWord := by
        rw [Nat.mul_comm]
        exact Nat.le_trans (le_ofDigitChars _ ds) h
      have hpush : Significand.pushWhole ⟨init, 0, false⟩ c =
          ⟨10 * init + (c.toNat - '0'.toNat), 0, false⟩ := by
        rw [Significand.pushWhole, if_neg (by simpa using hfit), Nat.mul_comm init]
        rfl
      rw [List.foldl_cons, hpush]
      exact ih h

/-- Only zero is written with a zero first. -/
theorem head?_toDigits {n : Nat} (h : (Nat.toDigits 10 n).head? = some '0') : n = 0 := by
  induction n using Nat.strongRecOn with
  | ind n ih =>
      rw [Nat.toDigits_eq_if (by decide)] at h
      split at h
      · next hlt =>
        have hdigits : ∀ k < 10, Nat.digitChar k = '0' → k = 0 := by decide
        exact hdigits n hlt (by simpa using h)
      · next hge =>
        have hhead : (Nat.toDigits 10 (n / 10)).head? = some '0' := by
          rw [List.head?_append] at h
          cases hd : (Nat.toDigits 10 (n / 10)).head? with
          | none => exact absurd (List.head?_eq_none_iff.mp hd) Nat.toDigits_ne_nil
          | some c => simpa [hd] using h
        have hzero : n / 10 = 0 := ih (n / 10) (by omega) hhead
        omega

/-- The digits of a natural of 64 bits are read as that natural. -/
theorem numberAt_toDigits (negative : Bool) {n : Nat} (hn : n ≤ maxWord) {rest : List Char}
    (hr : EndsNumber rest) :
    numberAt negative (Nat.toDigits 10 n ++ rest) =
      some ((ofInteger negative n).getD .unreadable, rest) := by
  have hdigit : ∀ c ∈ Nat.toDigits 10 n, c.isDigit = true := fun c hc =>
    Nat.isDigit_of_mem_toDigits (by decide) (by decide) hc
  have htake : (Nat.toDigits 10 n ++ rest).takeWhile Char.isDigit = Nat.toDigits 10 n := by
    rw [List.takeWhile_append_of_pos hdigit, hr.digits.1, List.append_nil]
  have hdrop : (Nat.toDigits 10 n ++ rest).dropWhile Char.isDigit = rest := by
    rw [List.dropWhile_append_of_pos hdigit, hr.digits.2]
  have hlead : ((Nat.toDigits 10 n).isEmpty ||
      ((Nat.toDigits 10 n).head? == some '0' && (Nat.toDigits 10 n).length != 1)) = false := by
    by_cases hzero : (Nat.toDigits 10 n).head? = some '0'
    · rw [head?_toDigits hzero]
      decide
    · simp [Nat.toDigits_ne_nil, hzero]
  have hfold : (Nat.toDigits 10 n).foldl Significand.pushWhole ⟨0, 0, false⟩ = ⟨n, 0, false⟩ := by
    have hfit : Nat.ofDigitChars 10 (Nat.toDigits 10 n) 0 ≤ maxWord := by
      rwa [Nat.ofDigitChars_ten_toDigits]
    rw [foldl_pushWhole _ hfit, Nat.ofDigitChars_ten_toDigits]
  simp [numberAt, htake, hdrop, hlead, hfold, partAt_of_ends hr, exponentAt_of_ends hr]

/-- An integer that 64 bits can hold, with a sign or without. -/
def IsWord (n : Int) : Prop := -signBound ≤ n ∧ n ≤ maxWord

/-- A character that begins no other scalar begins a number. -/
theorem scalarAt_of_isDigit (fuel : Nat) {c : Char} (cs : List Char) (hc : c.isDigit = true) :
    scalarAt fuel (c :: cs) = numberAt false (c :: cs) := by
  unfold scalarAt
  split
  case h_6 => rfl
  all_goals
    next heq =>
    obtain ⟨rfl, -⟩ := List.cons.inj heq
    exact absurd hc (by decide)

/-- The characters of an integer. -/
theorem toList_toString_int (n : Int) :
    (toString n).toList =
      if n < 0 then '-' :: Nat.toDigits 10 n.natAbs else Nat.toDigits 10 n.natAbs := by
  cases n with
  | ofNat n =>
      have hn : ¬ (Int.ofNat n < 0) := by simp
      rw [if_neg hn]
      simp [toString, Int.repr, Nat.repr_eq_ofList_toDigits]
  | negSucc n =>
      rw [if_pos (Int.negSucc_lt_zero n)]
      simp [toString, Int.repr, Nat.repr_eq_ofList_toDigits]

/-- The digits of a natural begin with a digit. -/
theorem first_toDigits (n : Nat) :
    ∃ c cs, Nat.toDigits 10 n = c :: cs ∧ c.isDigit = true := by
  obtain ⟨c, cs, hcs⟩ := List.exists_cons_of_ne_nil (Nat.toDigits_ne_nil (n := n) (b := 10))
  have hmem : c ∈ Nat.toDigits 10 n := by simp [hcs]
  exact ⟨c, cs, hcs, Nat.isDigit_of_mem_toDigits (by decide) (by decide) hmem⟩

/-- An integer begins with a minus or a digit. -/
theorem first_integer (n : Int) :
    ∃ c cs, (toString n).toList = c :: cs ∧ (c = '-' ∨ c.isDigit = true) := by
  obtain ⟨c, cs, hcs, hc⟩ := first_toDigits n.natAbs
  rw [toList_toString_int]
  split
  · exact ⟨'-', _, rfl, .inl rfl⟩
  · exact ⟨c, cs, hcs, .inr hc⟩

/-- What is printed for an integer of 64 bits is read as that integer. -/
theorem scalarAt_integer (fuel : Nat) {n : Int} (hn : IsWord n) {rest : List Char}
    (hr : EndsNumber rest) :
    scalarAt fuel ((toString n).toList ++ rest) = some (.ofInteger n, rest) := by
  obtain ⟨hleast, hgreatest⟩ := hn
  rw [toList_toString_int]
  cases n with
  | ofNat n =>
      have hword : n ≤ maxWord := Int.ofNat_le.mp hgreatest
      have hread := numberAt_toDigits false hword hr
      obtain ⟨c, cs, hcs, hc⟩ := first_toDigits n
      simp only [Int.ofNat_eq_natCast, Int.natAbs_natCast]
      rw [if_neg (by simp), hcs, List.cons_append, scalarAt_of_isDigit fuel _ hc,
        ← List.cons_append, ← hcs, hread]
      simp [ofInteger, hword, Datum.ofInteger]
  | negSucc n =>
      have hbound : n + 1 ≤ signBound := by
        rw [Int.negSucc_eq] at hleast
        omega
      have hread := numberAt_toDigits true (Nat.le_trans hbound (by decide)) hr
      rw [if_pos (Int.negSucc_lt_zero n), List.cons_append, Int.natAbs_negSucc]
      simp only [scalarAt]
      rw [hread]
      simp [ofInteger, hbound, Datum.ofInteger]

/-! ## Texts -/

/-- The piece that is read for what is printed for a character. -/
def pieceOf (c : Char) : Piece :=
  if c.toNat < 0x20 ∧ c ∉ ['\x08', '\x0c', '\n', '\r', '\t'] then .unit c.toNat else .char c

/-- Two digits of base sixteen, after two zeros, are read as the number they write. -/
theorem hexAt_hexDigits {n : Nat} (h : n < 0x20) (rest : List Char) :
    hexAt ('0' :: '0' :: hexDigit (n / 16) :: hexDigit (n % 16) :: rest) = some (n, rest) := by
  have hall : ∀ n < 0x20,
      Text.naturalIn? 16 ['0', '0', hexDigit (n / 16), hexDigit (n % 16)] = some n := by decide
  simp [hexAt, hall n h]

/-- What is printed for a character is read as one piece, also for the seven characters that have a
short escape of their own. -/
theorem piecesAt_escape (fuel : Nat) (read : List Piece) (c : Char) (rest : List Char) :
    piecesAt (fuel + 1) read (escape c ++ rest) = piecesAt fuel (pieceOf c :: read) rest := by
  unfold escape
  iterate 7
    split
    · subst_vars
      simp [piecesAt, escapeAt, pieceOf]
  split
  · next hlt => simp_all [piecesAt, escapeAt, hexAt_hexDigits hlt, pieceOf]
  · next hge =>
    have hpiece : pieceOf c = .char c := if_neg fun h => hge h.1
    simp [piecesAt, *]

/-- What is printed for characters is read as a piece for each, up to the closing quote. -/
theorem piecesAt_flatMap_escape (cs rest : List Char) {fuel : Nat} (h : cs.length < fuel)
    (read : List Piece) :
    piecesAt fuel read (cs.flatMap escape ++ '"' :: rest) =
      some (read.reverse ++ cs.map pieceOf, rest) := by
  induction cs generalizing fuel read with
  | nil =>
      obtain ⟨fuel, rfl⟩ := Nat.exists_eq_add_one_of_ne_zero (Nat.ne_of_gt h)
      simp [piecesAt]
  | cons c cs ih =>
      obtain ⟨fuel, rfl⟩ := Nat.exists_eq_add_one_of_ne_zero (Nat.ne_zero_of_lt h)
      rw [List.flatMap_cons, List.append_assoc, piecesAt_escape, ih (by simpa using h)]
      simp

/-- A code unit below all surrogates makes a character of its number. -/
theorem textOf?_unit (read : List Char) {n : Nat} (h : n < 0xD800) (rest : List Piece) :
    textOf? read (.unit n :: rest) = textOf? (Char.ofNat n :: read) rest := by
  have hlow : ¬ 0xD800 ≤ n := by omega
  have hlow' : ¬ 0xDC00 ≤ n := by omega
  cases rest with
  | nil => simp [textOf?, hlow]
  | cons p rest => cases p <;> simp [textOf?, hlow, hlow']

/-- The pieces of characters make a text of the same characters. -/
theorem textOf?_map_pieceOf (cs read : List Char) :
    textOf? read (cs.map pieceOf) = some (String.ofList (read.reverse ++ cs)) := by
  induction cs generalizing read with
  | nil => simp [textOf?]
  | cons c cs ih =>
      have hnext : textOf? read (pieceOf c :: cs.map pieceOf) =
          textOf? (c :: read) (cs.map pieceOf) := by
        unfold pieceOf
        split
        · next hc => rw [textOf?_unit read (by omega), Char.ofNat_toNat]
        · rw [textOf?]
      rw [List.map_cons, hnext, ih]
      simp

/-- What is printed for a text, after its opening quote, is read as that text. -/
theorem textAt_quoted (s : String) {fuel : Nat} (h : s.toList.length < fuel) (rest : List Char) :
    textAt fuel (s.toList.flatMap escape ++ '"' :: rest) = some (.text s, rest) := by
  simp [textAt, piecesAt_flatMap_escape s.toList rest h, textOf?_map_pieceOf]

/-- The characters of a text between quotes. -/
theorem toList_quoted (s : String) :
    (quoted s).toList = '"' :: (s.toList.flatMap escape ++ ['"']) := by
  simp [quoted]

/-- What is printed for a text is no shorter than the text. -/
theorem length_le_flatMap_escape (cs : List Char) : cs.length ≤ (cs.flatMap escape).length := by
  induction cs with
  | nil => simp
  | cons c cs ih =>
      have hone : 1 ≤ (escape c).length := by
        unfold escape
        repeat' split
        all_goals simp
      rw [List.flatMap_cons, List.length_append, List.length_cons]
      omega

end Injector.Json

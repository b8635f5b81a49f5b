import Injector.Text.Identifier

/-!
# Whole identifiers are found

The search for a word goes on behind each occurrence that it meets, so it never looks at one that
overlaps an earlier one. Such an occurrence begins behind a character of the word itself. Where the
word is made of identifier characters that character belongs to an identifier, and what is passed
over is not whole. The main statement is that the search then misses no whole occurrence and finds
nothing else.
-/

namespace Injector.Text

/-- A word occurs whole in a text behind `front`: it follows there, and neither neighbour belongs
to an identifier. What stands in front of the text itself is `before`. -/
def WholeBehind (word : List Char) (before : Option Char) (front text : List Char) : Prop :=
  ∃ back, text = front ++ word ++ back ∧ standsAlone (front.getLast?.or before) back.head?

variable {word : List Char} {before : Option Char} {front text rest : List Char} {c d : Char}

theorem standsAlone_iff {after : Option Char} :
    standsAlone before after ↔
      (∀ c ∈ before, ¬ isIdentifier c) ∧ ∀ c ∈ after, ¬ isIdentifier c := by
  simp only [standsAlone, Bool.and_eq_true, Bool.not_eq_true', Option.any_eq_false,
    Bool.not_eq_true, Option.mem_def]

/-! ### One character of the text -/

/-- Whether a word occurs whole where a text begins is settled by looking at that place. -/
theorem wholeBehind_nil :
    WholeBehind word before [] text ↔
      word <+: text ∧ standsAlone before (text.drop word.length).head? := by
  constructor
  · rintro ⟨back, rfl, halone⟩
    exact ⟨List.prefix_append word back, by simpa using halone⟩
  · rintro ⟨⟨back, rfl⟩, halone⟩
    exact ⟨back, rfl, by simpa using halone⟩

/-- Behind its first character a text is searched like any other, with that character before it. -/
theorem wholeBehind_cons :
    WholeBehind word before (d :: front) (c :: rest) ↔
      c = d ∧ WholeBehind word (some d) front rest := by
  have hlast : (d :: front).getLast?.or before = front.getLast?.or (some d) := by
    rw [List.getLast?_cons]
    cases front.getLast? <;> rfl
  simp only [WholeBehind, hlast, List.cons_append, List.cons.injEq, and_assoc, exists_and_left]

/-- In an empty text only the empty word occurs. -/
theorem wholeBehind_empty :
    WholeBehind word before front [] ↔ front = [] ∧ word = [] ∧ standsAlone before none := by
  constructor
  · rintro ⟨back, htext, halone⟩
    obtain ⟨rfl, rfl, rfl⟩ : front = [] ∧ word = [] ∧ back = [] := by simpa using htext.symm
    exact ⟨rfl, rfl, halone⟩
  · rintro ⟨rfl, rfl, halone⟩
    exact ⟨[], rfl, halone⟩

/-- A whole occurrence of a word of identifier characters does not overlap an earlier one: it would
begin behind a character of the word. -/
theorem WholeBehind.length_le (h : WholeBehind word before front text) (hfront : front ≠ [])
    (hword : ∀ c ∈ word, isIdentifier c) (hmeets : word <+: text) :
    word.length ≤ front.length := by
  refine Nat.le_of_not_lt fun hlt => ?_
  obtain ⟨back, htext, halone⟩ := h
  have hprefix : front <+: word := by
    refine List.prefix_of_prefix_length_le ?_ hmeets (by omega)
    rw [htext, List.append_assoc]
    exact List.prefix_append front _
  have hlast : front.getLast hfront ∈ word := hprefix.subset (List.getLast_mem hfront)
  have hnot : ¬ isIdentifier (front.getLast hfront) :=
    (standsAlone_iff.mp halone).1 _ (by simp [List.getLast?_eq_some_getLast hfront])
  exact hnot (hword _ hlast)

/-! ### The whole text -/

/-- What the search finds is a whole occurrence, whatever the word is made of. -/
theorem exists_wholeBehind_of_mentionsFrom {skip : Nat} (h : mentionsFrom word before skip text) :
    ∃ front, skip ≤ front.length ∧ WholeBehind word before front text := by
  fun_induction mentionsFrom word before skip text with
  | case1 before c rest hmeets ih =>
    rcases Bool.or_eq_true_iff.mp h with halone | hlater
    · exact ⟨[], Nat.zero_le _, wholeBehind_nil.mpr ⟨List.isPrefixOf_iff_prefix.mp hmeets, halone⟩⟩
    · obtain ⟨front, -, hwhole⟩ := ih hlater
      exact ⟨c :: front, Nat.zero_le _, wholeBehind_cons.mpr ⟨rfl, hwhole⟩⟩
  | case2 before c rest hmeets ih =>
    obtain ⟨front, -, hwhole⟩ := ih h
    exact ⟨c :: front, Nat.zero_le _, wholeBehind_cons.mpr ⟨rfl, hwhole⟩⟩
  | case3 before skip c rest ih =>
    obtain ⟨front, hskip, hwhole⟩ := ih h
    exact ⟨c :: front, Nat.succ_le_succ hskip, wholeBehind_cons.mpr ⟨rfl, hwhole⟩⟩
  | case4 before skip =>
    obtain ⟨⟨hskip, hempty⟩, halone⟩ : (skip = 0 ∧ word = []) ∧ standsAlone before none := by
      simpa using h
    exact ⟨[], by simp [hskip], wholeBehind_empty.mpr ⟨rfl, hempty, halone⟩⟩

/-- A whole occurrence of a word of identifier characters that is not skipped is found. Where the
word begins without standing alone, what is skipped with it ends before any other occurrence. -/
theorem mentionsFrom_of_wholeBehind {skip : Nat} (hword : ∀ c ∈ word, isIdentifier c)
    (hskip : skip ≤ front.length) (h : WholeBehind word before front text) :
    mentionsFrom word before skip text := by
  fun_induction mentionsFrom word before skip text generalizing front with
  | case1 before c rest hmeets ih =>
    have hmeets := List.isPrefixOf_iff_prefix.mp hmeets
    refine Bool.or_eq_true_iff.mpr ?_
    cases front with
    | nil => exact .inl (wholeBehind_nil.mp h).2
    | cons d front =>
      have hlength := h.length_le (List.cons_ne_nil d front) hword hmeets
      obtain ⟨rfl, hwhole⟩ := wholeBehind_cons.mp h
      exact .inr (ih (Nat.sub_le_of_le_add hlength) hwhole)
  | case2 before c rest hmeets ih =>
    cases front with
    | nil => exact absurd (List.isPrefixOf_iff_prefix.mpr (wholeBehind_nil.mp h).1) hmeets
    | cons d front =>
      obtain ⟨rfl, hwhole⟩ := wholeBehind_cons.mp h
      exact ih (Nat.zero_le _) hwhole
  | case3 before skip c rest ih =>
    cases front with
    | nil => exact absurd hskip (Nat.not_succ_le_zero skip)
    | cons d front =>
      obtain ⟨rfl, hwhole⟩ := wholeBehind_cons.mp h
      exact ih (Nat.le_of_succ_le_succ hskip) hwhole
  | case4 before skip =>
    obtain ⟨rfl, rfl, halone⟩ := wholeBehind_empty.mp h
    obtain rfl : skip = 0 := Nat.le_zero.mp hskip
    simpa using halone

/-- A word made of identifier characters, be it empty or not, is mentioned exactly where it occurs
in the expression with no identifier character before or behind it. -/
theorem mentions_iff {expression word : String} (hword : ∀ c ∈ word.toList, isIdentifier c) :
    mentions expression word ↔ ∃ front back : String, expression = front ++ word ++ back ∧
      (∀ c ∈ front.toList.getLast?, ¬ isIdentifier c) ∧
      ∀ c ∈ back.toList.head?, ¬ isIdentifier c := by
  constructor
  · intro h
    obtain ⟨front, -, back, htext, halone⟩ := exists_wholeBehind_of_mentionsFrom h
    refine ⟨String.ofList front, String.ofList back, ?_, ?_⟩
    · rw [← String.toList_inj, htext]
      simp
    · simpa using standsAlone_iff.mp halone
  · rintro ⟨front, back, rfl, halone⟩
    have hwhole : WholeBehind word.toList none front.toList (front ++ word ++ back).toList :=
      ⟨back.toList, by simp, by simpa using standsAlone_iff.mpr halone⟩
    exact mentionsFrom_of_wholeBehind hword (Nat.zero_le _) hwhole

/-- In the first expression the word occurs three times, the second time overlapping the first, and
only the third occurrence is whole; in the other one no occurrence is. -/
theorem mentions_repeated :
    (∀ c ∈ "éé".toList, isIdentifier c) ∧ mentions "ééé + éé" "éé" ∧
      ¬ ∃ front back : String, "ééé" = front ++ "éé" ++ back ∧
        (∀ c ∈ front.toList.getLast?, ¬ isIdentifier c) ∧
        ∀ c ∈ back.toList.head?, ¬ isIdentifier c := by
  have hword : ∀ c ∈ "éé".toList, isIdentifier c := List.all_eq_true.mp (by decide)
  refine ⟨hword, (mentions_iff hword).mpr ⟨"ééé + ", "", rfl, standsAlone_iff.mp (by decide)⟩, ?_⟩
  intro h
  exact absurd ((mentions_iff hword).mpr h) (by decide)

/-- A word with other characters in it can be whole where it overlaps an earlier occurrence, and is
missed there. -/
example : WholeBehind "a.a".toList none "xa.".toList "xa.a.a".toList ∧
    mentions "xa.a.a" "a.a" = false :=
  ⟨⟨[], by decide⟩, by decide⟩

end Injector.Text

import Injector.Wiring.CycleLog
import Mathlib.Data.List.Rotate
import Mathlib.Data.String.Basic

/-!
# Loops that are taken for reported ones

A loop is remembered as the rotation that begins with the first occurrence of its least member. Two
loops that are remembered alike are rotations of each other. The other way round, what is remembered
stands for all rotations of a loop exactly when only one rotation begins with a least member. The
main statement is that loops are recognised soundly, and for which of them completely.
-/

namespace Injector.CycleLog

variable {members l : List String} {reported : List (List String)}

/-- Whether no member is less than the first one. -/
def BeginsLeast (l : List String) : Prop := ∀ m ∈ l.head?, ∀ x ∈ l, m ≤ x

/-- Whether only one rotation of a loop begins with a least member. -/
def Anchored (members : List String) : Prop :=
  ∀ l l', l ~r members → l' ~r members → BeginsLeast l → BeginsLeast l' → l = l'

theorem least_mem (first : String) (rest : List String) : least first rest ∈ first :: rest := by
  unfold least
  induction rest generalizing first with
  | nil => exact List.mem_singleton_self first
  | cons x rest ih =>
    rw [List.foldl_cons]
    split
    · exact List.mem_cons_of_mem _ (ih x)
    · rcases List.mem_cons.mp (ih first) with h | h
      · exact List.mem_cons.mpr (.inl h)
      · exact List.mem_cons_of_mem _ (List.mem_cons_of_mem _ h)

theorem least_le (first : String) (rest : List String) :
    ∀ x ∈ first :: rest, least first rest ≤ x := by
  unfold least
  induction rest generalizing first with
  | nil => simp
  | cons x rest ih =>
    rw [List.foldl_cons]
    split
    · next hlt =>
      obtain ⟨hx, hrest⟩ := List.forall_mem_cons.mp (ih x)
      exact List.forall_mem_cons.mpr ⟨hx.trans hlt.le, List.forall_mem_cons.mpr ⟨hx, hrest⟩⟩
    · next hle =>
      obtain ⟨hfirst, hrest⟩ := List.forall_mem_cons.mp (ih first)
      exact List.forall_mem_cons.mpr
        ⟨hfirst, List.forall_mem_cons.mpr ⟨hfirst.trans (not_lt.mp hle), hrest⟩⟩

/-- A loop is cut before the first occurrence of its least member, and the parts change places. -/
theorem exists_leastRotation (hne : members ≠ []) :
    ∃ before m after, members = before ++ m :: after ∧ m ∉ before ∧ (∀ x ∈ members, m ≤ x) ∧
      leastRotation members = m :: after ++ before := by
  obtain ⟨first, rest, rfl⟩ := List.exists_cons_of_ne_nil hne
  obtain ⟨before, after, heq, hfirst⟩ := List.eq_append_cons_of_mem (least_mem first rest)
  have hbefore : ∀ x ∈ before, decide (x ≠ least first rest) = true :=
    fun x hx => decide_eq_true fun h => hfirst (h ▸ hx)
  refine ⟨before, least first rest, after, heq, hfirst, least_le first rest, ?_⟩
  rw [leastRotation, heq, List.dropWhile_append_of_pos hbefore,
    List.takeWhile_append_of_pos hbefore]
  simp

/-- What is remembered is a rotation. -/
theorem leastRotation_isRotated (members : List String) :
    leastRotation members ~r members := by
  rcases eq_or_ne members [] with rfl | hne
  · exact .refl _
  · obtain ⟨before, m, after, heq, -, -, hrotated⟩ := exists_leastRotation hne
    rw [hrotated, heq]
    exact List.isRotated_append

/-- What is remembered begins with a least member. -/
theorem beginsLeast_leastRotation (members : List String) :
    BeginsLeast (leastRotation members) := by
  rcases eq_or_ne members [] with rfl | hne
  · simp [leastRotation, BeginsLeast]
  · obtain ⟨before, m, after, heq, -, hleast, hrotated⟩ := exists_leastRotation hne
    intro m' hm' x hx
    have hx : x ∈ members := (leastRotation_isRotated members).mem_iff.mp hx
    rw [hrotated] at hm'
    cases hm'
    exact hleast x hx

/-- A loop that begins with a least member is remembered as it is. -/
theorem BeginsLeast.leastRotation_eq (h : BeginsLeast members) :
    leastRotation members = members := by
  rcases eq_or_ne members [] with rfl | hne
  · rfl
  · obtain ⟨before, m, after, heq, hfirst, hleast, hrotated⟩ := exists_leastRotation hne
    cases before with
    | nil => rw [hrotated, heq, List.append_nil, List.nil_append]
    | cons first before =>
      have hm : m ∈ members := heq ▸ List.mem_append_right _ List.mem_cons_self
      have hin : first ∈ members := heq ▸ List.mem_cons_self
      have heq' : m = first := le_antisymm (hleast first hin) (h first (by simp [heq]) m hm)
      exact absurd (heq' ▸ List.mem_cons_self) hfirst

/-- A loop whose least member occurs once begins with it in one rotation only: another one would
begin with another occurrence. -/
theorem anchored_of_count_eq_one
    (h : ∀ m ∈ members, (∀ x ∈ members, m ≤ x) → members.count m = 1) : Anchored members := by
  intro l l' hl hl' hleast hleast'
  obtain ⟨n, hn, rfl⟩ := List.isRotated_iff_mod.mp (hl.trans hl'.symm)
  rcases hn.eq_or_lt with rfl | hn
  · exact (List.rotate_length l).symm
  · match l, n with
    | [], _ => exact absurd hn (Nat.not_lt_zero _)
    | m :: rest, 0 => exact (List.rotate_zero _).symm
    | m :: rest, n + 1 =>
      have hn : n < rest.length := by simpa using hn
      have hhead : ((m :: rest).rotate (n + 1)).head? = some rest[n] := by
        rw [List.head?_rotate (by simpa using hn), List.getElem?_cons_succ,
          List.getElem?_eq_getElem hn]
      have hleast : ∀ x ∈ m :: rest, m ≤ x := hleast m rfl
      have heq : rest[n] = m := le_antisymm
        (hleast' _ hhead m (hl'.mem_iff.mpr (hl.mem_iff.mp List.mem_cons_self)))
        (hleast _ (List.mem_cons_of_mem _ (List.getElem_mem hn)))
      have hone := h m (hl.mem_iff.mp List.mem_cons_self) fun x hx => hleast x (hl.mem_iff.mpr hx)
      rw [← hl.perm.count_eq, List.count_cons_self] at hone
      have hnone : m ∉ rest := List.count_eq_zero.mp (by omega)
      exact absurd (heq ▸ List.getElem_mem hn) hnone

/-- The log after loops were reported one after the other. -/
def afterReports (reported : List (List String)) : CycleLog :=
  reported.foldl (fun log members => (log.report members).2) .empty

theorem mem_loops_report {log : CycleLog} :
    l ∈ (log.report members).2.loops ↔ l = leastRotation members ∨ l ∈ log.loops := by
  unfold report
  simp only
  split
  · next hin => exact ⟨.inr, fun h => h.elim (fun heq => heq ▸ hin) id⟩
  · exact List.mem_cons

private theorem mem_loops_foldl {log : CycleLog} :
    l ∈ (reported.foldl (fun log members => (log.report members).2) log).loops ↔
      (∃ earlier ∈ reported, leastRotation earlier = l) ∨ l ∈ log.loops := by
  induction reported generalizing log with
  | nil => simp
  | cons members reported ih =>
    rw [List.foldl_cons, ih, mem_loops_report, List.exists_mem_cons_iff, eq_comm (a := l),
      or_left_comm, or_assoc]

/-- What is remembered are the rotations of the loops that were reported. -/
theorem mem_loops_afterReports :
    l ∈ (afterReports reported).loops ↔ ∃ earlier ∈ reported, leastRotation earlier = l := by
  rw [afterReports, mem_loops_foldl]
  simp [empty]

/-- Whether a loop is taken for one of those that were reported. -/
def Recognises (reported : List (List String)) (members : List String) : Prop :=
  ((afterReports reported).report members).1 = false

theorem recognises_iff : Recognises reported members ↔
    ∃ earlier ∈ reported, leastRotation earlier = leastRotation members := by
  rw [← mem_loops_afterReports, Recognises, report]
  split
  · next hin => exact iff_of_true rfl hin
  · next hnew => exact iff_of_false Bool.noConfusion hnew

/-- A loop that is taken for a reported one is a rotation of one. Each rotation of a reported loop
is recognised, whatever was reported, exactly when only one rotation of it begins with a least
member, as when its least member occurs once. -/
theorem recognises_sound_and_complete_iff (members : List String) :
    (∀ reported, Recognises reported members → ∃ earlier ∈ reported, members ~r earlier) ∧
    ((∀ reported, (∃ earlier ∈ reported, members ~r earlier) → Recognises reported members) ↔
      Anchored members) ∧
    ((∀ m ∈ members, (∀ x ∈ members, m ≤ x) → members.count m = 1) → Anchored members) := by
  refine ⟨fun reported h => ?_, ⟨fun h => ?_, fun h reported hreported => ?_⟩,
    anchored_of_count_eq_one⟩
  · obtain ⟨earlier, hin, heq⟩ := recognises_iff.mp h
    refine ⟨earlier, hin, ?_⟩
    exact (leastRotation_isRotated members).symm.trans (heq ▸ leastRotation_isRotated earlier)
  · have hremembered : ∀ l, l ~r members → BeginsLeast l → l = leastRotation members := by
      intro l hl hleast
      obtain ⟨earlier, hin, heq⟩ := recognises_iff.mp (h [l] ⟨l, by simp, hl.symm⟩)
      rw [← heq, List.mem_singleton.mp hin, hleast.leastRotation_eq]
    intro l l' hl hl' hleast hleast'
    rw [hremembered l hl hleast, hremembered l' hl' hleast']
  · obtain ⟨earlier, hin, hrotated⟩ := hreported
    refine recognises_iff.mpr ⟨earlier, hin, ?_⟩
    exact h _ _ ((leastRotation_isRotated earlier).trans hrotated.symm)
      (leastRotation_isRotated members) (beginsLeast_leastRotation earlier)
      (beginsLeast_leastRotation members)

/-- A loop with two least members is taken for a new one when it is met from the other of them. -/
theorem not_recognises_of_two_least :
    ¬ ∀ reported members, Recognises reported members ↔
      ∃ earlier ∈ reported, members ~r earlier := by
  intro hall
  have hseen := (hall [["IA", "IB", "IA", "IC"]] ["IA", "IC", "IA", "IB"]).mpr
    ⟨_, List.mem_singleton_self _, 2, rfl⟩
  revert hseen
  unfold Recognises
  decide

end Injector.CycleLog

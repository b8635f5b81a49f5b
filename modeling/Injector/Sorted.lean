/-!
# Stable sorting by a Boolean order

Constructors, plan arguments and dependencies are listed by a key, with entries of equal key
keeping the order in which they were declared. Insertion from the right is stable, and it reduces
by structural recursion, so that a closed instance can be computed.
-/

namespace Injector

/-- Puts `a` before the first element that does not come strictly before it. -/
def insertBy {α : Type} (le : α → α → Bool) (a : α) : List α → List α
  | [] => [a]
  | b :: rest => if le a b then a :: b :: rest else b :: insertBy le a rest

/-- The elements in ascending order; elements of equal rank keep their order. -/
def sortBy {α : Type} (le : α → α → Bool) : List α → List α
  | [] => []
  | a :: rest => insertBy le a (sortBy le rest)

/-- The elements in ascending order of a natural number read off each. -/
def sortOn {α : Type} (key : α → Nat) (as : List α) : List α :=
  sortBy (fun a b => key a ≤ key b) as

theorem insertBy_perm {α : Type} (le : α → α → Bool) (a : α) (bs : List α) :
    (insertBy le a bs).Perm (a :: bs) := by
  induction bs with
  | nil => exact List.Perm.refl _
  | cons b rest ih =>
      rw [insertBy]
      split
      · exact List.Perm.refl _
      · exact (ih.cons b).trans (List.Perm.swap a b rest)

/-- Sorting loses and invents nothing. -/
theorem sortBy_perm {α : Type} (le : α → α → Bool) (as : List α) :
    (sortBy le as).Perm as := by
  induction as with
  | nil => exact List.Perm.refl _
  | cons a rest ih => exact (insertBy_perm le a _).trans (ih.cons a)

@[simp] theorem mem_sortBy {α : Type} {le : α → α → Bool} {as : List α} {x : α} :
    x ∈ sortBy le as ↔ x ∈ as :=
  (sortBy_perm le as).mem_iff

theorem pairwise_insertBy_key {α : Type} {key : α → Nat} {a : α} {bs : List α}
    (h : bs.Pairwise fun b c => key b ≤ key c) :
    (insertBy (fun b c => key b ≤ key c) a bs).Pairwise fun b c => key b ≤ key c := by
  induction bs with
  | nil => simp [insertBy]
  | cons b rest ih =>
      obtain ⟨hb, hrest⟩ := List.pairwise_cons.mp h
      rw [insertBy]
      split
      · next hle =>
        have hle : key a ≤ key b := of_decide_eq_true hle
        refine List.pairwise_cons.mpr ⟨fun c hc => ?_, h⟩
        rcases List.mem_cons.mp hc with rfl | hc
        · exact hle
        · exact Nat.le_trans hle (hb c hc)
      · next hgt =>
        have hle : key b ≤ key a :=
          Nat.le_of_lt (Nat.lt_of_not_le fun hle => hgt (by simpa using hle))
        refine List.pairwise_cons.mpr ⟨fun c hc => ?_, ih hrest⟩
        rcases List.mem_cons.mp ((insertBy_perm _ a rest).mem_iff.mp hc) with rfl | hc
        · exact hle
        · exact hb c hc

/-- Keys ascend in a sorted list. -/
theorem pairwise_sortOn {α : Type} (key : α → Nat) (as : List α) :
    (sortOn key as).Pairwise fun a b => key a ≤ key b := by
  induction as with
  | nil => exact List.Pairwise.nil
  | cons a rest ih => exact pairwise_insertBy_key ih

/-- Adds an element to an ascending list without repetitions, unless it is there. -/
def insertDistinct {α : Type} [LT α] [DecidableLT α] [DecidableEq α] (a : α) : List α → List α
  | [] => [a]
  | b :: rest =>
      if a < b then a :: b :: rest
      else if a = b then b :: rest
      else b :: insertDistinct a rest

@[simp] theorem mem_insertDistinct {α : Type} [LT α] [DecidableLT α] [DecidableEq α]
    {a x : α} {as : List α} : x ∈ insertDistinct a as ↔ x = a ∨ x ∈ as := by
  induction as with
  | nil => simp [insertDistinct]
  | cons b rest ih =>
      rw [insertDistinct]
      split
      · simp
      · split
        · next heq => simp [heq]
        · simp only [List.mem_cons, ih]
          exact or_left_comm

end Injector

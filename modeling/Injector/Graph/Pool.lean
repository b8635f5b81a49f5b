import Injector.Sorted

/-!
# Numbered things whose numbers are used again

A pool hands out numbers: the one freed last if any is free, and the next new one otherwise. It
remembers in which order its things were added.
-/

namespace Injector

/-- Numbered things. -/
structure Pool (α : Type) where
  /-- The things with their numbers, the one added last first. -/
  entries : List (Nat × α)
  /-- The numbers free for use, the one freed last first. -/
  free : List Nat
  /-- The least number that was never used. -/
  fresh : Nat
  deriving DecidableEq, Repr, Inhabited

namespace Pool

variable {α : Type}

/-- The pool without things. -/
def empty : Pool α := ⟨[], [], 0⟩

/-- The number that the next thing gets. -/
def nextNumber (p : Pool α) : Nat := p.free.head?.getD p.fresh

/-- Adds a thing under the next number. -/
def add (p : Pool α) (a : α) : Pool α :=
  match p.free with
  | n :: free => ⟨(n, a) :: p.entries, free, p.fresh⟩
  | [] => ⟨(p.fresh, a) :: p.entries, [], p.fresh + 1⟩

/-- The thing with a number. -/
def get? (p : Pool α) (n : Nat) : Option α := p.entries.lookup n

/-- Whether a number is in use. -/
def contains (p : Pool α) (n : Nat) : Bool := (p.get? n).isSome

/-- Removes the thing with a number, if there is one, and frees the number. -/
def erase (p : Pool α) (n : Nat) : Pool α :=
  if p.contains n then ⟨p.entries.filter fun e => e.1 != n, n :: p.free, p.fresh⟩ else p

/-- Changes the thing with a number. -/
def modify (p : Pool α) (n : Nat) (f : α → α) : Pool α :=
  { p with entries := p.entries.map fun e => if e.1 = n then (e.1, f e.2) else e }

/-- The number of things. -/
def size (p : Pool α) : Nat := p.entries.length

/-- The things in the order of their numbers. -/
def ascending (p : Pool α) : List (Nat × α) := sortOn Prod.fst p.entries

/-- The numbers in use, ascending. -/
def numbers (p : Pool α) : List Nat := p.ascending.map Prod.fst

/-- A thing just added stands under the next number. -/
theorem get?_add_nextNumber (p : Pool α) (a : α) : (p.add a).get? p.nextNumber = some a := by
  unfold add nextNumber get?
  cases p.free <;> simp

end Pool

end Injector

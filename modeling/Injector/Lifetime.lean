import Injector.Datum.Record

/-!
# Lifetimes

A lifetime says how widely one instance of a binding is shared.
-/

namespace Injector

/-- How widely an instance is shared. -/
inductive Lifetime where
  /-- A new instance for every injection. -/
  | transient
  /-- One instance for each provider call. -/
  | perBlock
  /-- One instance for each resolution of a root. -/
  | perResolve
  /-- One instance for each scope. -/
  | scoped
  /-- One instance for the composition. -/
  | singleton
  deriving DecidableEq, Repr, Inhabited

namespace Lifetime

/-- The lifetimes from the narrowest on. -/
def all : List Lifetime := [.transient, .perBlock, .perResolve, .scoped, .singleton]

/-- The name of a lifetime. -/
def name : Lifetime → String
  | .transient => "Transient"
  | .perBlock => "PerBlock"
  | .perResolve => "PerResolve"
  | .scoped => "Scoped"
  | .singleton => "Singleton"

/-- The width of the storage an instance lives in. -/
def rank : Lifetime → Nat
  | .transient | .perBlock | .perResolve => 0
  | .scoped => 1
  | .singleton => 2

/-- Whether instances outlive a single resolution. -/
def isLongLived : Lifetime → Bool
  | .scoped | .singleton => true
  | _ => false

/-- Reads a lifetime. -/
def ofDatum? (d : Datum) : Option Lifetime := d.choice? all name

/-- The lifetime as JSON. -/
def toJson (l : Lifetime) : Json := .string l.name

/-- Scoped instances and singletons are the ones that outlive a resolution. -/
theorem isLongLived_iff_eq {l : Lifetime} :
    l.isLongLived = true ↔ l = .scoped ∨ l = .singleton := by
  cases l <;> simp [isLongLived]

end Lifetime

end Injector

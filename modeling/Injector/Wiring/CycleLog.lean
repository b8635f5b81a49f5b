/-!
# Loops that were reported

Several roots can run into one loop at different places. A loop is remembered as the rotation that
begins with its least member, so that it is reported once.
-/

namespace Injector

/-- The loops reported so far. -/
structure CycleLog where
  /-- The loops, each beginning with its least member. -/
  loops : List (List String)
  deriving DecidableEq, Repr, Inhabited

namespace CycleLog

/-- Nothing reported. -/
def empty : CycleLog := ⟨[]⟩

/-- The least of a first and further members. -/
def least (first : String) (rest : List String) : String :=
  rest.foldl (fun m x => if x < m then x else m) first

/-- The rotation that begins with the first occurrence of the least member. -/
def leastRotation : List String → List String
  | [] => []
  | first :: rest =>
      let m := least first rest
      (first :: rest).dropWhile (· ≠ m) ++ (first :: rest).takeWhile (· ≠ m)

/-- Whether a loop is new, and the log with it. -/
def report (log : CycleLog) (members : List String) : Bool × CycleLog :=
  let l := leastRotation members
  if l ∈ log.loops then (false, log) else (true, ⟨l :: log.loops⟩)

end CycleLog

end Injector

import Injector.Setup.Basic
import Injector.Shape

/-!
# Construction plans

A plan says how a root is made: routines of steps in the order in which they are carried out, one
for the root and one for each value behind a provider; the slots that hold the values; the
arguments of the root member; and the order of disposal.
-/

namespace Injector

namespace Plan

/-- How a step makes its value. -/
inductive Action where
  /-- By a constructor, which has a number unless the implementation declares none. -/
  | construct (implementation : String) (constructor : Option Nat)
  /-- By an expression. -/
  | factory (expression : String)
  /-- It is given from outside. -/
  | argument (name : String) (source : ArgumentSource)
  /-- By a shape. -/
  | synthesize (strategy : Strategy)
  deriving DecidableEq, Repr, Inhabited

/-- A value passed to a step. -/
inductive Operand where
  /-- The value of an earlier step. -/
  | slot (n : Nat)
  /-- A provider that carries out a routine. -/
  | provider (routine : Nat) (strategy : Strategy)
  /-- An argument of the provider call that carries out the routine. -/
  | providerArgument (index : Nat)
  /-- A factory variable that an earlier override supplies. -/
  | inline (variableName : String)
  deriving DecidableEq, Repr, Inhabited

/-- A step of a routine. -/
structure Step where
  /-- The slot that receives the value. -/
  slot : Nat
  /-- The contract that the value answers. -/
  contract : Contract
  /-- How widely the value is shared. -/
  lifetime : Lifetime
  /-- How the value is made. -/
  action : Action
  /-- The values passed, in the order of parameters. -/
  operands : List Operand
  /-- Whether the slot is used again once it is filled. -/
  isShared : Bool
  deriving DecidableEq, Repr, Inhabited

/-- Steps that produce one value. -/
structure Routine where
  /-- The number; that of the root is zero. -/
  id : Nat
  /-- The slot of the value. -/
  target : Nat
  /-- The steps, each after those whose values it needs. -/
  steps : List Step
  deriving DecidableEq, Repr, Inhabited

/-- A slot that holds a value. -/
structure Slot where
  /-- The number. -/
  id : Nat
  /-- The contract that the value answers. -/
  contract : Contract
  /-- How widely the value is shared. -/
  lifetime : Lifetime
  /-- The scope of a scoped value, if it is not that of the composition. -/
  scope : Option String
  deriving DecidableEq, Repr, Inhabited

/-- An argument of the root member. -/
structure RootArgument where
  /-- The argument. -/
  name : String
  /-- The contract that it answers. -/
  contract : Contract
  deriving DecidableEq, Repr, Inhabited

/-- The slots to dispose, in the order of disposal. -/
structure Disposal where
  /-- Those disposed with the composition or a scope. -/
  scopeTeardown : List Nat
  /-- Those disposed with the resolution that made them. -/
  perOwner : List Nat
  deriving DecidableEq, Repr, Inhabited

end Plan

/-- How a root is made. -/
structure Plan where
  /-- The composition. -/
  composition : String
  /-- What diagnostics call the root. -/
  root : String
  /-- The shape of the root member. -/
  kind : RootKind
  /-- Whether shared slots are filled for several threads. -/
  threadSafe : Bool
  /-- The routine of the root. -/
  entry : Plan.Routine
  /-- The routines that providers carry out. -/
  providers : List Plan.Routine
  /-- The slots. -/
  slots : List Plan.Slot
  /-- The arguments of the root member. -/
  rootArguments : List Plan.RootArgument
  /-- The order of disposal. -/
  disposal : Plan.Disposal
  deriving DecidableEq, Repr, Inhabited

end Injector

import Injector.Setup.Basic

/-!
# Drafts of bindings

A draft declares a binding step by step, with its types still as text. The types are read when the
draft is finished, those of the contracts first, so that the first malformed one is reported. A
statement about a recipe of another kind than the one chosen last changes nothing.
-/

namespace Injector

/-- Why a draft cannot be finished. -/
inductive DraftError where
  /-- A text is not a type. -/
  | malformedType (e : TypeExpr.ParseError)
  /-- A binding declares neither a contract nor a recipe. -/
  | nothingBound
  deriving DecidableEq, Repr

/-- The message that reports the error. -/
def DraftError.message : DraftError → String
  | .malformedType e => e.message
  | .nothingBound =>
      "invalid configuration: binding declares neither a contract nor a recipe"

namespace Draft

/-- Reads a type of a draft. -/
def typeOf (text : String) : Except DraftError TypeExpr :=
  (TypeExpr.parse text).mapError .malformedType

/-- Reads a type of a draft, if there is one. -/
def typeOf? : Option String → Except DraftError (Option TypeExpr)
  | some text => return some (← typeOf text)
  | none => return none

/-- A parameter of a drafted constructor. -/
structure Parameter where
  /-- The parameter. -/
  name : String
  /-- The requested type. -/
  type : String
  /-- The requested tag. -/
  tag : Option TagSpec
  deriving DecidableEq, Repr, Inhabited

/-- The parameter, declared at a place. -/
def Parameter.finish (location : Location) (p : Parameter) : Except DraftError Injection :=
  return ⟨p.name, ← typeOf p.type, p.tag, location⟩

/-- A statement of a drafted factory. -/
inductive Statement where
  /-- Injects a dependency into a variable. -/
  | inject (variableName : String) (type : Option String) (tag : Option TagSpec)
  /-- Makes a variable answer later injections. -/
  | override (variableName : String) (type : Option String)
  deriving DecidableEq, Repr, Inhabited

/-- The statement, declared at a place. -/
def Statement.finish (location : Location) : Statement → Except DraftError FactoryStep
  | .inject variableName type tag => return .inject variableName (← typeOf? type) tag location
  | .override variableName type => return .override variableName (← typeOf? type) location

/-- A drafted recipe. -/
inductive Making where
  /-- By a constructor of an implementation, each with its rank. -/
  | construct (implementation : String) (implements : Option (List String))
      (constructors : List (List Parameter × Option Int))
  /-- By an expression, possibly asynchronous, after some statements. -/
  | factory (expression : String) (statements : List Statement) (isAsync : Bool)
  /-- It is given from outside. -/
  | argument (name : String) (source : ArgumentSource)
  deriving DecidableEq, Repr, Inhabited

/-- The recipe, declared at a place. -/
def Making.finish (location : Location) : Making → Except DraftError Recipe
  | .construct implementation implements constructors => do
      let implementation ← typeOf implementation
      let implements ← match implements with
        | some types => pure (some (← types.mapM typeOf))
        | none => pure none
      let constructors ← constructors.mapM fun c => do
        return (⟨← c.1.mapM (Parameter.finish location), c.2⟩ : Constructor)
      return .construct implementation implements constructors
  | .factory expression statements isAsync =>
      return .factory expression (← statements.mapM (Statement.finish location)) isAsync
  | .argument name source => return .argument name source

/-- A drafted binding. -/
structure Binding where
  /-- The contracts answered, each with its tags. -/
  contracts : List (String × List TagSpec)
  /-- The lifetime. -/
  lifetime : Option Lifetime
  /-- The scope of a scoped binding. -/
  scope : Option String
  /-- Whether instances are to be disposed. -/
  disposable : Bool
  /-- The line of the declaration. -/
  line : Option Nat
  /-- The recipe chosen last. -/
  making : Option Making
  deriving DecidableEq, Repr, Inhabited

namespace Binding

/-- A binding that declares nothing yet. -/
def empty : Binding := ⟨[], none, none, false, none, none⟩

/-- Declares a further contract. -/
def contract (b : Binding) (type : String) (tags : List TagSpec) : Binding :=
  { b with contracts := b.contracts ++ [(type, tags)] }

/-- Adds tags to the contract declared last, if there is one. -/
def addTags (b : Binding) (tags : List TagSpec) : Binding :=
  match b.contracts.getLast? with
  | some (type, earlier) =>
      { b with contracts := b.contracts.dropLast ++ [(type, earlier ++ tags)] }
  | none => b

/-- A binding for one untagged contract. -/
def forContract (type : String) : Binding := empty.contract type []

/-- Sets the lifetime. -/
def withLifetime (b : Binding) (lifetime : Lifetime) : Binding :=
  { b with lifetime := some lifetime }

/-- Sets the scope. -/
def withScope (b : Binding) (scope : String) : Binding := { b with scope := some scope }

/-- Has instances disposed. -/
def disposed (b : Binding) : Binding := { b with disposable := true }

/-- Sets the line of the declaration. -/
def atLine (b : Binding) (line : Nat) : Binding := { b with line := some line }

/-- Chooses an implementation, without constructors so far. -/
def construct (b : Binding) (implementation : String) : Binding :=
  { b with making := some (.construct implementation none []) }

/-- Declares what the implementation is known to implement. -/
def implementing (b : Binding) (types : List String) : Binding :=
  match b.making with
  | some (.construct implementation _ constructors) =>
      { b with making := some (.construct implementation (some types) constructors) }
  | _ => b

/-- Declares a further constructor of the implementation. -/
def addConstructor (b : Binding) (parameters : List Parameter) (ordinal : Option Int) : Binding :=
  match b.making with
  | some (.construct implementation implements constructors) =>
      { b with making := some (.construct implementation implements
        (constructors ++ [(parameters, ordinal)])) }
  | _ => b

/-- Chooses a factory, without statements so far. -/
def factory (b : Binding) (expression : String) : Binding :=
  { b with making := some (.factory expression [] false) }

/-- Adds a statement to the factory. -/
def addStatement (b : Binding) (statement : Statement) : Binding :=
  match b.making with
  | some (.factory expression statements isAsync) =>
      { b with making := some (.factory expression (statements ++ [statement]) isAsync) }
  | _ => b

/-- Makes the factory asynchronous. -/
def asynchronous (b : Binding) : Binding :=
  match b.making with
  | some (.factory expression statements _) =>
      { b with making := some (.factory expression statements true) }
  | _ => b

/-- Chooses an argument. -/
def argument (b : Binding) (name : String) (source : ArgumentSource) : Binding :=
  { b with making := some (.argument name source) }

/-- The recipe chosen, or else the construction of the first contract's type. -/
def recipe (b : Binding) (location : Location) (contracts : List ContractSpec) :
    Except DraftError Recipe :=
  match b.making, contracts with
  | some making, _ => making.finish location
  | none, c :: _ => return .construct c.type none []
  | none, [] => throw .nothingBound

/-- The binding, declared in a file. -/
def finish (file : String) (b : Binding) : Except DraftError Injector.Binding := do
  let location : Location := match b.line with
    | some line => ⟨file, line, 1⟩
    | none => .unknown
  let contracts ← b.contracts.mapM fun c => do
    return (⟨← typeOf c.1, c.2⟩ : ContractSpec)
  return {
    contracts
    lifetime := b.lifetime
    recipe := ← b.recipe location contracts
    scope := b.scope
    disposable := b.disposable
    location }

end Binding

end Draft

end Injector

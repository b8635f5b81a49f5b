import Injector.Contract
import Injector.Dictionary
import Injector.Lifetime
import Injector.Location

/-!
# Setups

A setup is a named group of bindings and roots. Bindings say which contracts are answered and how
an instance is made; roots say which contracts a composition exposes. Setups are the input of a
resolution and are never changed by it.
-/

namespace Injector

/-- A contract as a binding declares it: one type under no, one or several tags. -/
structure ContractSpec where
  /-- The type. -/
  type : TypeExpr
  /-- The tags; none stands for the untagged contract. -/
  tags : List TagSpec
  deriving DecidableEq, Repr, Inhabited

/-- A parameter that receives a dependency. -/
structure Injection where
  /-- The parameter. -/
  name : String
  /-- The requested type. -/
  type : TypeExpr
  /-- The requested tag. -/
  tag : Option TagSpec
  /-- Where the parameter is declared. -/
  location : Location
  deriving DecidableEq, Repr, Inhabited

/-- A constructor of an implementation. -/
structure Constructor where
  /-- The parameters in the order of declaration. -/
  parameters : List Injection
  /-- The rank among the constructors; ranked ones are tried first, the lowest rank before all. -/
  ordinal : Option Int
  deriving DecidableEq, Repr, Inhabited

/-- A statement of a factory. -/
inductive FactoryStep where
  /-- Injects a dependency into a variable, whose type may be left to later overrides. -/
  | inject (variableName : String) (type : Option TypeExpr) (tag : Option TagSpec)
      (location : Location)
  /-- Makes a variable answer later injections of a type, by default of its own type. -/
  | override (variableName : String) (type : Option TypeExpr) (location : Location)
  deriving DecidableEq, Repr, Inhabited

/-- Where an argument comes from. -/
inductive ArgumentSource where
  /-- It is given to the composition. -/
  | composition
  /-- It is given to the root member. -/
  | root
  deriving DecidableEq, Repr, Inhabited

/-- How an instance is made. -/
inductive Recipe where
  /-- By a constructor of an implementation, whose further contracts may be known. -/
  | construct (implementation : TypeExpr) (implements : Option (List TypeExpr))
      (constructors : List Constructor)
  /-- By an expression, possibly asynchronous, after some statements. -/
  | factory (expression : String) (steps : List FactoryStep) (isAsync : Bool)
  /-- It is given from outside. -/
  | argument (name : String) (source : ArgumentSource)
  deriving DecidableEq, Repr, Inhabited

/-- A registration of a recipe for contracts. -/
structure Binding where
  /-- The contracts answered; none stands for the implementation itself. -/
  contracts : List ContractSpec
  /-- The lifetime, if it differs from the setup's. -/
  lifetime : Option Lifetime
  /-- How an instance is made. -/
  recipe : Recipe
  /-- The scope of a scoped binding, if it is not that of the composition. -/
  scope : Option String
  /-- Whether instances are to be disposed. -/
  disposable : Bool
  /-- Where the binding is declared. -/
  location : Location
  deriving DecidableEq, Repr, Inhabited

/-- What becomes of a setup. -/
inductive SetupKind where
  /-- A composition for everyone. -/
  | exposed
  /-- A composition for its own assembly. -/
  | internal
  /-- No composition, but a base of all. -/
  | global
  deriving DecidableEq, Repr, Inhabited

/-- The shape of the member that exposes a root. -/
inductive RootKind where
  /-- A property of the composition. -/
  | property
  /-- A method of the composition. -/
  | method
  /-- A member that needs no instance of the composition. -/
  | static
  /-- A declared method that the composition implements. -/
  | partialMethod
  deriving DecidableEq, Repr, Inhabited

/-- A contract that a composition exposes. -/
structure Root where
  /-- The member; empty when the root is only reached by resolve methods. -/
  name : String
  /-- The requested type. -/
  type : TypeExpr
  /-- The requested tag. -/
  tag : Option TagSpec
  /-- The shape of the member. -/
  kind : RootKind
  /-- Where the root is declared. -/
  location : Location
  deriving DecidableEq, Repr, Inhabited

/-- A member that a setup hands to the compositions that depend on it. -/
structure Member where
  /-- The member. -/
  name : String
  /-- Whether it is shared between the compositions. -/
  isStatic : Bool
  /-- Where the member is declared. -/
  location : Location
  deriving DecidableEq, Repr, Inhabited

/-- A named group of bindings and roots. -/
structure Setup where
  /-- The name; setups of one name are parts of one. -/
  name : String
  /-- What becomes of it. -/
  kind : SetupKind
  /-- The bindings in the order of declaration. -/
  bindings : List Binding
  /-- The roots in the order of declaration. -/
  roots : List Root
  /-- The setups whose bindings and roots it takes over. -/
  dependsOn : List String
  /-- The lifetime of bindings that declare none. -/
  defaultLifetime : Option Lifetime
  /-- Settings, by name. -/
  hints : Dictionary String
  /-- Further names of generic markers. -/
  markers : List String
  /-- Members handed to dependent compositions. -/
  members : List Member
  /-- Where the setup is declared. -/
  location : Location
  deriving DecidableEq, Repr, Inhabited

/-- The name of an argument source. -/
def ArgumentSource.name : ArgumentSource → String
  | .composition => "Composition"
  | .root => "Root"

/-- The argument sources. -/
def ArgumentSource.all : List ArgumentSource := [.composition, .root]

/-- The name of a kind of setup. -/
def SetupKind.name : SetupKind → String
  | .exposed => "Public"
  | .internal => "Internal"
  | .global => "Global"

/-- The kinds of setups. -/
def SetupKind.all : List SetupKind := [.exposed, .internal, .global]

/-- The name of a kind of root. -/
def RootKind.name : RootKind → String
  | .property => "Property"
  | .method => "Method"
  | .static => "Static"
  | .partialMethod => "Partial"

/-- The kinds of roots. -/
def RootKind.all : List RootKind := [.property, .method, .static, .partialMethod]

end Injector

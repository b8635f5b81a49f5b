import Injector.Hints
import Injector.Setup.Basic

/-!
# Binding tables

A composition and everything it depends on are flattened into one table: bindings in the order of
dependency and then of declaration, roots, members and merged hints. The number of a binding is its
position. Of the bindings that declare a contract the last is active, and each one shadows the one
before it.
-/

namespace Injector

/-- The position of a binding in its table. -/
abbrev BindingId := Nat

/-- A binding of a table, whose lifetime, tags and markers are settled. -/
structure Registration where
  /-- The contracts it is declared for. -/
  contracts : List Contract
  /-- The lifetime. -/
  lifetime : Lifetime
  /-- How an instance is made. -/
  recipe : Recipe
  /-- The setup that declares it. -/
  setup : String
  /-- The scope of a scoped binding, if it is not that of the composition. -/
  scope : Option String
  /-- Whether instances are to be disposed. -/
  disposable : Bool
  /-- Where it is declared. -/
  location : Location
  deriving DecidableEq, Repr, Inhabited

namespace Registration

/-- What diagnostics call a binding. -/
def describe (r : Registration) : String :=
  let contract := (r.contracts.head?.map Contract.text).getD ""
  match r.recipe with
  | .construct implementation _ _ =>
      if contract = "" ∨ contract = implementation.text then implementation.text
      else implementation.text ++ " as " ++ contract
  | .factory _ _ _ => "factory of " ++ contract
  | .argument name _ => "argument \"" ++ name ++ "\""

/-- Whether a contract of the binding holds a marker. -/
def isGeneric (r : Registration) : Bool := r.contracts.any fun c => c.type.containsMarker

end Registration

namespace Table

/-- A root of a table. -/
structure Root where
  /-- The member; empty when the root is only reached by resolve methods. -/
  name : String
  /-- What it asks for. -/
  contract : Contract
  /-- The shape of the member. -/
  kind : RootKind
  /-- The setup that declares it. -/
  setup : String
  /-- Where it is declared. -/
  location : Location
  deriving DecidableEq, Repr, Inhabited

/-- What diagnostics call a root: its member, or its contract. -/
def Root.describe (r : Root) : String := if r.name.isEmpty then r.contract.text else r.name

/-- A member of a table. -/
structure Member where
  /-- The member. -/
  name : String
  /-- Whether it is shared between the compositions. -/
  isStatic : Bool
  /-- The setup that declares it. -/
  setup : String
  /-- Where it is declared. -/
  location : Location
  deriving DecidableEq, Repr, Inhabited

/-- A contract of a binding that a later binding declares too. -/
structure Shadowing where
  /-- The contract. -/
  contract : Contract
  /-- The binding that declared it last before. -/
  earlier : BindingId
  /-- The binding that declares it next. -/
  later : BindingId
  deriving DecidableEq, Repr, Inhabited

end Table

/-- The merged bindings, roots, members and hints of a composition. -/
structure Table where
  /-- The composition. -/
  composition : String
  /-- The bindings, shadowed ones included. -/
  bindings : List Registration
  /-- The roots. -/
  roots : List Table.Root
  /-- The members. -/
  members : List Table.Member
  /-- The hints. -/
  hints : Hints
  deriving DecidableEq, Repr, Inhabited

namespace Table

/-- Every declaration of a contract, with the binding that makes it. -/
def declarationsOf (bindings : List Registration) : List (Contract × BindingId) :=
  bindings.zipIdx.flatMap fun b => b.1.contracts.map fun c => (c, b.2)

/-- Every declaration of a contract in the table. -/
def declarations (t : Table) : List (Contract × BindingId) := declarationsOf t.bindings

/-- The last binding that declares a contract. -/
def lastDeclaring (declarations : List (Contract × BindingId)) (c : Contract) : Option BindingId :=
  declarations.reverse.lookup c

/-- The active binding of exactly this contract. -/
def active? (t : Table) (c : Contract) : Option BindingId := lastDeclaring t.declarations c

/-- The declarations that no later declaration of the same contract, by the same or another
binding, replaces; a contract that a binding declares twice counts where it stands first. -/
def keepActive (all : List (Contract × BindingId)) (listed : List Contract) :
    List (Contract × BindingId) → List (Contract × BindingId)
  | [] => []
  | (c, id) :: rest =>
      if lastDeclaring all c = some id ∧ c ∉ listed then
        (c, id) :: keepActive all (c :: listed) rest
      else keepActive all listed rest

/-- Every declared contract once, with its active binding, in the order of these bindings. -/
def activeContracts (t : Table) : List (Contract × BindingId) :=
  keepActive t.declarations [] t.declarations

/-- The types that are declared under every tag, with the active bindings of these contracts. -/
def anyTagged (t : Table) : List (TypeExpr × BindingId) :=
  t.activeContracts.filterMap fun d => if d.1.tag = some .any then some (d.1.type, d.2) else none

/-- The active binding that answers every tag of exactly this type. -/
def anyTagged? (t : Table) (type : TypeExpr) : Option BindingId := t.anyTagged.lookup type

/-- The shadowings among declarations that follow those in `seen`, which are listed last first. -/
def shadowingsAfter (seen : List (Contract × BindingId)) :
    List (Contract × BindingId) → List Shadowing
  | [] => []
  | (c, id) :: rest =>
      match seen.lookup c with
      | some earlier =>
          if earlier = id then shadowingsAfter ((c, id) :: seen) rest
          else ⟨c, earlier, id⟩ :: shadowingsAfter ((c, id) :: seen) rest
      | none => shadowingsAfter ((c, id) :: seen) rest

/-- The shadowings in the order of declaration. -/
def shadowings (t : Table) : List Shadowing := shadowingsAfter [] t.declarations

/-- Whether a later binding declares a contract of the binding. -/
def isShadowed (t : Table) (id : BindingId) : Bool := t.shadowings.any fun s => s.earlier == id

/-- The contracts, each once, of which the binding is active and another binding is shadowed. -/
def overriddenBy (t : Table) (id : BindingId) : List Contract :=
  ((t.shadowings.filter fun s => t.active? s.contract == some id).map Shadowing.contract).eraseDups

/-- Whether the binding is active for a contract that another one declares. -/
def isOverriding (t : Table) (id : BindingId) : Bool := !(t.overriddenBy id).isEmpty

end Table

end Injector

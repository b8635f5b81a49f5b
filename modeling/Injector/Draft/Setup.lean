import Injector.Draft.Binding

/-!
# Drafts of setups

A draft collects the declarations of a setup in memory. Finishing it reads the types of the
bindings and then those of the roots; the first error is reported.
-/

namespace Injector.Draft

/-- A drafted root. -/
structure Root where
  /-- The member. -/
  name : String
  /-- The requested type. -/
  type : String
  /-- The requested tag. -/
  tag : Option TagSpec
  /-- The shape of the member. -/
  kind : RootKind
  deriving DecidableEq, Repr, Inhabited

/-- The root, whose place is unknown. -/
def Root.finish (r : Root) : Except DraftError Injector.Root :=
  return ⟨r.name, ← typeOf r.type, r.tag, r.kind, .unknown⟩

/-- A drafted setup. -/
structure Setup where
  /-- The name. -/
  name : String
  /-- The file of its declaration. -/
  file : String
  /-- What becomes of it. -/
  kind : SetupKind
  /-- The bindings. -/
  bindings : List Binding
  /-- The roots. -/
  roots : List Root
  /-- The setups it depends on. -/
  dependsOn : List String
  /-- The lifetime of bindings that declare none. -/
  defaultLifetime : Option Lifetime
  /-- Settings, by name. -/
  hints : Dictionary String
  /-- Further names of generic markers. -/
  markers : List String
  /-- Members, each with whether it is static. -/
  members : List (String × Bool)
  deriving DecidableEq, Repr, Inhabited

namespace Setup

/-- A setup that declares nothing yet, in a file of its name. -/
def named (name : String) : Setup :=
  ⟨name, name ++ ".cs", .exposed, [], [], [], none, .empty, [], []⟩

/-- Sets the file. -/
def inFile (s : Setup) (file : String) : Setup := { s with file }

/-- Sets what becomes of the setup. -/
def ofKind (s : Setup) (kind : SetupKind) : Setup := { s with kind }

/-- Adds a setup to depend on. -/
def dependingOn (s : Setup) (name : String) : Setup :=
  { s with dependsOn := s.dependsOn ++ [name] }

/-- Sets the lifetime of bindings that declare none. -/
def withDefaultLifetime (s : Setup) (lifetime : Lifetime) : Setup :=
  { s with defaultLifetime := some lifetime }

/-- Sets a hint. -/
def setHint (s : Setup) (key value : String) : Setup :=
  { s with hints := s.hints.insert key value }

/-- Adds a name of a generic marker. -/
def addMarker (s : Setup) (name : String) : Setup := { s with markers := s.markers ++ [name] }

/-- Adds a member. -/
def addMember (s : Setup) (name : String) (isStatic : Bool) : Setup :=
  { s with members := s.members ++ [(name, isStatic)] }

/-- Adds a binding. -/
def bind (s : Setup) (b : Binding) : Setup := { s with bindings := s.bindings ++ [b] }

/-- Adds a root. -/
def addRoot (s : Setup) (r : Root) : Setup := { s with roots := s.roots ++ [r] }

/-- The setup, with its types read. -/
def finish (s : Setup) : Except DraftError Injector.Setup := do
  let bindings ← s.bindings.mapM (Binding.finish s.file)
  let roots ← s.roots.mapM Root.finish
  return {
    name := s.name
    kind := s.kind
    bindings
    roots
    dependsOn := s.dependsOn
    defaultLifetime := s.defaultLifetime
    hints := s.hints
    markers := s.markers
    members := s.members.map fun m => ⟨m.1, m.2, .unknown⟩
    location := ⟨s.file, 0, 0⟩ }

end Setup

end Injector.Draft

import Injector.Datum.Record
import Injector.TypeExpr.Basic

/-!
# Well-known type shapes

A request that no binding answers may still be met by its shape: a collection gathers the bindings
of its element, a provider defers a resolution, a tuple resolves item by item. Shapes are looked up
by the name without its namespace and by the number of arguments, the latest registration first.
-/

namespace Injector

/-- How a value is made for a shape. -/
inductive Strategy where
  /-- A collection of every binding of the element. -/
  | aggregate
  /-- A provider that resolves anew at each call. -/
  | func
  /-- A provider that resolves at the first access. -/
  | lazy
  /-- A provider that resolves once for each thread. -/
  | threadLocal
  /-- A finished task that holds the value. -/
  | completed
  /-- A tuple of independently resolved items. -/
  | tuple
  deriving DecidableEq, Repr, Inhabited

namespace Strategy

/-- The strategies. -/
def all : List Strategy := [.aggregate, .func, .lazy, .threadLocal, .completed, .tuple]

/-- The name of a strategy in documents. -/
def name : Strategy → String
  | .aggregate => "eager_aggregate"
  | .func => "func"
  | .lazy => "lazy"
  | .threadLocal => "thread_local"
  | .completed => "completed"
  | .tuple => "tuple"

/-- The name of a strategy in printed plans. -/
def title : Strategy → String
  | .aggregate => "EagerAggregate"
  | .func => "Func"
  | .lazy => "Lazy"
  | .threadLocal => "ThreadLocal"
  | .completed => "Completed"
  | .tuple => "Tuple"

/-- What a value made by a strategy is called in diagnostics. -/
def label : Strategy → String
  | .aggregate => "collection"
  | .func => "provider"
  | .lazy => "lazy provider"
  | .threadLocal => "thread-local provider"
  | .completed => "completed task"
  | .tuple => "tuple"

/-- The strategy of a name. -/
def ofName? (s : String) : Option Strategy := all.find? fun k => k.name == s

/-- Reads a strategy. -/
def ofDatum? (d : Datum) : Option Strategy := d.choice? all name

/-- The strategy as JSON. -/
def toJson (s : Strategy) : Json := .string s.name

end Strategy

/-- The registration of a shape. -/
structure ShapeRegistration where
  /-- The type name, with or without a namespace. -/
  name : String
  /-- The number of arguments; none stands for any number. -/
  arity : Option Nat
  /-- How values are made. -/
  strategy : Strategy
  deriving DecidableEq, Repr, Inhabited

namespace ShapeRegistration

/-- Whether a type name without namespace and a number of arguments have this shape. -/
def covers (r : ShapeRegistration) (name : String) (arity : Nat) : Bool :=
  TypeExpr.simpleName r.name == name && r.arity.all (· == arity)

/-- Reads a registration; the arity is a natural of 64 bits. -/
def ofDatum? (d : Datum) : Option ShapeRegistration := do
  let fields ← d.record? ["name", "arity", "strategy"]
  return {
    name := ← fields.required "name" Datum.text?
    arity := ← fields.optional "arity" (Datum.natural? Json.maxWord)
    strategy := ← fields.required "strategy" Strategy.ofDatum? }

/-- The registration as JSON. -/
def toJson (r : ShapeRegistration) : Json :=
  .object [("name", .string r.name), ("arity", .ofOption Json.count r.arity),
    ("strategy", r.strategy.toJson)]

end ShapeRegistration

/-- The known shapes, the latest registration first. -/
structure Shapes where
  /-- The registrations. -/
  registrations : List ShapeRegistration
  deriving DecidableEq, Repr, Inhabited

namespace Shapes

/-- The collections of one element type that are known from the start. -/
def collections : List String :=
  ["IEnumerable", "IAsyncEnumerable", "ICollection", "IReadOnlyCollection", "IList",
    "IReadOnlyList", "List", "ISet", "IReadOnlySet", "HashSet", "SortedSet", "LinkedList", "Queue",
    "Stack", "ImmutableArray", "IImmutableList", "ImmutableList", "IImmutableSet",
    "ImmutableHashSet", "ImmutableSortedSet", "IImmutableQueue", "ImmutableQueue",
    "IImmutableStack", "ImmutableStack", "Span", "ReadOnlySpan", "Memory", "ReadOnlyMemory",
    "ConcurrentBag", "ConcurrentQueue", "ConcurrentStack", "BlockingCollection",
    "IProducerConsumerCollection"]

/-- The shapes that are known from the start. -/
def builtin : Shapes :=
  ⟨collections.map (fun name => ⟨name, some 1, .aggregate⟩) ++
    [⟨"Func", none, .func⟩, ⟨"Lazy", some 1, .lazy⟩, ⟨"ThreadLocal", some 1, .threadLocal⟩,
      ⟨"Task", some 1, .completed⟩, ⟨"ValueTask", some 1, .completed⟩,
      ⟨"ValueTuple", none, .tuple⟩, ⟨"Tuple", none, .tuple⟩]⟩

/-- Registers a shape before all others. -/
def register (shapes : Shapes) (r : ShapeRegistration) : Shapes := ⟨r :: shapes.registrations⟩

/-- The shapes known from the start with further ones, of which the last counts first. -/
def ofRegistrations (rs : List ShapeRegistration) : Shapes := rs.foldl register builtin

/-- The strategy for a type. Arrays and tuples have shapes of their own, a named type has one only
with arguments, and a marker has none. -/
def lookup (shapes : Shapes) : TypeExpr → Option Strategy
  | .array _ => some .aggregate
  | .tuple _ => some .tuple
  | .named _ [] => none
  | .named name (arg :: args) =>
      (shapes.registrations.find? fun r =>
        r.covers (TypeExpr.simpleName name) (arg :: args).length).map ShapeRegistration.strategy
  | .marker _ => none

end Shapes

end Injector

import Injector.Plan.Basic

/-!
# Plans as text and as JSON

The text of a plan has a line for the root, one for each routine and each step, and, if anything is
disposed, one for the order of disposal.
-/

namespace Injector.Plan

/-- The text of an operand. -/
def Operand.text : Operand → String
  | .slot n => "s" ++ toString n
  | .provider routine strategy => strategy.title ++ "(r" ++ toString routine ++ ")"
  | .providerArgument index => "arg" ++ toString index
  | .inline variableName => variableName

/-- The text of an action with its operands. -/
def Action.text (operands : String) : Action → String
  | .construct implementation _ => "new " ++ implementation ++ "(" ++ operands ++ ")"
  | .factory expression => "factory \x7b " ++ expression ++ " \x7d(" ++ operands ++ ")"
  | .argument name _ => "arg " ++ name
  | .synthesize strategy => strategy.title ++ "[" ++ operands ++ "]"

/-- The line of a step. -/
def Step.text (s : Step) : String :=
  "    s" ++ toString s.slot ++ " = " ++
    s.action.text (", ".intercalate (s.operands.map Operand.text)) ++ " : " ++ s.contract.text ++
    " [" ++ s.lifetime.name ++ (if s.isShared then " shared" else "") ++ "]\n"

/-- The lines of a routine. -/
def Routine.text (r : Routine) : String :=
  "  r" ++ toString r.id ++ " -> s" ++ toString r.target ++ "\n" ++
    String.join (r.steps.map Step.text)

/-- Slots in the order of disposal. -/
def slotsText (slots : List Nat) : String :=
  ", ".intercalate (slots.map fun n => "s" ++ toString n)

/-- The line of the order of disposal, if anything is disposed. -/
def Disposal.text (d : Disposal) : String :=
  if d.scopeTeardown.isEmpty && d.perOwner.isEmpty then ""
  else
    "  dispose: scope [" ++ slotsText d.scopeTeardown ++ "] owner [" ++ slotsText d.perOwner ++
      "]\n"

/-- The text of a plan. -/
def text (p : Plan) : String :=
  p.composition ++ "." ++ p.root ++ " (" ++ p.kind.name ++ ", " ++
    (if p.threadSafe then "thread-safe" else "single-threaded") ++ ")\n" ++ p.entry.text ++
    String.join (p.providers.map Routine.text) ++ p.disposal.text

/-- The action as JSON. -/
def Action.toJson : Action → Json
  | .construct implementation constructor =>
      .object [("construct", .object [("implementation", .string implementation),
        ("constructor", .ofOption Json.count constructor)])]
  | .factory expression => .object [("factory", .object [("expression", .string expression)])]
  | .argument name source =>
      .object [("argument", .object [("name", .string name), ("kind", .string source.name)])]
  | .synthesize strategy => .object [("virtual", .object [("strategy", strategy.toJson)])]

/-- The operand as JSON. -/
def Operand.toJson : Operand → Json
  | .slot n => .object [("slot", .count n)]
  | .provider routine strategy =>
      .object [("provider", .object [("routine", .count routine), ("kind", strategy.toJson)])]
  | .providerArgument index => .object [("provider_argument", .count index)]
  | .inline variableName => .object [("inline", .string variableName)]

/-- The step as JSON. -/
def Step.toJson (s : Step) : Json :=
  .object [("slot", .count s.slot), ("contract", s.contract.toJson),
    ("lifetime", s.lifetime.toJson), ("recipe", s.action.toJson),
    ("arguments", .list Operand.toJson s.operands), ("shared", .bool s.isShared)]

/-- The routine as JSON. -/
def Routine.toJson (r : Routine) : Json :=
  .object [("id", .count r.id), ("target", .count r.target), ("steps", .list Step.toJson r.steps)]

/-- The slot as JSON. -/
def Slot.toJson (s : Slot) : Json :=
  .object ([("id", .count s.id), ("contract", s.contract.toJson),
    ("lifetime", s.lifetime.toJson)] ++ Json.optional "scope" Json.string s.scope)

/-- The argument as JSON. -/
def RootArgument.toJson (a : RootArgument) : Json :=
  .object [("name", .string a.name), ("contract", a.contract.toJson)]

/-- The order of disposal as JSON. -/
def Disposal.toJson (d : Disposal) : Json :=
  .object [("scope_teardown", .list Json.count d.scopeTeardown),
    ("per_owner", .list Json.count d.perOwner)]

/-- The plan as JSON. -/
def toJson (p : Plan) : Json :=
  .object [("composition", .string p.composition), ("root", .string p.root),
    ("kind", .string p.kind.name), ("thread_safe", .bool p.threadSafe),
    ("entry", p.entry.toJson), ("providers", .list Routine.toJson p.providers),
    ("slots", .list Slot.toJson p.slots), ("root_args", .list RootArgument.toJson p.rootArguments),
    ("disposal", p.disposal.toJson)]

end Injector.Plan

import Injector.Proofs.Plan.Arguments
import Injector.Proofs.Report.Completion

/-!
# What the root member takes

Arguments of the root member are told apart by their names, while a step that takes one has a
contract as well. The main statement is that the root member has nothing but what the steps of its
plan take, that it has what is taken under one contract, and that of a binding which is taken under
several it has the argument once, with the contract under which it was planned first.
-/

namespace Injector

/-- Whether a node is made as an argument of the root member, under a name and by a binding. -/
def Graph.IsArgumentNamed (g : Graph) (table : Table) (name : String) (id : BindingId)
    (n : NodeId) : Prop :=
  (g.Has n fun node => ∃ s constructor, node.origin = .binding id s constructor) ∧
    table.bindings[id]?.map Registration.recipe = some (.argument name .root)

/-- Whether one binding at most is the argument of a name among the values of a graph. -/
def Graph.NamesOne (g : Graph) (table : Table) (name : String) : Prop :=
  ∀ id id' n n', g.IsArgumentNamed table name id n → g.IsArgumentNamed table name id' n' → id = id'

/-- The root member has nothing but what steps take, and has what they take under one contract. Of
what one binding answers under several contracts it has the first that was planned: in the entry, or
else in the routines behind providers, of which always the one that was asked for last is planned
next. -/
theorem Plan.rootArguments_exact {g : Graph} {root : Table.Root} {table : Table} {plan : Plan}
    (h : Plan.derive? g root table = .ok (some plan)) :
    (∀ b ∈ plan.rootArguments, plan.Takes b) ∧
      (∀ a, plan.Takes a → (∀ c, plan.Takes c → c.name = a.name → c = a) →
        a ∈ plan.rootArguments) ∧
      ∃ planned, plan.IsPlanned g table planned ∧ plan.providers = sortOn Routine.id planned ∧
        ∀ a, plan.Takes a → g.NamesOne table a.name → ∃ b,
          ((Plan.takenBy (plan.entry :: planned)).find? fun c => c.name == a.name) = some b ∧
            (plan.rootArguments.filter fun c => c.name == a.name) = [b] := by
  obtain ⟨planned, hplanned, hproviders, hfirst⟩ := Plan.areFirst_of_derive? h
  have htakes : ∀ a, plan.Takes a ↔ a ∈ Plan.takenBy (plan.entry :: planned) := by
    intro a
    have hperm : plan.routines.Perm (plan.entry :: planned) := by
      rw [Plan.routines, hproviders]
      exact (sortBy_perm _ planned).cons plan.entry
    rw [Plan.takes_iff]
    exact (hperm.flatMap_right _).mem_iff
  have htaken : ∀ b ∈ plan.rootArguments, plan.Takes b := fun b hb =>
    (htakes b).mpr (hfirst.mem_taken hb)
  refine ⟨htaken, fun a ha halike => ?_, planned, hplanned, hproviders,
    fun a ha _ => hfirst.exists_noted ((htakes a).mp ha)⟩
  obtain ⟨b, -, hb⟩ := hfirst.exists_noted ((htakes a).mp ha)
  obtain ⟨hmem, hname⟩ := List.mem_filter.mp (hb ▸ List.mem_singleton_self b)
  exact halike b (htaken b hmem) (eq_of_beq hname) ▸ hmem

namespace Wiring

/-- A service whose two parts are one argument of its root member. -/
def sharedArgument : Setup :=
  let service := Setup.sample [("IS", "Sv", [[.named "IA" [], .named "IB" []]])] ["IS"]
  { service with
    bindings := service.bindings ++
      [{ contracts := [⟨.named "IA" [], []⟩, ⟨.named "IB" [], []⟩]
         lifetime := none
         recipe := .argument "a" .root
         scope := none
         disposable := false
         location := .unknown }] }

/-- The argument is taken under both contracts, and noted under the first. -/
theorem sharedArgument_takes :
    ∃ b plan, buildRoot (.ofSetup sharedArgument) sharedArgument.firstRoot .empty = .ok b ∧
      Plan.derive? b.graph sharedArgument.firstRoot (Resolver.ofSetup sharedArgument).table =
        .ok (some plan) ∧
      plan.rootArguments = [⟨"a", .named "IA" [], none⟩] ∧
      plan.Takes ⟨"a", .named "IB" [], none⟩ := by
  have hbuilt : ((buildRoot (.ofSetup sharedArgument) sharedArgument.firstRoot
      .empty).toOption.any fun b => (Plan.derive? b.graph sharedArgument.firstRoot
        (Resolver.ofSetup sharedArgument).table).toOption.any fun plan? => plan?.any fun plan =>
          plan.rootArguments == [⟨"a", .named "IA" [], none⟩] &&
            (Plan.takenBy plan.routines).contains ⟨"a", .named "IB" [], none⟩) = true := by
    decide +kernel
  obtain ⟨b, hb, hplanned⟩ := any_toOption.mp hbuilt
  obtain ⟨plan?, hderived, hsome⟩ := any_toOption.mp hplanned
  obtain ⟨plan, rfl, hfacts⟩ := (Option.any_eq_true _ _).mp hsome
  obtain ⟨harguments, htakes⟩ := Bool.and_eq_true_iff.mp hfacts
  exact ⟨b, plan, hb, hderived, eq_of_beq harguments,
    Plan.takes_iff.mpr (List.contains_iff_mem.mp htakes)⟩

/-- A step may take an argument that the root member does not have. -/
theorem sharedArgument_omitted :
    ¬ ∀ b plan, buildRoot (.ofSetup sharedArgument) sharedArgument.firstRoot .empty = .ok b →
      Plan.derive? b.graph sharedArgument.firstRoot (Resolver.ofSetup sharedArgument).table =
        .ok (some plan) →
      ∀ a, plan.Takes a → a ∈ plan.rootArguments := by
  intro hall
  obtain ⟨b, plan, hb, hplan, harguments, htakes⟩ := sharedArgument_takes
  have hmem := hall b plan hb hplan _ htakes
  rw [harguments] at hmem
  exact absurd hmem (by decide)

/-- A service that makes two parts by providers, which take one argument under a contract each. -/
def providedArgument : Setup :=
  let service := Setup.sample [("IS", "Sv", [[.named "Func" [.named "IX" []],
    .named "Func" [.named "IY" []]]]), ("IX", "X", [[.named "IA" []]]),
    ("IY", "Y", [[.named "IB" []]])] ["IS"]
  { service with
    bindings := service.bindings ++
      [{ contracts := [⟨.named "IA" [], []⟩, ⟨.named "IB" [], []⟩]
         lifetime := none
         recipe := .argument "a" .root
         scope := none
         disposable := false
         location := .unknown }] }

/-- The argument is taken under both contracts, and noted under that of the second part, which is
planned first. -/
theorem rootArguments_exact_providedArgument :
    ∃ b plan, buildRoot (.ofSetup providedArgument) providedArgument.firstRoot .empty = .ok b ∧
      Plan.derive? b.graph providedArgument.firstRoot (Resolver.ofSetup providedArgument).table =
        .ok (some plan) ∧
      plan.Takes ⟨"a", .named "IA" [], none⟩ ∧ plan.Takes ⟨"a", .named "IB" [], none⟩ ∧
      b.graph.NamesOne (Resolver.ofSetup providedArgument).table "a" ∧
      ∃ planned, plan.IsPlanned b.graph (Resolver.ofSetup providedArgument).table planned ∧
        plan.providers = sortOn Plan.Routine.id planned ∧
        ((Plan.takenBy (plan.entry :: planned)).find? fun c => c.name == "a") =
          some ⟨"a", .named "IB" [], none⟩ ∧
        (plan.rootArguments.filter fun c => c.name == "a") = [⟨"a", .named "IB" [], none⟩] := by
  have hbuilt : ((buildRoot (.ofSetup providedArgument) providedArgument.firstRoot
      .empty).toOption.any fun b => (Plan.derive? b.graph providedArgument.firstRoot
        (Resolver.ofSetup providedArgument).table).toOption.any fun plan? => plan?.any fun plan =>
          plan.rootArguments == [⟨"a", .named "IB" [], none⟩] &&
            (Plan.takenBy plan.routines).contains ⟨"a", .named "IA" [], none⟩ &&
            (Plan.takenBy plan.routines).contains ⟨"a", .named "IB" [], none⟩) = true := by
    decide +kernel
  have hall : ∀ i : Fin (Resolver.ofSetup providedArgument).table.bindings.length,
      ((Resolver.ofSetup providedArgument).table.bindings.get i).recipe = .argument "a" .root →
        i.val = 3 := by decide +kernel
  have hone : ∀ id, (Resolver.ofSetup providedArgument).table.bindings[id]?.map
      Registration.recipe = some (.argument "a" .root) → id = 3 := by
    intro id hid
    obtain ⟨r, hr, hrecipe⟩ := Option.map_eq_some_iff.mp hid
    obtain ⟨hlt, rfl⟩ := List.getElem?_eq_some_iff.mp hr
    exact hall ⟨id, hlt⟩ hrecipe
  obtain ⟨b, hb, hplanned⟩ := any_toOption.mp hbuilt
  obtain ⟨plan?, hderived, hsome⟩ := any_toOption.mp hplanned
  obtain ⟨plan, rfl, hfacts⟩ := (Option.any_eq_true _ _).mp hsome
  simp only [Bool.and_eq_true, beq_iff_eq, List.contains_iff_mem] at hfacts
  obtain ⟨⟨harguments, hfirst⟩, hsecond⟩ := hfacts
  have hnames : b.graph.NamesOne (Resolver.ofSetup providedArgument).table "a" :=
    fun id id' _ _ h h' => (hone id h.2).trans (hone id' h'.2).symm
  obtain ⟨-, -, planned, hplanned, hproviders, hexact⟩ := Plan.rootArguments_exact hderived
  obtain ⟨c, hfound, hnoted⟩ := hexact _ (Plan.takes_iff.mpr hsecond) hnames
  obtain rfl : c = ⟨"a", .named "IB" [], none⟩ := by
    rw [harguments] at hnoted
    simpa using hnoted.symm
  exact ⟨b, plan, hb, hderived, Plan.takes_iff.mpr hfirst, Plan.takes_iff.mpr hsecond, hnames,
    planned, hplanned, hproviders, hfound, hnoted⟩

end Wiring

end Injector

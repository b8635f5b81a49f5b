import Injector.Proofs.Report.Fitting
import Injector.Proofs.TypeExpr.Unification
import Injector.Proofs.Wiring.Overrides

/-!
# What a factory answers itself

An injection of a factory without an edge is answered by what an override supplies. The main
statement is that in a resolved root these are the injections without a tag whose type an earlier
override supplies. An override that leaves its type open supplies the type that its variable was
last injected with, to which the substitution is applied again; where this changes nothing, each
type counts as it is.
-/

namespace Injector.Wiring

/-- Whether a node has no edge at a position. -/
def LacksEdge (g : Graph) (n : NodeId) (i : Nat) : Prop := ∀ e ∈ g.dependencies n, e.position ≠ i

/-- Whether a substitution that is applied again leaves all types that overrides before a position
take from their variables. -/
def KeepsInferred (steps : List FactoryStep) (s : Substitution) (i : Nat) : Prop :=
  ∀ j < i, ∀ v t location, steps[j]? = some (.override v none location) →
    InjectedLast steps s j v t → t.substitute s = t

section Inferred

variable {steps : List FactoryStep} {s : Substitution} {i : Nat} {t : TypeExpr}

/-- Where types are kept it does not matter how often the substitution is applied. -/
theorem KeepsInferred.suppliedBefore_iff (h : KeepsInferred steps s i) :
    SuppliedBefore steps s (·.substitute s) i t ↔ SuppliedBefore steps s (fun t => t) i t := by
  constructor
  · rintro ⟨j, hj, hsupplies⟩
    exact ⟨j, hj, hsupplies.congr fun v t location => h j hj v t location⟩
  · rintro ⟨j, hj, hsupplies⟩
    exact ⟨j, hj, hsupplies.congr fun v t location hstep hlast =>
      (h j hj v t location hstep hlast).symm⟩

/-- A substitution that leaves what it puts in place of markers keeps all types. -/
theorem keepsInferred_of_stable (h : ∀ name t, s.get? name = some t → t.substitute s = t) :
    KeepsInferred steps s i := by
  rintro j - v t location - ⟨k, -, ⟨_, _, _, type, -, -, rfl⟩, -⟩
  exact TypeExpr.substitute_substitute h type

end Inferred

variable {resolver : Resolver} {root : Table.Root} {cycles : CycleLog} {b : RootBuild}

/-- A node that a factory makes in a resolved root has edges for the jobs of its statements, none of
which failed. -/
theorem places_of_factory (h : buildRoot resolver root cycles = .ok b)
    (hresolved : b.isResolved = true) {n : NodeId} {node : Node}
    (hn : b.graph.nodes.get? n = some node) {id : BindingId} {s : Substitution}
    {constructor : Option Nat} (ho : node.origin = .binding id s constructor) {r : Registration}
    (hr : resolver.table.bindings[id]? = some r) {expression : String} {steps : List FactoryStep}
    {isAsync : Bool} (hrecipe : r.recipe = .factory expression steps isAsync) :
    (b.graph.dependencies n).map Edge.place = jobPlaces (stepJobs r s steps 0 ⟨[], []⟩ steps) ∧
      ∀ issue, .complain issue ∉ stepJobs r s steps 0 ⟨[], []⟩ steps := by
  obtain ⟨d, hd, rfl, hcreates⟩ := buildRoot_nodes h hresolved hn
  obtain ⟨m, hm⟩ := hcreates.makes fun block index ho' => by cases ho.symm.trans ho'
  obtain ⟨_, s', -, hout, hnodes, hedges, -⟩ := buildRoot_resolved h hresolved
  obtain ⟨node', hnode', links, hcompleted, hplaces⟩ :=
    Query.completed_of_retains (Query.ofRoot_proper resolver root cycles) hout hd hm
  rw [← hnodes] at hnode'
  cases hn.symm.trans hnode'
  have hsame : b.graph.dependencies d.nodeNumber = s'.graph.dependencies d.nodeNumber := by
    rw [Graph.dependencies, Graph.dependencies,
      Graph.outgoing_congr (congrArg Pool.entries hedges)]
  rw [hsame, hplaces]
  cases Query.verdict_grounds hm with
  | makeShape resolves =>
    cases hcompleted with
    | once _ content _ =>
      subst content
      cases ho
    | choice work => cases work
  | makeBinding resolves registered =>
    cases hcompleted with
    | @once jobs work content quiet =>
      subst content
      cases ho
      cases hr.symm.trans registered
      have hwork : workOf r s = .once jobs := work
      simp only [workOf, hrecipe] at hwork
      split at hwork
      · cases hwork
        exact absurd (List.mem_singleton_self _) (quiet _)
      · cases hwork
        exact ⟨rfl, quiet⟩
    | choice work _ content _ =>
      subst content
      cases ho
      cases hr.symm.trans registered
      have hwork : workOf r s = .choice _ := work
      simp only [workOf, hrecipe] at hwork
      split at hwork <;> cases hwork

/-- In a resolved root each injection of a factory has a type. It has no edge exactly when it has no
tag and an earlier override supplies this type, where the substitution is applied again to what an
override leaves to its variable. Where this changes nothing, in particular where the substitution
leaves what it puts in place of markers, each type counts as it was injected. -/
theorem lacksEdge_iff (h : buildRoot resolver root cycles = .ok b) (hresolved : b.isResolved = true)
    {n : NodeId} {node : Node} (hn : b.graph.nodes.get? n = some node) {id : BindingId}
    {s : Substitution} {constructor : Option Nat} (ho : node.origin = .binding id s constructor)
    {r : Registration} (hr : resolver.table.bindings[id]? = some r) {expression : String}
    {steps : List FactoryStep} {isAsync : Bool}
    (hrecipe : r.recipe = .factory expression steps isAsync) {i : Nat} {v : String}
    {declared : Option TypeExpr} {tag : Option TagSpec} {location : Location}
    (hstep : steps[i]? = some (.inject v declared tag location)) :
    ∃ type, injectedType? steps (steps.drop (i + 1)) v declared = some type ∧
      (LacksEdge b.graph n i ↔
        tag = none ∧ SuppliedBefore steps s (·.substitute s) i (type.substitute s)) ∧
      (KeepsInferred steps s i → (LacksEdge b.graph n i ↔
        tag = none ∧ SuppliedBefore steps s (fun t => t) i (type.substitute s))) ∧
      ((∀ name t, s.get? name = some t → t.substitute s = t) → KeepsInferred steps s i) := by
  obtain ⟨hplaces, hquiet⟩ := places_of_factory h hresolved hn ho hr hrecipe
  obtain ⟨type, htype, hiff⟩ := no_job_iff_of_drop (List.drop_zero)
    FactoryScope.settles_empty hquiet (Nat.zero_le i) hstep
  have hlacks : LacksEdge b.graph n i ↔
      tag = none ∧ SuppliedBefore steps s (·.substitute s) i (type.substitute s) := by
    rw [← hiff, ← hplaces, List.forall_mem_map]
    rfl
  exact ⟨type, htype, hlacks, fun hkeeps => by rw [hlacks, hkeeps.suppliedBefore_iff],
    keepsInferred_of_stable⟩

/-- The statements of the overriding factory: its second variable is answered by the first one. -/
def overridingSteps : List FactoryStep :=
  [.inject "first" (some (.named "IB" [])) none .unknown, .override "first" none .unknown,
    .inject "second" (some (.named "IB" [])) none .unknown]

/-- The second variable has no edge. -/
theorem lacksEdge_iff_overridingFactory :
    ∃ b n node r, buildRoot (.ofSetup overridingFactory) overridingFactory.firstRoot .empty =
        .ok b ∧ b.isResolved = true ∧ b.graph.nodes.get? n = some node ∧
      node.origin = .binding 3 .empty none ∧
      (Resolver.ofSetup overridingFactory).table.bindings[3]? = some r ∧
      r.recipe = .factory "make" overridingSteps false ∧ LacksEdge b.graph n 2 := by
  have hbuilt : ((buildRoot (.ofSetup overridingFactory) overridingFactory.firstRoot
      .empty).toOption.any fun b => b.isResolved && b.graph.nodes.taken.any fun n =>
        (b.graph.nodes.get? n).any fun node => node.origin == .binding 3 .empty none) = true := by
    decide +kernel
  have hfactory : ((Resolver.ofSetup overridingFactory).table.bindings[3]?.any fun r =>
      r.recipe == .factory "make" overridingSteps false) = true := by decide +kernel
  obtain ⟨b, hb, hfacts⟩ := (Option.any_eq_true _ _).mp hbuilt
  obtain ⟨hresolved, hnodes⟩ := Bool.and_eq_true_iff.mp hfacts
  obtain ⟨n, -, hnode⟩ := List.any_eq_true.mp hnodes
  obtain ⟨node, hn, horigin⟩ := (Option.any_eq_true _ _).mp hnode
  obtain ⟨r, hr, hrecipe⟩ := (Option.any_eq_true _ _).mp hfactory
  have hb := toOption_eq_some.mp hb
  have ho := eq_of_beq horigin
  have hrecipe := eq_of_beq hrecipe
  obtain ⟨type, htype, -, hkept, hstable⟩ := lacksEdge_iff hb hresolved hn ho hr hrecipe
    (i := 2) (v := "second") rfl
  refine ⟨b, n, node, r, hb, hresolved, hn, ho, hr, hrecipe, (hkept (hstable ?_)).mpr ⟨rfl, ?_⟩⟩
  · intro name t ht
    cases ht
  · cases htype
    exact ⟨1, by decide, .inferred rfl ⟨0, by decide, ⟨_, _, _, _, rfl, rfl, rfl⟩,
      fun k hk hk' => by omega⟩⟩

/-- The statements of a factory that injects what it stores, lets this be an answer and injects it
once more. -/
def storeSteps : List FactoryStep :=
  [.inject "first" (some (.marker "TT")) none .unknown, .override "first" none .unknown,
    .inject "second" (some (.marker "TT")) none .unknown]

/-- A part that asks for a store of boxes of anything. -/
def boxStore : Setup :=
  let base := Setup.sample [("IRoot", "R", [[.named "IStore" [.named "IBox" [.marker "TT"]]]])]
    ["IRoot"]
  { base with bindings := base.bindings ++
      [{ contracts := [⟨.named "IStore" [.marker "TT"], []⟩], lifetime := none
         recipe := .factory "make" storeSteps false
         scope := none, disposable := false, location := .unknown },
       { contracts := [⟨.named "IBox" [.marker "TT"], []⟩], lifetime := none
         recipe := .construct (.named "Box" [.marker "TT"]) none [⟨[], none⟩]
         scope := none, disposable := false, location := .unknown }] }

/-- An override of a variable does not always answer later injections of the type that the variable
was injected with. -/
theorem boxStore_not_answered :
    ¬ ∀ b, buildRoot (.ofSetup boxStore) boxStore.firstRoot .empty = .ok b →
      b.isResolved = true → ∀ n node, b.graph.nodes.get? n = some node →
        ∀ id s constructor, node.origin = .binding id s constructor →
          ∀ r, (Resolver.ofSetup boxStore).table.bindings[id]? = some r →
            ∀ expression steps isAsync, r.recipe = .factory expression steps isAsync →
              ∀ i v declared location, steps[i]? = some (.inject v declared none location) →
                ∃ type, injectedType? steps (steps.drop (i + 1)) v declared = some type ∧
                  (LacksEdge b.graph n i ↔
                    SuppliedBefore steps s (fun t => t) i (type.substitute s)) := by
  have hbuilt : ((buildRoot (.ofSetup boxStore) boxStore.firstRoot
      .empty).toOption.any fun b => b.isResolved && b.graph.nodes.taken.any fun n =>
        ((b.graph.nodes.get? n).any fun node =>
          node.origin == .binding 1 (.ofList [("TT", .named "IBox" [.marker "TT"])]) none) &&
        (b.graph.dependencies n).any fun e => e.position == 2) = true := by
    decide +kernel
  have hfactory : ((Resolver.ofSetup boxStore).table.bindings[1]?.any fun r =>
      r.recipe == .factory "make" storeSteps false) = true := by decide +kernel
  obtain ⟨b, hb, hfacts⟩ := (Option.any_eq_true _ _).mp hbuilt
  obtain ⟨hresolved, hnodes⟩ := Bool.and_eq_true_iff.mp hfacts
  obtain ⟨n, -, hmade⟩ := List.any_eq_true.mp hnodes
  obtain ⟨hnode, hedge⟩ := Bool.and_eq_true_iff.mp hmade
  obtain ⟨node, hn, horigin⟩ := (Option.any_eq_true _ _).mp hnode
  obtain ⟨e, he, hposition⟩ := List.any_eq_true.mp hedge
  obtain ⟨r, hr, hrecipe⟩ := (Option.any_eq_true _ _).mp hfactory
  intro hall
  obtain ⟨type, htype, hiff⟩ := hall b (toOption_eq_some.mp hb) hresolved n node hn _ _ _
    (eq_of_beq horigin) r hr _ _ _ (eq_of_beq hrecipe) 2 "second" _ _ rfl
  cases htype
  refine hiff.mpr ⟨1, by decide, ?_⟩ e he (eq_of_beq hposition)
  exact .inferred rfl ⟨0, by decide, ⟨_, _, _, _, rfl, rfl, rfl⟩, fun k hk hk' => by omega⟩

end Injector.Wiring

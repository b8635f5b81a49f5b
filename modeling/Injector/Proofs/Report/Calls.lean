import Injector.Proofs.Plan.Depiction
import Injector.Proofs.Report.Confinement

/-!
# Which call the arguments in a plan belong to

A plan names an argument of a provider call by its place alone, so that the argument has to be one
of the call that carries out the routine in which it is used. The main statement is that this is so
exactly when what is made at once with a value depends on no arguments but those of calls which make
this very value. A provider within a provider breaks it, for what the inner one makes sees the
arguments of the outer call.
-/

namespace Injector

/-- Whether what is made with the root depends on no arguments, and what is made with the value of a
provider only on those of blocks that are opened for the value. -/
structure Graph.Separates (g : Graph) (opens : BlockId → Edge → Prop) : Prop where
  /-- No call surrounds what is made with the root. -/
  root : ∀ start ∈ g.root, ∀ n, g.MadeWith start n → ∀ e ∈ g.dependencies n, ∀ block,
    ¬ g.IsArgument block e.target
  /-- A call for the value opens the block. -/
  provided : ∀ t, g.Provides t → ∀ n, g.MadeWith t n → ∀ e ∈ g.dependencies n, ∀ block,
    g.IsArgument block e.target → ∃ f, opens block f ∧ f.target = t

/-- Whether an argument that a step receives is always one of the call that carries out the routine:
the routine is the one behind a provider of functions, whose call opens the block of the argument
and gives it in its place. -/
def Plan.Legend.CallsRight (l : Plan.Legend) (g : Graph) (opens : BlockId → Edge → Prop)
    (plan : Plan) : Prop :=
  ∀ r ∈ plan.routines, ∀ st ∈ r.steps, ∀ index, .providerArgument index ∈ st.operands →
    ∀ n, l.slots[st.slot]? = some n → ∀ e ∈ g.dependencies n, ∀ node block,
      g.nodes.get? e.target = some node → node.origin = .argument block index →
      ∃ f, opens block f ∧
        (g.Has f.source fun provider => ∃ args, provider.origin = .synthesized .func args ∧
          args[index]? = some node.contract.type) ∧
        ∃ r' ∈ plan.routines, ∃ st' ∈ r'.steps, l.slots[st'.slot]? = some f.source ∧
          .provider r.id .func ∈ st'.operands

namespace Wiring

variable {resolver : Resolver} {root : Table.Root} {cycles : CycleLog} {b : RootBuild}
  {plan : Plan} {l : Plan.Legend}

section Resolved

variable (h : buildRoot resolver root cycles = .ok b) (hresolved : b.isResolved = true)

include h hresolved

/-- What has dependencies in a resolved root is made. -/
theorem makes_of_dependency {n : NodeId} {e : Edge} (he : e ∈ b.graph.dependencies n) :
    b.graph.Makes n := by
  have hroot := Query.ofRoot_proper resolver root cycles
  obtain ⟨k, hk, rfl⟩ := Graph.mem_dependencies.mp he
  obtain ⟨d, c, m, ⟨hd, hc, -⟩, rfl⟩ := (buildRoot_hasEdge_iff h hresolved e).mp ⟨k, hk⟩
  obtain ⟨making, hm⟩ := ((hroot.of_retains hd).1.of_mem_lastCalls hc).1
  refine (has_of_creates h hresolved hd (.value hm)).mono fun node hcreates block index ho => ?_
  obtain ⟨type, hvisible, -⟩ := hcreates.visible ho
  cases hm.symm.trans (Query.verdict_eq_argument.mpr hvisible)

/-- Every node of a resolved root is needed. -/
theorem reachable_of_get? {n : NodeId} {node : Node} (hn : b.graph.nodes.get? n = some node) :
    b.graph.Reachable n := by
  have hroot := Query.ofRoot_proper resolver root cycles
  obtain ⟨d, hd, rfl, hcreates⟩ := buildRoot_nodes h hresolved hn
  obtain ⟨k, s, hout, -⟩ := exists_answer h hresolved hd
  obtain ⟨rfl, -⟩ := hcreates.answer (hroot.of_retains hd).1 hout
  exact reachable_of_retains h hresolved hd hout

/-- The edge that opens a block is the only one that leaves the provider. -/
theorem eq_of_opens_of_dependency {block : BlockId} {e f : Edge}
    (hf : Opens resolver root cycles block f) (he : e ∈ b.graph.dependencies f.source) : e = f := by
  have hroot := Query.ofRoot_proper resolver root cycles
  obtain ⟨d, c, n, ⟨hd, hc, s, hout⟩, ho, rfl⟩ := hf
  obtain ⟨hsingle, -, strategy, dependencies, providerArgs, hm⟩ :=
    (hroot.of_retains hd).1.eq_singleton_of_provides hc ho.1
  obtain ⟨k, hk, hsource⟩ := Graph.mem_dependencies.mp he
  obtain ⟨c', n', ⟨-, hc', s', hout'⟩, rfl⟩ :=
    exists_call_of_edge h hresolved hd (.value hm) ⟨k, hk⟩ hsource
  rw [hsingle] at hc'
  obtain rfl := List.mem_singleton.mp hc'
  cases hout.symm.trans hout'
  rfl

/-- The block of an argument is opened by a call of a function that takes an argument of its type in
its place. -/
theorem exists_opens_of_argument {n : NodeId} {node : Node}
    (hn : b.graph.nodes.get? n = some node) {block : BlockId} {index : Nat}
    (ho : node.origin = .argument block index) :
    ∃ f, Opens resolver root cycles block f ∧
      b.graph.Has f.source fun provider => ∃ args, provider.origin = .synthesized .func args ∧
        args[index]? = some node.contract.type := by
  have hroot := Query.ofRoot_proper resolver root cycles
  obtain ⟨d, hd, -, hcreates⟩ := buildRoot_nodes h hresolved hn
  obtain ⟨type, hvisible, hcontract⟩ := hcreates.visible ho
  obtain ⟨-, -, -, hmem⟩ := Query.visible?_eq_some hvisible
  rcases hroot.exists_gives hd hmem rfl with hnone | ⟨r, c, hr, hc, hopens, args, hl, hindex⟩
  · cases hnone
  · obtain ⟨dependencies, hm⟩ := (hroot.of_retains hr).1.exists_func hc hl hindex
    obtain ⟨k, s, hout, -⟩ := exists_answer h hresolved (hr.tail ⟨c, hc, rfl⟩)
    refine ⟨_, ⟨r, c, k, ⟨hr, hc, s, hout⟩, hopens, rfl⟩, ?_⟩
    refine (has_of_creates h hresolved hr (.value hm)).mono fun provider hprovider => ?_
    refine ⟨args, hprovider.origin_eq_synthesized hm, ?_⟩
    rw [hcontract]
    exact hindex

/-- What is needed and made by a resolved root has a step in its plan. -/
theorem exists_step_of_makes (hl : l.Explains b.graph plan) {n : NodeId} (hn : b.graph.Makes n) :
    ∃ r ∈ plan.routines, ∃ st ∈ r.steps, st.Shows b.graph l n := by
  obtain ⟨node, hnode, -⟩ := id hn
  exact hl.exists_step (fun _ _ he => makes_of_dependency h hresolved he)
    (reachable_of_get? h hresolved hnode) hn

/-- A value that a provider makes has a routine. -/
theorem exists_routine_of_provides (hl : l.Explains b.graph plan) {t : NodeId}
    (ht : b.graph.Provides t) : ∃ j : Nat, l.routines[j]? = some t := by
  obtain ⟨hmade, n, e, he, htiming, rfl⟩ := ht
  obtain ⟨r, -, st, -, hshows⟩ :=
    exists_step_of_makes h hresolved hl (makes_of_dependency h hresolved he)
  obtain ⟨j, -, -, hj, -⟩ := hshows.exists_provider he htiming hmade
  exact ⟨j, hj⟩

/-- Where the arguments in a plan belong to the right calls, values depend on no others. -/
theorem separates_of_callsRight (hl : l.Explains b.graph plan)
    (hcalls : l.CallsRight b.graph (Opens resolver root cycles) plan) :
    b.graph.Separates (Opens resolver root cycles) := by
  have hright : ∀ r ∈ plan.routines, ∀ t n, r.Covers b.graph l t → b.graph.MadeWith t n →
      ∀ e ∈ b.graph.dependencies n, ∀ block, b.graph.IsArgument block e.target →
        ∃ f, Opens resolver root cycles block f ∧ ∃ j, r.id = j + 1 ∧
          l.routines[j]? = some f.target := by
    intro r hr t n hcovers hn e he block hargument
    obtain ⟨node, hnode, index, ho⟩ := hargument
    obtain ⟨st, hst, hshows⟩ := hcovers.covered n hn
    obtain ⟨f, hf, -, r', hr', st', hst', hslot, hprovider⟩ := hcalls r hr st hst index
      (hshows.mem_operands he hnode ho) n hshows.slot e he node block hnode ho
    rcases (hl.shows hr' hst' hslot).of_operand _ hprovider with ⟨v, hv⟩ | ⟨e', he', hstands⟩
    · cases hv
    · obtain rfl := eq_of_opens_of_dependency h hresolved hf he'
      obtain ⟨-, -, -, j, hid, hj⟩ := hstands
      exact ⟨e', hf, j, hid, hj⟩
  refine ⟨fun start hstart n hn e he block hargument => ?_,
    fun t ht n hn e he block hargument => ?_⟩
  · obtain ⟨hid, start', hstart', hcovers⟩ := hl.entry
    cases hstart.symm.trans hstart'
    obtain ⟨f, -, j, hid', -⟩ :=
      hright plan.entry List.mem_cons_self start n hcovers hn e he block hargument
    omega
  · obtain ⟨j, hj⟩ := exists_routine_of_provides h hresolved hl ht
    obtain ⟨r, hr, hid, hcovers⟩ := hl.exists_routine hj
    obtain ⟨f, hf, i, hid', hi⟩ :=
      hright r (List.mem_cons_of_mem _ hr) t n hcovers hn e he block hargument
    obtain rfl : j = i := by omega
    exact ⟨f, hf, Option.some.inj (hi.symm.trans hj)⟩

/-- Where values depend on no other arguments, those in a plan belong to the right calls: a provider
has a step, in which it carries out the routine of its value. -/
theorem callsRight_of_separates (hl : l.Explains b.graph plan)
    (hseparates : b.graph.Separates (Opens resolver root cycles)) :
    l.CallsRight b.graph (Opens resolver root cycles) plan := by
  intro r hr st hst index _ n hn e he node block hnode ho
  have hargument : b.graph.IsArgument block e.target := ⟨node, hnode, index, ho⟩
  rcases List.mem_cons.mp hr with rfl | hr
  · obtain ⟨-, start, hstart, hcovers⟩ := hl.entry
    obtain ⟨m, hm, hshows⟩ := hcovers.shown st hst
    obtain rfl := Option.some.inj (hn.symm.trans hshows.slot)
    exact absurd hargument (hseparates.root start hstart n hm e he block)
  · obtain ⟨j, t, hid, hj, hcovers⟩ := hl.provider r hr
    obtain ⟨m, hm, hshows⟩ := hcovers.shown st hst
    obtain rfl := Option.some.inj (hn.symm.trans hshows.slot)
    have hprovides := hl.asked t (List.mem_of_getElem? hj)
    obtain ⟨f, hf, rfl⟩ := hseparates.provided t hprovides n hm e he block hargument
    obtain ⟨f', hf', hargs⟩ := exists_opens_of_argument h hresolved hnode ho
    obtain ⟨⟨k, hk⟩, htiming, -, hunique⟩ := opens_edge h hresolved hf
    obtain rfl := hunique f' hf'
    refine ⟨f', hf, hargs, ?_⟩
    have hdependency : f' ∈ b.graph.dependencies f'.source :=
      Graph.mem_dependencies.mpr ⟨k, hk, rfl⟩
    obtain ⟨r', hr', st', hst', hshows'⟩ := exists_step_of_makes h hresolved hl
      (makes_of_dependency h hresolved hdependency)
    obtain ⟨i, strategy, hmem, hi, hstrategy⟩ :=
      hshows'.exists_provider hdependency htiming hprovides.1
    obtain ⟨hlt, -⟩ := List.getElem?_eq_some_iff.mp hi
    obtain rfl := (List.getElem?_inj hlt hl.routines_nodup).mp (hi.trans hj.symm)
    obtain ⟨provider, hprovider, args, hfunc, -⟩ := hargs
    obtain ⟨provider', hprovider', rfl⟩ := hstrategy
    cases hprovider.symm.trans hprovider'
    rw [Plan.providerStrategy, hfunc, ← hid] at hmem
    exact ⟨r', hr', st', hst', hshows'.slot, hmem⟩

end Resolved

/-- The plan of a resolved root shows how its graph is made, and the arguments in it are those of
the calls that carry out their routines exactly when what is made with a value depends only on
arguments of calls that make this value. -/
theorem plan_calls (h : buildRoot resolver root cycles = .ok b)
    (hplan : Plan.derive? b.graph root resolver.table = .ok (some plan)) :
    (∃ l : Plan.Legend, l.Explains b.graph plan) ∧
      ∀ l : Plan.Legend, l.Explains b.graph plan →
        (l.CallsRight b.graph (Opens resolver root cycles) plan ↔
          b.graph.Separates (Opens resolver root cycles)) := by
  obtain ⟨hconsistent, hknows⟩ := buildRoot_consistent h
  have hexplained := Plan.explains_of_derive? hconsistent hknows (buildRoot_made h) hplan
  refine ⟨hexplained, fun l hl => ?_⟩
  have hresolved : b.isResolved = true := by
    obtain ⟨-, start, hstart, -⟩ := hl.entry
    rw [RootBuild.isResolved, Option.mem_def.mp hstart]
    rfl
  exact ⟨separates_of_callsRight h hresolved hl, callsRight_of_separates h hresolved hl⟩

/-- A service that is given a number, and then a text by an inner provider, from which its part is
made. -/
def nestedProvider : Setup :=
  .sample [("IS", "Sv", [[.named "Func" [.named "int" [],
      .named "Func" [.named "string" [], .named "IT" []]]]]),
    ("IT", "T", [[.named "int" [], .named "string" []]])] ["IS"]

/-- The part depends on the number, but the only provider that makes the part takes a text: the call
that opens the block of the number would have to make the part, and take a number. -/
theorem nestedProvider_not_separates :
    ∃ b plan, buildRoot (.ofSetup nestedProvider) nestedProvider.firstRoot .empty = .ok b ∧
      b.isResolved = true ∧ Plan.derive? b.graph nestedProvider.firstRoot
        (Resolver.ofSetup nestedProvider).table = .ok (some plan) ∧
      ¬ b.graph.Separates (Opens (.ofSetup nestedProvider) nestedProvider.firstRoot .empty) := by
  have hbuilt : ((buildRoot (.ofSetup nestedProvider) nestedProvider.firstRoot
      .empty).toOption.any fun b => b.isResolved && ((Plan.derive? b.graph nestedProvider.firstRoot
        (Resolver.ofSetup nestedProvider).table).toOption.any Option.isSome) &&
      b.graph.edges.entries.any fun e => (decide (b.graph.Has e.2.target fun node =>
          node.origin = .argument 1 0 ∧ node.contract.type = .named "int" [])) &&
        (b.graph.edges.entries.any fun d => d.2.timing == .deferred && d.2.target == e.2.source) &&
        b.graph.edges.entries.all fun d => d.2.target != e.2.source ||
          decide (b.graph.Has d.2.source fun provider =>
            provider.origin = .synthesized .func [.named "string" []])) = true := by
    decide +kernel
  obtain ⟨b, hb, hfacts⟩ := any_toOption.mp hbuilt
  simp only [Bool.and_eq_true] at hfacts
  obtain ⟨⟨hresolved, hplanned⟩, hedges⟩ := hfacts
  obtain ⟨planned, hderived, hsome⟩ := any_toOption.mp hplanned
  obtain ⟨plan, rfl⟩ := Option.isSome_iff_exists.mp hsome
  refine ⟨b, plan, hb, hresolved, hderived, fun hseparates => ?_⟩
  obtain ⟨⟨i, e⟩, he, hargument⟩ := List.any_eq_true.mp hedges
  simp only [Bool.and_eq_true, decide_eq_true_eq] at hargument
  obtain ⟨⟨⟨node, hnode, ho, htype⟩, hprovided⟩, hall⟩ := hargument
  obtain ⟨⟨j, d⟩, hd, hdeferred⟩ := List.any_eq_true.mp hprovided
  simp only [Bool.and_eq_true, beq_iff_eq] at hdeferred
  have hdependency : e ∈ b.graph.dependencies e.source := Graph.mem_dependencies.mpr ⟨i, he, rfl⟩
  have hprovides : b.graph.Provides e.source :=
    ⟨makes_of_dependency hb hresolved hdependency, d.source, d,
      Graph.mem_dependencies.mpr ⟨j, hd, rfl⟩, hdeferred⟩
  obtain ⟨f, hf, htarget⟩ := hseparates.provided e.source hprovides e.source .refl e hdependency 1
    ⟨node, hnode, 0, ho⟩
  obtain ⟨f', hf', provider, hprovider, args, hfunc, hindex⟩ :=
    exists_opens_of_argument hb hresolved hnode ho
  obtain ⟨⟨k, hk⟩, -, -, hunique⟩ := opens_edge hb hresolved hf
  obtain rfl := hunique f' hf'
  have hsource : b.graph.Has f'.source fun provider =>
      provider.origin = .synthesized .func [.named "string" []] := by
    simpa [htarget] using List.all_eq_true.mp hall (k, f') hk
  obtain ⟨provider', hprovider', hfunc'⟩ := hsource
  cases hprovider.symm.trans hprovider'
  cases hfunc.symm.trans hfunc'
  rw [htype] at hindex
  simp at hindex

/-- The plan of the inner provider passes an argument that belongs to the outer call. -/
theorem plan_calls_nestedProvider :
    ∃ b plan, buildRoot (.ofSetup nestedProvider) nestedProvider.firstRoot .empty = .ok b ∧
      Plan.derive? b.graph nestedProvider.firstRoot (Resolver.ofSetup nestedProvider).table =
        .ok (some plan) ∧
      ∃ l : Plan.Legend, l.Explains b.graph plan ∧ ¬ l.CallsRight b.graph
        (Opens (.ofSetup nestedProvider) nestedProvider.firstRoot .empty) plan := by
  obtain ⟨b, plan, hb, -, hplan, hnot⟩ := nestedProvider_not_separates
  obtain ⟨⟨l, hl⟩, hiff⟩ := plan_calls hb hplan
  exact ⟨b, plan, hb, hplan, l, hl, fun hcalls => hnot ((hiff l hl).mp hcalls)⟩

/-- The arguments in the plan of a resolved root need not be those of the calls that carry out their
routines. -/
theorem nestedProvider_callsWrong :
    ¬ ∀ b plan (l : Plan.Legend),
      buildRoot (.ofSetup nestedProvider) nestedProvider.firstRoot .empty = .ok b →
      Plan.derive? b.graph nestedProvider.firstRoot (Resolver.ofSetup nestedProvider).table =
        .ok (some plan) →
      l.Explains b.graph plan →
      l.CallsRight b.graph (Opens (.ofSetup nestedProvider) nestedProvider.firstRoot .empty)
        plan := by
  intro hall
  obtain ⟨b, plan, hb, hresolved, hplan, hnot⟩ := nestedProvider_not_separates
  obtain ⟨hconsistent, hknows⟩ := buildRoot_consistent hb
  obtain ⟨l, hl⟩ := Plan.explains_of_derive? hconsistent hknows (buildRoot_made hb) hplan
  exact hnot (separates_of_callsRight hb hresolved hl (hall b plan l hb hplan hl))

end Wiring

end Injector

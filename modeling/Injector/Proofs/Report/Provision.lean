import Injector.Proofs.Report.Confinement
import Injector.Proofs.Wiring.Offers

/-!
# Where the arguments of provider calls arrive

What is made anew within a provider call gets the arguments of the call for the types that it takes.
The main statement is that this holds in the graph of a resolved root exactly when it holds where a
request in the call is answered by what was made before: by what is under construction, by a shared
instance, or by the number noted for an argument. Whatever is made for the call itself gets the
arguments.
-/

namespace Injector

namespace Graph

variable {g : Graph}

/-- Whether eager edges lead from a node to another through nodes that are made anew. -/
def LeadsAnew (g : Graph) : NodeId → NodeId → Prop :=
  Relation.ReflTransGen fun n m => (g.Has n fun node => node.lifetime = .transient) ∧
    ∃ e ∈ g.dependencies n, e.timing = .eager ∧ e.target = m

/-- Whether the values of bindings to which a node leads, made anew, get arguments of a block for
whatever they need of the types that the call takes, without tag and pin. -/
def Honours (g : Graph) (resolver : Resolver) (args : List TypeExpr) (block : BlockId)
    (n : NodeId) : Prop :=
  ∀ m node, g.LeadsAnew n m → g.nodes.get? m = some node → node.lifetime = .transient →
    node.origin.isBinding = true → ∀ e ∈ g.dependencies m, ∀ request,
      resolver.requestAt none node e.position = some request → request.pin = none →
      request.contract.tag = none → request.contract.type ∈ args → g.IsArgument block e.target

theorem Honours.of_leadsAnew {resolver : Resolver} {args : List TypeExpr} {block : BlockId}
    {n k : NodeId} (h : g.Honours resolver args block n) (hk : g.LeadsAnew n k) :
    g.Honours resolver args block k :=
  fun m node hm => h m node (Relation.ReflTransGen.trans hk hm)

end Graph

namespace Wiring

variable {resolver : Resolver} {root : Table.Root} {cycles : CycleLog} {b : RootBuild}

/-- Whether each function in the graph of a root has a call of its own, in which what is made anew
gets the arguments of the call. -/
def Honoured (resolver : Resolver) (root : Table.Root) (cycles : CycleLog) (g : Graph) : Prop :=
  ∀ n args, (g.Has n fun node => node.origin = .synthesized .func args) →
    ∃ block f, Opens resolver root cycles block f ∧ f.source = n ∧
      g.Honours resolver args block f.target

namespace Query

variable {q d : Query} {c : Call} {args : List TypeExpr} {block : BlockId} {n : NodeId} {s : State}

/-- Whether what answers within a provider call without being made for it keeps to the arguments of
the call. -/
structure KeepsTo (resolver : Resolver) (g : Graph) (args : List TypeExpr) (block : BlockId)
    (q : Query) : Prop where
  /-- What is found in the call leads to what gets its arguments. -/
  found : ∀ d n, q.AsksAtOnce resolver d → d.Finds resolver n → g.Honours resolver args block n
  /-- What is noted for an argument of the call, and passed to a value of a binding, is one. -/
  noted : ∀ d c type n, q.AsksAtOnce resolver d → (∃ m, d.verdict resolver = .ok (.make m) ∧
    m.content.lifetime = .transient ∧ m.content.origin.isBinding = true) →
    c ∈ d.lastCalls resolver → c.query.visible? = some ⟨type, .node n⟩ → type ∈ args →
    g.IsArgument block n

end Query

section Resolved

variable (h : buildRoot resolver root cycles = .ok b) (hresolved : b.isResolved = true)

include h hresolved

/-- A call for a value is an edge that leaves its node, which is made as the value is and asks for
the request of the call. -/
theorem node_of_call {d : Query} (hd : (Query.ofRoot root cycles).Retains resolver d) {m : Making}
    (hm : d.verdict resolver = .ok (.make m)) {c : Call} (hc : c ∈ d.lastCalls resolver)
    {n : NodeId} {s : State} (hout : c.query.outcome resolver = .ok (some n, s)) :
    c.link.wire.edge d.nodeNumber n ∈ b.graph.dependencies d.nodeNumber ∧
      b.graph.Has d.nodeNumber fun node => node.lifetime = m.content.lifetime ∧
        node.origin.isBinding = m.content.origin.isBinding ∧
        resolver.requestAt d.request.pin node c.link.wire.position = some c.query.request := by
  obtain ⟨k, hk⟩ := (buildRoot_hasEdge_iff h hresolved _).mpr ⟨d, c, n, ⟨hd, hc, s, hout⟩, rfl⟩
  refine ⟨Graph.mem_dependencies.mpr ⟨k, hk, rfl⟩, ?_⟩
  obtain ⟨node, hnode, hcreates⟩ := has_of_creates h hresolved hd (.value hm)
  obtain ⟨t, htraced, hnodes, -⟩ := buildRoot_traced h hresolved
  obtain ⟨node', hnode', hasked⟩ := htraced.asked d hd c hc
  cases hnode.symm.trans (hnodes ▸ hnode')
  obtain ⟨hlifetime, horigin⟩ := hcreates.of_make hm
  exact ⟨node, hnode, hlifetime, horigin, hasked⟩

/-- A call that is retained on the way has an answer, at the time of its link. -/
theorem answer_of_call {d : Query} (hd : (Query.ofRoot root cycles).Retains resolver d) {c : Call}
    (hc : c ∈ d.lastCalls resolver) :
    (∃ n s, c.query.outcome resolver = .ok (some n, s)) ∧
      c.query.timing = c.link.wire.timing := by
  have hproper := ((Query.ofRoot_proper resolver root cycles).of_retains hd).1
  obtain ⟨n, s, hout, -⟩ := exists_answer h hresolved (hd.tail ⟨c, hc, rfl⟩)
  exact ⟨⟨n, s, hout⟩, hproper.timing_of_mem_lastCalls hc⟩

/-- What is asked at once, for values made anew, is what the answer leads to. -/
theorem leadsAnew_of_asksAtOnce {q d : Query} (hq : (Query.ofRoot root cycles).Retains resolver q)
    (hd : q.AsksAtOnce resolver d) {k n : NodeId} {s t : State}
    (hk : q.outcome resolver = .ok (some k, s)) (hn : d.outcome resolver = .ok (some n, t)) :
    b.graph.LeadsAnew k n := by
  induction hd generalizing n t with
  | refl =>
    cases hk.symm.trans hn
    exact .refl
  | tail hd hstep ih =>
    obtain ⟨⟨m, hm, hlifetime⟩, c, hc, heager, rfl⟩ := hstep
    have hret := hq.trans (Query.AsksAtOnce.retains hd)
    obtain ⟨j, t', hout, hvalue⟩ := exists_answer h hresolved hret
    obtain rfl := hvalue ⟨m, hm⟩
    obtain ⟨hedge, hnode⟩ := node_of_call h hresolved hret hm hc hn
    have htiming := (answer_of_call h hresolved hret hc).2.symm.trans heager
    exact (ih hout).tail ⟨hnode.mono fun node hnode => hnode.1.trans hlifetime, _, hedge, htiming,
      rfl⟩

/-- A function in a resolved root has a call, which opens a block for its value. -/
theorem exists_call_of_func {n : NodeId} {args : List TypeExpr}
    (hn : b.graph.Has n fun node => node.origin = .synthesized .func args) :
    ∃ d c, (Query.ofRoot root cycles).Retains resolver d ∧ d.nodeNumber = n ∧
      c ∈ d.lastCalls resolver ∧ c.Opens c.query.context.block ∧ c.link.provides = some args := by
  obtain ⟨node, hnode, ho⟩ := hn
  obtain ⟨d, hd, hnumber, hcreates⟩ := buildRoot_nodes h hresolved hnode
  obtain ⟨dependencies, hres, hm⟩ := hcreates.makesShape ho
  obtain ⟨dependency, rfl, htiming⟩ : ∃ d, dependencies = [d] ∧ d.timing = .deferred := by
    cases Resolver.synthesizes_of_resolve hres with
    | func | later => exact ⟨_, rfl, rfl⟩
  obtain ⟨c, hsingle, hprovides⟩ := Query.exists_lastCall_of_deferred hm htiming
  refine ⟨d, c, hd, hnumber, by simp [hsingle], ⟨by simp [hprovides], rfl⟩, hprovides⟩

/-- What the value of a function leads to was made for its call or leads from what was found in the
call. -/
theorem exists_asked_of_leadsAnew {q : Query} (hq : (Query.ofRoot root cycles).Retains resolver q)
    {k m : NodeId} {s : State} (hk : q.outcome resolver = .ok (some k, s))
    (hm : b.graph.LeadsAnew k m) :
    (∃ d, q.AsksAtOnce resolver d ∧ d.nodeNumber = m ∧ ∃ node, d.Creates resolver node) ∨
      ∃ d n, q.AsksAtOnce resolver d ∧ d.Finds resolver n ∧ b.graph.LeadsAnew n m := by
  have hroot := Query.ofRoot_proper resolver root cycles
  have hanswer : ∀ d n t, q.AsksAtOnce resolver d → d.outcome resolver = .ok (some n, t) →
      (∃ d, q.AsksAtOnce resolver d ∧ d.nodeNumber = n ∧ ∃ node, d.Creates resolver node) ∨
        ∃ d k, q.AsksAtOnce resolver d ∧ d.Finds resolver k ∧ b.graph.LeadsAnew k n := by
    intro d n t hd hout
    have hproper := (hroot.of_retains (hq.trans hd.retains)).1
    rcases Query.creates_or_finds hproper hout with ⟨hn, hcreates⟩ | hfinds
    · exact .inl ⟨d, hd, hn.symm, hcreates⟩
    · exact .inr ⟨d, n, hd, hfinds, .refl⟩
  induction hm with
  | refl => exact hanswer q k s .refl hk
  | tail _ hstep ih =>
    obtain ⟨htransient, e, he, heager, rfl⟩ := hstep
    rcases ih with ⟨d, hd, rfl, node, hcreates⟩ | ⟨d, n, hd, hfinds, hleads⟩
    · have hret := hq.trans hd.retains
      obtain ⟨i, hi, hsource⟩ := Graph.mem_dependencies.mp he
      obtain ⟨c, n, ⟨-, hc, t, hout⟩, rfl⟩ :=
        exists_call_of_edge h hresolved hret hcreates ⟨i, hi⟩ hsource
      obtain ⟨m, hm⟩ := ((hroot.of_retains hret).1.of_mem_lastCalls hc).1
      obtain ⟨-, node', hnode', hlifetime, -⟩ := node_of_call h hresolved hret hm hc hout
      obtain ⟨node'', hnode'', htransient⟩ := htransient
      cases hnode'.symm.trans hnode''
      have htiming := (answer_of_call h hresolved hret hc).2.trans heager
      have hnext : q.AsksAtOnce resolver c.query :=
        hd.tail ⟨⟨m, hm, hlifetime.symm.trans htransient⟩, c, hc, htiming, rfl⟩
      exact hanswer c.query n t hnext hout
    · exact .inr ⟨d, n, hd, hfinds, hleads.tail ⟨htransient, e, he, heager, rfl⟩⟩

/-- In a call that keeps to its arguments, whatever the value leads to gets them: a value of a
binding asks at once and sees the arguments of the call. -/
theorem honours_of_keepsTo {d : Query} (hd : (Query.ofRoot root cycles).Retains resolver d)
    {c : Call} (hc : c ∈ d.lastCalls resolver) {block : BlockId} (ho : c.Opens block)
    {args : List TypeExpr} (hl : c.link.provides = some args)
    (hkeeps : c.query.KeepsTo resolver b.graph args block) {k : NodeId} {s : State}
    (hk : c.query.outcome resolver = .ok (some k, s)) :
    b.graph.Honours resolver args block k := by
  have hroot := Query.ofRoot_proper resolver root cycles
  have hq := hd.tail ⟨c, hc, rfl⟩
  intro m node hm hnode htransient hbinding e he request hrequest hpin htag htype
  rcases exists_asked_of_leadsAnew h hresolved hq hk hm with
    ⟨q, hasks, rfl, content, hcreates⟩ | ⟨q, n, hasks, hfinds, hleads⟩
  · have hret := hq.trans hasks.retains
    have hproper := (hroot.of_retains hret).1
    obtain ⟨i, hi, hsource⟩ := Graph.mem_dependencies.mp he
    obtain ⟨c', n, ⟨-, hc', t, hout⟩, rfl⟩ :=
      exists_call_of_edge h hresolved hret hcreates ⟨i, hi⟩ hsource
    obtain ⟨making, hmaking⟩ := (hproper.of_mem_lastCalls hc').1
    obtain ⟨-, node', hnode', hlifetime, horigin, hasked⟩ :=
      node_of_call h hresolved hret hmaking hc' hout
    cases hnode.symm.trans hnode'
    rw [resolver.requestAt_of_isBinding hbinding] at hasked
    obtain rfl := Option.some.inj (hrequest.symm.trans hasked)
    have heager : c'.query.timing = .eager := by
      obtain ⟨making', s', hmaking', hlink, heq, -⟩ := hproper.exists_lastLink hc'
      cases hmaking.symm.trans hmaking'
      cases Query.verdict_grounds hmaking with
      | makeBinding => rw [heq, Link.query_timing, (plain_of_mem_workOf hlink).eager]
      | makeShape => cases horigin.symm.trans hbinding
    have hoffers : c'.query.state.Offers args block := hproper.offers_of_eager
      (hasks.offers (hroot.of_retains hq).1
        ((hroot.of_retains hd).1.offers_of_opens hc ho hl)) hc' heager
    obtain ⟨⟨type, source⟩, hvisible, ⟨index, rfl⟩ | ⟨j, rfl⟩⟩ :=
      Query.visible?_of_offers hoffers hpin htag htype
    · have hret' := hret.tail ⟨c', hc', rfl⟩
      have hcreates' : c'.query.Creates resolver _ := .argument hvisible
      obtain ⟨rfl, -⟩ := hcreates'.answer (hroot.of_retains hret').1 hout
      refine (has_of_creates h hresolved hret' hcreates').mono fun argument hargument => ?_
      rw [hargument.eq_argumentNode hvisible]
      exact ⟨index, rfl⟩
    · obtain rfl := Query.Finds.answer (.inr ⟨type, hvisible⟩)
        (hroot.of_retains (hret.tail ⟨c', hc', rfl⟩)).1 hout
      obtain ⟨-, -, rfl, -⟩ := Query.visible?_eq_some hvisible
      exact hkeeps.noted q c' _ n hasks ⟨making, hmaking, hlifetime.symm.trans htransient,
        horigin.symm.trans hbinding⟩ hc' hvisible htype
  · exact hkeeps.found q n hasks hfinds m node hleads hnode htransient hbinding e he request
      hrequest hpin htag htype

/-- Where functions honour their arguments, so does the answer to each provider call, which is the
only call of its function. -/
theorem honours_of_honoured (hall : Honoured resolver root cycles b.graph) {d : Query}
    (hd : (Query.ofRoot root cycles).Retains resolver d) {c : Call}
    (hc : c ∈ d.lastCalls resolver) {block : BlockId} (ho : c.Opens block) {args : List TypeExpr}
    (hl : c.link.provides = some args) {k : NodeId} {s : State}
    (hk : c.query.outcome resolver = .ok (some k, s)) :
    b.graph.Honours resolver args block k := by
  have hroot := Query.ofRoot_proper resolver root cycles
  intro m node hm hnode htransient hbinding e he request hrequest hpin htag htype
  obtain ⟨index, hindex, hsame⟩ := List.mem_iff_getElem.mp htype
  obtain ⟨dependencies, hmakes⟩ := (hroot.of_retains hd).1.exists_func hc hl
    (List.getElem?_eq_getElem hindex)
  have hfunc : b.graph.Has d.nodeNumber fun node => node.origin = .synthesized .func args :=
    (has_of_creates h hresolved hd (.value hmakes)).mono
      fun node hcreates => hcreates.origin_eq_synthesized hmakes
  obtain ⟨block', f, ⟨d', c', k', ⟨hd', hc', s', hk'⟩, ho', rfl⟩, hsource, hhonours⟩ :=
    hall d.nodeNumber args hfunc
  obtain ⟨making, hmaking⟩ := ((hroot.of_retains hd').1.of_mem_lastCalls hc').1
  obtain ⟨_, t, -, hbuilt, -⟩ := buildRoot_resolved h hresolved
  obtain rfl := Query.eq_of_nodeNumber_eq hroot hbuilt hd' hd (.value hmaking) (.value hmakes)
    hsource
  rw [((hroot.of_retains hd).1.eq_singleton_of_provides hc ho.1).1] at hc'
  obtain rfl := List.mem_singleton.mp hc'
  obtain rfl : block' = block := ho'.2.symm.trans ho.2
  cases hk.symm.trans hk'
  exact hhonours m node hm hnode htransient hbinding e he request hrequest hpin htag htype

end Resolved

/-- In a resolved root, what is made anew within the call of a function gets the arguments of the
call exactly when whatever is found in such a call keeps to them. -/
theorem honoured_iff (h : buildRoot resolver root cycles = .ok b)
    (hresolved : b.isResolved = true) :
    Honoured resolver root cycles b.graph ↔ ∀ d c block args,
      (Query.ofRoot root cycles).Retains resolver d → c ∈ d.lastCalls resolver → c.Opens block →
      c.link.provides = some args → c.query.KeepsTo resolver b.graph args block := by
  have hroot := Query.ofRoot_proper resolver root cycles
  constructor
  · intro hall d c block args hd hc ho hl
    have hq := hd.tail ⟨c, hc, rfl⟩
    obtain ⟨k, s, hk, -⟩ := exists_answer h hresolved hq
    have hhonours := honours_of_honoured h hresolved hall hd hc ho hl hk
    refine ⟨fun q n hasks hfinds => ?_, fun q c' type n hasks hmakes hc' hvisible htype => ?_⟩
    · have hret := hq.trans hasks.retains
      obtain ⟨j, t, hout, -⟩ := exists_answer h hresolved hret
      obtain rfl := hfinds.answer (hroot.of_retains hret).1 hout
      exact hhonours.of_leadsAnew (leadsAnew_of_asksAtOnce h hresolved hq hasks hk hout)
    · have hret := hq.trans hasks.retains
      obtain ⟨making, hmaking, htransient, hbinding⟩ := hmakes
      obtain ⟨j, t, hout, hvalue⟩ := exists_answer h hresolved hret
      obtain rfl := hvalue ⟨making, hmaking⟩
      obtain ⟨i, t', hanswer, -⟩ := exists_answer h hresolved (hret.tail ⟨c', hc', rfl⟩)
      obtain rfl := Query.Finds.answer (.inr ⟨type, hvisible⟩)
        (hroot.of_retains (hret.tail ⟨c', hc', rfl⟩)).1 hanswer
      obtain ⟨hedge, node, hnode, hlifetime, horigin, hasked⟩ :=
        node_of_call h hresolved hret hmaking hc' hanswer
      have hisBinding := horigin.trans hbinding
      rw [resolver.requestAt_of_isBinding hisBinding] at hasked
      obtain ⟨hpin, htag, rfl, -⟩ := Query.visible?_eq_some hvisible
      exact hhonours q.nodeNumber node
        (leadsAnew_of_asksAtOnce h hresolved hq hasks hk hout) hnode
        (hlifetime.trans htransient) hisBinding _ hedge _ hasked hpin htag htype
  · intro hkeeps n args hn
    obtain ⟨d, c, hd, rfl, hc, ho, hl⟩ := exists_call_of_func h hresolved hn
    obtain ⟨k, s, hk, -⟩ := exists_answer h hresolved (hd.tail ⟨c, hc, rfl⟩)
    refine ⟨_, _, ⟨d, c, k, ⟨hd, hc, s, hk⟩, ho, rfl⟩, rfl, ?_⟩
    exact honours_of_keepsTo h hresolved hd hc ho hl (hkeeps d c _ args hd hc ho hl) hk

/-- A service made from two numbers or, if the second one is missing, from the first one and a
function that makes the service from both. -/
def recursiveProvider : Setup :=
  .sample [("IT", "T", [[.named "int" [], .named "long" []],
    [.named "int" [], .named "Func" [.named "int" [], .named "long" [], .named "IT" []]]]),
    ("int", "Number", [[]])] ["IT"]

/-- The function is linked to the service that needs it, whose number is not an argument: its call
leads back to the service, which takes the number from elsewhere. -/
theorem recursiveProvider_not_honoured :
    ∃ b, buildRoot (.ofSetup recursiveProvider) recursiveProvider.firstRoot .empty = .ok b ∧
      b.isResolved = true ∧
      ¬ Honoured (.ofSetup recursiveProvider) recursiveProvider.firstRoot .empty b.graph := by
  have hbuilt : ((buildRoot (.ofSetup recursiveProvider) recursiveProvider.firstRoot
      .empty).toOption.any fun b => b.isResolved && b.graph.edges.entries.any fun e =>
        (decide (b.graph.Has e.2.source fun node => node.lifetime = .transient ∧
          node.origin.isBinding = true ∧
          (Resolver.ofSetup recursiveProvider).requestAt none node e.2.position =
            some (.free ⟨.named "int" [], none⟩))) &&
        (decide (b.graph.Has e.2.target fun node => node.origin.isBinding = true)) &&
        b.graph.edges.entries.any fun f => (decide (b.graph.Has f.2.source fun node =>
            node.origin = .synthesized .func [.named "int" [], .named "long" []])) &&
          b.graph.edges.entries.all fun d => d.2.source != f.2.source ||
            d.2.target == e.2.source) = true := by
    decide +kernel
  obtain ⟨b, hb, hfacts⟩ := any_toOption.mp hbuilt
  obtain ⟨hresolved, hedges⟩ := Bool.and_eq_true_iff.mp hfacts
  refine ⟨b, hb, hresolved, fun hall => ?_⟩
  obtain ⟨⟨i, e⟩, he, hservice⟩ := List.any_eq_true.mp hedges
  simp only [Bool.and_eq_true, decide_eq_true_eq] at hservice
  obtain ⟨⟨⟨node, hnode, htransient, hbinding, hrequest⟩, hnumber⟩, hprovided⟩ := hservice
  obtain ⟨⟨j, f⟩, -, hfunc⟩ := List.any_eq_true.mp hprovided
  simp only [Bool.and_eq_true, decide_eq_true_eq] at hfunc
  obtain ⟨block, f', hf', hsource, hhonours⟩ := hall f.source _ hfunc.1
  obtain ⟨⟨k, hk⟩, -⟩ := opens_edge hb hresolved hf'
  have htarget : f'.target = e.source := by
    simpa [hsource] using List.all_eq_true.mp hfunc.2 (k, f') hk
  have hargument : b.graph.IsArgument block e.target :=
    hhonours e.source node (htarget ▸ .refl) hnode htransient hbinding e
      (Graph.mem_dependencies.mpr ⟨i, he, rfl⟩) _ hrequest rfl rfl List.mem_cons_self
  obtain ⟨number, hget, index, ho⟩ := hargument
  obtain ⟨number', hget', hisBinding⟩ := hnumber
  cases hget.symm.trans hget'
  rw [ho] at hisBinding
  cases hisBinding

/-- In the call of the function, what is under construction is found, and does not keep to the
arguments of the call. -/
theorem honoured_iff_recursiveProvider :
    ∃ b, buildRoot (.ofSetup recursiveProvider) recursiveProvider.firstRoot .empty = .ok b ∧
      b.isResolved = true ∧ ∃ d c block args,
        (Query.ofRoot recursiveProvider.firstRoot .empty).Retains (.ofSetup recursiveProvider) d ∧
        c ∈ d.lastCalls (.ofSetup recursiveProvider) ∧ c.Opens block ∧
        c.link.provides = some args ∧
        ¬ c.query.KeepsTo (.ofSetup recursiveProvider) b.graph args block := by
  obtain ⟨b, hb, hresolved, hnot⟩ := recursiveProvider_not_honoured
  refine ⟨b, hb, hresolved, Classical.byContradiction fun hnone => ?_⟩
  refine hnot ((honoured_iff hb hresolved).mpr fun d c block args hd hc ho hl => ?_)
  exact Classical.byContradiction fun hkeeps => hnone ⟨d, c, block, args, hd, hc, ho, hl, hkeeps⟩

/-- What is made anew within the call of a function need not get the arguments of the call. -/
theorem recursiveProvider_ignoresArguments :
    ¬ ∀ b, buildRoot (.ofSetup recursiveProvider) recursiveProvider.firstRoot .empty = .ok b →
      b.isResolved = true →
      Honoured (.ofSetup recursiveProvider) recursiveProvider.firstRoot .empty b.graph := by
  intro hall
  obtain ⟨b, hb, hresolved, hnot⟩ := recursiveProvider_not_honoured
  exact hnot (hall b hb hresolved)

end Wiring

end Injector

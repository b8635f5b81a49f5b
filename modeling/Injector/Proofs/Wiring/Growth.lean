import Injector.Proofs.Wiring.Extension

/-!
# What following leaves of a state

Following a query only adds to the graph, the shared instances and the issues, also when
constructors are taken back on the way. The main statements are that the outcome of a query extends
its state and is consistent, and that it is a node that the request accepts unless its number was
remembered for an argument of a provider call.
-/

namespace Injector.Wiring

variable {resolver : Resolver}

/-- Whether what `follow` leaves of the states of queries of some jobs extends them. -/
def Grows (resolver : Resolver) (follow : Follow) (context : Context) (jobs : List Job) : Prop :=
  ∀ l s, .link l ∈ jobs → s.Consistent resolver → context.Placed resolver s.graph →
    ∀ a s', follow.answer (l.query context s) = .ok (a, s') →
      (l.query context s).state.Extends s' ∧ s'.Consistent resolver

section Work

variable {follow : Follow} {context : Context} {node : NodeId}

/-- What grows with many jobs grows with fewer. -/
theorem Grows.mono {jobs jobs' : List Job} (h : Grows resolver follow context jobs)
    (hsub : ∀ job ∈ jobs', job ∈ jobs) : Grows resolver follow context jobs' :=
  fun l s hl => h l s (hsub _ hl)

/-- What grows with a list of jobs grows with the first one, and with the others. -/
theorem Grows.of_cons {job : Job} {jobs : List Job}
    (h : Grows resolver follow context (job :: jobs)) :
    Grows resolver follow context [job] ∧ Grows resolver follow context jobs :=
  ⟨h.mono (List.forall_mem_singleton.mpr List.mem_cons_self),
    h.mono fun _ hj => List.mem_cons_of_mem _ hj⟩

/-- What grows with all alternatives grows with the first one, and with the others. -/
theorem Grows.of_flatMap_cons {first : List Job × Nat} {rest : List (List Job × Nat)}
    (h : Grows resolver follow context ((first :: rest).flatMap Prod.fst)) :
    Grows resolver follow context first.1 ∧
      Grows resolver follow context (rest.flatMap Prod.fst) := by
  rw [List.flatMap_cons] at h
  exact ⟨h.mono fun _ hj => List.mem_append_left _ hj,
    h.mono fun _ hj => List.mem_append_right _ hj⟩

/-- Without a provider call a link is left as it was made. -/
theorem Link.leave_extends {l : Link} {s s' : State}
    (hx : (l.query context s).state.Extends s') (h' : s'.Consistent resolver) :
    s.Extends (l.leave s s') ∧ (l.leave s s').Consistent resolver := by
  obtain ⟨wire, site, provides⟩ := l
  cases provides with
  | none => exact ⟨hx, h'⟩
  | some args => exact ⟨hx.closed, h'.closed⟩

/-- Connecting a node to the answer to a link only adds an edge. -/
theorem Link.leave_connected {l : Link} {s s₁ : State} {e : Edge} {g : Graph}
    (hx : (l.query context s).state.Extends s₁) (hc : s₁.Consistent resolver)
    (hg : s₁.graph.addEdge e = .ok g) :
    s.Extends (l.leave s { s₁ with graph := g }) ∧
      (l.leave s { s₁ with graph := g }).Consistent resolver := by
  have hedge := Graph.extends_addEdge hg
  have hsame : g.nodes = s₁.graph.nodes ∧ g.blocks = s₁.graph.blocks := by
    obtain ⟨-, -, rfl⟩ := Graph.addEdge_eq_ok hg
    exact ⟨rfl, rfl⟩
  exact Link.leave_extends (hx.withGraph (hx.graph.trans hedge) hsame.2)
    (hc.withGraph hedge (hc.graph.addEdge hg) (hsame.1 ▸ hc.stacked) hsame.2
      (congrArg Pool.entries hsame.1))

/-- One job extends the state and keeps it consistent. -/
theorem perform_extends {job : Job} (hgrows : Grows resolver follow context [job]) {s s' : State}
    {b : Bool} (hs : s.Consistent resolver) (hp : context.Placed resolver s.graph)
    (h : perform follow context node job s = .ok (b, s')) :
    s.Extends s' ∧ s'.Consistent resolver := by
  cases job with
  | complain issue =>
    rw [perform_complain] at h
    cases h
    exact ⟨s.extends_complained _, hs.complained _⟩
  | link l =>
    have hquery := hgrows l s (List.mem_singleton_self _) hs hp
    rcases perform_link_eq_ok h with ⟨s₁, ha, rfl, rfl⟩ | ⟨n, s₁, g, ha, hg, rfl, rfl⟩
    · obtain ⟨hx, hc⟩ := hquery none s₁ ha
      exact Link.leave_extends hx hc
    · obtain ⟨hx, hc⟩ := hquery (some n) s₁ ha
      exact Link.leave_connected hx hc hg

/-- Jobs one after the other extend the state and keep it consistent. -/
theorem performAll_extends {jobs : List Job} (hgrows : Grows resolver follow context jobs)
    {s s' : State} {b : Bool} (hs : s.Consistent resolver) (hp : context.Placed resolver s.graph)
    (h : performAll follow context node jobs s = .ok (b, s')) :
    s.Extends s' ∧ s'.Consistent resolver := by
  induction jobs generalizing s s' b with
  | nil =>
    cases h
    exact ⟨.refl s, hs⟩
  | cons job jobs ih =>
    obtain ⟨hfirst, hothers⟩ := hgrows.of_cons
    obtain ⟨b₁, s₁, b₂, hhere, hrest, rfl⟩ := performAll_cons_eq_ok h
    obtain ⟨hx, hc⟩ := perform_extends hfirst hs hp hhere
    obtain ⟨hx', hc'⟩ := ih hothers hc (hp.of_extends hx.graph hs.graph hc.graph) hrest
    exact ⟨hx.trans hx', hc'⟩

/-- What a choice leaves of a state extends it, but for the constructor noted at the node. -/
theorem tryAll_extends {alternatives : List (List Job × Nat)} {found : List Issue}
    (hgrows : Grows resolver follow context (alternatives.flatMap Prod.fst)) {s s' : State}
    {b : Bool} (hs : s.Consistent resolver) (hp : context.Placed resolver s.graph)
    (h : tryAll follow context node alternatives found s = .ok (b, s')) :
    s.Follows resolver node s' := by
  induction alternatives generalizing s s' b found with
  | nil =>
    cases h
    exact ⟨_, s.extends_complained found, hs.complained _, .inl rfl⟩
  | cons a rest ih =>
    obtain ⟨jobs, index⟩ := a
    obtain ⟨hjobs, hrest⟩ := hgrows.of_flatMap_cons
    rcases tryAll_cons_eq_ok h with ⟨s₁, g, hall, hg, rfl, rfl⟩ | ⟨s₁, r, hall, hback, hothers⟩
    · obtain ⟨hx, hc⟩ := performAll_extends hjobs hs hp hall
      exact ⟨s₁, hx, hc, .inr ⟨index, g, hg, rfl⟩⟩
    · obtain ⟨hx, hc⟩ := performAll_extends hjobs hs hp hall
      obtain ⟨g, hok, hx₂, hc₂, -, -⟩ := hx.rollback hs hc
      cases hback.symm.trans hok
      obtain ⟨s₂, hx₃, hc₃, hlast⟩ := ih hrest hc₂
        (hp.of_extends hx₂.graph hs.graph hc₂.graph) hothers
      exact ⟨s₂, hx₂.trans hx₃, hc₃, hlast⟩

/-- Work for a node only adds to the state, but for a constructor that is noted for the node. -/
theorem carryOut_extends {work : Work} (hgrows : Grows resolver follow context work.jobs)
    {s s' : State} {b : Bool} (hs : s.Consistent resolver) (hp : context.Placed resolver s.graph)
    (h : work.carryOut follow context node s = .ok (b, s')) :
    s.Follows resolver node s' := by
  cases work with
  | once jobs =>
    obtain ⟨hx, hc⟩ := performAll_extends hgrows hs hp h
    exact ⟨s', hx, hc, .inl rfl⟩
  | choice alternatives => exact tryAll_extends hgrows hs hp h

end Work

namespace Query

variable {q : Query}

/-- Reaching a query only marks its binding as touched. -/
theorem reached_eq (resolver : Resolver) (q : Query) :
    ∃ touched, q.reached resolver = { q.state with touched } := by
  unfold reached
  split
  · exact ⟨_, rfl⟩
  · exact ⟨q.state.touched, rfl⟩

/-- The node of a value is what its key stands for and what the query asks for. -/
theorem content_of_make {m : Making} (h : q.Grounds resolver (.make m)) :
    m.key.Matches resolver m.content ∧ resolver.Accepts q.request m.content ∧
      (∀ k ∈ m.shared, m.key = .binding k.binding k.substitution) := by
  cases h with
  | makeBinding hres =>
    refine ⟨⟨none, rfl⟩, hres, fun k hk => ?_⟩
    obtain ⟨hid, hs⟩ := SharedKey.of?_eq_some hk
    exact hid ▸ hs ▸ rfl
  | @makeShape strategy deps args hres =>
    refine ⟨⟨rfl, q.request.pin, strategy, deps, args, hres, rfl⟩, ⟨rfl, deps, hres⟩, ?_⟩
    intro k hk
    cases hk

/-- A value is shared under the key of its node. -/
theorem ofNode?_content {m : Making} (h : q.Grounds resolver (.make m)) :
    SharedKey.ofNode? m.content = m.shared := by
  cases h <;> rfl

/-- The state in which the work for a value begins. -/
def begun (resolver : Resolver) (q : Query) (m : Making) : State :=
  { q.reached resolver with graph := q.state.graph.addNode m.content }

/-- The number of the node of a value that a query asks for. -/
def nodeNumber (q : Query) : NodeId := q.state.graph.nodes.nextNumber

/-- To make a value is to carry out its work, and then to note the node to be shared or the failure.
-/
theorem run_eq (m : Making) (follow : Follow) :
    m.run follow q (q.reached resolver) =
      (m.work.carryOut follow (q.inner m.key q.nodeNumber) q.nodeNumber
        (q.begun resolver m)).map fun r =>
          if r.1 then (some q.nodeNumber, r.2.sharing m.shared q.nodeNumber)
          else (none, r.2.failing m.key (r.2.issues.drop q.state.issues.length)) := by
  obtain ⟨touched, heq⟩ := q.reached_eq resolver
  simp only [Making.run, nodeNumber, begun, heq]

/-- The binding of a value is of the table. -/
theorem lt_of_content {m : Making} (hq : resolver.Admits q.request)
    (h : q.Grounds resolver (.make m)) {id : BindingId} {s : Substitution}
    {constructor : Option Nat} (ho : m.content.origin = .binding id s constructor) :
    id < resolver.table.bindings.length := by
  cases h with
  | makeBinding hres =>
    cases ho
    exact Resolver.lt_of_resolve_binding hq hres
  | makeShape => cases ho

/-- The node of a value is added to a consistent state consistently. -/
theorem begun_consistent (hq : q.Proper resolver) {m : Making}
    (hm : q.Grounds resolver (.make m)) : (q.begun resolver m).Consistent resolver := by
  obtain ⟨touched, heq⟩ := q.reached_eq resolver
  simp only [begun, heq]
  have hadded := hq.consistent.addNode fun _ _ _ ho => lt_of_content hq.admits hm ho
  exact ⟨hadded.graph, hadded.stacked, hadded.segments, hadded.known, hadded.shared,
    hadded.failures⟩

/-- The node of a value is added to the state. -/
theorem extends_begun (q : Query) (m : Making) : q.state.Extends (q.begun resolver m) := by
  obtain ⟨touched, heq⟩ := q.reached_eq resolver
  simp only [begun, heq]
  exact ⟨q.state.graph.extends_addNode m.content, Nat.le_refl _, List.suffix_refl _,
    State.becomes_refl _ _, List.prefix_refl _⟩

@[simp] theorem begun_shared (q : Query) (m : Making) :
    (q.begun resolver m).shared = q.state.shared := by
  obtain ⟨touched, heq⟩ := q.reached_eq resolver
  rw [begun, heq]

@[simp] theorem begun_issues (q : Query) (m : Making) :
    (q.begun resolver m).issues = q.state.issues := by
  obtain ⟨touched, heq⟩ := q.reached_eq resolver
  rw [begun, heq]

/-- The node of a value is added before the work for the value begins. -/
theorem begun_has (q : Query) (m : Making) {p : Node → Prop} (h : p m.content) :
    (q.begun resolver m).graph.Has q.nodeNumber p :=
  ⟨m.content, Graph.get?_addNode _ _, h⟩

/-- What is asked for a value is placed where the node of the value was added. -/
theorem begun_placed (hq : q.Proper resolver) {m : Making}
    (hm : q.Grounds resolver (.make m)) :
    (q.inner m.key q.nodeNumber).Placed resolver (q.begun resolver m).graph := by
  intro f hf
  rcases List.mem_append.mp hf with hf | hf
  · exact (hq.placed f hf).of_extends (extends_begun q m).graph hq.consistent.graph
      (begun_consistent hq hm).graph
  · obtain rfl := List.mem_singleton.mp hf
    exact begun_has q m (content_of_make hm).1

/-- What a value rests on does not depend on what is seen of the state. -/
theorem Grounds.of_seen {see : State → State} {m : Making}
    (h : (q.seen see).Grounds resolver (.make m)) : q.Grounds resolver (.make m) := by
  obtain ⟨context, request, timing, site, s⟩ := q
  cases h with
  | makeBinding hres hr hcount => exact .makeBinding hres hr hcount
  | makeShape hres => exact .makeShape hres

/-- What is asked for a value can be asked in every consistent state in which what is under
construction has its nodes. -/
theorem Proper.askedSeen (hq : q.Proper resolver) (see : State → State) {m : Making} {l : Link}
    {s : State} (hm : (q.seen see).verdict resolver = .ok (.make m)) (hl : .link l ∈ m.work.jobs)
    (hs : s.Consistent resolver)
    (hp : (q.inner m.key q.nodeNumber).Placed resolver s.graph) :
    (l.query (q.inner m.key q.nodeNumber) s).Proper resolver := by
  have hseen := hq.toAdmissible.seen see
  refine ⟨hseen.below ⟨m, l, _, s, hm, hl, rfl⟩, ?_, ?_⟩
  · obtain ⟨wire, site, provides⟩ := l
    cases provides with
    | none => exact hs
    | some args => exact hs.opened args
  · obtain ⟨wire, site, provides⟩ := l
    cases provides with
    | none => exact hp
    | some args => exact hp.of_extends s.graph.extends_addBlock hs.graph hs.graph.addBlock

/-- What a proper query asks is proper. -/
theorem Proper.asked (hq : q.Proper resolver) {m : Making} {l : Link} {s : State}
    (hm : q.verdict resolver = .ok (.make m)) (hl : .link l ∈ m.work.jobs)
    (hs : s.Consistent resolver)
    (hp : (q.inner m.key q.nodeNumber).Placed resolver s.graph) :
    (l.query (q.inner m.key q.nodeNumber) s).Proper resolver :=
  hq.askedSeen id hm hl hs hp

end Query

/-- Work for a node leaves the properties of nodes that do not depend on a constructor. -/
theorem State.Follows.has {s s' : State} {node n : NodeId} {p : Node → Prop}
    (h : s.Follows resolver node s') (hs : s.Consistent resolver) (hn : s.graph.Has n p)
    (hp : ∀ index content, p content → p (chosen index content)) : s'.graph.Has n p := by
  obtain ⟨s₁, hx, hc, rfl | ⟨index, g, hg, rfl⟩⟩ := h
  · exact hn.of_extends hx.graph hs.graph hc.graph
  · exact (hn.of_extends hx.graph hs.graph hc.graph).of_modifyNode hg (hp index)

/-- The state after the work for a node is consistent. -/
theorem State.Follows.consistent {s s' : State} {node : NodeId}
    (h : s.Follows resolver node s') : s'.Consistent resolver := by
  obtain ⟨s₁, hx, hc, rfl | ⟨index, g, hg, rfl⟩⟩ := h
  · exact hc
  · have heq := Graph.modifyNode_eq_ok hg
    exact ⟨hc.graph.modifyNode hg, heq ▸ hc.stacked.modify _ _, heq ▸ hc.segments,
      hc.known.modifyNode hg fun _ _ _ _ ho => origin_of_chosen ho,
      fun k hk => (hc.shared k hk).of_modifyNode hg fun content hk => by
        rwa [SharedKey.ofNode?_chosen], hc.failures⟩

/-- Work for a node that is new to an earlier state extends that state. -/
theorem State.Follows.extends {s₀ s s' : State} {node : NodeId} (h : s.Follows resolver node s')
    (hx : s₀.Extends s) (hn : node ∉ s₀.graph.nodes.taken) : s₀.Extends s' := by
  obtain ⟨s₁, hx₁, hc, rfl | ⟨index, g, hg, rfl⟩⟩ := h
  · exact hx.trans hx₁
  · have hx₂ := hx.trans hx₁
    exact hx₂.withGraph (hx₂.graph.modifyNode hn hg)
      (by rw [Graph.modifyNode_eq_ok hg])

namespace Query

variable {q : Query}

section Seen

variable {see : State → State}

/-- What follows every query that can be asked to its outcome, as queries are seen. -/
abbrev seeing (resolver : Resolver) (see : State → State) : Follow :=
  followSeen resolver see (pathBound resolver)

/-- The outcome of a query for a value is that of the work for it. -/
theorem outcomeSeen_make (hq : q.Admissible resolver) {m : Making}
    (hm : (q.seen see).verdict resolver = .ok (.make m)) :
    q.outcomeSeen resolver see = (m.work.carryOut (seeing resolver see)
      (q.inner m.key q.nodeNumber) q.nodeNumber (q.begun resolver m)).map fun r =>
        if r.1 then (some q.nodeNumber, r.2.sharing m.shared q.nodeNumber)
        else (none, r.2.failing m.key (r.2.issues.drop q.state.issues.length)) := by
  rw [outcomeSeen_eq hq, hm]
  exact run_eq m _

/-- What is made of a value: a node, noted as shared, or a failure, noted if it lasts. -/
theorem outcomeSeen_make_cases (hq : q.Admissible resolver) {m : Making}
    (hm : (q.seen see).verdict resolver = .ok (.make m)) {a : Option NodeId} {s' : State}
    (h : q.outcomeSeen resolver see = .ok (a, s')) :
    ∃ s₁, (a = some q.nodeNumber ∧ s' = s₁.sharing m.shared q.nodeNumber ∧
        m.work.carryOut (seeing resolver see) (q.inner m.key q.nodeNumber)
          q.nodeNumber (q.begun resolver m) = .ok (true, s₁)) ∨
      (a = none ∧ s' = s₁.failing m.key (s₁.issues.drop q.state.issues.length) ∧
        m.work.carryOut (seeing resolver see) (q.inner m.key q.nodeNumber)
          q.nodeNumber (q.begun resolver m) = .ok (false, s₁)) := by
  rw [outcomeSeen_make hq hm] at h
  cases hc : m.work.carryOut (seeing resolver see) (q.inner m.key q.nodeNumber)
      q.nodeNumber (q.begun resolver m) with
  | error e =>
    rw [hc] at h
    cases h
  | ok r =>
    obtain ⟨b, s₁⟩ := r
    rw [hc] at h
    cases b with
    | true =>
      cases h
      exact ⟨s₁, .inl ⟨rfl, rfl, rfl⟩⟩
    | false =>
      cases h
      exact ⟨s₁, .inr ⟨rfl, rfl, rfl⟩⟩

end Seen

/-- The outcome of a query for a value is that of the work for it. -/
theorem outcome_make (hq : q.Admissible resolver) {m : Making}
    (hm : q.verdict resolver = .ok (.make m)) :
    q.outcome resolver = (m.work.carryOut (follow resolver (pathBound resolver))
      (q.inner m.key q.nodeNumber) q.nodeNumber (q.begun resolver m)).map fun r =>
        if r.1 then (some q.nodeNumber, r.2.sharing m.shared q.nodeNumber)
        else (none, r.2.failing m.key (r.2.issues.drop q.state.issues.length)) := by
  have hseen : (q.seen id).verdict resolver = .ok (.make m) := hm
  rw [outcome_eq_outcomeSeen, follow_eq]
  exact outcomeSeen_make hq hseen

/-- A value is made and gets a node, or its work fails and the failure is noted. -/
theorem outcome_make_cases (hq : q.Admissible resolver) {m : Making}
    (hm : q.verdict resolver = .ok (.make m)) {a : Option NodeId} {s' : State}
    (h : q.outcome resolver = .ok (a, s')) :
    ∃ s₁, (a = some q.nodeNumber ∧ s' = s₁.sharing m.shared q.nodeNumber ∧
        m.work.carryOut (follow resolver (pathBound resolver)) (q.inner m.key q.nodeNumber)
          q.nodeNumber (q.begun resolver m) = .ok (true, s₁)) ∨
      (a = none ∧ s' = s₁.failing m.key (s₁.issues.drop q.state.issues.length) ∧
        m.work.carryOut (follow resolver (pathBound resolver)) (q.inner m.key q.nodeNumber)
          q.nodeNumber (q.begun resolver m) = .ok (false, s₁)) := by
  have hseen : (q.seen id).verdict resolver = .ok (.make m) := hm
  rw [outcome_eq_outcomeSeen] at h
  rw [follow_eq]
  exact outcomeSeen_make_cases hq hseen h

/-- Reaching a query extends its state. -/
theorem extends_reached (resolver : Resolver) (q : Query) :
    q.state.Extends (q.reached resolver) := by
  obtain ⟨touched, heq⟩ := q.reached_eq resolver
  rw [heq]
  exact ⟨.refl _, Nat.le_refl _, List.suffix_refl _, State.becomes_refl _ _, List.prefix_refl _⟩

/-- Reaching a query keeps its state consistent. -/
theorem reached_consistent (h : q.state.Consistent resolver) :
    (q.reached resolver).Consistent resolver := by
  obtain ⟨touched, heq⟩ := q.reached_eq resolver
  rw [heq]
  exact ⟨h.graph, h.stacked, h.segments, h.known, h.shared, h.failures⟩

/-- The number for the node of a query is not in use. -/
theorem nodeNumber_not_mem (hq : q.Proper resolver) :
    q.nodeNumber ∉ q.state.graph.nodes.taken :=
  hq.consistent.graph.nodes.nextNumber_not_mem

/-- What the work for a value leaves, if queries leave what extends their states. -/
theorem carryOut_follows (hq : q.Proper resolver) {m : Making}
    (hm : q.Grounds resolver (.make m)) {follow : Follow}
    (hgrows : Grows resolver follow (q.inner m.key q.nodeNumber) m.work.jobs) {b : Bool}
    {s₁ : State} (h : m.work.carryOut follow (q.inner m.key q.nodeNumber) q.nodeNumber
      (q.begun resolver m) = .ok (b, s₁)) :
    (q.begun resolver m).Follows resolver q.nodeNumber s₁ :=
  carryOut_extends hgrows (begun_consistent hq hm) (begun_placed hq hm) h

/-- The outcome of a query extends its state and is consistent, however queries are seen. -/
theorem outcomeSeen_extends (see : State → State) (hq : q.Proper resolver) {a : Option NodeId}
    {s' : State} (h : q.outcomeSeen resolver see = .ok (a, s')) :
    q.state.Extends s' ∧ s'.Consistent resolver := by
  have hadmissible := hq.toAdmissible
  induction q, hadmissible using Admissible.inductSeen generalizing a s' with
  | step q hadmissible ih
  have hx := extends_reached resolver q
  have hc := reached_consistent hq.consistent
  rw [outcomeSeen_eq hadmissible] at h
  obtain ⟨v, hv, hsettle⟩ := bind_eq_ok.mp h
  cases v with
  | argument found =>
    obtain ⟨type, ⟨block, index⟩ | n⟩ := found
    · cases hsettle
      have hcontent : ∀ id t c, (argumentNode type block index).origin = .binding id t c →
          id < resolver.table.bindings.length := by simp [argumentNode]
      have hadded := hq.consistent.addNode hcontent
      exact ⟨⟨q.state.graph.extends_addNode _, Nat.le_refl _, List.suffix_refl _,
        State.becomes_bindArgument (nodeNumber_not_mem hq) _ _, List.prefix_refl _⟩,
        ⟨hadded.graph, hadded.stacked, hadded.segments, hadded.known, hadded.shared,
          hadded.failures⟩⟩
    · cases hsettle
      exact ⟨.refl _, hq.consistent⟩
  | unresolved =>
    cases hsettle
    exact ⟨q.state.extends_complained _, hq.consistent.complained _⟩
  | linked n =>
    cases hsettle
    exact ⟨hx, hc⟩
  | loop members path =>
    cases hsettle
    exact ⟨hx.trans (State.extends_looping _ _ _ _), hc.looping _ _ _⟩
  | recalled issues =>
    cases hsettle
    exact ⟨⟨hx.graph, hx.blocks, hx.shared, hx.arguments, List.prefix_append _ _⟩,
      hc.complained _⟩
  | make m =>
    have hm := (verdict_grounds hv).of_seen
    have hgrows : Grows resolver (seeing resolver see) (q.inner m.key q.nodeNumber) m.work.jobs :=
      fun l s hl hs hp a s' ha =>
        ih see _ ⟨m, l, _, s, hv, hl, rfl⟩ (hq.askedSeen see hv hl hs hp) ha
    rw [← outcomeSeen_eq hadmissible] at h
    obtain ⟨s₁, ⟨-, rfl, hwork⟩ | ⟨-, rfl, hwork⟩⟩ := outcomeSeen_make_cases hadmissible hv h
    · have hfollows := carryOut_follows hq hm hgrows hwork
      have hnode : s₁.graph.Has q.nodeNumber fun node => SharedKey.ofNode? node = m.shared :=
        hfollows.has (begun_consistent hq hm) (begun_has q m (ofNode?_content hm))
          fun index content hk => by rwa [SharedKey.ofNode?_chosen]
      exact ⟨(hfollows.extends (extends_begun q m) (nodeNumber_not_mem hq)).sharing _ _,
        hfollows.consistent.sharing hnode⟩
    · have hfollows := carryOut_follows hq hm hgrows hwork
      exact ⟨(hfollows.extends (extends_begun q m) (nodeNumber_not_mem hq)).failing _ _,
        hfollows.consistent.failing _ _⟩

/-- The outcome of a query extends its state and is consistent. -/
theorem outcome_extends (hq : q.Proper resolver) {a : Option NodeId} {s' : State}
    (h : q.outcome resolver = .ok (a, s')) : q.state.Extends s' ∧ s'.Consistent resolver :=
  outcomeSeen_extends id hq (q.outcome_eq_outcomeSeen ▸ h)

/-- A query that a visible argument answers asks for its very type, without tag and pin. -/
theorem visible?_eq_some {a : Argument} (h : q.visible? = some a) :
    q.request.pin = none ∧ q.request.contract.tag = none ∧ a.type = q.request.contract.type ∧
      a ∈ q.state.arguments := by
  unfold visible? at h
  split at h
  · next hfree =>
    obtain ⟨hpin, htag⟩ : q.request.pin = none ∧ q.request.contract.tag = none := by
      simpa using hfree
    exact ⟨hpin, htag, by simpa using List.find?_some h, List.mem_of_find?_eq_some h⟩
  · cases h

/-- A node that is under construction or shared is what a query accepts that is linked to it. -/
theorem accepts_of_linked (hq : q.Proper resolver) {n : NodeId}
    (h : q.verdict resolver = .ok (.linked n)) :
    q.state.graph.Has n (resolver.Accepts q.request) := by
  cases verdict_grounds h with
  | binding hres hpath hkey =>
    obtain ⟨node, hn, hmatches⟩ := hq.placed _ hpath
    rw [hkey] at hmatches
    obtain ⟨c, ho⟩ := hmatches
    exact ⟨node, hn, by simpa only [Resolver.Accepts, ho] using hres⟩
  | shared hres hkey hknown =>
    obtain ⟨rfl, rfl⟩ := SharedKey.of?_eq_some hkey
    obtain ⟨node, hn, hnode⟩ := hq.consistent.shared _ hknown
    obtain ⟨c, ho⟩ := SharedKey.exists_origin hnode
    exact ⟨node, hn, by simpa only [Resolver.Accepts, ho] using hres⟩
  | @shape _ deps _ _ hres hpath hkey =>
    obtain ⟨node, hn, hmatches⟩ := hq.placed _ hpath
    rw [hkey] at hmatches
    obtain ⟨hcontract, pin, _, _, _, hres', ho⟩ := hmatches
    obtain ⟨rfl, rfl⟩ := Resolver.synthesized_unique hres' hres rfl
    refine ⟨node, hn, ?_⟩
    simp only [Resolver.Accepts, ho]
    exact ⟨hcontract, deps, hres⟩

/-- A query can be asked as it is seen, where only remembered failures are left out. -/
theorem Proper.seen (hq : q.Proper resolver) {see : State → State} (hsee : Forgetful see) :
    (q.seen see).Proper resolver := by
  obtain ⟨failures, hsub, heq⟩ := hsee q.state
  have hc := hq.consistent
  refine ⟨hq.toAdmissible.seen see, ?_, ?_⟩
  · show (see q.state).Consistent resolver
    rw [heq]
    exact ⟨hc.graph, hc.stacked, hc.segments, hc.known, hc.shared,
      fun f hf => hc.failures f (hsub hf)⟩
  · show q.context.Placed resolver (see q.state).graph
    rw [heq]
    exact hq.placed

/-- The answer to a query is a node that the request accepts, unless its number was remembered for
an argument of a provider call. -/
theorem outcomeSeen_accepts {see : State → State} (hsee : Forgetful see) (hq : q.Proper resolver)
    {n : NodeId} {s' : State} (h : q.outcomeSeen resolver see = .ok (some n, s')) :
    (∃ type, q.visible? = some ⟨type, .node n⟩) ∨
      s'.graph.Has n (resolver.Accepts q.request) := by
  obtain ⟨failures, -, heq⟩ := hsee q.state
  have hvisible := hsee.visible? q
  have hgraph : (q.seen see).state.graph = q.state.graph := by simp only [Query.seen, heq]
  rw [outcomeSeen_eq hq.toAdmissible] at h
  obtain ⟨v, hv, hsettle⟩ := bind_eq_ok.mp h
  cases v with
  | argument found =>
    have hfound := hvisible ▸ verdict_eq_argument.mp hv
    obtain ⟨type, block | m⟩ := found
    · obtain ⟨hpin, htag, htype, -⟩ := visible?_eq_some hfound
      cases hsettle
      have hcontract : (⟨type, none⟩ : Contract) = q.request.contract := by
        rw [← htag, show type = _ from htype]
      exact .inr ⟨_, Graph.get?_addNode _ _, hpin, htag, hcontract⟩
    · cases hsettle
      exact .inl ⟨type, hfound⟩
  | linked m =>
    cases hsettle
    have haccepts := accepts_of_linked (hq.seen hsee) hv
    rw [hgraph] at haccepts
    exact .inr (haccepts.of_extends (extends_reached resolver q).graph
      hq.consistent.graph (reached_consistent hq.consistent).graph)
  | make m =>
    rw [← outcomeSeen_eq hq.toAdmissible] at h
    obtain ⟨s₁, ⟨hn, rfl, hwork⟩ | ⟨hn, -, -⟩⟩ := outcomeSeen_make_cases hq.toAdmissible hv h
    · cases hn
      have hm := (verdict_grounds hv).of_seen
      have hgrows : Grows resolver (seeing resolver see) (q.inner m.key q.nodeNumber)
          m.work.jobs := fun l s hl hs hp a s' ha =>
        outcomeSeen_extends see (hq.askedSeen see hv hl hs hp) ha
      have hnode := (carryOut_follows hq hm hgrows hwork).has (begun_consistent hq hm)
        (begun_has q m (content_of_make hm).2.1)
        fun index content hm => (accepts_chosen _ _ _).mpr hm
      refine .inr ?_
      rwa [State.graph_sharing]
    · cases hn
  | unresolved => cases hsettle
  | loop members path => cases hsettle
  | recalled issues => cases hsettle

/-- The answer to a query is a visible argument, or a node that the request accepts. -/
theorem outcome_accepts (hq : q.Proper resolver) {n : NodeId} {s' : State}
    (h : q.outcome resolver = .ok (some n, s')) :
    (∃ type, q.visible? = some ⟨type, .node n⟩) ∨
      s'.graph.Has n (resolver.Accepts q.request) :=
  outcomeSeen_accepts forgetful_id hq (q.outcome_eq_outcomeSeen ▸ h)

end Query

end Injector.Wiring

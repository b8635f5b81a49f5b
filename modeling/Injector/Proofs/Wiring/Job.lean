import Injector.Proofs.Computation
import Injector.Wiring.Basic

/-!
# What is done for a value under construction

However a value is made, the work is a list of jobs: issues that are recorded, and links, each of
which follows a query and connects the value to the answer. A factory and a synthesized value have
one such list; an implementation has one for each constructor, and a list that fails is taken back
before the next one is tried. The main statement is that making a value by its recipe is carrying
out this work.
-/

namespace Injector.Wiring

/-- A request with all that surrounds it. -/
structure Query where
  /-- What surrounds the request. -/
  context : Context
  /-- The request. -/
  request : Request
  /-- When the dependency is made. -/
  timing : Timing
  /-- Where the request is made. -/
  site : Site
  /-- What has been built when it is made. -/
  state : State

/-- The outcome of following a query. -/
def Follow.answer (follow : Follow) (q : Query) : Except Fault (Option NodeId × State) :=
  follow q.context q.request q.timing q.site q.state

/-- The edge that a wire becomes. -/
def Wire.edge (w : Wire) (consumer target : NodeId) : Edge :=
  ⟨consumer, target, w.timing, w.position, w.site, w.location⟩

/-- The state inside a provider call with arguments of some types. -/
def State.opened (s : State) (args : List TypeExpr) : State :=
  { s with
    graph := s.graph.addBlock
    nextSegment := s.nextSegment + 1
    arguments :=
      (args.zipIdx.map fun a => (⟨a.1, .argument s.graph.blocks a.2⟩ : Argument)).reverse ++
        s.arguments }

/-- The state after a provider call that was entered in state `outer`. -/
def State.closed (s outer : State) : State :=
  { s with arguments := s.arguments.drop (s.arguments.length - outer.arguments.length) }

/-- A dependency to be connected to. -/
structure Link where
  /-- The wire. -/
  wire : Wire
  /-- What diagnostics say of the place. -/
  site : Site
  /-- The types of the arguments of the provider call that makes the dependency, if one does. -/
  provides : Option (List TypeExpr)

/-- The query of a link that is made in a state. -/
def Link.query (l : Link) (context : Context) (s : State) : Query :=
  match l.provides with
  | none => ⟨context, l.wire.request, l.wire.timing, l.site, s⟩
  | some args =>
      ⟨{ context with segment := s.nextSegment, block := s.graph.blocks }, l.wire.request,
        l.wire.timing, l.site, s.opened args⟩

/-- The state after a link that was made in state `outer`. -/
def Link.leave (l : Link) (outer s : State) : State :=
  match l.provides with
  | none => s
  | some _ => s.closed outer

/-- One thing to do for a value. -/
inductive Job where
  /-- Records an issue, with which the value fails. -/
  | complain (issue : Issue)
  /-- Connects the value to a dependency. -/
  | link (l : Link)

/-- Carries out a job; tells whether it succeeds. -/
def perform (follow : Follow) (context : Context) (node : NodeId) : Job → Build Bool
  | .complain issue => do
      report issue
      return false
  | .link l => do
      match l.provides with
      | none => connect follow context node l.wire l.site
      | some args =>
          let s ← get
          set (s.opened args)
          let ok ← connect follow
            { context with segment := s.nextSegment, block := s.graph.blocks } node l.wire l.site
          modify fun after => after.closed s
          return ok

/-- Carries out every job, also after one fails; tells whether all succeed. -/
def performAll (follow : Follow) (context : Context) (node : NodeId) : List Job → Build Bool
  | [] => return true
  | job :: jobs => do
      let here ← perform follow context node job
      let rest ← performAll follow context node jobs
      return here && rest

/-- A node of a binding for which a constructor was chosen. -/
def chosen (index : Nat) (n : Node) : Node :=
  match n.origin with
  | .binding id s _ => { n with origin := .binding id s (some index) }
  | _ => n

/-- Carries out the jobs of each alternative in turn until one succeeds, taking back those that
fail; the number of the one that succeeds is noted at the node. -/
def tryAll (follow : Follow) (context : Context) (node : NodeId) :
    List (List Job × Nat) → (found : List Issue) → Build Bool
  | [], found => do
      modify fun st => { st with issues := st.issues ++ found }
      return false
  | (jobs, index) :: rest, found => do
      let m ← mark
      if ← performAll follow context node jobs then
        let st ← get
        set { st with graph := ← st.graph.modifyNode node (chosen index) }
        return true
      else
        let issues ← rollback m
        tryAll follow context node rest (unionIssues found issues)

/-- What is to be done for a value. -/
inductive Work where
  /-- The jobs of the one way to make it. -/
  | once (jobs : List Job)
  /-- The jobs of each constructor in the order of preference, with its number. -/
  | choice (alternatives : List (List Job × Nat))

/-- Carries out the work for a value; tells whether it succeeds. -/
def Work.carryOut (follow : Follow) (context : Context) (node : NodeId) : Work → Build Bool
  | .once jobs => performAll follow context node jobs
  | .choice alternatives => tryAll follow context node alternatives []

/-- The jobs for a list of wires. -/
def wireJobs (name : String) (wires : List Wire) : List Job :=
  wires.map fun w => .link ⟨w, ⟨name, w.location⟩, none⟩

/-- The jobs for the statements of a factory from a position on. -/
def stepJobs (r : Registration) (s : Substitution) (steps : List FactoryStep) :
    (position : Nat) → FactoryScope → List FactoryStep → List Job
  | _, _, [] => []
  | position, scope, .inject variableName declared tag location :: later =>
      let location := location.orElse r.location
      match injectedType? steps later variableName declared with
      | none =>
          .complain ⟨location, .typeCannotBeInferred variableName r.describe⟩ ::
            stepJobs r s steps (position + 1) scope later
      | some type =>
          let type := type.substitute s
          let next := { scope with injected := (variableName, type) :: scope.injected }
          if tag.isNone && decide (type ∈ scope.overrides) then
            stepJobs r s steps (position + 1) next later
          else
            .link ⟨⟨.free (.request type tag), .eager, position, variableName, location⟩,
              ⟨r.describe, location⟩, none⟩ :: stepJobs r s steps (position + 1) next later
  | position, scope, .override variableName declared location :: later =>
      match declared <|> scope.injected.lookup variableName with
      | some type =>
          let next := { scope with overrides := scope.overrides ++ [type.substitute s] }
          stepJobs r s steps (position + 1) next later
      | none =>
          .complain ⟨location.orElse r.location, .typeCannotBeInferred variableName r.describe⟩ ::
            stepJobs r s steps (position + 1) scope later

/-- The jobs for the dependencies of a synthesized value from a position on. -/
def partJobs (providerArgs : List TypeExpr) (site : Site) :
    (position : Nat) → List Dependency → List Job
  | _, [] => []
  | position, d :: rest =>
      .link ⟨⟨d.request, d.timing, position, "", .unknown⟩, site,
        match d.timing with
        | .eager => none
        | .deferred => some providerArgs⟩ :: partJobs providerArgs site (position + 1) rest

/-- The work for a value that is made by the recipe of a binding. -/
def workOf (r : Registration) (s : Substitution) : Work :=
  match r.recipe with
  | .construct _ _ [] => .once []
  | .construct _ _ (c :: cs) =>
      .choice ((preferenceOrder (c :: cs)).map fun p =>
        (wireJobs r.describe (wiresOf s r.location p.1), p.2))
  | .factory _ steps isAsync =>
      if isAsync then .once [.complain ⟨r.location, .asyncFactoryNotSupported r.describe⟩]
      else .once (stepJobs r s steps 0 ⟨[], []⟩ steps)
  | .argument _ _ => .once []

variable (follow : Follow) (context : Context) (node : NodeId)

theorem connectAll_eq (name : String) (wires : List Wire) :
    connectAll follow context node name wires =
      performAll follow context node (wireJobs name wires) := by
  induction wires with
  | nil => rfl
  | cons w ws ih =>
    rw [connectAll, ih]
    rfl

theorem connectParts_eq (providerArgs : List TypeExpr) (site : Site) (position : Nat)
    (parts : List Dependency) :
    connectParts follow context node providerArgs site position parts =
      performAll follow context node (partJobs providerArgs site position parts) := by
  induction parts generalizing position with
  | nil => rfl
  | cons d rest ih =>
    have hhere : connectPart follow context node providerArgs site d position =
        perform follow context node (.link ⟨⟨d.request, d.timing, position, "", .unknown⟩, site,
          match d.timing with
          | .eager => none
          | .deferred => some providerArgs⟩) := by
      unfold connectPart perform
      cases d.timing <;> rfl
    rw [connectParts, hhere, ih]
    rfl

theorem runSteps_eq (r : Registration) (s : Substitution) (steps : List FactoryStep)
    (position : Nat) (scope : FactoryScope) (later : List FactoryStep) :
    runSteps follow context node r s steps position scope later =
      performAll follow context node (stepJobs r s steps position scope later) := by
  induction later generalizing position scope with
  | nil => rfl
  | cons step later ih =>
    cases step with
    | inject variableName declared tag location =>
      rw [runSteps, stepJobs]
      cases injectedType? steps later variableName declared with
      | none =>
        simp only [ih]
        rfl
      | some type =>
        simp only
        split
        · exact ih _ _
        · simp only [ih]
          rfl
    | override variableName declared location =>
      rw [runSteps, stepJobs]
      cases declared <|> scope.injected.lookup variableName with
      | none =>
        simp only [ih]
        rfl
      | some type => exact ih _ _

theorem tryConstructors_eq (r : Registration) (s : Substitution)
    (candidates : List (Constructor × Nat)) (found : List Issue) :
    tryConstructors follow context node r s candidates found =
      tryAll follow context node (candidates.map fun p =>
        (wireJobs r.describe (wiresOf s r.location p.1), p.2)) found := by
  induction candidates generalizing found with
  | nil => rfl
  | cons p rest ih =>
    obtain ⟨c, index⟩ := p
    simp only [tryConstructors, List.map_cons, tryAll, connectAll_eq, ih]
    rfl

/-- A value is made by carrying out the work of its recipe. -/
theorem realize_eq (r : Registration) (s : Substitution) :
    realize follow context node r s = (workOf r s).carryOut follow context node := by
  unfold realize workOf
  cases r.recipe with
  | construct implementation implements constructors =>
    cases constructors with
    | nil => rfl
    | cons c cs =>
      simp only [construct, List.isEmpty_cons, Bool.false_eq_true, ↓reduceIte,
        tryConstructors_eq]
      rfl
  | factory expression steps isAsync =>
    cases isAsync with
    | true => rfl
    | false =>
      simp only [runFactory, Bool.false_eq_true, ↓reduceIte, runSteps_eq]
      rfl
  | argument name source => rfl

/-- What a state can be taken back to. -/
def State.mark (s : State) : Mark := ⟨s.graph.checkpoint, s.issues.length, s.shared.length⟩

theorem perform_complain (issue : Issue) (s : State) :
    perform follow context node (.complain issue) s =
      .ok (false, { s with issues := s.issues ++ [issue] }) := rfl

variable {follow context node}

/-- Connecting follows the request and adds an edge to the answer. -/
theorem connect_eq (follow : Follow) (context : Context) (node : NodeId) (w : Wire) (site : Site)
    (s : State) :
    connect follow context node w site s =
      (follow context w.request w.timing site s).bind fun r =>
        match r.1 with
        | none => .ok (false, r.2)
        | some n => (r.2.graph.addEdge (w.edge node n)).map fun g =>
            (true, { r.2 with graph := g }) := by
  simp only [connect, bind_apply]
  cases follow context w.request w.timing site s with
  | error e => rfl
  | ok r =>
    obtain ⟨answer, s₁⟩ := r
    cases answer with
    | none => rfl
    | some n =>
      simp only [ok_bind, addEdge, bind_apply, get_apply, lift_apply, Wire.edge]
      cases s₁.graph.addEdge ⟨node, n, w.timing, w.position, w.site, w.location⟩ <;> rfl

/-- A link is made in the context and the state of its query. -/
theorem perform_link (follow : Follow) (context : Context) (node : NodeId) (l : Link)
    (s : State) :
    perform follow context node (.link l) s =
      (connect follow (l.query context s).context node l.wire l.site
        (l.query context s).state).map fun r => (r.1, l.leave s r.2) := by
  obtain ⟨wire, site, provides⟩ := l
  cases provides with
  | none =>
    simp only [perform, Link.query, Link.leave]
    cases connect follow context node wire site s <;> rfl
  | some args =>
    simp only [perform, Link.query, Link.leave, bind_apply, get_apply, set_apply, ok_bind]
    cases connect follow { context with segment := s.nextSegment, block := s.graph.blocks } node
      wire site (s.opened args) <;> rfl

/-- What a link comes to: a fault of the query or of the edge, no answer, or an edge. -/
theorem perform_link_cases (follow : Follow) (context : Context) (node : NodeId) (l : Link)
    (s : State) :
    (∃ e, follow.answer (l.query context s) = .error e ∧
      perform follow context node (.link l) s = .error e) ∨
    (∃ s₁, follow.answer (l.query context s) = .ok (none, s₁) ∧
      perform follow context node (.link l) s = .ok (false, l.leave s s₁)) ∨
    (∃ n s₁, follow.answer (l.query context s) = .ok (some n, s₁) ∧
      ((∃ e, s₁.graph.addEdge (l.wire.edge node n) = .error e ∧
        perform follow context node (.link l) s = .error e) ∨
      ∃ g, s₁.graph.addEdge (l.wire.edge node n) = .ok g ∧
        perform follow context node (.link l) s =
          .ok (true, l.leave s { s₁ with graph := g }))) := by
  have hq : follow.answer (l.query context s) =
      follow (l.query context s).context l.wire.request l.wire.timing l.site
        (l.query context s).state := by
    unfold Follow.answer Link.query
    cases l.provides <;> rfl
  rw [perform_link, connect_eq, ← hq]
  cases follow.answer (l.query context s) with
  | error e => exact .inl ⟨e, rfl, rfl⟩
  | ok r =>
    obtain ⟨answer, s₁⟩ := r
    cases answer with
    | none => exact .inr (.inl ⟨s₁, rfl, rfl⟩)
    | some n =>
      refine .inr (.inr ⟨n, s₁, rfl, ?_⟩)
      cases hg : s₁.graph.addEdge (l.wire.edge node n) with
      | error e => exact .inl ⟨e, rfl, by simp [hg, Except.map]⟩
      | ok g => exact .inr ⟨g, rfl, by simp [hg, Except.map]⟩

/-- What a list of jobs comes to: a fault of the first or of the others, or both outcomes. -/
theorem performAll_cons_cases (follow : Follow) (context : Context) (node : NodeId) (job : Job)
    (jobs : List Job) (s : State) :
    (∃ e, perform follow context node job s = .error e ∧
      performAll follow context node (job :: jobs) s = .error e) ∨
    ∃ b s₁, perform follow context node job s = .ok (b, s₁) ∧
      ((∃ e, performAll follow context node jobs s₁ = .error e ∧
        performAll follow context node (job :: jobs) s = .error e) ∨
      ∃ b' s', performAll follow context node jobs s₁ = .ok (b', s') ∧
        performAll follow context node (job :: jobs) s = .ok (b && b', s')) := by
  simp only [performAll, bind_apply]
  cases perform follow context node job s with
  | error e => exact .inl ⟨e, rfl, rfl⟩
  | ok r =>
    obtain ⟨b, s₁⟩ := r
    refine .inr ⟨b, s₁, rfl, ?_⟩
    simp only [ok_bind]
    cases performAll follow context node jobs s₁ with
    | error e => exact .inl ⟨e, rfl, rfl⟩
    | ok r => exact .inr ⟨r.1, r.2, rfl, rfl⟩

/-- What a choice comes to: a fault, an alternative that succeeds, or one that is taken back. -/
theorem tryAll_cons_cases (follow : Follow) (context : Context) (node : NodeId)
    (jobs : List Job) (index : Nat) (rest : List (List Job × Nat)) (found : List Issue)
    (s : State) :
    (∃ e, performAll follow context node jobs s = .error e ∧
      tryAll follow context node ((jobs, index) :: rest) found s = .error e) ∨
    (∃ s₁, performAll follow context node jobs s = .ok (true, s₁) ∧
      tryAll follow context node ((jobs, index) :: rest) found s =
        (s₁.graph.modifyNode node (chosen index)).map fun g => (true, { s₁ with graph := g })) ∨
    (∃ s₁, performAll follow context node jobs s = .ok (false, s₁) ∧
      tryAll follow context node ((jobs, index) :: rest) found s =
        (rollback s.mark s₁).bind fun r =>
          tryAll follow context node rest (unionIssues found r.1) r.2) := by
  have hmark : mark s = .ok (s.mark, s) := rfl
  simp only [tryAll, bind_apply, hmark, ok_bind]
  cases performAll follow context node jobs s with
  | error e => exact .inl ⟨e, rfl, rfl⟩
  | ok r =>
    obtain ⟨b, s₁⟩ := r
    cases b with
    | true =>
      refine .inr (.inl ⟨s₁, rfl, ?_⟩)
      simp only [ok_bind, ↓reduceIte, bind_apply, get_apply, lift_apply]
      cases s₁.graph.modifyNode node (chosen index) <;> rfl
    | false =>
      refine .inr (.inr ⟨s₁, rfl, ?_⟩)
      simp only [ok_bind, Bool.false_eq_true, ↓reduceIte, bind_apply]

section Results

variable {b : Bool} {s s' : State}

/-- A link that is carried out has no answer, or its node is connected to the answer. -/
theorem perform_link_eq_ok {l : Link} (h : perform follow context node (.link l) s = .ok (b, s')) :
    (∃ s₁, follow.answer (l.query context s) = .ok (none, s₁) ∧ b = false ∧ s' = l.leave s s₁) ∨
    ∃ n s₁ g, follow.answer (l.query context s) = .ok (some n, s₁) ∧
      s₁.graph.addEdge (l.wire.edge node n) = .ok g ∧ b = true ∧
      s' = l.leave s { s₁ with graph := g } := by
  rcases perform_link_cases follow context node l s with
    ⟨e, -, he⟩ | ⟨s₁, ha, hok⟩ | ⟨n, s₁, ha, ⟨e, -, he⟩ | ⟨g, hg, hok⟩⟩
  · cases h.symm.trans he
  · cases h.symm.trans hok
    exact .inl ⟨s₁, ha, rfl, rfl⟩
  · cases h.symm.trans he
  · cases h.symm.trans hok
    exact .inr ⟨n, s₁, g, ha, hg, rfl, rfl⟩

/-- Of a list of jobs that is carried out, the first is, and then the others. -/
theorem performAll_cons_eq_ok {job : Job} {jobs : List Job}
    (h : performAll follow context node (job :: jobs) s = .ok (b, s')) :
    ∃ b₁ s₁ b₂, perform follow context node job s = .ok (b₁, s₁) ∧
      performAll follow context node jobs s₁ = .ok (b₂, s') ∧ b = (b₁ && b₂) := by
  rcases performAll_cons_cases follow context node job jobs s with
    ⟨e, -, he⟩ | ⟨b₁, s₁, hhere, ⟨e, -, he⟩ | ⟨b₂, s₂, hrest, hok⟩⟩
  · cases h.symm.trans he
  · cases h.symm.trans he
  · cases h.symm.trans hok
    exact ⟨b₁, s₁, b₂, hhere, hrest, rfl⟩

/-- The first alternative of a choice is noted, or taken back before the others are tried. -/
theorem tryAll_cons_eq_ok {jobs : List Job} {index : Nat} {rest : List (List Job × Nat)}
    {found : List Issue}
    (h : tryAll follow context node ((jobs, index) :: rest) found s = .ok (b, s')) :
    (∃ s₁ g, performAll follow context node jobs s = .ok (true, s₁) ∧
      s₁.graph.modifyNode node (chosen index) = .ok g ∧ b = true ∧
      s' = { s₁ with graph := g }) ∨
    ∃ s₁ r, performAll follow context node jobs s = .ok (false, s₁) ∧
      rollback s.mark s₁ = .ok r ∧
      tryAll follow context node rest (unionIssues found r.1) r.2 = .ok (b, s') := by
  rcases tryAll_cons_cases follow context node jobs index rest found s with
    ⟨e, -, he⟩ | ⟨s₁, hall, hok⟩ | ⟨s₁, hall, hok⟩
  · cases h.symm.trans he
  · rw [hok] at h
    cases hg : s₁.graph.modifyNode node (chosen index) with
    | error e =>
      rw [hg] at h
      cases h
    | ok g =>
      rw [hg] at h
      cases h
      exact .inl ⟨s₁, g, hall, hg, rfl, rfl⟩
  · obtain ⟨r, hback, hrest⟩ := bind_eq_ok.mp (hok.symm.trans h)
    exact .inr ⟨s₁, r, hall, hback, hrest⟩

end Results

end Injector.Wiring

import Injector.Proofs.Wiring.Root

/-!
# Bindings that are reached

A node is made for a binding after a request reached the binding, and what was reached stays so when
an attempt is taken back. The main statement is that every node that is made for a binding, whether
its root is resolved or not, is made for one that was reached.
-/

namespace Injector.Wiring

/-- Whether the bindings that nodes are made for were reached. -/
def State.Covered (s : State) : Prop :=
  ∀ e ∈ s.graph.nodes.entries, ∀ id t k, e.2.origin = .binding id t k → id ∈ s.touched

/-- Whether what was reached in a state stays so in another, where nodes are made for no other
bindings if they were not before. -/
structure State.Tracks (s s' : State) : Prop where
  /-- What was reached stays so. -/
  touched : s.touched ⊆ s'.touched
  /-- Nodes are made for what was reached. -/
  covered : s.Covered → s'.Covered

namespace State

theorem Tracks.refl (s : State) : s.Tracks s := ⟨List.Subset.refl _, id⟩

theorem Tracks.trans {s s' s'' : State} (h : s.Tracks s') (h' : s'.Tracks s'') : s.Tracks s'' :=
  ⟨List.Subset.trans h.touched h'.touched, fun hs => h'.covered (h.covered hs)⟩

/-- Nothing but the nodes and what was reached counts. -/
theorem Tracks.of_eq {s s' : State} (hnodes : s'.graph.nodes.entries = s.graph.nodes.entries)
    (htouched : s'.touched = s.touched) : s.Tracks s' := by
  refine ⟨fun id hid => htouched ▸ hid, fun hs e he id t k ho => ?_⟩
  rw [htouched]
  exact hs e (hnodes ▸ he) id t k ho

/-- A node is made for what was reached, or for no binding. -/
theorem Tracks.addNode (s : State) {content : Node}
    (hcontent : ∀ id t k, content.origin = .binding id t k → id ∈ s.touched) :
    s.Tracks { s with graph := s.graph.addNode content } := by
  refine ⟨List.Subset.refl _, fun hs e he id t k ho => ?_⟩
  simp only [Graph.addNode, Pool.entries_add] at he
  rcases List.mem_cons.mp he with rfl | he
  · exact hcontent id t k ho
  · exact hs e he id t k ho

/-- The constructor that is noted at a node leaves the binding of the node as it is. -/
theorem Tracks.modifyNode {s : State} {node : NodeId} {index : Nat} {g : Graph}
    (hg : s.graph.modifyNode node (chosen index) = .ok g) : s.Tracks { s with graph := g } := by
  refine ⟨List.Subset.refl _, fun hs e he id t k ho => ?_⟩
  rw [Graph.modifyNode_eq_ok hg] at he
  obtain ⟨e₀, he₀, rfl⟩ := List.mem_map.mp he
  split at ho
  · obtain ⟨k', ho'⟩ := origin_of_chosen ho
    exact hs e₀ he₀ id t k' ho'
  · exact hs e₀ he₀ id t k ho

end State

variable {resolver : Resolver}

/-- Whether the queries for the links of some jobs extend their states and keep what was reached. -/
structure Covers (resolver : Resolver) (context : Context) (jobs : List Job) : Prop where
  /-- Queries grow their states. -/
  grows : Grows resolver (following resolver) context jobs
  /-- Queries keep what was reached. -/
  tracks : ∀ l s, .link l ∈ jobs → s.Consistent resolver → context.Placed resolver s.graph →
    ∀ a s', (l.query context s).outcome resolver = .ok (a, s') →
      (l.query context s).state.Tracks s'

theorem Covers.mono {context : Context} {jobs jobs' : List Job} (h : Covers resolver context jobs)
    (hsub : ∀ job ∈ jobs', job ∈ jobs) : Covers resolver context jobs' :=
  ⟨h.grows.mono fun _ hl => hsub _ hl, fun l s hl => h.tracks l s (hsub _ hl)⟩

section Work

variable {context : Context} {node : NodeId}

theorem perform_tracks {job : Job} (hcovers : Covers resolver context [job]) {s s' : State}
    {b : Bool} (hs : s.Consistent resolver) (hp : context.Placed resolver s.graph)
    (h : perform (following resolver) context node job s = .ok (b, s')) : s.Tracks s' := by
  cases job with
  | complain issue =>
    rw [perform_complain] at h
    cases h
    exact .of_eq rfl rfl
  | link l =>
    have htracks := hcovers.tracks l s (List.mem_singleton_self _) hs hp
    have henter : s.Tracks (l.query context s).state := by
      obtain ⟨wire, site, provides⟩ := l
      cases provides <;> exact .of_eq rfl rfl
    have hleave : ∀ s₁ : State, s₁.Tracks (l.leave s s₁) := by
      intro s₁
      obtain ⟨wire, site, provides⟩ := l
      cases provides <;> exact .of_eq rfl rfl
    rcases perform_link_eq_ok h with ⟨s₁, ha, rfl, rfl⟩ | ⟨n, s₁, g, ha, hg, rfl, rfl⟩
    · exact (henter.trans (htracks none s₁ ha)).trans (hleave s₁)
    · have hedge : s₁.Tracks { s₁ with graph := g } := by
        obtain ⟨-, -, rfl⟩ := Graph.addEdge_eq_ok hg
        exact .of_eq rfl rfl
      exact ((henter.trans (htracks (some n) s₁ ha)).trans hedge).trans (hleave _)

theorem performAll_tracks {jobs : List Job} (hcovers : Covers resolver context jobs)
    {s s' : State} {b : Bool} (hs : s.Consistent resolver) (hp : context.Placed resolver s.graph)
    (h : performAll (following resolver) context node jobs s = .ok (b, s')) : s.Tracks s' := by
  induction jobs generalizing s s' b with
  | nil =>
    cases h
    exact .refl s
  | cons job jobs ih =>
    have hhere := hcovers.mono (List.forall_mem_singleton.mpr List.mem_cons_self)
    have hothers := hcovers.mono fun _ hj => List.mem_cons_of_mem job hj
    obtain ⟨b₁, s₁, b₂, hperform, hrest, rfl⟩ := performAll_cons_eq_ok h
    obtain ⟨hx, hs₁⟩ := perform_extends hhere.grows hs hp hperform
    exact (perform_tracks hhere hs hp hperform).trans
      (ih hothers hs₁ (hp.of_extends hx.graph hs.graph hs₁.graph) hrest)

/-- An attempt that is taken back leaves no node, and what it reached stays reached. -/
theorem tryAll_tracks {alternatives : List (List Job × Nat)} {found : List Issue}
    (hcovers : Covers resolver context (alternatives.flatMap Prod.fst)) {s s' : State} {b : Bool}
    (hs : s.Consistent resolver) (hp : context.Placed resolver s.graph)
    (h : tryAll (following resolver) context node alternatives found s = .ok (b, s')) :
    s.Tracks s' := by
  induction alternatives generalizing s s' b found with
  | nil =>
    cases h
    exact .of_eq rfl rfl
  | cons first rest ih =>
    obtain ⟨jobs, index⟩ := first
    rw [List.flatMap_cons] at hcovers
    have hjobs := hcovers.mono fun _ hj => List.mem_append_left _ hj
    have hrest := hcovers.mono fun _ hj => List.mem_append_right _ hj
    rcases tryAll_cons_eq_ok h with ⟨s₁, g, hall, hg, rfl, rfl⟩ | ⟨s₁, r, hall, hback, hothers⟩
    · exact (performAll_tracks hjobs hs hp hall).trans (.modifyNode hg)
    · obtain ⟨hx, hs₁⟩ := performAll_extends hjobs.grows hs hp hall
      obtain ⟨g, hok, hx₂, hs₂, hnodes, -⟩ := hx.rollback hs hs₁
      cases hback.symm.trans hok
      have htouched := (performAll_tracks hjobs hs hp hall).touched
      have hrestored : s.Tracks (s₁.restored s g) := by
        refine ⟨htouched, fun hcovered e he id t k ho => htouched ?_⟩
        exact hcovered e (hnodes ▸ he) id t k ho
      exact hrestored.trans
        (ih hrest hs₂ (hp.of_extends hx₂.graph hs.graph hs₂.graph) hothers)

theorem carryOut_tracks {work : Work} (hcovers : Covers resolver context work.jobs)
    {s s' : State} {b : Bool} (hs : s.Consistent resolver) (hp : context.Placed resolver s.graph)
    (h : work.carryOut (following resolver) context node s = .ok (b, s')) : s.Tracks s' := by
  cases work with
  | once jobs => exact performAll_tracks hcovers hs hp h
  | choice alternatives => exact tryAll_tracks hcovers hs hp h

end Work

namespace Query

variable {q : Query}

/-- A request for a binding reaches it. -/
theorem mem_touched_of_resolve {id : BindingId} {t : Substitution}
    (h : resolver.resolve q.request = .binding id t) : id ∈ (q.reached resolver).touched := by
  rw [reached, h]
  exact mem_insertDistinct.mpr (.inl rfl)

theorem tracks_reached (resolver : Resolver) (q : Query) : q.state.Tracks (q.reached resolver) := by
  have hgraph : (q.reached resolver).graph = q.state.graph := by
    obtain ⟨touched, heq⟩ := q.reached_eq resolver
    rw [heq]
  have htouched : q.state.touched ⊆ (q.reached resolver).touched := by
    intro id hid
    unfold reached
    split
    · exact mem_insertDistinct.mpr (.inr hid)
    · exact hid
  refine ⟨htouched, fun hs e he id t k ho => htouched ?_⟩
  exact hs e (hgraph ▸ he) id t k ho

/-- The node of a value is made for the binding that was reached. -/
theorem tracks_begun {m : Making} (hm : q.Grounds resolver (.make m)) :
    q.state.Tracks (q.begun resolver m) := by
  have hgraph : (q.reached resolver).graph = q.state.graph := by
    obtain ⟨touched, heq⟩ := q.reached_eq resolver
    rw [heq]
  have hadded : (q.reached resolver).Tracks
      { q.reached resolver with graph := (q.reached resolver).graph.addNode m.content } := by
    refine .addNode _ fun id t k ho => ?_
    cases hm with
    | makeBinding hres =>
      cases ho
      exact mem_touched_of_resolve hres
    | makeShape => cases ho
  rw [hgraph] at hadded
  exact (q.tracks_reached resolver).trans hadded

/-- Following a query keeps what was reached, and makes nodes for what was reached alone. -/
theorem outcome_tracks (hq : q.Proper resolver) {a : Option NodeId} {s' : State}
    (h : q.outcome resolver = .ok (a, s')) : q.state.Tracks s' := by
  have hadmissible := hq.toAdmissible
  induction q, hadmissible using Admissible.induct generalizing a s' with | step q hadmissible ih
  have hreached := q.tracks_reached resolver
  obtain ⟨v, hv, hsettle⟩ := outcome_eq_ok hadmissible h
  cases v with
  | argument found =>
    obtain ⟨type, ⟨block, index⟩ | n⟩ := found
    · cases hsettle
      have hadded : q.state.Tracks
          { q.state with graph := q.state.graph.addNode (argumentNode type block index) } :=
        .addNode _ fun id t k ho => nomatch ho
      exact ⟨hadded.touched, hadded.covered⟩
    · cases hsettle
      exact .refl _
  | unresolved =>
    cases hsettle
    exact .of_eq rfl rfl
  | linked n =>
    cases hsettle
    exact hreached
  | loop members path =>
    cases hsettle
    exact hreached.trans (.of_eq rfl rfl)
  | recalled issues =>
    cases hsettle
    exact hreached.trans (.of_eq rfl rfl)
  | make m =>
    have hm := verdict_grounds hv
    have hcovers : Covers resolver (q.inner m.key q.nodeNumber) m.work.jobs :=
      ⟨hq.grows hv, fun l s hl hs hp a s' ha =>
        ih _ ⟨m, l, _, s, hv, hl, rfl⟩ (hq.asked hv hl hs hp) ha⟩
    have hwork : ∀ {b : Bool} {s₁ : State}, m.work.carryOut (following resolver)
        (q.inner m.key q.nodeNumber) q.nodeNumber (q.begun resolver m) = .ok (b, s₁) →
        q.state.Tracks s₁ := fun hcarried =>
      (tracks_begun hm).trans
        (carryOut_tracks hcovers (begun_consistent hq hm) (begun_placed hq hm) hcarried)
    obtain ⟨s₁, ⟨-, rfl, hcarried⟩ | ⟨-, rfl, hcarried⟩⟩ := outcome_make_cases hadmissible hv h
    · have hsharing : s₁.Tracks (s₁.sharing m.shared q.nodeNumber) := by
        cases m.shared <;> exact .of_eq rfl rfl
      exact (hwork hcarried).trans hsharing
    · have hfailing : s₁.Tracks
          (s₁.failing m.key (s₁.issues.drop q.state.issues.length)) := by
        unfold State.failing
        split
        · split
          · exact .of_eq rfl rfl
          · exact .refl _
        · exact .refl _
      exact (hwork hcarried).trans hfailing

end Query

/-- Every node that is made for a binding is made for one that was reached. -/
theorem mem_touched_of_node {root : Table.Root} {cycles : CycleLog} {b : RootBuild}
    (h : buildRoot resolver root cycles = .ok b) {n : NodeId} {node : Node}
    (hn : b.graph.nodes.get? n = some node) {id : BindingId} {t : Substitution} {k : Option Nat}
    (ho : node.origin = .binding id t k) : id ∈ b.touched := by
  obtain ⟨hconsistent, -⟩ := buildRoot_consistent h
  obtain ⟨a, s, hout, rfl⟩ := buildRoot_eq_ok h
  have hnodes : (s.rooted a).nodes = s.graph.nodes := by
    cases a <;> rfl
  have hcovered : s.Covered :=
    (Query.outcome_tracks (Query.ofRoot_proper resolver root cycles) hout).covered
      fun e he => nomatch he
  exact hcovered (n, node) (hnodes ▸ hconsistent.nodes.get?_eq_some_iff.mp hn) id t k ho

end Injector.Wiring

import Injector.Proofs.Wiring.Chain
import Injector.Proofs.Wiring.Requests

/-!
# What is kept of the way

A value that is made keeps what its last attempt asked for: each call of that attempt has an answer,
and the value is connected to it. What a query retains are the queries of its last attempt, what
these retain, and so on. The main statements are that what a query retains finds what was there when
the query was asked, and that a query for which a value is made is answered by the value, after a
chain of the calls that are made last.
-/

namespace Injector.Wiring

variable {resolver : Resolver}

/-- Whether a value is complete with a node and links: those of the one way to make it, or those of
an alternative, the number of which is noted at the node. No issue was recorded. -/
inductive Making.Completed (m : Making) (node : Node) : List Link → Prop
  /-- There is one way to make it. -/
  | once {jobs : List Job} (work : m.work = .once jobs) (content : node = m.content)
      (quiet : ∀ issue, .complain issue ∉ jobs) : Completed m node (jobs.filterMap Job.link?)
  /-- It is made by an alternative. -/
  | choice {alternatives : List (List Job × Nat)} {jobs : List Job} {index : Nat}
      (work : m.work = .choice alternatives) (candidate : (jobs, index) ∈ alternatives)
      (content : node = chosen index m.content) (quiet : ∀ issue, .complain issue ∉ jobs) :
      Completed m node (jobs.filterMap Job.link?)

namespace Query

variable {q d : Query}

/-- The calls of the attempt that is made last for the value that a query asks for. -/
def lastCalls (resolver : Resolver) (q : Query) : List Call :=
  ((q.attempts resolver).getLast?.map (q.callsOf resolver)).getD []

/-- Whether `d` is asked by the attempt that is made last for the value that `q` asks for. -/
def Keeps (resolver : Resolver) (q d : Query) : Prop := ∃ c ∈ q.lastCalls resolver, c.query = d

/-- Whether `d` is `q` or asked on the way from it by attempts that are made last. -/
def Retains (resolver : Resolver) : Query → Query → Prop := Relation.ReflTransGen (Keeps resolver)

/-- Whether a query asks for a value that is to be made. -/
def Makes (resolver : Resolver) (q : Query) : Prop := ∃ m, q.verdict resolver = .ok (.make m)

/-- Whether a query retains a call that has an answer, asked for the value of `d`. -/
def Connects (resolver : Resolver) (q d : Query) (c : Call) (n : NodeId) : Prop :=
  q.Retains resolver d ∧ c ∈ d.lastCalls resolver ∧
    ∃ s, c.query.outcome resolver = .ok (some n, s)

theorem mem_lastCalls {c : Call} : c ∈ q.lastCalls resolver ↔
    ∃ a, (q.attempts resolver).getLast? = some a ∧ c ∈ q.callsOf resolver a := by
  unfold lastCalls
  cases (q.attempts resolver).getLast? <;> simp

/-- A call that is made last is made for a link, after the node of the value is added. -/
theorem Proper.exists_lastLink (hq : q.Proper resolver) {c : Call}
    (hc : c ∈ q.lastCalls resolver) :
    ∃ m s, q.verdict resolver = .ok (.make m) ∧ .link c.link ∈ m.work.jobs ∧
      c.query = c.link.query (q.inner m.key q.nodeNumber) s ∧ (q.begun resolver m).Extends s ∧
      s.Consistent resolver := by
  obtain ⟨a, hlast, hcall⟩ := mem_lastCalls.mp hc
  obtain ⟨m, s, hm, -, hl, heq, hx, hs⟩ := hq.exists_link (List.mem_of_getLast? hlast) hcall
  exact ⟨m, s, hm, hl, heq, hx, hs⟩

/-- A call that is made last is made at the time of its link. -/
theorem Proper.timing_of_mem_lastCalls (hq : q.Proper resolver) {c : Call}
    (hc : c ∈ q.lastCalls resolver) : c.query.timing = c.link.wire.timing := by
  obtain ⟨m, s, -, -, heq, -⟩ := hq.exists_lastLink hc
  rw [heq, Link.query_timing]

/-- What a call that is made last finds. -/
theorem Proper.of_mem_lastCalls (hq : q.Proper resolver) {c : Call}
    (hc : c ∈ q.lastCalls resolver) :
    q.Makes resolver ∧ c.query.Proper resolver ∧ c.query.Below resolver q ∧
      q.nodeNumber ∈ c.query.state.graph.nodes.taken ∧ q.state.Precedes c.query.state := by
  obtain ⟨a, hlast, hcall⟩ := mem_lastCalls.mp hc
  have ha := List.mem_of_getLast? hlast
  obtain ⟨hproper, hbelow⟩ := hq.of_asks ⟨a, ha, c, hcall, rfl⟩
  obtain ⟨m, s, hm, -, heq, hx, -⟩ := hq.exists_lastLink hc
  have hprecedes : s.Precedes c.query.state := by
    rw [heq]
    exact c.link.precedes_query _ s
  refine ⟨⟨m, hm⟩, hproper, hbelow, ?_, (extends_begun q m).precedes.trans
    (hx.precedes.trans hprecedes)⟩
  exact (hx.graph.trans hprecedes.graph).mem_taken (Graph.mem_taken_addNode _ _)

/-- What is there when a query is asked is there when what it retains is asked. -/
theorem Proper.of_retains (hq : q.Proper resolver) (h : q.Retains resolver d) :
    d.Proper resolver ∧ q.state.Precedes d.state := by
  induction h with
  | refl => exact ⟨hq, .refl _⟩
  | tail _ hkeeps ih =>
    obtain ⟨c, hc, rfl⟩ := hkeeps
    obtain ⟨hproper, hx⟩ := ih
    obtain ⟨-, hproper', -, -, hx'⟩ := hproper.of_mem_lastCalls hc
    exact ⟨hproper', hx.trans hx'⟩

/-- A call that is made last is asked for below the value of its query. -/
theorem Proper.path_of_mem_lastCalls (hq : q.Proper resolver) {m : Making}
    (hm : q.verdict resolver = .ok (.make m)) {c : Call} (hc : c ∈ q.lastCalls resolver) :
    c.query.context.path =
      q.context.path ++ [⟨m.key, q.nodeNumber, q.context.segment, q.request.contract⟩] := by
  obtain ⟨m', s, hm', -, heq, -⟩ := hq.exists_lastLink hc
  cases hm.symm.trans hm'
  rw [heq, Link.query_path]
  rfl

/-- What is under construction when a call is made last was so before, or it is the value for which
the call is made. -/
theorem Proper.frame_cases (hq : q.Proper resolver) {c : Call} (hc : c ∈ q.lastCalls resolver)
    {f : Frame} (hf : f ∈ c.query.context.path) : f ∈ q.context.path ∨
      ∃ m, q.verdict resolver = .ok (.make m) ∧
        f = ⟨m.key, q.nodeNumber, q.context.segment, q.request.contract⟩ := by
  obtain ⟨m, hm⟩ := (hq.of_mem_lastCalls hc).1
  rw [hq.path_of_mem_lastCalls hm hc] at hf
  exact (List.mem_append.mp hf).imp_right fun hf => ⟨m, hm, List.mem_singleton.mp hf⟩

/-- What is under construction when a query is asked that is retained is made for one that is. -/
theorem Proper.exists_retained_of_frame (hq : q.Proper resolver) (h : q.Retains resolver d)
    {f : Frame} (hf : f ∈ d.context.path) : f ∈ q.context.path ∨
      ∃ p m, q.Retains resolver p ∧ p.verdict resolver = .ok (.make m) ∧
        f = ⟨m.key, p.nodeNumber, p.context.segment, p.request.contract⟩ := by
  induction h with
  | refl => exact .inl hf
  | @tail d _ hd hkeeps ih =>
    obtain ⟨c, hc, rfl⟩ := hkeeps
    rcases (hq.of_retains hd).1.frame_cases hc hf with hf | ⟨m, hm, heq⟩
    · exact ih hf
    · exact .inr ⟨d, m, hd, hm, heq⟩

/-- What is under construction when a query is asked is so when what it retains is asked. -/
theorem Proper.path_subset (hq : q.Proper resolver) (h : q.Retains resolver d) :
    q.context.path ⊆ d.context.path := by
  induction h with
  | refl => exact List.Subset.refl _
  | tail hd hkeeps ih =>
    obtain ⟨c, hc, rfl⟩ := hkeeps
    have hproper := (hq.of_retains hd).1
    obtain ⟨m, hm⟩ := (hproper.of_mem_lastCalls hc).1
    rw [hproper.path_of_mem_lastCalls hm hc]
    exact List.subset_append_of_subset_left _ ih

/-- What is retained for a call gets no number that was taken when the call was made. -/
theorem nodeNumber_ne (hq : q.Proper resolver) {c : Call} (hc : c ∈ q.lastCalls resolver)
    (h : c.query.Retains resolver d) : d.nodeNumber ≠ q.nodeNumber := by
  obtain ⟨-, hproper, -, hown, -⟩ := hq.of_mem_lastCalls hc
  obtain ⟨hd, hx⟩ := hproper.of_retains h
  exact fun heq => nodeNumber_not_mem hd (heq ▸ hx.graph.mem_taken hown)

theorem retains_cases (h : q.Retains resolver d) :
    d = q ∨ ∃ c ∈ q.lastCalls resolver, c.query.Retains resolver d := by
  rcases h.cases_head with rfl | ⟨_, ⟨c, hc, rfl⟩, hrest⟩
  · exact .inl rfl
  · exact .inr ⟨c, hc, hrest⟩

/-- How a value is made: by the chain of the calls that are made last, begun with what was there and
the node of the value, after which at most the constructor is noted and the value is shared. -/
structure Made (resolver : Resolver) (q : Query) (m : Making) (s₀ s₁ s' : State) : Prop where
  /-- The calls that are made last have answers. -/
  chain : Chain resolver (q.inner m.key q.nodeNumber) q.nodeNumber (q.lastCalls resolver) s₀ s₁
  /-- They are made with the nodes that were there and that of the value. -/
  nodes : s₀.graph.nodes.entries = (q.begun resolver m).graph.nodes.entries
  /-- They are made with the edges that were there. -/
  edges : s₀.graph.edges.entries = q.state.graph.edges.entries
  /-- What they leave is consistent. -/
  consistent : s₁.Consistent resolver
  /-- At most the constructor is noted. -/
  noted : NotedAt q.nodeNumber s₁.graph s'.graph
  /-- The value is shared if it has a key. -/
  shared : s'.shared = (s₁.sharing m.shared q.nodeNumber).shared
  /-- The calls ask for the requests of the node. -/
  asked : ∀ c ∈ q.lastCalls resolver, s'.graph.Has q.nodeNumber fun node =>
    resolver.requestAt q.request.pin node c.link.wire.position = some c.query.request
  /-- They are made with the instances that were shared. -/
  sharedBefore : s₀.shared = q.state.shared
  /-- They are made with the issues that were found. -/
  issuesBefore : s₀.issues = q.state.issues
  /-- Completing the value finds no issue. -/
  issues : s'.issues = s₁.issues
  /-- They are made for all links of the way in which the value is completed. -/
  completed : s'.graph.Has q.nodeNumber fun node =>
    m.Completed node ((q.lastCalls resolver).map Call.link)

/-- A query with an answer for which a value is made is answered by the value. -/
theorem exists_made (hq : q.Proper resolver) {m : Making}
    (hm : q.verdict resolver = .ok (.make m)) {n : NodeId} {s' : State}
    (h : q.outcome resolver = .ok (some n, s')) :
    n = q.nodeNumber ∧ ∃ s₀ s₁, q.Made resolver m s₀ s₁ s' := by
  obtain ⟨s₂, ⟨hn, rfl, hwork⟩ | ⟨hn, -, -⟩⟩ := outcome_make_cases hq.toAdmissible hm h
  · cases hn
    have hgrounds := verdict_grounds hm
    have hbegun := begun_consistent hq hgrounds
    obtain ⟨a, s₁, ⟨hedges, hnodes, hshared, hissues, hchain, hlinks, hquiet⟩, hlast, hnoted⟩ :=
      carryOut_succeeds (hq.grows hm) hbegun (begun_placed hq hgrounds) hwork
    have hattempts : (q.attempts resolver).getLast? = some a := by rw [attempts, hm, hlast]
    have ha := List.mem_of_getLast? hattempts
    have hcalls : q.lastCalls resolver = calls (following resolver) (q.inner m.key q.nodeNumber)
        q.nodeNumber a.jobs a.state := by
      rw [lastCalls, hattempts, Option.map_some, Option.getD_some, callsOf, hm]
    obtain ⟨-, hx, hs⟩ := mem_attempts (hq.grows hm) hbegun (begun_placed hq hgrounds)
      (List.mem_of_getLast? hlast)
    obtain ⟨hx₁, hs₁⟩ := hchain.grows hs
    have hnode : s₁.graph.Has q.nodeNumber (· = m.content) :=
      ((begun_has q m (p := (· = m.content)) rfl).of_extends hx.graph hbegun.graph
        hs.graph).of_extends hx₁.graph hs.graph hs₁.graph
    refine ⟨rfl, a.state, s₁, hcalls ▸ hchain, hnodes, hedges, hs₁, ?_, ?_, fun c hc => ?_,
      hshared.trans (begun_shared q m), hissues.trans (begun_issues q m), ?_, ?_⟩
    · rw [State.graph_sharing]
      rcases hnoted with ⟨-, rfl⟩ | ⟨_, index, g, -, -, hg, rfl⟩
      · exact .inl rfl
      · exact .inr ⟨index, hg⟩
    · rcases hnoted with ⟨-, rfl⟩ | ⟨_, index, g, -, -, hg, rfl⟩
      · rfl
      · unfold State.sharing
        split <;> rfl
    · rw [State.graph_sharing]
      obtain ⟨a', hlast', hcall⟩ := mem_lastCalls.mp hc
      cases hattempts.symm.trans hlast'
      obtain ⟨m', s, -, hl, -, heq, -⟩ := hq.exists_link ha hcall
      rw [heq, Link.query_request]
      rcases hnoted with ⟨honce, rfl⟩ | ⟨alternatives, index, g, hchoice, hmem, hg, rfl⟩
      · exact hnode.mono fun node hnode => hnode ▸ requestAt_content hm honce hl
      · exact hnode.modifyNode hg fun node hnode => hnode ▸ requestAt_chosen hm hchoice hmem hl
    · rw [State.issues_sharing]
      rcases hnoted with ⟨-, rfl⟩ | ⟨_, index, g, -, -, hg, rfl⟩ <;> rfl
    · rw [State.graph_sharing, hcalls, hlinks]
      rcases hnoted with ⟨honce, rfl⟩ | ⟨alternatives, index, g, hchoice, hmem, hg, rfl⟩
      · exact hnode.mono fun node hnode => .once honce hnode hquiet
      · exact hnode.modifyNode hg fun node hnode => .choice hchoice hmem (hnode ▸ rfl) hquiet
  · cases hn

end Query

end Injector.Wiring

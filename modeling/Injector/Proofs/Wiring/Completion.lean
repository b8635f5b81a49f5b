import Injector.Proofs.Wiring.Attempt

/-!
# When building completes

The number remembered for an argument of a provider call outlives the node when the constructor that
used the argument first is taken back. The main statement is that such a stale number is the only
thing that keeps a query from an outcome: a query completes exactly when no query that it reaches is
answered by one.
-/

namespace Injector.Wiring

namespace Query

/-- Whether a query is answered by the number of an argument whose node was taken back. -/
def Stale (q : Query) : Prop :=
  ∃ type n, q.visible? = some ⟨type, .node n⟩ ∧ n ∉ q.state.graph.nodes.taken

/-- Whether a query has an outcome, and the answer, if there is one, is a node of the graph. -/
def Completes (resolver : Resolver) (q : Query) : Prop :=
  ∃ a s', q.outcome resolver = .ok (a, s') ∧ ∀ n ∈ a, n ∈ s'.graph.nodes.taken

end Query

/-- What follows every query that can be asked to its outcome. -/
abbrev following (resolver : Resolver) : Follow := follow resolver (pathBound resolver)

/-- Whether a query that is followed has an outcome, and the answer, if there is one, is a node of
the graph. -/
def Follow.Completes (follow : Follow) (q : Query) : Prop :=
  ∃ a s', follow.answer q = .ok (a, s') ∧ ∀ n ∈ a, n ∈ s'.graph.nodes.taken

section Work

variable {resolver : Resolver} {follow : Follow} {context : Context} {node : NodeId}

/-- A job has an outcome exactly when its call completes. -/
theorem perform_ok_iff {job : Job} (hgrows : Grows resolver follow context [job])
    {s : State} (hs : s.Consistent resolver) (hp : context.Placed resolver s.graph)
    (hnode : node ∈ s.graph.nodes.taken) :
    (∃ r, perform follow context node job s = .ok r) ↔
      ∀ c ∈ job.call? context s, follow.Completes c.query := by
  cases job with
  | complain issue =>
    refine ⟨fun _ c hc => ?_, fun _ => ⟨_, perform_complain _ _ _ _ s⟩⟩
    cases hc
  | link l =>
    have hcall : (∀ c ∈ (Job.link l).call? context s, follow.Completes c.query) ↔
        follow.Completes (l.query context s) := by simp [Job.call?]
    have hsource : ∀ {a s₁}, follow.answer (l.query context s) = .ok (a, s₁) →
        node ∈ s₁.graph.nodes.taken := by
      intro a s₁ ha
      have hx := (hgrows l s (List.mem_singleton_self _) hs hp a s₁ ha).1
      refine hx.graph.mem_taken ?_
      obtain ⟨wire, site, provides⟩ := l
      cases provides <;> exact hnode
    rw [hcall]
    rcases perform_link_cases follow context node l s with
      ⟨e, ha, he⟩ | ⟨s₁, ha, hok⟩ | ⟨n, s₁, ha, ⟨e, hadd, he⟩ | ⟨g, hadd, hok⟩⟩
    · refine ⟨fun ⟨r, hr⟩ => ?_, fun ⟨a, s', hout, _⟩ => ?_⟩
      · cases he.symm.trans hr
      · cases ha.symm.trans hout
    · exact ⟨fun _ => ⟨none, s₁, ha, by simp⟩, fun _ => ⟨_, hok⟩⟩
    · refine ⟨fun ⟨r, hr⟩ => ?_, fun ⟨a, s', hout, hlive⟩ => ?_⟩
      · cases he.symm.trans hr
      · cases ha.symm.trans hout
        obtain ⟨g, hg⟩ := Graph.addEdge_ok (e := l.wire.edge node n) (hsource ha) (hlive n rfl)
        cases hadd.symm.trans hg
    · refine ⟨fun _ => ⟨some n, s₁, ha, fun m hm => ?_⟩, fun _ => ⟨_, hok⟩⟩
      cases hm
      exact (Graph.addEdge_eq_ok hadd).2.1

/-- A list of jobs has an outcome exactly when its calls complete. -/
theorem performAll_ok_iff {jobs : List Job}
    (hgrows : Grows resolver follow context jobs) {s : State}
    (hs : s.Consistent resolver) (hp : context.Placed resolver s.graph)
    (hnode : node ∈ s.graph.nodes.taken) :
    (∃ r, performAll follow context node jobs s = .ok r) ↔
      ∀ c ∈ calls follow context node jobs s, follow.Completes c.query := by
  induction jobs generalizing s with
  | nil =>
    refine ⟨fun _ c hc => ?_, fun _ => ⟨_, rfl⟩⟩
    cases hc
  | cons job jobs ih =>
    obtain ⟨hhere, hothers⟩ := hgrows.of_cons
    have hfirst : (∃ r, perform follow context node job s = .ok r) ↔
        ∀ c ∈ (job.call? context s).toList, follow.Completes c.query := by
      simpa using perform_ok_iff hhere hs hp hnode
    rcases performAll_cons_cases follow context node job jobs s with
      ⟨e, hperform, he⟩ | ⟨b₁, s₁, hperform, hrest⟩
    · rw [calls_cons_of_error hperform, ← hfirst, hperform, he]
    · obtain ⟨hx, hs₁⟩ := perform_extends hhere hs hp hperform
      have hiff := ih hothers hs₁ (hp.of_extends hx.graph hs.graph hs₁.graph)
        (hx.graph.mem_taken hnode)
      have hall : (∃ r, performAll follow context node (job :: jobs) s = .ok r) ↔
          ∃ r, performAll follow context node jobs s₁ = .ok r := by
        rcases hrest with ⟨e, hrest, he⟩ | ⟨b₂, s₂, hrest, hok⟩
        · simp [hrest, he]
        · exact ⟨fun _ => ⟨_, hrest⟩, fun _ => ⟨_, hok⟩⟩
      rw [hall, hiff, calls_cons_of_ok hperform, List.forall_mem_append, ← hfirst]
      exact (and_iff_right ⟨_, hperform⟩).symm

/-- A choice has an outcome exactly when the calls of all its attempts complete. -/
theorem tryAll_ok_iff {alternatives : List (List Job × Nat)} {found : List Issue}
    (hgrows : Grows resolver follow context (alternatives.flatMap Prod.fst))
    {s : State} (hs : s.Consistent resolver) (hp : context.Placed resolver s.graph)
    (hnode : node ∈ s.graph.nodes.taken) :
    (∃ r, tryAll follow context node alternatives found s = .ok r) ↔
      ∀ a ∈ tried follow context node alternatives s,
        ∀ c ∈ calls follow context node a.jobs a.state,
          follow.Completes c.query := by
  induction alternatives generalizing s found with
  | nil =>
    refine ⟨fun _ a ha => ?_, fun _ => ⟨_, rfl⟩⟩
    cases ha
  | cons first rest ih =>
    obtain ⟨jobs, index⟩ := first
    obtain ⟨hjobs, hrest⟩ := hgrows.of_flatMap_cons
    rcases tryAll_cons_cases follow context node jobs index rest found s with
      ⟨e, hall, he⟩ | ⟨s₁, hall, hok⟩ | ⟨s₁, hall, hok⟩
    · rw [tried, List.forall_mem_cons, ← performAll_ok_iff hjobs hs hp hnode]
      simp [hall, he]
    · have hlive := (performAll_extends hjobs hs hp hall).1.graph.mem_taken hnode
      obtain ⟨g, hg⟩ := Graph.modifyNode_ok (f := chosen index) hlive
      rw [tried_cons_of_succeeds hall, List.forall_mem_singleton,
        ← performAll_ok_iff hjobs hs hp hnode]
      simp [hall, hok, hg, Except.map]
    · obtain ⟨hx, hs₁⟩ := performAll_extends hjobs hs hp hall
      obtain ⟨g, hback, hx₂, hs₂, -, -⟩ := hx.rollback hs hs₁
      rw [hok, hback, ok_bind, tried_cons_of_ok hall hback, List.forall_mem_cons,
        ← performAll_ok_iff hjobs hs hp hnode,
        ih hrest hs₂ (hp.of_extends hx₂.graph hs.graph hs₂.graph) (hx₂.graph.mem_taken hnode)]
      exact (and_iff_right ⟨_, hall⟩).symm

theorem carryOut_ok_iff {work : Work}
    (hgrows : Grows resolver follow context work.jobs) {s : State}
    (hs : s.Consistent resolver) (hp : context.Placed resolver s.graph)
    (hnode : node ∈ s.graph.nodes.taken) :
    (∃ r, work.carryOut follow context node s = .ok r) ↔
      ∀ a ∈ work.attempts follow context node s,
        ∀ c ∈ calls follow context node a.jobs a.state,
          follow.Completes c.query := by
  cases work with
  | once jobs =>
    simp only [Work.attempts, List.forall_mem_singleton]
    exact performAll_ok_iff hgrows hs hp hnode
  | choice alternatives => exact tryAll_ok_iff hgrows hs hp hnode

end Work

namespace Query

variable {resolver : Resolver} {q : Query}

/-- Every query that can be asked has a verdict. -/
theorem verdict_ok (hq : q.Admissible resolver) : ∃ v, q.verdict resolver = .ok v := by
  unfold verdict
  split
  · exact ⟨_, rfl⟩
  · split
    · exact ⟨_, rfl⟩
    · next id s hres =>
      rw [List.getElem?_eq_getElem (Resolver.lt_of_resolve_binding hq.admits hres)]
      exact ⟨_, rfl⟩
    · exact ⟨_, rfl⟩

section Seen

variable {see : State → State}

/-- A query that asks for no value has an outcome. -/
theorem outcomeSeen_ok_of_not_make (hq : q.Admissible resolver)
    (h : ∀ m, (q.seen see).verdict resolver ≠ .ok (.make m)) :
    ∃ r, q.outcomeSeen resolver see = .ok r := by
  obtain ⟨v, hv⟩ := verdict_ok (hq.seen see)
  rw [outcomeSeen_eq hq, hv]
  cases v with
  | make m => exact absurd hv (h m)
  | argument a =>
    obtain ⟨type, block | n⟩ := a
    · exact ⟨_, rfl⟩
    · exact ⟨_, rfl⟩
  | unresolved => exact ⟨_, rfl⟩
  | linked n => exact ⟨_, rfl⟩
  | loop members path => exact ⟨_, rfl⟩
  | recalled issues => exact ⟨_, rfl⟩

/-- A query for a value completes exactly when all that is asked for the value completes. -/
theorem completesSeen_make_iff (hsee : Forgetful see) (hq : q.Proper resolver) {m : Making}
    (hm : (q.seen see).verdict resolver = .ok (.make m)) :
    (seeing resolver see).Completes q ↔
      ∀ d, q.AsksSeen resolver see d → (seeing resolver see).Completes d := by
  have hgrounds := (verdict_grounds hm).of_seen
  have hwork := carryOut_ok_iff (hq.growsSeen hm) (begun_consistent hq hgrounds)
    (begun_placed hq hgrounds) (begun_has q m (p := fun _ => True) trivial).mem_taken
  have hasks : (∀ d, q.AsksSeen resolver see d → (seeing resolver see).Completes d) ↔
      ∀ a ∈ m.work.attempts (seeing resolver see) (q.inner m.key q.nodeNumber) q.nodeNumber
        (q.begun resolver m), ∀ c ∈ calls (seeing resolver see) (q.inner m.key q.nodeNumber)
          q.nodeNumber a.jobs a.state, (seeing resolver see).Completes c.query := by
    simp only [AsksSeen, attemptsSeen, callsSeen, hm]
    refine ⟨fun h a ha c hc => h _ ⟨a, ha, c, hc, rfl⟩, fun h d ⟨a, ha, c, hc, heq⟩ => ?_⟩
    exact heq ▸ h a ha c hc
  rw [hasks, ← hwork]
  constructor
  · rintro ⟨a, s', h, -⟩
    obtain ⟨s₁, ⟨-, -, hcarry⟩ | ⟨-, -, hcarry⟩⟩ := outcomeSeen_make_cases hq.toAdmissible hm h
    · exact ⟨_, hcarry⟩
    · exact ⟨_, hcarry⟩
  · rintro ⟨⟨b, s₁⟩, hcarry⟩
    have hout := outcomeSeen_make hq.toAdmissible hm
    rw [hcarry] at hout
    cases b with
    | true =>
      refine ⟨_, _, hout, fun n hn => ?_⟩
      rcases outcomeSeen_accepts hsee hq (n := n) (hn ▸ hout) with ⟨type, hvisible⟩ | hnode
      · cases hm.symm.trans (verdict_eq_argument.mpr (hsee.visible? q ▸ hvisible))
      · exact hnode.mem_taken
    | false => exact ⟨_, _, hout, by simp⟩

/-- A query completes exactly when no query that it reaches is answered by the number of a node that
was taken back. -/
theorem completesSeen_iff (hsee : Forgetful see) (hq : q.Proper resolver) :
    (seeing resolver see).Completes q ↔ ∀ d, ReachesSeen resolver see q d → ¬ d.Stale := by
  have hadmissible := hq.toAdmissible
  induction q, hadmissible using Admissible.inductSeen with | step q hadmissible ih
  have hsplit : (∀ d, ReachesSeen resolver see q d → ¬ d.Stale) ↔ ¬ q.Stale ∧
      ∀ d, q.AsksSeen resolver see d → ∀ e, ReachesSeen resolver see d e → ¬ e.Stale := by
    refine ⟨fun h => ⟨h q .refl, fun d hd e he => h e (.head hd he)⟩, fun ⟨h, hall⟩ d hd => ?_⟩
    rcases Relation.ReflTransGen.cases_head hd with rfl | ⟨c, hc, hrest⟩
    · exact h
    · exact hall c hc d hrest
  have hasks : (∀ d, q.AsksSeen resolver see d → ∀ e, ReachesSeen resolver see d e → ¬ e.Stale) ↔
      ∀ d, q.AsksSeen resolver see d → (seeing resolver see).Completes d :=
    forall₂_congr fun d hd =>
      (ih see d (hq.of_asksSeen hd).2 (hq.of_asksSeen hd).1).symm
  rw [hsplit, hasks]
  by_cases hmake : ∃ m, (q.seen see).verdict resolver = .ok (.make m)
  · obtain ⟨m, hm⟩ := hmake
    rw [completesSeen_make_iff hsee hq hm]
    refine ⟨fun h => ⟨?_, h⟩, fun h => h.2⟩
    rintro ⟨type, n, hvisible, -⟩
    cases hm.symm.trans (verdict_eq_argument.mpr (hsee.visible? q ▸ hvisible))
  · have hnone : ∀ d, ¬ q.AsksSeen resolver see d := by
      rintro d ⟨a, ha, -⟩
      unfold attemptsSeen at ha
      split at ha
      · next m hm => exact hmake ⟨m, hm⟩
      · cases ha
    have hnumber : ∀ {type n a s'}, q.visible? = some ⟨type, .node n⟩ →
        q.outcomeSeen resolver see = .ok (a, s') → a = some n ∧ s' = q.state := by
      intro type n a s' hvisible hout
      rw [outcomeSeen_eq hadmissible,
        verdict_eq_argument.mpr (hsee.visible? q ▸ hvisible)] at hout
      cases hout
      exact ⟨rfl, rfl⟩
    refine ⟨fun h => ⟨?_, fun d hd => absurd hd (hnone d)⟩, fun ⟨hstale, _⟩ => ?_⟩
    · rintro ⟨type, n, hvisible, hdead⟩
      obtain ⟨a, s', hout, hlive⟩ := h
      obtain ⟨rfl, rfl⟩ := hnumber hvisible hout
      exact hdead (hlive n rfl)
    · obtain ⟨⟨a, s'⟩, hout⟩ :=
        outcomeSeen_ok_of_not_make hadmissible fun m hm => hmake ⟨m, hm⟩
      refine ⟨a, s', hout, fun n hn => ?_⟩
      cases hn
      rcases outcomeSeen_accepts hsee hq hout with ⟨type, hvisible⟩ | hnode
      · refine Classical.byContradiction fun hdead => hstale ⟨type, n, hvisible, ?_⟩
        obtain ⟨-, rfl⟩ := hnumber hvisible hout
        exact hdead
      · exact hnode.mem_taken

end Seen

theorem outcome_ok_of_not_make (hq : q.Admissible resolver)
    (h : ∀ m, q.verdict resolver ≠ .ok (.make m)) : ∃ r, q.outcome resolver = .ok r := by
  rw [outcome_eq_outcomeSeen]
  exact outcomeSeen_ok_of_not_make hq h

/-- A query completes exactly when no query that it reaches is answered by the number of a node that
was taken back. -/
theorem completes_iff (hq : q.Proper resolver) :
    q.Completes resolver ↔ ∀ d, Reaches resolver q d → ¬ d.Stale := by
  have hseen : q.Completes resolver ↔ (seeing resolver id).Completes q := by
    unfold Completes Follow.Completes outcome
    rw [follow_eq]
  simp only [hseen, reaches_iff_seen]
  exact completesSeen_iff forgetful_id hq

end Query

end Injector.Wiring

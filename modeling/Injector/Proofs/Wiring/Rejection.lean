import Injector.Proofs.Wiring.Silence
import Injector.Proofs.Wiring.Kept

/-!
# What rejected constructors leave behind

While constructors are tried, issues come and go: those of a rejected constructor are cut off, a
request with an answer drops what was found for it, and what is left when no constructor remains is
recorded again, each message once. The main statements are that a query with an answer leaves the
issues as they were (`Query.issues_eq_of_answer`), and that a binding none of whose constructors is
accepted adds each message once that the requests for their parameters added, and no other
(`Query.appended_of_rejected`).
-/

namespace Injector.Wiring

variable {resolver : Resolver}

/-- A union holds each message once if what was found does. -/
theorem nodup_unionIssues {found issues : List Issue} (h : (found.map Issue.message).Nodup) :
    ((unionIssues found issues).map Issue.message).Nodup := by
  induction issues generalizing found with
  | nil => exact h
  | cons issue rest ih =>
    rw [unionIssues]
    split
    · exact ih h
    · next hnew =>
      refine ih ?_
      have hnot : issue.message ∉ found.map Issue.message := by
        rintro hin
        obtain ⟨f, hf, hsame⟩ := List.mem_map.mp hin
        exact hnew (List.any_eq_true.mpr ⟨f, hf, beq_iff_eq.mpr hsame⟩)
      rw [List.map_append]
      refine List.nodup_append.mpr ⟨h, List.pairwise_singleton _ _, fun m hm m' hm' heq => ?_⟩
      exact hnot (List.mem_singleton.mp hm' ▸ heq ▸ hm)

/-- The union of several lists holds each message once. -/
theorem nodup_foldl_unionIssues {found : List Issue} (h : (found.map Issue.message).Nodup)
    (lists : List (List Issue)) :
    ((lists.foldl unionIssues found).map Issue.message).Nodup := by
  induction lists generalizing found with
  | nil => exact h
  | cons issues rest ih => exact ih (nodup_unionIssues h)

/-- The union of several lists has the messages of all of them. -/
theorem mem_foldl_unionIssues {found : List Issue} {lists : List (List Issue)} {m : Message} :
    m ∈ (lists.foldl unionIssues found).map Issue.message ↔
      m ∈ found.map Issue.message ∨ ∃ issues ∈ lists, m ∈ issues.map Issue.message := by
  induction lists generalizing found with
  | nil => simp
  | cons issues rest ih =>
    have hunion := exists_mem_unionIssues (· = m) found issues
    simp only [← List.mem_map] at hunion
    rw [List.foldl_cons, ih, hunion, List.exists_mem_cons_iff, or_assoc]

@[simp] theorem Link.query_issues (l : Link) (context : Context) (s : State) :
    (l.query context s).state.issues = s.issues := by
  unfold Link.query
  cases l.provides <;> rfl

@[simp] theorem Link.leave_issues (l : Link) (outer s : State) :
    (l.leave outer s).issues = s.issues := by
  unfold Link.leave
  cases l.provides <;> rfl

/-- A chain of calls that leave the issues as they were leaves them so. -/
theorem Chain.issues_eq {context : Context} {node : NodeId} {cs : List Call} {s s' : State}
    (h : Chain resolver context node cs s s')
    (hcalls : ∀ c ∈ cs, ∀ n s₁, c.query.outcome resolver = .ok (some n, s₁) →
      s₁.issues = c.query.state.issues) : s'.issues = s.issues := by
  induction h with
  | nil s => rfl
  | @cons l cs s s₁ s' n g answer grows consistent edge rest ih =>
    obtain ⟨hfirst, hrest⟩ := List.forall_mem_cons.mp hcalls
    have hhere := hfirst n s₁ answer
    rw [Link.query_issues] at hhere
    rw [ih hrest, Link.leave_issues]
    exact hhere

namespace Query

variable {q : Query}

/-- The issues that following a query adds. -/
def appended (resolver : Resolver) (q : Query) : List Issue :=
  match q.outcome resolver with
  | .ok (_, s') => s'.issues.drop q.state.issues.length
  | .error _ => []

/-- What there was before is left unchanged in front of what is added. -/
theorem Proper.issues_eq (hq : q.Proper resolver) {a : Option NodeId} {s' : State}
    (h : q.outcome resolver = .ok (a, s')) :
    s'.issues = q.state.issues ++ q.appended resolver := by
  rw [appended, h]
  exact (List.prefix_iff_eq_append.mp (outcome_extends hq h).1.issues).symm

/-- A query with an answer leaves the issues as they were. -/
theorem issues_eq_of_answer (hq : q.Proper resolver) {n : NodeId} {s' : State}
    (h : q.outcome resolver = .ok (some n, s')) : s'.issues = q.state.issues := by
  have hadmissible := hq.toAdmissible
  induction q, hadmissible using Admissible.induct generalizing n s' with | step q hadmissible ih
  obtain ⟨v, hv, hsettle⟩ := outcome_eq_ok hadmissible h
  cases v with
  | argument found =>
    obtain ⟨type, ⟨block, index⟩ | m⟩ := found <;> cases hsettle <;> rfl
  | linked m =>
    obtain ⟨touched, hreached⟩ := q.reached_eq resolver
    cases hsettle
    rw [hreached]
  | make m =>
    obtain ⟨-, s₀, s₁, hmade⟩ := exists_made hq hv h
    have hchain : s₁.issues = s₀.issues := hmade.chain.issues_eq fun c hc n s hout => by
      obtain ⟨-, hproper, hbelow, -⟩ := hq.of_mem_lastCalls hc
      exact ih _ hbelow hproper hout
    rw [hmade.issues, hchain, hmade.issuesBefore]
  | unresolved => cases hsettle
  | loop members path => cases hsettle
  | recalled issues => cases hsettle

end Query

section Work

variable {context : Context} {node : NodeId}

/-- A list of links adds what the queries for them add, one after the other. -/
theorem performAll_issues {jobs : List Job}
    (hgrows : Grows resolver (following resolver) context jobs)
    (hquiet : ∀ issue, .complain issue ∉ jobs) {s s' : State} {b : Bool}
    (hs : s.Consistent resolver) (hp : context.Placed resolver s.graph)
    (h : performAll (following resolver) context node jobs s = .ok (b, s')) :
    s'.issues = s.issues ++ (calls (following resolver) context node jobs s).flatMap fun c =>
      c.query.appended resolver := by
  induction jobs generalizing s s' b with
  | nil =>
    cases h
    simp [calls]
  | cons job jobs ih =>
    obtain ⟨b₁, s₁, b₂, hperform, hrest, -⟩ := performAll_cons_eq_ok h
    obtain ⟨hx, hs₁⟩ := perform_extends hgrows.of_cons.1 hs hp hperform
    have hothers := ih hgrows.of_cons.2 (fun issue hi => hquiet issue (.tail _ hi)) hs₁
      (hp.of_extends hx.graph hs.graph hs₁.graph) hrest
    rw [hothers, calls_cons_of_ok hperform, List.flatMap_append, ← List.append_assoc]
    congr 1
    cases job with
    | complain issue => exact absurd List.mem_cons_self (hquiet issue)
    | link l =>
      have happended : ∀ a s₂, (l.query context s).outcome resolver = .ok (a, s₂) →
          s₂.issues = s.issues ++ (l.query context s).appended resolver := by
        intro a s₂ ha
        obtain ⟨hx₂, -⟩ := hgrows l s List.mem_cons_self hs hp a s₂ ha
        have hprefix := hx₂.issues
        rw [Link.query_issues] at hprefix
        rw [Query.appended, ha, Link.query_issues]
        exact (List.prefix_iff_eq_append.mp hprefix).symm
      simp only [Job.call?, Option.toList_some, List.flatMap_singleton]
      rcases perform_link_eq_ok hperform with ⟨s₂, ha, -, rfl⟩ | ⟨n, s₂, g, ha, -, -, rfl⟩
      · rw [Link.leave_issues, happended none s₂ ha]
      · rw [Link.leave_issues]
        exact happended (some n) s₂ ha

/-- The issues that an attempt adds: those of its calls, one after the other. -/
def Attempt.recorded (resolver : Resolver) (context : Context) (node : NodeId) (a : Attempt) :
    List Issue :=
  (calls (following resolver) context node a.jobs a.state).flatMap fun c =>
    c.query.appended resolver

/-- A choice is rejected after each alternative is attempted and fails, and adds what the attempts
recorded, each message once. -/
theorem tryAll_rejected {alternatives : List (List Job × Nat)} {found : List Issue}
    (hgrows : Grows resolver (following resolver) context (alternatives.flatMap Prod.fst))
    (hquiet : ∀ issue, .complain issue ∉ alternatives.flatMap Prod.fst) {s s' : State}
    (hs : s.Consistent resolver) (hp : context.Placed resolver s.graph)
    (h : tryAll (following resolver) context node alternatives found s = .ok (false, s')) :
    (tried (following resolver) context node alternatives s).map Attempt.jobs =
      alternatives.map Prod.fst ∧
    (∀ a ∈ tried (following resolver) context node alternatives s,
      ∃ s₁, performAll (following resolver) context node a.jobs a.state = .ok (false, s₁)) ∧
    s'.issues = s.issues ++ ((tried (following resolver) context node alternatives s).map
      (Attempt.recorded resolver context node)).foldl unionIssues found := by
  induction alternatives generalizing s found with
  | nil =>
    cases h
    simp [tried]
  | cons first rest ih =>
    obtain ⟨jobs, index⟩ := first
    obtain ⟨hjobs, hrest⟩ := hgrows.of_flatMap_cons
    rw [List.flatMap_cons] at hquiet
    rcases tryAll_cons_eq_ok h with ⟨s₁, g, -, -, hb, -⟩ | ⟨s₁, r, hall, hback, hothers⟩
    · cases hb
    · obtain ⟨hx, hs₁⟩ := performAll_extends hjobs hs hp hall
      obtain ⟨g, hok, hx₂, hs₂, -, -⟩ := hx.rollback hs hs₁
      cases hback.symm.trans hok
      have hissues := performAll_issues hjobs
        (fun issue hi => hquiet issue (List.mem_append_left _ hi)) hs hp hall
      have hdrop : s₁.issues.drop s.issues.length =
          Attempt.recorded resolver context node ⟨jobs, s⟩ := by
        rw [hissues, List.drop_left]
        rfl
      rw [hdrop] at hothers
      obtain ⟨htried, hfails, hunion⟩ := ih hrest
        (fun issue hi => hquiet issue (List.mem_append_right _ hi)) hs₂
        (hp.of_extends hx₂.graph hs.graph hs₂.graph) hothers
      rw [tried_cons_of_ok hall hback]
      refine ⟨congrArg (jobs :: ·) htried, List.forall_mem_cons.mpr ⟨⟨s₁, hall⟩, hfails⟩, ?_⟩
      rw [hunion]
      rfl

end Work

theorem complain_not_mem_wireJobs {name : String} {wires : List Wire} {issue : Issue} :
    .complain issue ∉ wireJobs name wires := by
  simp [wireJobs]

theorem filterMap_link?_wireJobs (name : String) (wires : List Wire) :
    ((wireJobs name wires).filterMap Job.link?).map Link.wire = wires := by
  induction wires with
  | nil => rfl
  | cons w ws ih => exact congrArg (w :: ·) ih

/-- The ways to make a value by one of several constructors, in the order of preference. -/
def candidates (r : Registration) (s : Substitution) (constructors : List Constructor) :
    List (List Job × Nat) :=
  (preferenceOrder constructors).map fun p =>
    (wireJobs r.describe (wiresOf s r.location p.1), p.2)

theorem complain_not_mem_candidates {r : Registration} {s : Substitution}
    {constructors : List Constructor} {issue : Issue} :
    .complain issue ∉ (candidates r s constructors).flatMap Prod.fst := by
  intro hissue
  obtain ⟨_, hcandidate, hin⟩ := List.mem_flatMap.mp hissue
  obtain ⟨p, -, rfl⟩ := List.mem_map.mp hcandidate
  exact complain_not_mem_wireJobs hin

namespace Query

variable {q : Query}

/-- A value that is to be made in one of several ways fails by the rejection of all of them, and
adds what the attempts recorded, each message once. -/
theorem Proper.rejected (hq : q.Proper resolver) {m : Making}
    (hm : q.verdict resolver = .ok (.make m)) {alternatives : List (List Job × Nat)}
    (hwork : m.work = .choice alternatives)
    (hquiet : ∀ issue, .complain issue ∉ alternatives.flatMap Prod.fst) {s' : State}
    (h : q.outcome resolver = .ok (none, s')) :
    (q.attempts resolver).map Attempt.jobs = alternatives.map Prod.fst ∧
    (∀ a ∈ q.attempts resolver, ∃ s₁, performAll (following resolver)
      (q.inner m.key q.nodeNumber) q.nodeNumber a.jobs a.state = .ok (false, s₁)) ∧
    q.appended resolver = ((q.attempts resolver).map (Attempt.recorded resolver
      (q.inner m.key q.nodeNumber) q.nodeNumber)).foldl unionIssues [] := by
  have hgrounds := verdict_grounds hm
  have hgrows := hq.grows hm
  have hattempts : q.attempts resolver = tried (following resolver)
      (q.inner m.key q.nodeNumber) q.nodeNumber alternatives (q.begun resolver m) := by
    rw [attempts, hm]
    simp only [hwork, Work.attempts]
  obtain ⟨s₁, ⟨ha, -⟩ | ⟨-, rfl, hcarry⟩⟩ := outcome_make_cases hq.toAdmissible hm h
  · cases ha
  · rw [hwork] at hcarry hgrows
    obtain ⟨htried, hfails, hunion⟩ := tryAll_rejected hgrows hquiet
      (begun_consistent hq hgrounds) (begun_placed hq hgrounds) hcarry
    have happended := hq.issues_eq h
    rw [State.issues_failing, hunion, begun_issues] at happended
    rw [hattempts]
    exact ⟨htried, hfails, (List.append_cancel_left happended).symm⟩

/-- How a query for a value fails after choosing among lists of wires: all are requested, in each
one at least in vain, and what the requests add is added, each message once. -/
structure Rejects (resolver : Resolver) (q : Query) (choices : List (List Wire)) : Prop where
  /-- Each list was attempted, and all of its wires were requested. -/
  requested : (q.attempts resolver).map (fun a => (q.callsOf resolver a).map (·.link.wire)) =
    choices
  /-- In each there is a wire without an answer. -/
  fails : ∀ a ∈ q.attempts resolver, ∃ c ∈ q.callsOf resolver a, c.query.Fails resolver
  /-- No message is added twice. -/
  nodup : ((q.appended resolver).map Issue.message).Nodup
  /-- The messages are those that the requests added. -/
  messages : ∀ m, m ∈ (q.appended resolver).map Issue.message ↔
    ∃ a ∈ q.attempts resolver, ∃ c ∈ q.callsOf resolver a,
      m ∈ (c.query.appended resolver).map Issue.message

/-- A binding with constructors that fails rejects all of them. -/
theorem rejects_of_construct (hq : q.Proper resolver) {id : BindingId} {s : Substitution}
    {r : Registration} (hm : q.verdict resolver = .ok (.make (q.bindingMaking id s r)))
    {implementation implements constructors}
    (hr : r.recipe = .construct implementation implements constructors) (hne : constructors ≠ [])
    {s' : State} (h : q.outcome resolver = .ok (none, s')) :
    q.Rejects resolver ((preferenceOrder constructors).map fun p =>
      wiresOf s r.location p.1) := by
  have hwork : (q.bindingMaking id s r).work = .choice (candidates r s constructors) := by
    obtain ⟨c, cs, rfl⟩ := List.exists_cons_of_ne_nil hne
    simp only [bindingMaking, workOf, hr]
    rfl
  have hcalls : ∀ a, q.callsOf resolver a = calls (following resolver)
      (q.inner (q.bindingMaking id s r).key q.nodeNumber) q.nodeNumber a.jobs a.state := by
    intro a
    rw [callsOf, hm]
  obtain ⟨htried, hfails, happended⟩ :=
    hq.rejected hm hwork (fun _ => complain_not_mem_candidates) h
  refine ⟨?_, fun a ha => ?_, ?_, fun m => ?_⟩
  · have hwires : ∀ a ∈ q.attempts resolver, (q.callsOf resolver a).map (·.link.wire) =
        (a.jobs.filterMap Job.link?).map Link.wire := by
      intro a ha
      obtain ⟨s₂, hall⟩ := hfails a ha
      rw [hcalls, ← links_of_performAll hall, List.map_map]
      rfl
    have hjobs := congrArg (List.map fun jobs => (jobs.filterMap Job.link?).map Link.wire) htried
    rw [candidates, List.map_map, List.map_map, List.map_map] at hjobs
    rw [List.map_congr_left hwires]
    refine hjobs.trans (List.map_congr_left fun p _ => ?_)
    exact filterMap_link?_wireJobs _ _
  · obtain ⟨s₂, hall⟩ := hfails a ha
    rw [hcalls]
    refine Attempt.exists_fails (fun hsucceeds => ?_) fun issue hissue => ?_
    · exact Bool.false_ne_true ((performAll_true_iff hall).mpr hsucceeds)
    · have hmem := List.mem_map_of_mem (f := Attempt.jobs) ha
      rw [htried] at hmem
      obtain ⟨candidate, hcandidate, heq⟩ := List.mem_map.mp hmem
      exact complain_not_mem_candidates
        (List.mem_flatMap.mpr ⟨candidate, hcandidate, heq ▸ hissue⟩)
  · have hnone : (([] : List Issue).map Issue.message).Nodup := List.nodup_nil
    rw [happended]
    exact nodup_foldl_unionIssues hnone _
  · have hrecorded : ∀ a, m ∈ (a.recorded resolver (q.inner (q.bindingMaking id s r).key
        q.nodeNumber) q.nodeNumber).map Issue.message ↔
        ∃ c ∈ q.callsOf resolver a, m ∈ (c.query.appended resolver).map Issue.message := by
      intro a
      rw [Attempt.recorded, hcalls, List.map_flatMap, List.mem_flatMap]
    rw [happended, mem_foldl_unionIssues]
    constructor
    · rintro (hnone | ⟨_, hin, hmessage⟩)
      · cases hnone
      · obtain ⟨a, ha, rfl⟩ := List.mem_map.mp hin
        exact ⟨a, ha, (hrecorded a).mp hmessage⟩
    · rintro ⟨a, ha, hcall⟩
      exact .inr ⟨_, List.mem_map_of_mem ha, (hrecorded a).mpr hcall⟩

end Query

end Injector.Wiring

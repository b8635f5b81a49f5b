import Injector.Proofs.Wiring.Ancestry
import Injector.Proofs.Wiring.Silence

/-!
# Loops are reported

A loop that is met is an issue, unless it was reported before; the issues of a rejected constructor
are taken back, and recorded again where no other constructor is left. The main statement is that,
where every binding has one constructor at most, a query adds an issue about a loop exactly when one
that it reaches closes a loop.
-/

namespace Injector.Wiring

variable {resolver : Resolver}

/-- Whether an issue of a state is about a loop. -/
def State.Cyclic (s : State) : Prop := ∃ issue ∈ s.issues, issue.message.isCycle = true

/-- Whether no failure is remembered because of a loop, and loops that were reported are issues. -/
structure State.Faithful (s : State) : Prop where
  /-- Failures that are remembered have other reasons than loops. -/
  failures : ∀ f ∈ s.failures, ∀ issue ∈ f.2, issue.message.isCycle = false
  /-- Where a loop was reported, there is an issue about one. -/
  logged : s.cycles.loops ≠ [] → s.Cyclic

/-- Whether a state has an issue about a loop exactly when another one, from which it comes, has one
or `met` holds. -/
def State.Tells (s s' : State) (met : Prop) : Prop :=
  s'.Faithful ∧ (s'.Cyclic ↔ s.Cyclic ∨ met)

namespace State

variable {s s₁ s' s'' : State} {met met' : Prop}

/-- A state tells of no loop beyond its own. -/
theorem Tells.refl (h : s.Faithful) (hmet : ¬ met) : s.Tells s met :=
  ⟨h, by simp [hmet]⟩

/-- A state that tells in two stages tells of what is met in either. -/
theorem Tells.trans (h : s.Tells s' met) (h' : s'.Tells s'' met') :
    s.Tells s'' (met ∨ met') :=
  ⟨h'.1, by rw [h'.2, h.2, or_assoc]⟩

/-- What is met may be said in other words. -/
theorem Tells.congr (h : s.Tells s' met) (hmet : met ↔ met') : s.Tells s' met' :=
  ⟨h.1, h.2.trans (or_congr_right hmet)⟩

/-- Only issues tell of loops. -/
theorem Tells.of_issues_eq (h : s₁.Tells s' met) (hissues : s₁.issues = s.issues) :
    s.Tells s' met :=
  ⟨h.1, by rw [h.2, Cyclic, Cyclic, hissues]⟩

/-- Loops among more issues are those before and those that are added. -/
theorem cyclic_append (s : State) (issues : List Issue) :
    { s with issues := s.issues ++ issues }.Cyclic ↔
      s.Cyclic ∨ ∃ issue ∈ issues, issue.message.isCycle = true := by
  simp [Cyclic, or_and_right, exists_or]

/-- Issues that are not about loops tell of none. -/
theorem tells_complained (h : s.Faithful) {issues : List Issue}
    (hissues : ∀ issue ∈ issues, issue.message.isCycle = false) (hmet : ¬ met) :
    s.Tells { s with issues := s.issues ++ issues } met := by
  have hnone : ¬ ∃ issue ∈ issues, issue.message.isCycle = true := by
    rintro ⟨issue, hi, hcycle⟩
    cases (hissues issue hi).symm.trans hcycle
  refine ⟨⟨h.failures, fun hlog => (cyclic_append s issues).mpr (.inl (h.logged hlog))⟩, ?_⟩
  rw [cyclic_append]
  simp [hnone, hmet]

/-- A loop is an issue, now or before. -/
theorem tells_looping (h : s.Faithful) (members : List String) (path : String)
    (location : Location) (hmet : met) : s.Tells (s.looping members path location) met := by
  have hcyclic : (s.looping members path location).Cyclic := by
    rw [looping, CycleLog.report]
    split
    · next hlog => exact h.logged (List.ne_nil_of_mem hlog)
    · exact (cyclic_append s _).mpr (.inr ⟨_, List.mem_singleton_self _, rfl⟩)
  exact ⟨⟨h.failures, fun _ => hcyclic⟩, by simp [hcyclic, hmet]⟩

/-- Noting a node to be shared tells of no loop. -/
theorem Tells.sharing (h : s.Tells s' met) (key : Option SharedKey) (n : NodeId) :
    s.Tells (s'.sharing key n) met := by
  cases key with
  | none => exact h
  | some k => exact ⟨⟨h.1.failures, h.1.logged⟩, h.2⟩

/-- The issues of what is taken back are recorded again, each message once. -/
theorem Tells.restored (h : s.Tells s₁ met) (hx : s.Extends s₁) (g : Graph) :
    s.Tells { s₁.restored s g with
      issues := s.issues ++ unionIssues [] (s₁.issues.drop s.issues.length) } met := by
  obtain ⟨new, hnew⟩ := hx.issues
  have hdrop : s₁.issues.drop s.issues.length = new := by simp [← hnew]
  rw [hdrop]
  have hcyclic : { s₁.restored s g with issues := s.issues ++ unionIssues [] new }.Cyclic ↔
      s₁.Cyclic := by
    have happend := cyclic_append { s₁.restored s g with issues := s.issues } (unionIssues [] new)
    rw [exists_mem_unionIssues fun m => m.isCycle = true] at happend
    refine happend.trans ?_
    simp [Cyclic, ← hnew, or_and_right, exists_or]
  exact ⟨⟨h.1.failures, fun hlog => hcyclic.mpr (h.1.logged hlog)⟩, hcyclic.trans h.2⟩

/-- A failure is not remembered with an issue about a loop. -/
theorem Tells.failing (h : s.Tells s' met) (key : Key) (issues : List Issue) :
    s.Tells (s'.failing key issues) met := by
  unfold State.failing
  split
  · split
    · next hlasting =>
      have hissues : ∀ issue ∈ issues, issue.message.isCycle = false := by
        simp only [isLasting, Bool.and_eq_true, Bool.not_eq_true', List.any_eq_false] at hlasting
        exact fun issue hi => by simpa using hlasting.2 issue hi
      exact ⟨⟨List.forall_mem_cons.mpr ⟨hissues, h.1.failures⟩, h.1.logged⟩, h.2⟩
    · exact h
  · exact h

end State

/-- Whether no job complains of a loop, and the queries for links tell of the loops that they
reach. -/
structure Discloses (resolver : Resolver) (context : Context) (jobs : List Job) : Prop where
  /-- Complaints are not about loops. -/
  complain : ∀ issue, .complain issue ∈ jobs → issue.message.isCycle = false
  /-- Queries grow their states. -/
  grows : Grows resolver (following resolver) context jobs
  /-- Queries tell of the loops that they reach. -/
  tells : ∀ l s, .link l ∈ jobs → s.Consistent resolver → context.Placed resolver s.graph →
    s.Faithful → ∀ a s', (l.query context s).outcome resolver = .ok (a, s') →
      (l.query context s).state.Tells s'
        (∃ d, (l.query context s).Reaches resolver d ∧ d.Loops resolver)

/-- What is disclosed by many jobs is disclosed by fewer. -/
theorem Discloses.mono {context : Context} {jobs jobs' : List Job}
    (h : Discloses resolver context jobs) (hsub : ∀ job ∈ jobs', job ∈ jobs) :
    Discloses resolver context jobs' :=
  ⟨fun issue hi => h.complain issue (hsub _ hi), h.grows.mono fun _ hl => hsub _ hl,
    fun l s hl => h.tells l s (hsub _ hl)⟩

/-- What a list of jobs discloses the first one does, and the others do. -/
theorem Discloses.of_cons {context : Context} {job : Job} {jobs : List Job}
    (h : Discloses resolver context (job :: jobs)) :
    Discloses resolver context [job] ∧ Discloses resolver context jobs :=
  ⟨h.mono (List.forall_mem_singleton.mpr List.mem_cons_self),
    h.mono fun _ hj => List.mem_cons_of_mem _ hj⟩

/-- Whether a call of a list reaches a query that closes a loop. -/
def Meets (resolver : Resolver) (cs : List Call) : Prop :=
  ∃ c ∈ cs, ∃ d, c.query.Reaches resolver d ∧ d.Loops resolver

section Work

variable {context : Context} {node : NodeId}

/-- A job tells of the loops that its call reaches. -/
theorem perform_tells {job : Job} (hdiscloses : Discloses resolver context [job]) {s s' : State}
    {b : Bool} (hs : s.Consistent resolver) (hp : context.Placed resolver s.graph)
    (hfaithful : s.Faithful) (h : perform (following resolver) context node job s = .ok (b, s')) :
    s.Tells s' (Meets resolver (job.call? context s).toList) := by
  cases job with
  | complain issue =>
    rw [perform_complain] at h
    cases h
    refine State.tells_complained hfaithful (List.forall_mem_singleton.mpr ?_) ?_
    · exact hdiscloses.complain issue (List.mem_singleton_self _)
    · simp [Meets, Job.call?]
  | link l =>
    have htells := hdiscloses.tells l s (List.mem_singleton_self _) hs hp hfaithful
    have hcall : Meets resolver ((Job.link l).call? context s).toList ↔
        ∃ d, (l.query context s).Reaches resolver d ∧ d.Loops resolver := by
      simp [Meets, Job.call?]
    have hleave : ∀ {s₁ met}, (l.query context s).state.Tells s₁ met →
        s.Tells (l.leave s s₁) met := by
      intro s₁ met ht
      obtain ⟨wire, site, provides⟩ := l
      cases provides with
      | none => exact ht
      | some args => exact ⟨⟨ht.1.failures, ht.1.logged⟩, ht.2⟩
    refine State.Tells.congr ?_ hcall.symm
    rcases perform_link_eq_ok h with ⟨s₁, ha, -, rfl⟩ | ⟨n, s₁, g, ha, -, -, rfl⟩
    · exact hleave (htells none s₁ ha)
    · have ht := htells (some n) s₁ ha
      exact hleave ⟨⟨ht.1.failures, ht.1.logged⟩, ht.2⟩

/-- A list of jobs tells of the loops that its calls reach. -/
theorem performAll_tells {jobs : List Job} (hdiscloses : Discloses resolver context jobs)
    {s s' : State} {b : Bool} (hs : s.Consistent resolver) (hp : context.Placed resolver s.graph)
    (hfaithful : s.Faithful)
    (h : performAll (following resolver) context node jobs s = .ok (b, s')) :
    s.Tells s' (Meets resolver (calls (following resolver) context node jobs s)) := by
  induction jobs generalizing s s' b with
  | nil =>
    cases h
    exact .refl hfaithful (by simp [Meets, calls])
  | cons job jobs ih =>
    obtain ⟨hhere, hothers⟩ := hdiscloses.of_cons
    obtain ⟨b₁, s₁, b₂, hperform, hrest, -⟩ := performAll_cons_eq_ok h
    obtain ⟨hx, hs₁⟩ := perform_extends hhere.grows hs hp hperform
    have htells₁ := perform_tells hhere hs hp hfaithful hperform
    have htells₂ := ih hothers hs₁ (hp.of_extends hx.graph hs.graph hs₁.graph) htells₁.1 hrest
    refine (htells₁.trans htells₂).congr ?_
    rw [calls_cons_of_ok hperform]
    simp [Meets, or_and_right, exists_or]

/-- A choice between one alternative at most tells of the loops that its calls reach: when it is
rejected, its issues are recorded again. -/
theorem tryAll_tells {alternatives : List (List Job × Nat)} (hone : alternatives.length ≤ 1)
    (hdiscloses : Discloses resolver context (alternatives.flatMap Prod.fst)) {s s' : State}
    {b : Bool} (hs : s.Consistent resolver) (hp : context.Placed resolver s.graph)
    (hfaithful : s.Faithful)
    (h : tryAll (following resolver) context node alternatives [] s = .ok (b, s')) :
    s.Tells s' (∃ a ∈ tried (following resolver) context node alternatives s,
      Meets resolver (calls (following resolver) context node a.jobs a.state)) := by
  match alternatives, hone with
  | [], _ =>
    cases h
    exact State.tells_complained hfaithful (by simp) (by simp [tried])
  | [(jobs, index)], _ =>
    have hjobs : Discloses resolver context jobs :=
      hdiscloses.mono fun job hj => by simpa using hj
    rcases tryAll_cons_eq_ok h with ⟨s₁, g, hall, hg, rfl, rfl⟩ | ⟨s₁, r, hall, hback, hothers⟩
    · have htells := performAll_tells hjobs hs hp hfaithful hall
      rw [tried_cons_of_succeeds hall]
      have hnoted : s.Tells { s₁ with graph := g }
          (Meets resolver (calls (following resolver) context node jobs s)) :=
        ⟨⟨htells.1.failures, htells.1.logged⟩, htells.2⟩
      exact hnoted.congr (by simp)
    · obtain ⟨hx, hs₁⟩ := performAll_extends hjobs.grows hs hp hall
      obtain ⟨g, hok, -, -, -, -⟩ := hx.rollback hs hs₁
      cases hback.symm.trans hok
      have htells := performAll_tells hjobs hs hp hfaithful hall
      cases hothers
      rw [tried_cons_of_ok hall hback, tried]
      exact (htells.restored hx g).congr (by simp)

/-- Work with one alternative at most tells of the loops that its calls meet. -/
theorem carryOut_tells {work : Work}
    (hone : ∀ alternatives, work = .choice alternatives → alternatives.length ≤ 1)
    (hdiscloses : Discloses resolver context work.jobs) {s s' : State} {b : Bool}
    (hs : s.Consistent resolver) (hp : context.Placed resolver s.graph) (hfaithful : s.Faithful)
    (h : work.carryOut (following resolver) context node s = .ok (b, s')) :
    s.Tells s' (∃ a ∈ work.attempts (following resolver) context node s,
      Meets resolver (calls (following resolver) context node a.jobs a.state)) := by
  cases work with
  | once jobs =>
    have hjobs : Discloses resolver context jobs := hdiscloses
    have htells := performAll_tells hjobs hs hp hfaithful h
    exact htells.congr (by simp [Work.attempts])
  | choice alternatives => exact tryAll_tells (hone _ rfl) hdiscloses hs hp hfaithful h

end Work

/-- A binding of a table without choices has one alternative at most. -/
theorem length_le_one_of_rigid {r : Registration} (hr : r.recipe.constructors.length ≤ 1)
    (s : Substitution) {alternatives : List (List Job × Nat)}
    (h : workOf r s = .choice alternatives) : alternatives.length ≤ 1 := by
  unfold workOf at h
  split at h
  · cases h
  · next hrecipe =>
    cases h
    rw [hrecipe] at hr
    rw [List.length_map, preferenceOrder, (sortBy_perm _ _).length_eq, List.length_zipIdx]
    exact hr
  · split at h <;> cases h
  · cases h

namespace Query

variable {q : Query}

/-- What is complained of while a value is made is no loop. -/
theorem isCycle_of_complain {m : Making} (hm : q.verdict resolver = .ok (.make m)) {issue : Issue}
    (h : .complain issue ∈ m.work.jobs) : issue.message.isCycle = false := by
  cases verdict_grounds hm with
  | makeBinding =>
    rcases message_of_mem_workOf h with ⟨variableName, hmessage⟩ | hmessage <;>
      rw [hmessage] <;> rfl
  | makeShape => exact absurd h complain_not_mem_partJobs

/-- A query reaches a loop when it closes one itself or a call of one of its attempts reaches
one. -/
theorem reaches_loops_iff (q : Query) :
    (∃ d, q.Reaches resolver d ∧ d.Loops resolver) ↔
      q.Loops resolver ∨ ∃ a ∈ q.attempts resolver, Meets resolver (q.callsOf resolver a) := by
  constructor
  · rintro ⟨d, hd, hloops⟩
    rcases hd.cases_head with rfl | ⟨_, ⟨a, ha, c, hc, rfl⟩, hrest⟩
    · exact .inl hloops
    · exact .inr ⟨a, ha, c, hc, d, hrest, hloops⟩
  · rintro (hloops | ⟨a, ha, c, hc, d, hd, hloops⟩)
    · exact ⟨q, .refl, hloops⟩
    · exact ⟨d, .head ⟨a, ha, c, hc, rfl⟩ hd, hloops⟩

/-- A query that makes no value reaches a loop when it closes one. -/
theorem reaches_loops_of_not_makes (h : ∀ m, q.verdict resolver ≠ .ok (.make m)) :
    (∃ d, q.Reaches resolver d ∧ d.Loops resolver) ↔ q.Loops resolver := by
  have hnone : q.attempts resolver = [] := by
    unfold attempts
    split
    · next m hm => exact absurd hm (h m)
    · rfl
  simp [reaches_loops_iff, hnone]

/-- A query that makes no value tells of the loop that it closes. -/
theorem tells_of_not_makes (hq : q.Admissible resolver) (hfaithful : q.state.Faithful)
    (hnot : ∀ m, q.verdict resolver ≠ .ok (.make m)) {a : Option NodeId} {s' : State}
    (h : q.outcome resolver = .ok (a, s')) :
    q.state.Tells s' (∃ d, q.Reaches resolver d ∧ d.Loops resolver) := by
  obtain ⟨touched, hreached⟩ := q.reached_eq resolver
  have htouched : { q.state with touched }.Faithful := ⟨hfaithful.failures, hfaithful.logged⟩
  obtain ⟨v, hv, hsettle⟩ := outcome_eq_ok hq h
  refine State.Tells.congr ?_ (reaches_loops_of_not_makes hnot).symm
  have hquiet : (∀ members path, v ≠ .loop members path) → ¬ q.Loops resolver := by
    rintro hloop ⟨members, path, hloops⟩
    exact hloop members path (Except.ok.inj (hv.symm.trans hloops))
  cases v with
  | argument found =>
    have hnone := hquiet (by simp)
    obtain ⟨type, ⟨block, index⟩ | n⟩ := found
    · cases hsettle
      exact ⟨⟨hfaithful.failures, hfaithful.logged⟩, by simp [State.Cyclic, hnone]⟩
    · cases hsettle
      exact .refl hfaithful hnone
  | unresolved =>
    cases hsettle
    exact State.tells_complained hfaithful (List.forall_mem_singleton.mpr rfl)
      (hquiet (by simp))
  | linked n =>
    cases hsettle
    rw [hreached]
    exact ⟨htouched, by simp [State.Cyclic, hquiet (by simp)]⟩
  | loop members path =>
    cases hsettle
    rw [hreached]
    exact State.tells_looping htouched members path q.site.location ⟨members, path, hv⟩
  | recalled issues =>
    cases hsettle
    cases verdict_grounds hv with | recalled hknown
    rw [hreached]
    exact State.tells_complained htouched (hfaithful.failures _ hknown) (hquiet (by simp))
  | make m => exact absurd hv (hnot m)

/-- Work that begins leaves failures, reported loops and issues as they are. -/
theorem begun_faithful (resolver : Resolver) (q : Query) (m : Making)
    (hfaithful : q.state.Faithful) :
    (q.begun resolver m).Faithful ∧ (q.begun resolver m).issues = q.state.issues := by
  obtain ⟨touched, hreached⟩ := q.reached_eq resolver
  simp only [begun, hreached]
  exact ⟨⟨hfaithful.failures, hfaithful.logged⟩, trivial⟩

/-- The work for a value tells of what the queries asked for it tell of. -/
theorem Proper.discloses (hq : q.Proper resolver) {m : Making}
    (hv : q.verdict resolver = .ok (.make m))
    (htells : ∀ r : Query, r.Below resolver q → r.Proper resolver → r.state.Faithful → ∀ a s',
      r.outcome resolver = .ok (a, s') →
        r.state.Tells s' (∃ d, r.Reaches resolver d ∧ d.Loops resolver)) :
    Discloses resolver (q.inner m.key q.nodeNumber) m.work.jobs := by
  refine ⟨fun issue hi => isCycle_of_complain hv hi, hq.grows hv,
    fun l s hl hs hp hfaithful a s' ha => ?_⟩
  refine htells _ ⟨m, l, _, s, hv, hl, rfl⟩ (hq.asked hv hl hs hp) ?_ a s' ha
  obtain ⟨wire, site, provides⟩ := l
  cases provides with
  | none => exact hfaithful
  | some args => exact ⟨hfaithful.failures, hfaithful.logged⟩

/-- Over a table without choices, a query tells of the loops that it reaches. -/
theorem outcome_tells (ht : resolver.table.Rigid) (hq : q.Proper resolver)
    (hfaithful : q.state.Faithful) {a : Option NodeId} {s' : State}
    (h : q.outcome resolver = .ok (a, s')) :
    q.state.Tells s' (∃ d, q.Reaches resolver d ∧ d.Loops resolver) := by
  have hadmissible := hq.toAdmissible
  induction q, hadmissible using Admissible.induct generalizing a s' with | step q hadmissible ih
  by_cases hmakes : ∃ m, q.verdict resolver = .ok (.make m)
  · obtain ⟨m, hv⟩ := hmakes
    have hgrounds := verdict_grounds hv
    have hone : ∀ alternatives, m.work = .choice alternatives → alternatives.length ≤ 1 := by
      intro alternatives hwork
      cases hgrounds with
      | makeBinding hres hr =>
        exact length_le_one_of_rigid (ht.single _ (List.mem_of_getElem? hr)) _ hwork
      | makeShape => cases hwork
    have hdiscloses := hq.discloses hv fun r hr hask hrfaithful a s' ha =>
      ih r hr hask hrfaithful ha
    obtain ⟨hbegun, hissues⟩ := q.begun_faithful resolver m hfaithful
    have hloops : ¬ q.Loops resolver := by
      rintro ⟨members, path, hloops⟩
      cases hv.symm.trans hloops
    have hwork : ∀ {b s₁}, m.work.carryOut (following resolver) (q.inner m.key q.nodeNumber)
        q.nodeNumber (q.begun resolver m) = .ok (b, s₁) →
        q.state.Tells s₁ (∃ d, q.Reaches resolver d ∧ d.Loops resolver) := by
      intro b s₁ hcarry
      have htells := carryOut_tells hone hdiscloses (begun_consistent hq hgrounds)
        (begun_placed hq hgrounds) hbegun hcarry
      refine (htells.of_issues_eq hissues).congr ?_
      rw [reaches_loops_iff]
      simp only [attempts, callsOf, hv, hloops, false_or]
    obtain ⟨s₁, ⟨-, rfl, hcarry⟩ | ⟨-, rfl, hcarry⟩⟩ := outcome_make_cases hadmissible hv h
    · exact (hwork hcarry).sharing _ _
    · exact (hwork hcarry).failing _ _
  · exact tells_of_not_makes hadmissible hfaithful (fun m hm => hmakes ⟨m, hm⟩) h

end Query

end Injector.Wiring

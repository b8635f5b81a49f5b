import Injector.Proofs.Diagnostic.Sink
import Injector.Proofs.Wiring.Completion
import Mathlib.Tactic.ByContra
import Mathlib.Tactic.Tauto

/-!
# What is found on the way

A query that fails adds issues, all of them errors whatever the hints say, unless it stalls: it
closes a loop that was reported before, or every attempt for its value fails by stalling alone. The
main statements are that a query without an answer adds no issue exactly when it stalls, and that
one with an answer never adds any.
-/

namespace Injector

namespace Wiring

variable {resolver : Resolver}

namespace Query

/-- Whether a query has no answer. -/
def Fails (resolver : Resolver) (q : Query) : Prop := ∃ s', q.outcome resolver = .ok (none, s')

/-- Whether a query fails only because of loops that were reported before. -/
inductive Stalls (resolver : Resolver) : Query → Prop
  /-- The loop that the query closes was reported. -/
  | loop {q : Query} {members : List String} {path : String}
      (hv : q.verdict resolver = .ok (.loop members path))
      (hlog : CycleLog.leastRotation members ∈ q.state.cycles.loops) : Stalls resolver q
  /-- Every attempt for the value fails, and only by queries that stall. -/
  | made {q : Query} {m : Making} (hv : q.verdict resolver = .ok (.make m))
      (hquiet : ∀ a ∈ q.attempts resolver, ∀ issue, .complain issue ∉ a.jobs)
      (hfails : ∀ a ∈ q.attempts resolver,
        ∃ c ∈ q.callsOf resolver a, c.query.Fails resolver)
      (hstalls : ∀ a ∈ q.attempts resolver, ∀ c ∈ q.callsOf resolver a,
        c.query.Fails resolver → Stalls resolver c.query) : Stalls resolver q

/-- Whether a query adds no issue: it has an answer or stalls. -/
def Hushed (resolver : Resolver) (q : Query) : Prop := q.Fails resolver → q.Stalls resolver

end Query

/-- Whether the issues of remembered failures are errors whatever the hints say. -/
def State.Grave (s : State) : Prop := ∀ f ∈ s.failures, ∀ issue ∈ f.2, issue.message.Grave

/-- Whether a state adds to the issues of another, only errors and, exactly when `silent` holds, no
issue at all. -/
def State.Finds (s s' : State) (silent : Prop) : Prop :=
  s'.Grave ∧ ∃ new, s'.issues = s.issues ++ new ∧ (∀ issue ∈ new, issue.message.Grave) ∧
    (new = [] ↔ silent)

/-- A state finds nothing new in itself. -/
theorem State.Finds.refl {s : State} (h : s.Grave) {silent : Prop} (hs : silent) :
    s.Finds s silent :=
  ⟨h, [], by simp, by simp, by simpa using hs⟩

/-- What is found in two stages is silent when both are. -/
theorem State.Finds.trans {s s' s'' : State} {p q : Prop} (h : s.Finds s' p)
    (h' : s'.Finds s'' q) : s.Finds s'' (p ∧ q) := by
  obtain ⟨-, new, heq, hgrave, hp⟩ := h
  obtain ⟨hs, new', heq', hgrave', hq⟩ := h'
  refine ⟨hs, new ++ new', by rw [heq', heq, List.append_assoc],
    List.forall_mem_append.mpr ⟨hgrave, hgrave'⟩, ?_⟩
  rw [List.append_eq_nil_iff, hp, hq]

/-- When nothing is found may be said in other words. -/
theorem State.Finds.congr {s s' : State} {p q : Prop} (h : s.Finds s' p) (hpq : p ↔ q) :
    s.Finds s' q := by
  obtain ⟨hs, new, heq, hgrave, hp⟩ := h
  exact ⟨hs, new, heq, hgrave, hp.trans hpq⟩

/-- What is found depends on the issues alone that there were. -/
theorem State.Finds.of_issues_eq {s s₁ s' : State} {p : Prop} (h : s₁.Finds s' p)
    (hissues : s₁.issues = s.issues) : s.Finds s' p := by
  obtain ⟨hs, new, heq, hgrave, hp⟩ := h
  exact ⟨hs, new, hissues ▸ heq, hgrave, hp⟩

/-- Noting a node to be shared finds nothing. -/
theorem State.Finds.sharing {s s' : State} {p : Prop} (h : s.Finds s' p) (key : Option SharedKey)
    (n : NodeId) : s.Finds (s'.sharing key n) p := by
  cases key <;> exact h

/-- The failure that is remembered consists of the issues that were added. -/
theorem State.Finds.failing {s s' : State} {p : Prop} (h : s.Finds s' p) (key : Key) :
    s.Finds (s'.failing key (s'.issues.drop s.issues.length)) p := by
  obtain ⟨hgrave, new, heq, hnew, hp⟩ := h
  have hdrop : s'.issues.drop s.issues.length = new := by simp [heq]
  rw [hdrop]
  unfold State.failing
  split
  · split
    · exact ⟨List.forall_mem_cons.mpr ⟨hnew, hgrave⟩, new, heq, hnew, hp⟩
    · exact ⟨hgrave, new, heq, hnew, hp⟩
  · exact ⟨hgrave, new, heq, hnew, hp⟩

/-- A loop is an issue when it is met for the first time. -/
theorem State.finds_looping {s : State} (h : s.Grave) (members : List String) (path : String)
    (location : Location) :
    s.Finds (s.looping members path location)
      (CycleLog.leastRotation members ∈ s.cycles.loops) := by
  rw [State.looping, CycleLog.report]
  split
  · next hlog => exact .refl h hlog
  · next hnew =>
    refine ⟨h, _, rfl, List.forall_mem_singleton.mpr rfl, ?_⟩
    exact iff_of_false (List.cons_ne_nil _ _) hnew

/-- Whether the issues of some jobs are errors, and the queries for their links add only errors, and
none exactly when they are hushed. -/
structure Reveals (resolver : Resolver) (context : Context) (jobs : List Job) : Prop where
  /-- Complaints are errors. -/
  complain : ∀ issue, .complain issue ∈ jobs → issue.message.Grave
  /-- Queries grow their states. -/
  grows : Grows resolver (following resolver) context jobs
  /-- Queries add only errors. -/
  finds : ∀ l s, .link l ∈ jobs → s.Consistent resolver → context.Placed resolver s.graph →
    s.Grave → ∀ a s', (l.query context s).outcome resolver = .ok (a, s') →
      (l.query context s).state.Finds s' ((l.query context s).Hushed resolver)

/-- What is revealed by many jobs is revealed by fewer. -/
theorem Reveals.mono {context : Context} {jobs jobs' : List Job}
    (h : Reveals resolver context jobs) (hsub : ∀ job ∈ jobs', job ∈ jobs) :
    Reveals resolver context jobs' :=
  ⟨fun issue hi => h.complain issue (hsub _ hi), h.grows.mono fun _ hl => hsub _ hl,
    fun l s hl => h.finds l s (hsub _ hl)⟩

/-- What a list of jobs reveals the first one does, and the others do. -/
theorem Reveals.of_cons {context : Context} {job : Job} {jobs : List Job}
    (h : Reveals resolver context (job :: jobs)) :
    Reveals resolver context [job] ∧ Reveals resolver context jobs :=
  ⟨h.mono (List.forall_mem_singleton.mpr List.mem_cons_self),
    h.mono fun _ hj => List.mem_cons_of_mem _ hj⟩

/-- What all alternatives reveal the first one does, and the others do. -/
theorem Reveals.of_flatMap_cons {context : Context} {first : List Job × Nat}
    {rest : List (List Job × Nat)}
    (h : Reveals resolver context ((first :: rest).flatMap Prod.fst)) :
    Reveals resolver context first.1 ∧ Reveals resolver context (rest.flatMap Prod.fst) := by
  rw [List.flatMap_cons] at h
  exact ⟨h.mono fun _ hj => List.mem_append_left _ hj,
    h.mono fun _ hj => List.mem_append_right _ hj⟩

section Work

variable {context : Context} {node : NodeId}

/-- Whether an attempt has an answer to every call and no complaint. -/
def Attempt.Succeeds (resolver : Resolver) (context : Context) (node : NodeId) (a : Attempt) :
    Prop :=
  (∀ issue, .complain issue ∉ a.jobs) ∧
    ∀ c ∈ calls (following resolver) context node a.jobs a.state, ¬ c.query.Fails resolver

/-- Whether an attempt has no complaint and every call of it is hushed. -/
def Attempt.Hushed (resolver : Resolver) (context : Context) (node : NodeId) (a : Attempt) :
    Prop :=
  (∀ issue, .complain issue ∉ a.jobs) ∧
    ∀ c ∈ calls (following resolver) context node a.jobs a.state, c.query.Hushed resolver

/-- An attempt that succeeds is hushed. -/
theorem Attempt.Succeeds.hushed {a : Attempt} (h : a.Succeeds resolver context node) :
    a.Hushed resolver context node :=
  ⟨h.1, fun c hc hfails => absurd hfails (h.2 c hc)⟩

/-- An attempt that does not succeed without a complaint has a call without an answer. -/
theorem Attempt.exists_fails {a : Attempt} (h : ¬ a.Succeeds resolver context node)
    (hquiet : ∀ issue, .complain issue ∉ a.jobs) :
    ∃ c ∈ calls (following resolver) context node a.jobs a.state, c.query.Fails resolver := by
  by_contra hnone
  exact h ⟨hquiet, fun c hc hfails => hnone ⟨c, hc, hfails⟩⟩

/-- What a list of jobs complains of and asks for is what its first job and the others do. -/
theorem forall_calls_cons_iff {job : Job} {jobs : List Job} {s s₁ : State} {b : Bool}
    (h : perform (following resolver) context node job s = .ok (b, s₁)) (p : Query → Prop) :
    ((∀ issue, .complain issue ∉ job :: jobs) ∧
      ∀ c ∈ calls (following resolver) context node (job :: jobs) s, p c.query) ↔
    ((∀ issue, job ≠ .complain issue) ∧ ∀ c ∈ job.call? context s, p c.query) ∧
      (∀ issue, .complain issue ∉ jobs) ∧
        ∀ c ∈ calls (following resolver) context node jobs s₁, p c.query := by
  rw [calls_cons_of_ok h]
  simp only [List.forall_mem_append, List.mem_cons, not_or, forall_and, ne_eq,
    Option.mem_toList, @eq_comm _ job]
  tauto

/-- What a link complains of and asks for is its query. -/
theorem forall_call_link_iff (l : Link) (s : State) (p : Query → Prop) :
    ((∀ issue, Job.link l ≠ .complain issue) ∧
      ∀ c ∈ (Job.link l).call? context s, p c.query) ↔ p (l.query context s) := by
  simp [Job.call?]

/-- A job fails by a complaint or by a call without an answer. -/
theorem perform_true_iff {job : Job} {s s' : State} {b : Bool}
    (h : perform (following resolver) context node job s = .ok (b, s')) :
    b = true ↔ (∀ issue, job ≠ .complain issue) ∧
      ∀ c ∈ job.call? context s, ¬ c.query.Fails resolver := by
  cases job with
  | complain issue =>
    rw [perform_complain] at h
    cases h
    simp
  | link l =>
    rw [forall_call_link_iff l s fun q => ¬ q.Fails resolver]
    rcases perform_link_eq_ok h with ⟨s₁, ha, rfl, -⟩ | ⟨n, s₁, g, ha, hg, rfl, -⟩
    · exact iff_of_false Bool.false_ne_true (not_not_intro ⟨s₁, ha⟩)
    · refine iff_of_true rfl ?_
      rintro ⟨s₂, hnone⟩
      cases hnone.symm.trans ha

/-- A list of jobs succeeds when it is a successful attempt. -/
theorem performAll_true_iff {jobs : List Job} {s s' : State} {b : Bool}
    (h : performAll (following resolver) context node jobs s = .ok (b, s')) :
    b = true ↔ Attempt.Succeeds resolver context node ⟨jobs, s⟩ := by
  induction jobs generalizing s s' b with
  | nil =>
    cases h
    simp [Attempt.Succeeds, calls]
  | cons job jobs ih =>
    obtain ⟨b₁, s₁, b₂, hperform, hrest, rfl⟩ := performAll_cons_eq_ok h
    rw [Bool.and_eq_true, perform_true_iff hperform, ih hrest]
    exact (forall_calls_cons_iff hperform fun q => ¬ q.Fails resolver).symm

/-- A job adds the issue of its complaint or those of its call. -/
theorem perform_finds {job : Job} (hreveals : Reveals resolver context [job]) {s s' : State}
    {b : Bool} (hs : s.Consistent resolver) (hp : context.Placed resolver s.graph)
    (hgrave : s.Grave) (h : perform (following resolver) context node job s = .ok (b, s')) :
    s.Finds s' ((∀ issue, job ≠ .complain issue) ∧
      ∀ c ∈ job.call? context s, c.query.Hushed resolver) := by
  cases job with
  | complain issue =>
    rw [perform_complain] at h
    cases h
    refine ⟨hgrave, [issue], rfl, ?_, by simp⟩
    exact List.forall_mem_singleton.mpr (hreveals.complain issue (List.mem_singleton_self _))
  | link l =>
    have hfinds := hreveals.finds l s (List.mem_singleton_self _) hs hp hgrave
    have hleave : ∀ {s₁ p}, (l.query context s).state.Finds s₁ p → s.Finds (l.leave s s₁) p := by
      intro s₁ p hf
      obtain ⟨wire, site, provides⟩ := l
      cases provides <;> exact hf
    rw [forall_call_link_iff l s fun q => q.Hushed resolver]
    rcases perform_link_eq_ok h with ⟨s₁, ha, -, rfl⟩ | ⟨n, s₁, g, ha, hg, -, rfl⟩
    · exact hleave (hfinds none s₁ ha)
    · exact hleave (hfinds (some n) s₁ ha)

/-- A list of jobs adds issues unless it is hushed. -/
theorem performAll_finds {jobs : List Job} (hreveals : Reveals resolver context jobs)
    {s s' : State} {b : Bool} (hs : s.Consistent resolver) (hp : context.Placed resolver s.graph)
    (hgrave : s.Grave) (h : performAll (following resolver) context node jobs s = .ok (b, s')) :
    s.Finds s' (Attempt.Hushed resolver context node ⟨jobs, s⟩) := by
  induction jobs generalizing s s' b with
  | nil =>
    cases h
    exact .refl hgrave (by simp [Attempt.Hushed, calls])
  | cons job jobs ih =>
    obtain ⟨hhere, hothers⟩ := hreveals.of_cons
    obtain ⟨b₁, s₁, b₂, hperform, hrest, -⟩ := performAll_cons_eq_ok h
    obtain ⟨hx, hs₁⟩ := perform_extends hhere.grows hs hp hperform
    have hfinds₁ := perform_finds hhere hs hp hgrave hperform
    have hfinds₂ := ih hothers hs₁ (hp.of_extends hx.graph hs.graph hs₁.graph) hfinds₁.1 hrest
    exact (hfinds₁.trans hfinds₂).congr
      (forall_calls_cons_iff hperform fun q => q.Hushed resolver).symm

/-- A union adds nothing exactly when there was nothing and nothing is added. -/
theorem unionIssues_eq_nil_iff {found issues : List Issue} :
    unionIssues found issues = [] ↔ found = [] ∧ issues = [] := by
  induction issues generalizing found with
  | nil => simp [unionIssues]
  | cons issue rest ih =>
    rw [unionIssues]
    split
    · next hin =>
      rw [ih]
      obtain ⟨f, hf, -⟩ := List.any_eq_true.mp hin
      constructor
      · rintro ⟨rfl, -⟩
        cases hf
      · rintro ⟨rfl, -⟩
        cases hf
    · rw [ih]
      simp

/-- A union has the messages of both lists. -/
theorem exists_mem_unionIssues (p : Message → Prop) (found issues : List Issue) :
    (∃ issue ∈ unionIssues found issues, p issue.message) ↔
      (∃ issue ∈ found, p issue.message) ∨ ∃ issue ∈ issues, p issue.message := by
  induction issues generalizing found with
  | nil => simp [unionIssues]
  | cons issue rest ih =>
    rw [unionIssues]
    split
    · next hin =>
      obtain ⟨f, hf, hsame⟩ := List.any_eq_true.mp hin
      have hmessage : f.message = issue.message := by simpa using hsame
      rw [ih]
      simp only [List.mem_cons, exists_eq_or_imp]
      constructor
      · exact Or.imp_right .inr
      · rintro (hfound | hhere | hrest)
        · exact .inl hfound
        · exact .inl ⟨f, hf, hmessage ▸ hhere⟩
        · exact .inr hrest
    · rw [ih]
      simp [or_and_right, exists_or, or_assoc]

/-- A union has no issues of its own. -/
theorem mem_unionIssues {found issues : List Issue} {x : Issue}
    (h : x ∈ unionIssues found issues) : x ∈ found ∨ x ∈ issues := by
  induction issues generalizing found with
  | nil => exact .inl h
  | cons issue rest ih =>
    rw [unionIssues] at h
    split at h
    · exact (ih h).imp_right (List.mem_cons_of_mem _)
    · rcases ih h with h | h
      · rcases List.mem_append.mp h with h | h
        · exact .inl h
        · exact .inr (List.mem_singleton.mp h ▸ List.mem_cons_self)
      · exact .inr (List.mem_cons_of_mem _ h)

/-- A choice succeeds when one of its attempts does, which adds no issue; otherwise it adds issues
unless all its attempts are hushed. -/
theorem tryAll_finds {alternatives : List (List Job × Nat)} {found : List Issue}
    (hreveals : Reveals resolver context (alternatives.flatMap Prod.fst)) {s s' : State} {b : Bool}
    (hs : s.Consistent resolver) (hp : context.Placed resolver s.graph) (hgrave : s.Grave)
    (hfound : ∀ issue ∈ found, issue.message.Grave)
    (h : tryAll (following resolver) context node alternatives found s = .ok (b, s')) :
    (b = true ↔ ∃ a ∈ tried (following resolver) context node alternatives s,
      a.Succeeds resolver context node) ∧
    s.Finds s' (b = true ∨ found = [] ∧
      ∀ a ∈ tried (following resolver) context node alternatives s,
        a.Hushed resolver context node) := by
  induction alternatives generalizing s s' b found with
  | nil =>
    cases h
    refine ⟨by simp [tried], hgrave, found, rfl, hfound, by simp [tried]⟩
  | cons first rest ih =>
    obtain ⟨jobs, index⟩ := first
    obtain ⟨hjobs, hrest⟩ := hreveals.of_flatMap_cons
    rcases tryAll_cons_eq_ok h with ⟨s₁, g, hall, hg, rfl, rfl⟩ | ⟨s₁, r, hall, hback, hothers⟩
    · have hfinds := performAll_finds hjobs hs hp hgrave hall
      have hsucceeds := (performAll_true_iff hall).mp rfl
      rw [tried_cons_of_succeeds hall]
      refine ⟨iff_of_true rfl ⟨_, List.mem_singleton_self _, hsucceeds⟩, ?_⟩
      exact (show s.Finds { s₁ with graph := g } _ from hfinds).congr
        (iff_of_true hsucceeds.hushed (.inl rfl))
    · obtain ⟨hx, hs₁⟩ := performAll_extends hjobs.grows hs hp hall
      obtain ⟨g, hok, hx₂, hs₂, -, -⟩ := hx.rollback hs hs₁
      cases hback.symm.trans hok
      obtain ⟨hgrave₁, new, heq, hnew, hhushed⟩ := performAll_finds hjobs hs hp hgrave hall
      have hdrop : s₁.issues.drop s.issues.length = new := by simp [heq]
      rw [hdrop] at hothers
      have hunion : ∀ issue ∈ unionIssues found new, issue.message.Grave := fun issue hi =>
        (mem_unionIssues hi).elim (hfound issue) (hnew issue)
      obtain ⟨hb', hfinds⟩ := ih hrest hs₂ (hp.of_extends hx₂.graph hs.graph hs₂.graph) hgrave₁
        hunion hothers
      have hfailed : ¬ Attempt.Succeeds resolver context node ⟨jobs, s⟩ :=
        fun hsucceeds => Bool.false_ne_true ((performAll_true_iff hall).mpr hsucceeds)
      rw [tried_cons_of_ok hall hback]
      refine ⟨?_, State.Finds.congr (show s.Finds s' _ from hfinds) ?_⟩
      · rw [hb']
        simp [hfailed]
      · rw [unionIssues_eq_nil_iff, hhushed, List.forall_mem_cons, and_assoc]

/-- Work succeeds when one of its attempts does, and adds issues unless it succeeds or all its
attempts are hushed. -/
theorem carryOut_finds {work : Work} (hreveals : Reveals resolver context work.jobs) {s s' : State}
    {b : Bool} (hs : s.Consistent resolver) (hp : context.Placed resolver s.graph)
    (hgrave : s.Grave) (h : work.carryOut (following resolver) context node s = .ok (b, s')) :
    (b = true ↔ ∃ a ∈ work.attempts (following resolver) context node s,
      a.Succeeds resolver context node) ∧
    s.Finds s' (b = true ∨ ∀ a ∈ work.attempts (following resolver) context node s,
      a.Hushed resolver context node) := by
  cases work with
  | once jobs =>
    have hb := performAll_true_iff h
    have hfinds := performAll_finds hreveals hs hp hgrave h
    simp only [Work.attempts, List.mem_singleton, exists_eq_left, forall_eq]
    refine ⟨hb, hfinds.congr ⟨.inr, fun hor => ?_⟩⟩
    exact hor.elim (fun htrue => (hb.mp htrue).hushed) id
  | choice alternatives =>
    obtain ⟨hb, hfinds⟩ := tryAll_finds hreveals hs hp hgrave (by simp) h
    exact ⟨hb, hfinds.congr (by simp [Work.attempts])⟩

end Work

namespace Query

variable {q : Query}

/-- What is complained of while a value is made are errors. -/
theorem grave_of_complain {m : Making} (hm : q.verdict resolver = .ok (.make m)) {issue : Issue}
    (h : .complain issue ∈ m.work.jobs) : issue.message.Grave := by
  cases verdict_grounds hm with
  | makeBinding =>
    rcases message_of_mem_workOf h with ⟨variableName, hmessage⟩ | hmessage <;>
      rw [hmessage] <;> rfl
  | makeShape => exact absurd h complain_not_mem_partJobs

/-- A query with an answer is hushed. -/
theorem hushed_of_answer {n : NodeId} {s' : State} (h : q.outcome resolver = .ok (some n, s')) :
    q.Hushed resolver := by
  rintro ⟨s₁, hnone⟩
  cases hnone.symm.trans h

/-- A query that closes a loop is hushed when the loop was reported before. -/
theorem hushed_loop_iff {members : List String} {path : String}
    (hv : q.verdict resolver = .ok (.loop members path)) (hfails : q.Fails resolver) :
    q.Hushed resolver ↔ CycleLog.leastRotation members ∈ q.state.cycles.loops := by
  refine ⟨fun hhushed => ?_, fun hlog _ => .loop hv hlog⟩
  rcases hhushed hfails with ⟨hv', hlog⟩ | ⟨hv', -⟩
  · cases hv.symm.trans hv'
    exact hlog
  · cases hv.symm.trans hv'

/-- A query that fails is hushed only if it closes a loop or asks for a value. -/
theorem not_hushed {v : Verdict} (hv : q.verdict resolver = .ok v) (hfails : q.Fails resolver)
    (hloop : ∀ members path, v ≠ .loop members path) (hmake : ∀ m, v ≠ .make m) :
    ¬ q.Hushed resolver := by
  intro hhushed
  rcases hhushed hfails with ⟨hv', -⟩ | ⟨hv', -⟩
  · exact hloop _ _ (Except.ok.inj (hv.symm.trans hv'))
  · exact hmake _ (Except.ok.inj (hv.symm.trans hv'))

/-- A value stalls when all its attempts are hushed and none succeeds. -/
theorem stalls_make_iff {m : Making} (hm : q.verdict resolver = .ok (.make m))
    (hfailed : ¬ ∃ a ∈ m.work.attempts (following resolver) (q.inner m.key q.nodeNumber)
      q.nodeNumber (q.begun resolver m), a.Succeeds resolver (q.inner m.key q.nodeNumber)
        q.nodeNumber) :
    q.Stalls resolver ↔ ∀ a ∈ m.work.attempts (following resolver) (q.inner m.key q.nodeNumber)
      q.nodeNumber (q.begun resolver m), a.Hushed resolver (q.inner m.key q.nodeNumber)
        q.nodeNumber := by
  have hattempts : q.attempts resolver = m.work.attempts (following resolver)
      (q.inner m.key q.nodeNumber) q.nodeNumber (q.begun resolver m) := by
    rw [attempts, hm]
  have hcalls : ∀ a, q.callsOf resolver a = calls (following resolver)
      (q.inner m.key q.nodeNumber) q.nodeNumber a.jobs a.state := by
    intro a
    rw [callsOf, hm]
  rw [← hattempts] at hfailed ⊢
  constructor
  · rintro (⟨hv, -⟩ | ⟨hv, hquiet, -, hstalls⟩) a ha
    · cases hm.symm.trans hv
    · exact ⟨hquiet a ha, fun c hc => hstalls a ha c (hcalls a ▸ hc)⟩
  · intro h
    refine .made hm (fun a ha => (h a ha).1) (fun a ha => ?_) fun a ha c hc => ?_
    · rw [hcalls]
      exact Attempt.exists_fails (fun hsucceeds => hfailed ⟨a, ha, hsucceeds⟩) (h a ha).1
    · exact (h a ha).2 c (hcalls a ▸ hc)

/-- Work that begins leaves failures and issues as they are. -/
theorem begun_grave (resolver : Resolver) (q : Query) (m : Making) (hgrave : q.state.Grave) :
    (q.begun resolver m).Grave ∧ (q.begun resolver m).issues = q.state.issues := by
  obtain ⟨touched, heq⟩ := q.reached_eq resolver
  simp only [begun, heq]
  exact ⟨hgrave, trivial⟩

/-- The work for a value finds what the queries asked for it find. -/
theorem Proper.reveals (hq : q.Proper resolver) {m : Making}
    (hv : q.verdict resolver = .ok (.make m))
    (hfinds : ∀ r : Query, r.Below resolver q → r.Proper resolver → r.state.Grave → ∀ a s',
      r.outcome resolver = .ok (a, s') → r.state.Finds s' (r.Hushed resolver)) :
    Reveals resolver (q.inner m.key q.nodeNumber) m.work.jobs := by
  refine ⟨fun issue hi => grave_of_complain hv hi, hq.grows hv,
    fun l s hl hs hp hgrave a s' ha => ?_⟩
  refine hfinds _ ⟨m, l, _, s, hv, hl, rfl⟩ (hq.asked hv hl hs hp) ?_ a s' ha
  obtain ⟨wire, site, provides⟩ := l
  cases provides <;> exact hgrave

/-- What following a query finds are errors, and nothing exactly when it has an answer or stalls. -/
theorem outcome_finds (hq : q.Proper resolver) (hgrave : q.state.Grave) {a : Option NodeId}
    {s' : State} (h : q.outcome resolver = .ok (a, s')) :
    q.state.Finds s' (q.Hushed resolver) := by
  have hadmissible := hq.toAdmissible
  induction q, hadmissible using Admissible.induct generalizing a s' with | step q hadmissible ih
  obtain ⟨touched, hreached⟩ := q.reached_eq resolver
  obtain ⟨v, hv, hsettle⟩ := outcome_eq_ok hadmissible h
  cases v with
  | argument found =>
    obtain ⟨type, ⟨block, index⟩ | n⟩ := found
    · cases hsettle
      exact .refl hgrave (hushed_of_answer h)
    · cases hsettle
      exact .refl hgrave (hushed_of_answer h)
  | unresolved =>
    cases hsettle
    refine ⟨hgrave, _, rfl, List.forall_mem_singleton.mpr rfl, ?_⟩
    exact iff_of_false (List.cons_ne_nil _ _) (not_hushed hv ⟨_, h⟩ (by simp) (by simp))
  | linked n =>
    cases hsettle
    rw [hreached]
    exact .refl hgrave (hushed_of_answer h)
  | loop members path =>
    cases hsettle
    rw [hreached]
    have hfinds := State.finds_looping (s := { q.state with touched }) hgrave members path
      q.site.location
    exact hfinds.congr (hushed_loop_iff hv ⟨_, h⟩).symm
  | recalled issues =>
    cases hsettle
    cases verdict_grounds hv with | recalled hknown
    rw [hreached]
    refine ⟨hgrave, issues, rfl, hgrave _ hknown, ?_⟩
    exact iff_of_false (hq.consistent.failures _ hknown)
      (not_hushed hv ⟨_, h⟩ (by simp) (by simp))
  | make m =>
    have hreveals := hq.reveals hv fun r hr hask hrgrave a s' ha => ih r hr hask hrgrave ha
    have hbegun := q.begun_grave resolver m hgrave
    obtain ⟨s₁, ⟨rfl, rfl, hwork⟩ | ⟨rfl, rfl, hwork⟩⟩ := outcome_make_cases hadmissible hv h
    · obtain ⟨-, hfinds⟩ :=
        carryOut_finds hreveals (begun_consistent hq (verdict_grounds hv))
          (begun_placed hq (verdict_grounds hv)) hbegun.1 hwork
      have hhere := (hfinds.of_issues_eq hbegun.2).congr
        (iff_of_true (.inl rfl) (hushed_of_answer h))
      exact hhere.sharing _ _
    · obtain ⟨hb, hfinds⟩ :=
        carryOut_finds hreveals (begun_consistent hq (verdict_grounds hv))
          (begun_placed hq (verdict_grounds hv)) hbegun.1 hwork
      have hstalls := stalls_make_iff hv fun hsome => Bool.false_ne_true (hb.mpr hsome)
      refine ((hfinds.of_issues_eq hbegun.2).congr ?_).failing _
      rw [← hstalls]
      exact ⟨fun hor _ => hor.resolve_left Bool.false_ne_true, fun hhushed => .inr (hhushed ⟨_, h⟩)⟩

/-- A query that stalls has no answer. -/
theorem Stalls.answer_eq_none (h : q.Stalls resolver) (hq : q.Proper resolver)
    (hgrave : q.state.Grave) {a : Option NodeId} {s' : State}
    (hout : q.outcome resolver = .ok (a, s')) : a = none := by
  cases h with
  | loop hv hlog =>
    rw [outcome_eq hq.toAdmissible, hv] at hout
    cases hout
    rfl
  | made hv hquiet hfails hstalls =>
    have hadmissible := hq.toAdmissible
    obtain ⟨s₁, ⟨rfl, rfl, hwork⟩ | ⟨rfl, rfl, -⟩⟩ := outcome_make_cases hadmissible hv hout
    · have hreveals := hq.reveals hv fun r _ hr hrgrave a s' => outcome_finds hr hrgrave
      obtain ⟨hb, -⟩ := carryOut_finds hreveals (begun_consistent hq (verdict_grounds hv))
          (begun_placed hq (verdict_grounds hv))
        (q.begun_grave resolver _ hgrave).1 hwork
      obtain ⟨a, ha, hsucceeds⟩ := hb.mp rfl
      rw [attempts, hv] at hfails
      obtain ⟨c, hc, hcfails⟩ := hfails a ha
      rw [callsOf, hv] at hc
      exact absurd hcfails (hsucceeds.2 c hc)
    · rfl

end Query

end Wiring

end Injector

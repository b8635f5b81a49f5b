import Injector.Proofs.Wiring.Growth
import Mathlib.Logic.Relation

/-!
# What is asked on the way

To make a value, lists of jobs are attempted one after the other, and each asks queries. Those that
are asked for the value of a query, for the values that they ask for, and so on, are the queries
that it reaches. The main statement is that whatever a query reaches can be asked in a state that is
consistent and extends the one in which the query was asked.
-/

namespace Injector.Wiring

/-- A link and the query that is asked for it. -/
structure Call where
  /-- The link. -/
  link : Link
  /-- The query. -/
  query : Query

/-- Jobs that are attempted in a state. -/
structure Attempt where
  /-- The jobs. -/
  jobs : List Job
  /-- The state in which they are begun. -/
  state : State

/-- The call that a job makes in a state. -/
def Job.call? (context : Context) (s : State) : Job → Option Call
  | .complain _ => none
  | .link l => some ⟨l, l.query context s⟩

/-- The link that a job makes. -/
def Job.link? : Job → Option Link
  | .complain _ => none
  | .link l => some l

/-- The calls of a list of jobs, up to the first fault. -/
def calls (follow : Follow) (context : Context) (node : NodeId) : List Job → State → List Call
  | [], _ => []
  | job :: jobs, s =>
      (job.call? context s).toList ++
        match perform follow context node job s with
        | .error _ => []
        | .ok (_, s₁) => calls follow context node jobs s₁

/-- The alternatives that are attempted, up to the first that does not fail. -/
def tried (follow : Follow) (context : Context) (node : NodeId) :
    List (List Job × Nat) → State → List Attempt
  | [], _ => []
  | (jobs, _) :: rest, s =>
      ⟨jobs, s⟩ ::
        match performAll follow context node jobs s with
        | .ok (false, s₁) =>
            match rollback s.mark s₁ with
            | .ok (_, s₂) => tried follow context node rest s₂
            | .error _ => []
        | _ => []

/-- The attempts that are made for a value. -/
def Work.attempts (follow : Follow) (context : Context) (node : NodeId) :
    Work → State → List Attempt
  | .once jobs, s => [⟨jobs, s⟩]
  | .choice alternatives, s => tried follow context node alternatives s

section Work

variable {resolver : Resolver} {follow : Follow} {context : Context} {node : NodeId}

/-- The call of a first job comes before those of the others. -/
theorem calls_cons_of_ok {job : Job} {jobs : List Job} {s s₁ : State} {b : Bool}
    (h : perform follow context node job s = .ok (b, s₁)) :
    calls follow context node (job :: jobs) s =
      (job.call? context s).toList ++ calls follow context node jobs s₁ := by
  rw [calls, h]

/-- After a fault of the first job the others ask for nothing. -/
theorem calls_cons_of_error {job : Job} {jobs : List Job} {s : State} {e : Fault}
    (h : perform follow context node job s = .error e) :
    calls follow context node (job :: jobs) s = (job.call? context s).toList := by
  rw [calls, h, List.append_nil]

/-- The call of one job is that of its link. -/
theorem mem_calls_single {job : Job} {s : State} {c : Call}
    (hc : c ∈ (job.call? context s).toList) :
    job = .link c.link ∧ c.query = c.link.query context s := by
  cases job with
  | complain issue => cases hc
  | link l =>
    obtain rfl := List.mem_singleton.mp hc
    exact ⟨rfl, rfl⟩

/-- Of jobs that are carried out without a fault, every link is asked for. -/
theorem links_of_performAll {jobs : List Job} {s : State} {r : Bool × State}
    (h : performAll follow context node jobs s = .ok r) :
    (calls follow context node jobs s).map Call.link = jobs.filterMap Job.link? := by
  induction jobs generalizing s r with
  | nil => rfl
  | cons job jobs ih =>
    obtain ⟨b₁, s₁, b₂, hperform, hrest, -⟩ := performAll_cons_eq_ok h
    rw [calls_cons_of_ok hperform, List.map_append, ih hrest]
    cases job <;> rfl

/-- Jobs that all succeed record no issue. -/
theorem quiet_of_performAll {jobs : List Job} {s s' : State}
    (h : performAll follow context node jobs s = .ok (true, s')) :
    ∀ issue, .complain issue ∉ jobs := by
  intro issue hissue
  induction jobs generalizing s with
  | nil => cases hissue
  | cons job jobs ih =>
    obtain ⟨b₁, s₁, b₂, hperform, hrest, hboth⟩ := performAll_cons_eq_ok h
    obtain ⟨rfl, rfl⟩ := Bool.and_eq_true_iff.mp hboth.symm
    rcases List.mem_cons.mp hissue with rfl | hissue
    · rw [perform_complain] at hperform
      cases hperform
    · exact ih hrest hissue

/-- After an alternative is taken back, the others are attempted. -/
theorem tried_cons_of_ok {jobs : List Job} {index : Nat} {rest : List (List Job × Nat)}
    {s s₁ : State} {r : List Issue × State}
    (hall : performAll follow context node jobs s = .ok (false, s₁))
    (hback : rollback s.mark s₁ = .ok r) :
    tried follow context node ((jobs, index) :: rest) s =
      ⟨jobs, s⟩ :: tried follow context node rest r.2 := by
  rw [tried, hall]
  simp only [hback]

/-- An alternative that succeeds is the last to be attempted. -/
theorem tried_cons_of_succeeds {jobs : List Job} {index : Nat} {rest : List (List Job × Nat)}
    {s s₁ : State} (hall : performAll follow context node jobs s = .ok (true, s₁)) :
    tried follow context node ((jobs, index) :: rest) s = [⟨jobs, s⟩] := by
  rw [tried, hall]

/-- A call is asked for a link in a state that extends the first. -/
theorem mem_calls {jobs : List Job} (hgrows : Grows resolver follow context jobs) {s : State}
    (hs : s.Consistent resolver) (hp : context.Placed resolver s.graph) {c : Call}
    (hc : c ∈ calls follow context node jobs s) :
    .link c.link ∈ jobs ∧
      ∃ s₁, c.query = c.link.query context s₁ ∧ s.Extends s₁ ∧ s₁.Consistent resolver := by
  induction jobs generalizing s with
  | nil => cases hc
  | cons job jobs ih =>
    obtain ⟨hfirst, hothers⟩ := hgrows.of_cons
    have hown : c ∈ (job.call? context s).toList → .link c.link ∈ job :: jobs ∧
        ∃ s₁, c.query = c.link.query context s₁ ∧ s.Extends s₁ ∧ s₁.Consistent resolver := by
      intro hc
      obtain ⟨rfl, hquery⟩ := mem_calls_single hc
      exact ⟨List.mem_cons_self, s, hquery, .refl s, hs⟩
    cases hperform : perform follow context node job s with
    | error e =>
      rw [calls_cons_of_error hperform] at hc
      exact hown hc
    | ok r =>
      obtain ⟨b, s₁⟩ := r
      rw [calls_cons_of_ok hperform] at hc
      rcases List.mem_append.mp hc with hc | hc
      · exact hown hc
      · obtain ⟨hx, hs₁⟩ := perform_extends hfirst hs hp hperform
        obtain ⟨hl, s₂, heq, hx₂, hs₂⟩ :=
          ih hothers hs₁ (hp.of_extends hx.graph hs.graph hs₁.graph) hc
        exact ⟨List.mem_cons_of_mem _ hl, s₂, heq, hx.trans hx₂, hs₂⟩

/-- An attempt is made for one of the alternatives in a state that extends the first. -/
theorem mem_tried {alternatives : List (List Job × Nat)}
    (hgrows : Grows resolver follow context (alternatives.flatMap Prod.fst)) {s : State}
    (hs : s.Consistent resolver) (hp : context.Placed resolver s.graph) {a : Attempt}
    (ha : a ∈ tried follow context node alternatives s) :
    (∃ index, (a.jobs, index) ∈ alternatives) ∧ s.Extends a.state ∧
      a.state.Consistent resolver := by
  induction alternatives generalizing s with
  | nil => cases ha
  | cons first rest ih =>
    obtain ⟨jobs, index⟩ := first
    obtain ⟨hjobs, hrest⟩ := hgrows.of_flatMap_cons
    rw [tried] at ha
    rcases List.mem_cons.mp ha with rfl | ha
    · exact ⟨⟨index, List.mem_cons_self⟩, .refl s, hs⟩
    · split at ha
      · next s₁ hall =>
        obtain ⟨hx, hs₁⟩ := performAll_extends hjobs hs hp hall
        obtain ⟨g, hback, hx₂, hs₂, -, -⟩ := hx.rollback hs hs₁
        rw [hback] at ha
        obtain ⟨⟨i, hi⟩, hx₃, hs₃⟩ := ih hrest hs₂ (hp.of_extends hx₂.graph hs.graph hs₂.graph) ha
        exact ⟨⟨i, List.mem_cons_of_mem _ hi⟩, hx₂.trans hx₃, hs₃⟩
      · cases ha

/-- An attempt is made with jobs of the work, in a state that extends the one at the beginning. -/
theorem mem_attempts {work : Work} (hgrows : Grows resolver follow context work.jobs) {s : State}
    (hs : s.Consistent resolver) (hp : context.Placed resolver s.graph) {a : Attempt}
    (ha : a ∈ work.attempts follow context node s) :
    (∀ job ∈ a.jobs, job ∈ work.jobs) ∧ s.Extends a.state ∧ a.state.Consistent resolver := by
  cases work with
  | once jobs =>
    obtain rfl := List.mem_singleton.mp ha
    exact ⟨fun job hjob => hjob, .refl s, hs⟩
  | choice alternatives =>
    obtain ⟨⟨index, hmem⟩, hx, hc⟩ := mem_tried hgrows hs hp ha
    exact ⟨fun job hjob => List.mem_flatMap.mpr ⟨_, hmem, hjob⟩, hx, hc⟩

end Work

namespace Query

variable {resolver : Resolver} {q d : Query}

/-- The attempts that are made for the value that a query asks for. -/
def attempts (resolver : Resolver) (q : Query) : List Attempt :=
  match q.verdict resolver with
  | .ok (.make m) =>
      m.work.attempts (follow resolver (pathBound resolver)) (q.inner m.key q.nodeNumber)
        q.nodeNumber (q.begun resolver m)
  | _ => []

/-- The calls of an attempt for the value that a query asks for. -/
def callsOf (resolver : Resolver) (q : Query) (a : Attempt) : List Call :=
  match q.verdict resolver with
  | .ok (.make m) =>
      calls (follow resolver (pathBound resolver)) (q.inner m.key q.nodeNumber) q.nodeNumber
        a.jobs a.state
  | _ => []

/-- Whether `d` is asked for the value that `q` asks for, also by an attempt that fails. -/
def Asks (resolver : Resolver) (q d : Query) : Prop :=
  ∃ a ∈ q.attempts resolver, ∃ c ∈ q.callsOf resolver a, c.query = d

/-- Whether `d` is `q` or asked on the way from it. -/
def Reaches (resolver : Resolver) : Query → Query → Prop := Relation.ReflTransGen (Asks resolver)

section Seen

variable (resolver) (see : State → State)

/-- The attempts that are made for the value that a query asks for, as queries are seen. -/
def attemptsSeen (q : Query) : List Attempt :=
  match (q.seen see).verdict resolver with
  | .ok (.make m) =>
      m.work.attempts (seeing resolver see) (q.inner m.key q.nodeNumber) q.nodeNumber
        (q.begun resolver m)
  | _ => []

/-- The calls of an attempt for the value that a query asks for, as queries are seen. -/
def callsSeen (q : Query) (a : Attempt) : List Call :=
  match (q.seen see).verdict resolver with
  | .ok (.make m) =>
      calls (seeing resolver see) (q.inner m.key q.nodeNumber) q.nodeNumber a.jobs a.state
  | _ => []

/-- Whether `d` is asked for the value that `q` asks for, as queries are seen. -/
def AsksSeen (q d : Query) : Prop :=
  ∃ a ∈ q.attemptsSeen resolver see, ∃ c ∈ q.callsSeen resolver see a, c.query = d

/-- Whether `d` is `q` or asked on the way from it, as queries are seen. -/
def ReachesSeen : Query → Query → Prop := Relation.ReflTransGen (AsksSeen resolver see)

variable {resolver} {see}

/-- The queries for a value extend the states in which they are asked. -/
theorem Proper.growsSeen (hq : q.Proper resolver) {m : Making}
    (hm : (q.seen see).verdict resolver = .ok (.make m)) :
    Grows resolver (seeing resolver see) (q.inner m.key q.nodeNumber) m.work.jobs :=
  fun _ _ hl hs hp _ _ ha => outcomeSeen_extends see (hq.askedSeen see hm hl hs hp) ha

/-- A call for a value is made for a link of its attempt, after the node of the value is added. -/
theorem Proper.exists_linkSeen (hq : q.Proper resolver) {a : Attempt}
    (ha : a ∈ q.attemptsSeen resolver see) {c : Call} (hc : c ∈ q.callsSeen resolver see a) :
    ∃ m s, (q.seen see).verdict resolver = .ok (.make m) ∧ .link c.link ∈ a.jobs ∧
      .link c.link ∈ m.work.jobs ∧ c.query = c.link.query (q.inner m.key q.nodeNumber) s ∧
      (q.begun resolver m).Extends s ∧ s.Consistent resolver := by
  unfold attemptsSeen at ha
  unfold callsSeen at hc
  split at ha
  · next m hm =>
    rw [hm] at hc
    have hgrounds := (verdict_grounds hm).of_seen
    have hbegun := begun_consistent hq hgrounds
    obtain ⟨hjobs, hx, hs⟩ :=
      mem_attempts (hq.growsSeen hm) hbegun (begun_placed hq hgrounds) ha
    have hp := (begun_placed hq hgrounds).of_extends hx.graph hbegun.graph hs.graph
    obtain ⟨hl, s₁, heq, hx₁, hs₁⟩ :=
      mem_calls ((hq.growsSeen hm).mono fun l hl => hjobs _ hl) hs hp hc
    exact ⟨m, s₁, hm, hl, hjobs _ hl, heq, hx.trans hx₁, hs₁⟩
  · cases ha

/-- What a proper query asks under a view of the state is proper, and below what is seen of it. -/
theorem Proper.of_asksSeen (hq : q.Proper resolver) (h : q.AsksSeen resolver see d) :
    d.Proper resolver ∧ d.Below resolver (q.seen see) := by
  obtain ⟨a, ha, c, hc, rfl⟩ := h
  obtain ⟨m, s, hm, -, hl, heq, hx, hs⟩ := hq.exists_linkSeen ha hc
  have hgrounds := (verdict_grounds hm).of_seen
  rw [heq]
  exact ⟨hq.askedSeen see hm hl hs ((begun_placed hq hgrounds).of_extends hx.graph
    (begun_consistent hq hgrounds).graph hs.graph), m, c.link, _, s, hm, hl, rfl⟩

end Seen

theorem attempts_eq_seen (q : Query) : q.attempts resolver = q.attemptsSeen resolver id := by
  unfold attempts
  rw [follow_eq]
  rfl

theorem callsOf_eq_seen (q : Query) (a : Attempt) :
    q.callsOf resolver a = q.callsSeen resolver id a := by
  unfold callsOf
  rw [follow_eq]
  rfl

/-- To ask is to ask where all of the state is seen. -/
theorem asks_iff_seen : q.Asks resolver d ↔ q.AsksSeen resolver id d := by
  unfold Asks AsksSeen
  simp only [attempts_eq_seen, callsOf_eq_seen]

/-- To reach is to reach where all of the state is seen. -/
theorem reaches_iff_seen : q.Reaches resolver d ↔ q.ReachesSeen resolver id d := by
  have hasks : Asks resolver = AsksSeen resolver id := by
    funext q d
    exact propext asks_iff_seen
  rw [Reaches, ReachesSeen, hasks]

/-- The work of a proper query only adds to states. -/
theorem Proper.grows (hq : q.Proper resolver) {m : Making}
    (hm : q.verdict resolver = .ok (.make m)) :
    Grows resolver (follow resolver (pathBound resolver)) (q.inner m.key q.nodeNumber)
      m.work.jobs :=
  fun _ _ hl hs hp _ _ ha => outcome_extends (hq.asked hm hl hs hp) ha

/-- A call for a value is made for a link of its attempt, after the node of the value is added. -/
theorem Proper.exists_link (hq : q.Proper resolver) {a : Attempt} (ha : a ∈ q.attempts resolver)
    {c : Call} (hc : c ∈ q.callsOf resolver a) :
    ∃ m s, q.verdict resolver = .ok (.make m) ∧ .link c.link ∈ a.jobs ∧
      .link c.link ∈ m.work.jobs ∧ c.query = c.link.query (q.inner m.key q.nodeNumber) s ∧
      (q.begun resolver m).Extends s ∧ s.Consistent resolver := by
  rw [attempts_eq_seen] at ha
  rw [callsOf_eq_seen] at hc
  exact hq.exists_linkSeen ha hc

/-- What a proper query asks is proper, and below it. -/
theorem Proper.of_asks (hq : q.Proper resolver) (h : q.Asks resolver d) :
    d.Proper resolver ∧ d.Below resolver q :=
  hq.of_asksSeen (asks_iff_seen.mp h)

end Query

end Injector.Wiring

import Injector.Proofs.Resolution
import Injector.Proofs.Wiring.Verdict

/-!
# Outcomes without a bound

Following is bounded by the number of bindings that can be under construction and by the sizes of
types. Neither bound is ever reached from a root: the outcome of a query that can be asked satisfies
an equation that mentions no bound, and what holds of a query whenever it holds of those that its
value asks holds of every query. These are the two main statements.
-/

namespace Injector.Wiring

/-- The jobs for a value, of all its alternatives. -/
def Work.jobs : Work → List Job
  | .once jobs => jobs
  | .choice alternatives => alternatives.flatMap Prod.fst

/-- The binding that a frame belongs to. -/
def Frame.binding? (f : Frame) : Option BindingId :=
  match f.key with
  | .binding id _ => some id
  | .contract _ => none

/-- The bindings under construction, each as often as it is. -/
def Context.bindings (c : Context) : List BindingId := c.path.filterMap Frame.binding?

namespace Query

/-- Whether a query can be asked on the way from a root. -/
structure Admissible (resolver : Resolver) (q : Query) : Prop where
  /-- It is pinned to a binding of the table, if to any. -/
  admits : resolver.Admits q.request
  /-- What is under construction is of the table. -/
  present : ∀ id ∈ q.context.bindings, id < resolver.table.bindings.length
  /-- No binding is under construction more often than allowed. -/
  bounded : ∀ id, q.context.bindings.count id ≤ maxSpecializations

/-- Whether `d` can be asked for the value that `q` asks for. -/
def Below (resolver : Resolver) (d q : Query) : Prop :=
  ∃ m l node s, q.verdict resolver = .ok (.make m) ∧ .link l ∈ m.work.jobs ∧
    d = l.query (q.inner m.key node) s

/-- The outcome of a query that can be asked on the way from a root. -/
def outcome (resolver : Resolver) (q : Query) : Except Fault (Option NodeId × State) :=
  (follow resolver (pathBound resolver)).answer q

/-- A query as it is seen by what decides about it. -/
def seen (see : State → State) (q : Query) : Query := { q with state := see q.state }

end Query

/-- Follows a query as `followWith` does, but what becomes of the query is decided by what is seen
of its state. -/
def followSeenWith (resolver : Resolver) (see : State → State) (below : Follow) :
    (fuel : Nat) → Follow
  | 0, _, _, _, _ => throw .exhausted
  | fuel + 1, context, request, timing, site => fun s =>
      let q : Query := ⟨context, request, timing, site, s⟩
      ((q.seen see).verdict resolver).bind fun v =>
        v.settle resolver (handler below (followSeenWith resolver see below fuel)) q

/-- Follows a query through at most a number of bindings under construction, where what becomes of
a query is decided by what is seen of its state. -/
def followSeen (resolver : Resolver) (see : State → State) : (bindings : Nat) → Follow
  | 0, _, _, _, _ => throw .exhausted
  | bindings + 1, context, request, timing, site =>
      followSeenWith resolver see (followSeen resolver see bindings) request.contract.type.size
        context request timing site

/-- To follow a query is to follow it where all of the state is seen. -/
theorem followWith_eq (resolver : Resolver) (below : Follow) (fuel : Nat) :
    followWith resolver below fuel = followSeenWith resolver id below fuel := by
  induction fuel with
  | zero => rfl
  | succ fuel ih =>
    funext context request timing site s
    have heq := answer_followWith_succ resolver below fuel ⟨context, request, timing, site, s⟩
    rw [ih] at heq
    exact heq

/-- Queries are followed by what is seen of their whole state. -/
theorem follow_eq (resolver : Resolver) (bindings : Nat) :
    follow resolver bindings = followSeen resolver id bindings := by
  induction bindings with
  | zero => rfl
  | succ bindings ih =>
    funext context request timing site
    rw [follow, followSeen, followWith_eq, ih]

/-- Whether what is seen of a state is the state, but that remembered failures may be left out. -/
def Forgetful (see : State → State) : Prop :=
  ∀ s, ∃ failures ⊆ s.failures, see s = { s with failures }

/-- To see all is to leave nothing out. -/
theorem forgetful_id : Forgetful id := fun s => ⟨s.failures, List.Subset.refl _, rfl⟩

/-- What answers a query of the arguments is seen. -/
theorem Forgetful.visible? {see : State → State} (h : Forgetful see) (q : Query) :
    (q.seen see).visible? = q.visible? := by
  obtain ⟨failures, -, heq⟩ := h q.state
  simp only [Query.visible?, Query.seen, heq]

/-- The outcome of a query where what becomes of queries is decided by what is seen of their
states. -/
def Query.outcomeSeen (resolver : Resolver) (see : State → State) (q : Query) :
    Except Fault (Option NodeId × State) :=
  (followSeen resolver see (pathBound resolver)).answer q

@[simp] theorem Link.query_bindings (l : Link) (context : Context) (s : State) :
    (l.query context s).context.bindings = context.bindings := by
  unfold Link.query
  cases l.provides <;> rfl

@[simp] theorem Link.query_path (l : Link) (context : Context) (s : State) :
    (l.query context s).context.path = context.path := by
  unfold Link.query
  cases l.provides <;> rfl

@[simp] theorem Link.query_request (l : Link) (context : Context) (s : State) :
    (l.query context s).request = l.wire.request := by
  unfold Link.query
  cases l.provides <;> rfl

@[simp] theorem Link.query_timing (l : Link) (context : Context) (s : State) :
    (l.query context s).timing = l.wire.timing := by
  unfold Link.query
  cases l.provides <;> rfl

/-- Whether a link asks for a contract at once and outside of any provider call. -/
structure Link.Plain (l : Link) : Prop where
  /-- It may be answered by any binding. -/
  free : ∃ c, l.wire.request = .free c
  /-- It is made before its consumer. -/
  eager : l.wire.timing = .eager
  /-- It opens no provider call. -/
  within : l.provides = none

/-- The statements of a factory ask plainly. -/
private theorem plain_of_mem_stepJobs {r : Registration} {s : Substitution}
    {steps later : List FactoryStep} {position : Nat} {scope : FactoryScope} {l : Link}
    (h : .link l ∈ stepJobs r s steps position scope later) : l.Plain := by
  induction later generalizing position scope with
  | nil => cases h
  | cons step later ih =>
    cases step with
    | inject variableName declared tag location =>
      simp only [stepJobs] at h
      split at h
      · rcases List.mem_cons.mp h with heq | h
        · cases heq
        · exact ih h
      · split at h
        · exact ih h
        · rcases List.mem_cons.mp h with heq | h
          · cases heq
            exact ⟨⟨_, rfl⟩, rfl, rfl⟩
          · exact ih h
    | override variableName declared location =>
      simp only [stepJobs] at h
      split at h
      · exact ih h
      · rcases List.mem_cons.mp h with heq | h
        · cases heq
        · exact ih h

/-- What is done for a value of a binding asks at once and outside of provider calls. -/
theorem plain_of_mem_workOf {r : Registration} {s : Substitution} {l : Link}
    (h : .link l ∈ (workOf r s).jobs) : l.Plain := by
  unfold workOf at h
  split at h
  · cases h
  · obtain ⟨a, ha, hl⟩ := List.mem_flatMap.mp h
    obtain ⟨c, -, rfl⟩ := List.mem_map.mp ha
    obtain ⟨w, hw, heq⟩ := List.mem_map.mp hl
    obtain ⟨p, -, rfl⟩ := List.mem_map.mp hw
    cases heq
    exact ⟨⟨_, rfl⟩, rfl, rfl⟩
  · split at h
    · cases List.mem_singleton.mp h
    · exact plain_of_mem_stepJobs h
  · cases h

/-- The statements of a factory complain only of types that cannot be inferred. -/
private theorem message_of_mem_stepJobs {r : Registration} {s : Substitution}
    {steps later : List FactoryStep} {position : Nat} {scope : FactoryScope} {issue : Issue}
    (h : .complain issue ∈ stepJobs r s steps position scope later) :
    ∃ variableName, issue.message = .typeCannotBeInferred variableName r.describe := by
  induction later generalizing position scope with
  | nil => cases h
  | cons step later ih =>
    cases step with
    | inject variableName declared tag location =>
      simp only [stepJobs] at h
      split at h
      · rcases List.mem_cons.mp h with heq | h
        · cases heq
          exact ⟨variableName, rfl⟩
        · exact ih h
      · split at h
        · exact ih h
        · rcases List.mem_cons.mp h with heq | h
          · cases heq
          · exact ih h
    | override variableName declared location =>
      simp only [stepJobs] at h
      split at h
      · exact ih h
      · rcases List.mem_cons.mp h with heq | h
        · cases heq
          exact ⟨variableName, rfl⟩
        · exact ih h

/-- What is done for a value of a binding complains only of its factory. -/
theorem message_of_mem_workOf {r : Registration} {s : Substitution} {issue : Issue}
    (h : .complain issue ∈ (workOf r s).jobs) :
    (∃ variableName, issue.message = .typeCannotBeInferred variableName r.describe) ∨
      issue.message = .asyncFactoryNotSupported r.describe := by
  unfold workOf at h
  split at h
  · cases h
  · obtain ⟨a, ha, hj⟩ := List.mem_flatMap.mp h
    obtain ⟨c, -, rfl⟩ := List.mem_map.mp ha
    obtain ⟨w, -, heq⟩ := List.mem_map.mp hj
    cases heq
  · split at h
    · cases List.mem_singleton.mp h
      exact .inr rfl
    · exact .inl (message_of_mem_stepJobs h)
  · cases h

/-- What is done for a value of a shape complains of nothing. -/
theorem complain_not_mem_partJobs {providerArgs : List TypeExpr} {site : Site} {position : Nat}
    {dependencies : List Dependency} {issue : Issue} :
    .complain issue ∉ partJobs providerArgs site position dependencies := by
  induction dependencies generalizing position with
  | nil => simp [partJobs]
  | cons d rest ih => simp [partJobs, ih]

/-- What is done for a value of a shape asks for its dependencies at their positions. -/
theorem mem_partJobs {providerArgs : List TypeExpr} {site : Site} {position : Nat}
    {dependencies : List Dependency} {l : Link}
    (h : .link l ∈ partJobs providerArgs site position dependencies) :
    ∃ d, (d, l.wire.position) ∈ dependencies.zipIdx position ∧ l.wire.request = d.request := by
  induction dependencies generalizing position with
  | nil => cases h
  | cons d rest ih =>
    rw [List.zipIdx_cons]
    rcases List.mem_cons.mp h with heq | h
    · cases heq
      exact ⟨d, List.mem_cons_self, rfl⟩
    · obtain ⟨d', hd', hrequest⟩ := ih h
      exact ⟨d', List.mem_cons_of_mem _ hd', hrequest⟩

/-- A link for a value of a shape is made as its part is: later in a provider call, or at once. -/
theorem part_of_mem_partJobs {providerArgs : List TypeExpr} {site : Site} {position : Nat}
    {dependencies : List Dependency} {l : Link}
    (h : .link l ∈ partJobs providerArgs site position dependencies) :
    ∃ d ∈ dependencies, l.wire.request = d.request ∧ l.wire.timing = d.timing ∧
      (l.provides.isSome ↔ d.timing = .deferred) ∧ ∀ args ∈ l.provides, args = providerArgs := by
  induction dependencies generalizing position with
  | nil => cases h
  | cons d rest ih =>
    rcases List.mem_cons.mp h with heq | h
    · obtain rfl := Job.link.inj heq
      refine ⟨d, List.mem_cons_self, rfl, rfl, ?_⟩
      cases d.timing <;> simp [eq_comm]
    · obtain ⟨d', hd', hpart⟩ := ih h
      exact ⟨d', List.mem_cons_of_mem _ hd', hpart⟩

/-- The bindings under construction for a value are those for its query and its own. -/
theorem Query.inner_bindings (q : Query) (key : Key) (node : NodeId) :
    (q.inner key node).bindings = q.context.bindings ++ match key with
      | .binding id _ => [id]
      | .contract _ => [] := by
  unfold Query.inner Context.bindings
  cases key <;> simp [Frame.binding?]

/-- A binding is under construction as often as frames are for it. -/
theorem Context.count_bindings (c : Context) (id : BindingId) :
    c.bindings.count id = (c.path.filter (Frame.isOf id)).length := by
  unfold Context.bindings
  induction c.path with
  | nil => rfl
  | cons f rest ih =>
    obtain ⟨key, node, segment, contract⟩ := f
    cases key with
    | binding b s =>
      by_cases h : b = id
      · simp [Frame.binding?, Frame.isOf, h, ih]
      · simp [Frame.binding?, Frame.isOf, h, ih]
    | contract c => simp [List.filterMap_cons, Frame.binding?, Frame.isOf, ih]

/-- A list of few different numbers, none of which stands in it often, is short. -/
private theorem length_le_of_count_le {bound often : Nat} {ns : List Nat}
    (hlt : ∀ n ∈ ns, n < bound) (hcount : ∀ n, ns.count n ≤ often) :
    ns.length ≤ often * bound := by
  induction bound generalizing ns with
  | zero =>
    cases ns with
    | nil => simp
    | cons n rest => exact absurd (hlt n List.mem_cons_self) (Nat.not_lt_zero n)
  | succ bound ih =>
    have hothers : (ns.filter (· != bound)).length ≤ often * bound := by
      refine ih (fun n hn => ?_) fun n => ?_
      · obtain ⟨hmem, hne⟩ := List.mem_filter.mp hn
        have hle := hlt n hmem
        have hne : n ≠ bound := by simpa using hne
        omega
      · exact Nat.le_trans (List.filter_sublist.count_le n) (hcount n)
    have hothers' : (ns.filter (· != bound)).length = ns.countP fun n => ¬(n == bound) := by
      rw [List.countP_eq_length_filter]
      refine congrArg List.length (List.filter_congr fun n _ => ?_)
      by_cases h : n = bound <;> simp [h]
    have hsplit : ns.length = ns.count bound + (ns.filter (· != bound)).length := by
      rw [hothers']
      exact List.length_eq_countP_add_countP (· == bound)
    have hbound := hcount bound
    rw [Nat.mul_succ]
    omega

section Congruence

variable {f g : Follow} {context : Context}

/-- A job asks nothing but the query of its link. -/
theorem perform_congr (node : NodeId) {job : Job}
    (h : ∀ l s, job = .link l → f.answer (l.query context s) = g.answer (l.query context s)) :
    perform f context node job = perform g context node job := by
  funext s
  cases job with
  | complain issue => rfl
  | link l =>
    have hfollow : ∀ f : Follow, f.answer (l.query context s) =
        f (l.query context s).context l.wire.request l.wire.timing l.site
          (l.query context s).state := by
      intro f
      unfold Follow.answer Link.query
      cases l.provides <;> rfl
    rw [perform_link, perform_link, connect_eq, connect_eq, ← hfollow f, ← hfollow g, h l s rfl]

/-- Jobs ask nothing but the queries of their links. -/
theorem performAll_congr (node : NodeId) {jobs : List Job}
    (h : ∀ l s, .link l ∈ jobs → f.answer (l.query context s) = g.answer (l.query context s)) :
    performAll f context node jobs = performAll g context node jobs := by
  induction jobs with
  | nil => rfl
  | cons job jobs ih =>
    have hhere : perform f context node job = perform g context node job :=
      perform_congr node fun l s hl => h l s (hl ▸ List.mem_cons_self)
    rw [performAll, performAll, hhere, ih fun l s hl => h l s (List.mem_cons_of_mem _ hl)]

/-- Alternatives ask nothing but the queries of their links. -/
theorem tryAll_congr (node : NodeId) {alternatives : List (List Job × Nat)} (found : List Issue)
    (h : ∀ l s, .link l ∈ alternatives.flatMap Prod.fst →
      f.answer (l.query context s) = g.answer (l.query context s)) :
    tryAll f context node alternatives found = tryAll g context node alternatives found := by
  induction alternatives generalizing found with
  | nil => rfl
  | cons a rest ih =>
    obtain ⟨jobs, index⟩ := a
    have hhere : performAll f context node jobs = performAll g context node jobs :=
      performAll_congr node fun l s hl => h l s (by simp [hl])
    have hrest : ∀ found, tryAll f context node rest found = tryAll g context node rest found :=
      fun found => ih found fun l s hl => h l s (by
        rw [List.flatMap_cons]
        exact List.mem_append_right _ hl)
    simp only [tryAll, hhere, hrest]

/-- What is done for a value depends on following only through the queries of its links. -/
theorem carryOut_congr (node : NodeId) {work : Work}
    (h : ∀ l s, .link l ∈ work.jobs →
      f.answer (l.query context s) = g.answer (l.query context s)) :
    work.carryOut f context node = work.carryOut g context node := by
  cases work with
  | once jobs => exact performAll_congr node h
  | choice alternatives => exact tryAll_congr node [] h

end Congruence

/-- Settling a verdict depends on following only through the queries asked for the value. -/
theorem settle_congr {resolver : Resolver} {f g : Key → Follow} {q : Query} {v : Verdict}
    (h : ∀ m l node s, v = .make m → .link l ∈ m.work.jobs →
      (f m.key).answer (l.query (q.inner m.key node) s) =
        (g m.key).answer (l.query (q.inner m.key node) s)) :
    v.settle resolver f q = v.settle resolver g q := by
  cases v with
  | make m =>
    simp only [Verdict.settle, Making.run]
    rw [carryOut_congr _ fun l s hl => h m l _ s rfl hl]
  | argument a => obtain ⟨type, block | n⟩ := a <;> rfl
  | _ => rfl

namespace Query

variable {resolver : Resolver} {q d : Query}

/-- There are never as many bindings under construction as the bound on them. -/
theorem Admissible.length_lt (h : q.Admissible resolver) :
    q.context.bindings.length < pathBound resolver :=
  Nat.lt_succ_of_le (length_le_of_count_le h.present h.bounded)

/-- What is asked for the value of a shape asks for a smaller type, and what is asked for the value
of a binding has one more binding under construction. -/
theorem decreases {m : Making} {l : Link} (node : NodeId) (s : State)
    (hq : resolver.Admits q.request) (hm : q.verdict resolver = .ok (.make m))
    (hl : .link l ∈ m.work.jobs) :
    (∃ id t, m.key = .binding id t ∧
      (l.query (q.inner m.key node) s).context.bindings = q.context.bindings ++ [id]) ∨
    ∃ c, m.key = .contract c ∧
      (l.query (q.inner m.key node) s).context.bindings = q.context.bindings ∧
      (l.query (q.inner m.key node) s).request.contract.type.size <
        q.request.contract.type.size := by
  cases verdict_grounds hm with
  | @makeBinding id t r => exact .inl ⟨id, t, rfl, by simp [bindingMaking, inner_bindings]⟩
  | makeShape hres =>
    obtain ⟨dep, hdep, hrequest⟩ := mem_partJobs hl
    have hmem := List.fst_mem_of_mem_zipIdx hdep
    refine .inr ⟨_, rfl, by simp [shapeMaking, inner_bindings], ?_⟩
    rw [Link.query_request, hrequest]
    exact TypeExpr.size_lt_of_mem_args (Resolver.mem_dependencies hq hres hmem).2

/-- What is asked for a value is pinned to a binding of the table, if to any. -/
theorem admits_of_below (hq : resolver.Admits q.request) (h : d.Below resolver q) :
    resolver.Admits d.request := by
  obtain ⟨m, l, node, s, hm, hl, rfl⟩ := h
  rw [Link.query_request]
  cases verdict_grounds hm with
  | makeBinding =>
    obtain ⟨⟨c, hfree⟩, -, -⟩ := plain_of_mem_workOf hl
    rw [hfree]
    exact resolver.admits_free c
  | makeShape hres =>
    obtain ⟨dep, hdep, hrequest⟩ := mem_partJobs hl
    rw [hrequest]
    exact (Resolver.mem_dependencies hq hres (List.fst_mem_of_mem_zipIdx hdep)).1

/-- What is asked for a value can be asked if the value can. -/
theorem Admissible.below (hq : q.Admissible resolver) (h : d.Below resolver q) :
    d.Admissible resolver := by
  have hadmits := admits_of_below hq.admits h
  obtain ⟨m, l, node, s, hm, -, rfl⟩ := h
  cases verdict_grounds hm with
  | @makeBinding id t r hres hr hcount =>
    rw [← Context.count_bindings] at hcount
    have hlt := Resolver.lt_of_resolve_binding hq.admits hres
    refine ⟨hadmits, ?_, ?_⟩
    · intro b hb
      simp only [Link.query_bindings, inner_bindings, bindingMaking, List.mem_append,
        List.mem_singleton] at hb
      rcases hb with hb | rfl
      · exact hq.present b hb
      · exact hlt
    · intro b
      simp only [Link.query_bindings, inner_bindings, bindingMaking, List.count_append]
      have hbound := hq.bounded b
      by_cases hb : id = b
      · subst hb
        simp only [List.count_singleton_self]
        omega
      · simpa [List.count_singleton, hb] using hbound
  | @makeShape strategy deps args =>
    have hbindings : (l.query (q.inner (q.shapeMaking strategy deps args).key node)
        s).context.bindings = q.context.bindings := by
      simp [shapeMaking, inner_bindings]
    exact ⟨hadmits, hbindings ▸ hq.present, hbindings ▸ hq.bounded⟩

/-- Whether a query can be asked does not depend on the state. -/
theorem Admissible.seen (hq : q.Admissible resolver) (see : State → State) :
    (q.seen see).Admissible resolver :=
  ⟨hq.admits, hq.present, hq.bounded⟩

/-- What holds of a query that can be asked, whenever it holds of all that is asked for its value in
whatever state it is seen, holds of every query that can be asked. -/
theorem Admissible.inductSeen {motive : ∀ q : Query, q.Admissible resolver → Prop}
    (step : ∀ (q : Query) (hq : q.Admissible resolver),
      (∀ (see : State → State) (d : Query) (hd : d.Below resolver (q.seen see)),
        motive d ((hq.seen see).below hd)) → motive q hq)
    (q : Query) (hq : q.Admissible resolver) : motive q hq :=
  step q hq fun see d hd => Admissible.inductSeen step d ((hq.seen see).below hd)
termination_by (pathBound resolver - q.context.bindings.length, q.request.contract.type.size)
decreasing_by
  have hlt := ((hq.seen see).below hd).length_lt
  obtain ⟨m, l, node, s, hm, hl, rfl⟩ := hd
  rcases decreases node s (hq.seen see).admits hm hl with
    ⟨id, t, -, hbindings⟩ | ⟨c, -, hbindings, hsize⟩
  · rw [hbindings] at hlt ⊢
    simp only [Query.seen, List.length_append, List.length_singleton] at hlt ⊢
    exact Prod.Lex.left _ _ (by omega)
  · rw [hbindings]
    exact Prod.Lex.right _ hsize

/-- What holds of a query that can be asked, whenever it holds of all that is asked for its value,
holds of every query that can be asked. -/
theorem Admissible.induct {motive : ∀ q : Query, q.Admissible resolver → Prop}
    (step : ∀ (q : Query) (hq : q.Admissible resolver),
      (∀ (d : Query) (hd : d.Below resolver q), motive d (hq.below hd)) → motive q hq)
    (q : Query) (hq : q.Admissible resolver) : motive q hq :=
  Admissible.inductSeen (fun q hq ih => step q hq fun d hd => ih id d hd) q hq

section Seen

variable {see : State → State}

/-- Any fuel that covers the size of the type gives the same answer. -/
private theorem answer_followSeenWith_size (below : Follow) (hq : resolver.Admits q.request)
    {fuel : Nat} (h : q.request.contract.type.size ≤ fuel) :
    Follow.answer (followSeenWith resolver see below fuel) q =
      Follow.answer (followSeenWith resolver see below q.request.contract.type.size) q := by
  induction fuel using Nat.strongRecOn generalizing q with | ind fuel ih
  have hpos := q.request.contract.type.size_pos
  obtain ⟨k, hk⟩ : ∃ k, q.request.contract.type.size = k + 1 :=
    ⟨q.request.contract.type.size - 1, by omega⟩
  obtain ⟨fuel, rfl⟩ : ∃ n, fuel = n + 1 := ⟨fuel - 1, by omega⟩
  rw [hk]
  simp only [Follow.answer, followSeenWith]
  cases hv : (q.seen see).verdict resolver with
  | error e => rfl
  | ok v =>
    simp only [ok_bind]
    refine settle_congr fun m l node s hmake hl => ?_
    subst hmake
    have hsize := decreases (q := q.seen see) node s hq hv hl
    have hadmits : resolver.Admits (l.query (q.inner m.key node) s).request :=
      admits_of_below (q := q.seen see) hq ⟨m, l, node, s, hv, hl, rfl⟩
    rcases hsize with ⟨id, t, hkey, -⟩ | ⟨c, hkey, -, hsize⟩
    · simp only [hkey, handler]
    · change (l.query (q.inner m.key node) s).request.contract.type.size <
        q.request.contract.type.size at hsize
      rw [hkey] at hsize hadmits ⊢
      rw [handler, handler, ih fuel (by omega) hadmits (by omega),
        ih k (by omega) hadmits (by omega)]

/-- Following a query through one binding more is settling its verdict, where the queries for a
value of a binding are followed through one binding less. -/
private theorem answer_followSeen_succ (n : Nat) (hq : resolver.Admits q.request) :
    (followSeen resolver see (n + 1)).answer q = ((q.seen see).verdict resolver).bind fun v =>
      v.settle resolver
        (handler (followSeen resolver see n) (followSeen resolver see (n + 1))) q := by
  have hpos := q.request.contract.type.size_pos
  obtain ⟨k, hk⟩ : ∃ k, q.request.contract.type.size = k + 1 :=
    ⟨q.request.contract.type.size - 1, by omega⟩
  have hanswer : ∀ d : Query, (followSeen resolver see (n + 1)).answer d =
      Follow.answer (followSeenWith resolver see (followSeen resolver see n)
        d.request.contract.type.size) d :=
    fun d => rfl
  rw [hanswer, hk]
  simp only [Follow.answer, followSeenWith]
  cases hv : (q.seen see).verdict resolver with
  | error e => rfl
  | ok v =>
    simp only [ok_bind]
    refine settle_congr fun m l node s hmake hl => ?_
    subst hmake
    have hadmits : resolver.Admits (l.query (q.inner m.key node) s).request :=
      admits_of_below (q := q.seen see) hq ⟨m, l, node, s, hv, hl, rfl⟩
    rcases decreases (q := q.seen see) node s hq hv hl with
      ⟨id, t, hkey, -⟩ | ⟨c, hkey, -, hsize⟩
    · simp only [hkey, handler]
    · change (l.query (q.inner m.key node) s).request.contract.type.size <
        q.request.contract.type.size at hsize
      rw [hkey] at hsize hadmits ⊢
      rw [handler, handler, hanswer, answer_followSeenWith_size _ hadmits (by omega)]

/-- A query that can be asked has the same answer under any bound that is not reached. -/
private theorem answer_followSeen_eq (hq : q.Admissible resolver) {m n : Nat}
    (hm : pathBound resolver ≤ m + q.context.bindings.length)
    (hn : pathBound resolver ≤ n + q.context.bindings.length) :
    (followSeen resolver see m).answer q = (followSeen resolver see n).answer q := by
  induction q, hq using Admissible.inductSeen generalizing m n with | step q hq ih
  have hlt := hq.length_lt
  obtain ⟨m, rfl⟩ : ∃ k, m = k + 1 := ⟨m - 1, by omega⟩
  obtain ⟨n, rfl⟩ : ∃ k, n = k + 1 := ⟨n - 1, by omega⟩
  rw [answer_followSeen_succ m hq.admits, answer_followSeen_succ n hq.admits]
  cases hv : (q.seen see).verdict resolver with
  | error e => rw [error_bind, error_bind]
  | ok v =>
    simp only [ok_bind]
    refine settle_congr fun making l node s hmake hl => ?_
    subst hmake
    have hbelow : (l.query (q.inner making.key node) s).Below resolver (q.seen see) :=
      ⟨making, l, node, s, hv, hl, rfl⟩
    rcases decreases (q := q.seen see) node s hq.admits hv hl with
      ⟨id, t, hkey, hbindings⟩ | ⟨c, hkey, hbindings, -⟩
    · change (l.query (q.inner making.key node) s).context.bindings =
        q.context.bindings ++ [id] at hbindings
      rw [hkey] at hbelow hbindings ⊢
      simp only [handler]
      refine ih see _ hbelow ?_ ?_ <;>
        rw [hbindings, List.length_append, List.length_singleton] <;> omega
    · change (l.query (q.inner making.key node) s).context.bindings =
        q.context.bindings at hbindings
      rw [hkey] at hbelow hbindings ⊢
      simp only [handler]
      refine ih see _ hbelow ?_ ?_ <;> rw [hbindings] <;> assumption

/-- The outcome of a query that can be asked is that of its verdict as it is seen, where the queries
for a value are followed to their outcomes. -/
theorem outcomeSeen_eq (hq : q.Admissible resolver) :
    q.outcomeSeen resolver see = ((q.seen see).verdict resolver).bind fun v =>
      v.settle resolver (fun _ => followSeen resolver see (pathBound resolver)) q := by
  have hbound : pathBound resolver = maxSpecializations * resolver.table.bindings.length + 1 := rfl
  rw [outcomeSeen, hbound, answer_followSeen_succ _ hq.admits]
  cases hv : (q.seen see).verdict resolver with
  | error e => rw [error_bind, error_bind]
  | ok v =>
    simp only [ok_bind]
    refine settle_congr fun m l node s hmake hl => ?_
    subst hmake
    have hadmissible : (l.query (q.inner m.key node) s).Admissible resolver :=
      (hq.seen see).below ⟨m, l, node, s, hv, hl, rfl⟩
    rcases decreases (q := q.seen see) node s hq.admits hv hl with
      ⟨id, t, hkey, hbindings⟩ | ⟨c, hkey, -, -⟩
    · change (l.query (q.inner m.key node) s).context.bindings =
        q.context.bindings ++ [id] at hbindings
      rw [hkey] at hadmissible hbindings ⊢
      simp only [handler]
      refine answer_followSeen_eq hadmissible ?_ ?_ <;>
        rw [hbindings, List.length_append, List.length_singleton, hbound] <;> omega
    · simp only [hkey, handler]

end Seen

/-- What is seen of a query is the whole query. -/
theorem outcome_eq_outcomeSeen (q : Query) : q.outcome resolver = q.outcomeSeen resolver id := by
  rw [outcome, outcomeSeen, follow_eq]

/-- The outcome of a query that can be asked is that of its verdict, where the queries for a value
are followed to their outcomes. -/
theorem outcome_eq (hq : q.Admissible resolver) :
    q.outcome resolver = (q.verdict resolver).bind fun v =>
      v.settle resolver (fun _ => follow resolver (pathBound resolver)) q := by
  rw [outcome_eq_outcomeSeen, outcomeSeen_eq hq, follow_eq]
  rfl

/-- A query with an outcome has a verdict, and settling the verdict gives the outcome. -/
theorem outcome_eq_ok (hq : q.Admissible resolver) {r : Option NodeId × State}
    (h : q.outcome resolver = .ok r) :
    ∃ v, q.verdict resolver = .ok v ∧
      v.settle resolver (fun _ => follow resolver (pathBound resolver)) q = .ok r :=
  bind_eq_ok.mp ((outcome_eq hq).symm.trans h)

end Query

end Injector.Wiring

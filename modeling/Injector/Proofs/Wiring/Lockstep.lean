import Injector.Proofs.Wiring.Correspondence

/-!
# Building in lockstep

Two builds that ask queries that correspond go on in lockstep: where both succeed they have made the
same. They part where one is answered by a remembered failure and the other is not, and meet again
when what failed is taken back. The main statement is that the outcomes of queries that correspond
agree as long as a query that one build answers by a remembered failure has no answer in the other.
-/

namespace Injector.Wiring

/-- Whether two results are the same, and leave states that correspond unless they are the one with
which everything fails. -/
def Agree {α : Type} (failed : α) (pairs : Pairing) (r r' : α × State) : Prop :=
  r.1 = r'.1 ∧ (r.1 ≠ failed → ∃ pairs', pairs ≤ pairs' ∧ r.2.Corresponds pairs' r'.2)

section Agree

variable {α : Type} {failed : α} {pairs pairs' : Pairing} {s s' : State}

/-- What fails in both builds agrees, whatever is left. -/
theorem Agree.of_failed : Agree failed pairs (failed, s) (failed, s') :=
  ⟨rfl, fun h => absurd rfl h⟩

/-- Equal results agree in states that correspond. -/
theorem Agree.of_corresponds {a : α} (hle : pairs ≤ pairs') (h : s.Corresponds pairs' s') :
    Agree failed pairs (a, s) (a, s') :=
  ⟨rfl, fun _ => ⟨pairs', hle, h⟩⟩

/-- What agrees under more pairs agrees under fewer. -/
theorem Agree.mono {r r' : α × State} (h : Agree failed pairs' r r') (hle : pairs ≤ pairs') :
    Agree failed pairs r r' := by
  refine ⟨h.1, fun hne => ?_⟩
  obtain ⟨pairs'', hle', hs⟩ := h.2 hne
  exact ⟨pairs'', le_trans hle hle', hs⟩

end Agree

section Work

variable {resolver : Resolver} {pairs : Pairing} {f f' : Follow} {context context' : Context}
  {node : NodeId} {s s' t t' : State} {b b' : Bool}

/-- Whether what is asked by jobs in a state grows, so that they can be carried out. -/
structure Ready (resolver : Resolver) (follow : Follow) (context : Context) (jobs : List Job)
    (s : State) : Prop where
  /-- What queries leave extends their states. -/
  grows : Grows resolver follow context jobs
  /-- The state is consistent. -/
  consistent : s.Consistent resolver
  /-- What is under construction has its nodes. -/
  placed : context.Placed resolver s.graph

/-- Jobs can be carried out as well after others of the same list. -/
theorem Ready.after {jobs jobs' : List Job} (h : Ready resolver f context jobs s)
    (hsub : ∀ job ∈ jobs', job ∈ jobs) (hx : s.Extends t) (ht : t.Consistent resolver) :
    Ready resolver f context jobs' t :=
  ⟨h.grows.mono hsub, ht, h.placed.of_extends hx.graph h.consistent.graph ht.graph⟩

/-- Whether the answers to calls agree wherever the calls correspond. -/
def CallsAgree (f f' : Follow) (cs cs' : List Call) : Prop :=
  ∀ c ∈ cs, ∀ c' ∈ cs', ∀ pairs, c.query.Corresponds pairs c'.query →
    ∀ r r', f.answer c.query = .ok r → f'.answer c'.query = .ok r' → Agree none pairs r r'

/-- Calls that agree in all agree in both parts. -/
theorem CallsAgree.of_append {ds ds' es es' : List Call}
    (h : CallsAgree f f' (ds ++ es) (ds' ++ es')) :
    CallsAgree f f' ds ds' ∧ CallsAgree f f' es es' :=
  ⟨fun c hc c' hc' => h c (List.mem_append_left _ hc) c' (List.mem_append_left _ hc'),
    fun c hc c' hc' => h c (List.mem_append_right _ hc) c' (List.mem_append_right _ hc')⟩

/-- The queries of one link correspond; a provider call opens blocks that stand for each other. -/
theorem Link.query_corresponds (l : Link) (hc : context.Corresponds pairs context')
    (h : s.Corresponds pairs s') (hs : s.Consistent resolver) (hs' : s'.Consistent resolver) :
    ∃ pairs', pairs ≤ pairs' ∧
      (l.query context s).Corresponds pairs' (l.query context' s') := by
  obtain ⟨wire, site, provides⟩ := l
  cases provides with
  | none => exact ⟨pairs, le_refl _, hc, rfl, rfl, rfl, h⟩
  | some args =>
    have hle := le_paired pairs s.graph.blocks s'.graph.blocks
    exact ⟨_, hle, ⟨(hc.mono hle).path, .inr ⟨hs.segments, hs'.segments⟩, .inr ⟨rfl, rfl⟩⟩, rfl,
      rfl, rfl, h.enter args⟩

/-- States correspond when the calls of a link are left. -/
theorem Link.leave_corresponds (l : Link) (h : t.Corresponds pairs t')
    (hlength : s.arguments.length = s'.arguments.length) :
    (l.leave s t).Corresponds pairs (l.leave s' t') := by
  obtain ⟨wire, site, provides⟩ := l
  cases provides with
  | none => exact h
  | some args => exact h.leave hlength

/-- One job agrees in states that correspond when its calls do. -/
theorem perform_agree {job : Job} (hc : context.Corresponds pairs context')
    (h : s.Corresponds pairs s') (hs : s.Consistent resolver) (hs' : s'.Consistent resolver)
    (hcalls : CallsAgree f f' (job.call? context s).toList (job.call? context' s').toList)
    (hr : perform f context node job s = .ok (b, t))
    (hr' : perform f' context' node job s' = .ok (b', t')) :
    Agree false pairs (b, t) (b', t') := by
  cases job with
  | complain issue =>
    rw [perform_complain] at hr hr'
    cases hr
    cases hr'
    exact .of_failed
  | link l =>
    obtain ⟨pairs₁, hle, hquery⟩ := l.query_corresponds hc h hs hs'
    have hagree := hcalls _ (List.mem_singleton_self _) _ (List.mem_singleton_self _) pairs₁ hquery
    rcases perform_link_eq_ok hr with ⟨u, ha, rfl, rfl⟩ | ⟨n, u, g, ha, hg, rfl, rfl⟩ <;>
      rcases perform_link_eq_ok hr' with ⟨u', ha', rfl, rfl⟩ | ⟨n', u', g', ha', hg', rfl, rfl⟩
    · exact .of_failed
    · cases (hagree _ _ ha ha').1
    · cases (hagree _ _ ha ha').1
    · obtain ⟨hn, hstates⟩ := hagree _ _ ha ha'
      cases hn
      obtain ⟨pairs₂, hle', hu⟩ := hstates (Option.some_ne_none n)
      exact .of_corresponds (le_trans hle hle')
        (l.leave_corresponds (hu.addEdge hg hg') h.arguments.length_eq)

/-- Jobs that are carried out in states that correspond agree when their calls do: once one fails,
nothing that follows can make up for it, and the states after it need not correspond. -/
theorem performAll_agree {jobs : List Job} (hc : context.Corresponds pairs context')
    (h : s.Corresponds pairs s') (hs : Ready resolver f context jobs s)
    (hs' : Ready resolver f' context' jobs s')
    (hcalls : CallsAgree f f' (calls f context node jobs s) (calls f' context' node jobs s'))
    (hr : performAll f context node jobs s = .ok (b, t))
    (hr' : performAll f' context' node jobs s' = .ok (b', t')) :
    Agree false pairs (b, t) (b', t') := by
  induction jobs generalizing pairs s s' b b' with
  | nil =>
    cases hr
    cases hr'
    exact .of_corresponds (le_refl _) h
  | cons job jobs ih =>
    obtain ⟨b₁, u, b₂, hhere, hrest, rfl⟩ := performAll_cons_eq_ok hr
    obtain ⟨b₁', u', b₂', hhere', hrest', rfl⟩ := performAll_cons_eq_ok hr'
    rw [calls_cons_of_ok hhere, calls_cons_of_ok hhere'] at hcalls
    obtain ⟨hfirst, hothers⟩ := hcalls.of_append
    obtain ⟨hb, hu⟩ := perform_agree hc h hs.consistent hs'.consistent hfirst hhere hhere'
    cases hb
    cases b₁ with
    | false => exact .of_failed
    | true =>
      obtain ⟨pairs₁, hle, hu⟩ := hu Bool.noConfusion
      obtain ⟨hx, hcons⟩ := perform_extends hs.grows.of_cons.1 hs.consistent hs.placed hhere
      obtain ⟨hx', hcons'⟩ := perform_extends hs'.grows.of_cons.1 hs'.consistent hs'.placed hhere'
      have hsub : ∀ j ∈ jobs, j ∈ job :: jobs := fun _ hj => List.mem_cons_of_mem _ hj
      exact (ih (hc.mono hle) hu (hs.after hsub hx hcons) (hs'.after hsub hx' hcons') hothers hrest
        hrest').mono hle

/-- Whether the calls of attempts agree. -/
def AttemptsAgree (f f' : Follow) (context context' : Context) (node : NodeId)
    (as as' : List Attempt) : Prop :=
  ∀ a ∈ as, ∀ a' ∈ as', CallsAgree f f' (calls f context node a.jobs a.state)
    (calls f' context' node a'.jobs a'.state)

/-- Of a choice the same alternative succeeds: those before it are taken back, all but what became
of the arguments, to where the builds corresponded. -/
theorem tryAll_agree {alternatives : List (List Job × Nat)} {found found' : List Issue}
    (hc : context.Corresponds pairs context') (h : s.Corresponds pairs s')
    (hs : Ready resolver f context (alternatives.flatMap Prod.fst) s)
    (hs' : Ready resolver f' context' (alternatives.flatMap Prod.fst) s')
    (hcalls : AttemptsAgree f f' context context' node (tried f context node alternatives s)
      (tried f' context' node alternatives s'))
    (hr : tryAll f context node alternatives found s = .ok (b, t))
    (hr' : tryAll f' context' node alternatives found' s' = .ok (b', t')) :
    Agree false pairs (b, t) (b', t') := by
  induction alternatives generalizing s s' b b' found found' with
  | nil =>
    cases hr
    cases hr'
    exact .of_failed
  | cons first rest ih =>
    obtain ⟨jobs, index⟩ := first
    have hjobs : ∀ job ∈ jobs, job ∈ ((jobs, index) :: rest).flatMap Prod.fst :=
      fun job hj => List.mem_flatMap.mpr ⟨_, List.mem_cons_self, hj⟩
    have hready := hs.after hjobs (.refl s) hs.consistent
    have hready' := hs'.after hjobs (.refl s') hs'.consistent
    have hall : ∀ {b₁ u b₁' u'}, performAll f context node jobs s = .ok (b₁, u) →
        performAll f' context' node jobs s' = .ok (b₁', u') →
        Agree false pairs (b₁, u) (b₁', u') :=
      performAll_agree hc h hready hready' (hcalls _ List.mem_cons_self _ List.mem_cons_self)
    rcases tryAll_cons_eq_ok hr with ⟨u, g, hp, hg, rfl, rfl⟩ | ⟨u, r, hp, hback, hrest⟩ <;>
      rcases tryAll_cons_eq_ok hr' with ⟨u', g', hp', hg', rfl, rfl⟩ | ⟨u', r', hp', hback', hrest'⟩
    · obtain ⟨pairs₁, hle, hu⟩ := (hall hp hp').2 Bool.noConfusion
      exact .of_corresponds hle (hu.choose hg hg')
    · cases (hall hp hp').1
    · cases (hall hp hp').1
    · obtain ⟨hx, hu⟩ := performAll_extends hready.grows hs.consistent hs.placed hp
      obtain ⟨hx', hu'⟩ := performAll_extends hready'.grows hs'.consistent hs'.placed hp'
      obtain ⟨g, hok, hx, hv, hnodes, hedges⟩ := hx.rollback hs.consistent hu
      obtain ⟨g', hok', hx', hv', hnodes', hedges'⟩ := hx'.rollback hs'.consistent hu'
      rw [tried_cons_of_ok hp hback, tried_cons_of_ok hp' hback'] at hcalls
      cases hback.symm.trans hok
      cases hback'.symm.trans hok'
      have hothers : ∀ job ∈ rest.flatMap Prod.fst,
          job ∈ ((jobs, index) :: rest).flatMap Prod.fst := by
        intro job hj
        rw [List.flatMap_cons]
        exact List.mem_append_right _ hj
      exact ih (h.restored hx hx' hnodes hnodes' hedges hedges') (hs.after hothers hx hv)
        (hs'.after hothers hx' hv')
        (fun a ha a' ha' => hcalls a (List.mem_cons_of_mem _ ha) a' (List.mem_cons_of_mem _ ha'))
        hrest hrest'

/-- The work for a value agrees when the calls of its attempts do. -/
theorem carryOut_agree {work : Work} (hc : context.Corresponds pairs context')
    (h : s.Corresponds pairs s') (hs : Ready resolver f context work.jobs s)
    (hs' : Ready resolver f' context' work.jobs s')
    (hcalls : AttemptsAgree f f' context context' node (work.attempts f context node s)
      (work.attempts f' context' node s'))
    (hr : work.carryOut f context node s = .ok (b, t))
    (hr' : work.carryOut f' context' node s' = .ok (b', t')) :
    Agree false pairs (b, t) (b', t') := by
  cases work with
  | once jobs =>
    exact performAll_agree hc h hs hs'
      (hcalls _ (List.mem_singleton_self _) _ (List.mem_singleton_self _)) hr hr'
  | choice alternatives => exact tryAll_agree hc h hs hs' hcalls hr hr'

end Work

namespace Query

variable {resolver : Resolver} {see see' : State → State} {pairs : Pairing} {q q' : Query}

/-- Whether a query has no answer. -/
def Unanswered (resolver : Resolver) (see : State → State) (q : Query) : Prop :=
  ∀ n s, q.outcomeSeen resolver see ≠ .ok (some n, s)

/-- Whether a failure that answers one of two queries stands for that of the other, too. -/
def Excused (resolver : Resolver) (see see' : State → State) (q q' : Query) : Prop :=
  ((q.seen see).Recalls resolver → q'.Unanswered resolver see') ∧
    ((q'.seen see').Recalls resolver → q.Unanswered resolver see)

/-- A query without an answer has none as its outcome. -/
theorem Unanswered.eq_none (h : q.Unanswered resolver see) {a : Option NodeId} {s : State}
    (hr : q.outcomeSeen resolver see = .ok (a, s)) : a = none := by
  cases a with
  | none => rfl
  | some n => exact absurd hr (h n s)

/-- A remembered failure is no answer. -/
theorem none_of_recalls (hq : q.Admissible resolver) (h : (q.seen see).Recalls resolver)
    {a : Option NodeId} {s : State} (hr : q.outcomeSeen resolver see = .ok (a, s)) : a = none := by
  obtain ⟨issues, hv⟩ := h
  rw [outcomeSeen_eq hq, hv] at hr
  cases hr
  rfl

/-- What is made for queries that correspond gets one number. -/
theorem Corresponds.nodeNumber_eq (h : q.Corresponds pairs q') (hq : q.Proper resolver)
    (hq' : q'.Proper resolver) : q.nodeNumber = q'.nodeNumber :=
  h.state.graph.nextNumber_eq hq.consistent.stacked hq'.consistent.stacked

/-- Queries that correspond do so when they are reached. -/
theorem Corresponds.reached (h : q.Corresponds pairs q') :
    (q.reached resolver).Corresponds pairs (q'.reached resolver) := by
  obtain ⟨touched, heq⟩ := q.reached_eq resolver
  obtain ⟨touched', heq'⟩ := q'.reached_eq resolver
  rw [heq, heq']
  exact h.state.of_eq rfl rfl rfl rfl rfl rfl

/-- What is under construction corresponds when the values of queries that correspond are begun. -/
theorem Corresponds.inner (h : q.Corresponds pairs q') (key : Key) (n : NodeId) :
    (q.inner key n).Corresponds pairs (q'.inner key n) :=
  ⟨List.rel_append h.context.path (.cons ⟨rfl, rfl, h.context.segment, by rw [h.request]⟩ .nil),
    h.context.segment, h.context.block⟩

/-- The work for values that correspond begins in states that do. -/
theorem Corresponds.begun (h : q.Corresponds pairs q') (hkept : ¬ q.Bereft) (hkept' : ¬ q'.Bereft)
    (hq : q.Proper resolver) (hq' : q'.Proper resolver) {m m' : Making}
    (hm : m.content.Corresponds pairs m'.content) :
    (q.begun resolver m).Corresponds pairs (q'.begun resolver m') := by
  obtain ⟨touched, heq⟩ := q.reached_eq resolver
  obtain ⟨touched', heq'⟩ := q'.reached_eq resolver
  have hadded := h.state.addNode hq.consistent.stacked hq'.consistent.stacked hm
    (h.arguments hkept hkept')
  simp only [Query.begun, heq, heq']
  exact hadded.of_eq rfl rfl rfl rfl rfl rfl

/-- The answer to an argument that was not used before is a new node of it. -/
theorem Corresponds.settle_argument (h : q.Corresponds pairs q') (hkept : ¬ q.Bereft)
    (hkept' : ¬ q'.Bereft) (hq : q.Proper resolver) (hq' : q'.Proper resolver) {a a' : Argument}
    (hsame : a.Same pairs a') {g g' : Key → Follow} {r r' : Option NodeId × State}
    (hr : (Verdict.argument a).settle resolver g q = .ok r)
    (hr' : (Verdict.argument a').settle resolver g' q' = .ok r') : Agree none pairs r r' := by
  obtain ⟨type, source⟩ := a
  obtain ⟨type', source'⟩ := a'
  obtain ⟨htype, hsource⟩ := hsame
  obtain rfl : type = type' := htype
  cases hsource with
  | node n =>
    cases hr
    cases hr'
    exact .of_corresponds (le_refl _) h.state
  | @argument block block' index hopened =>
    have hnode : (argumentNode type block index).Corresponds pairs
        (argumentNode type block' index) := ⟨hopened, .argument index hopened, rfl⟩
    have hnumber := h.nodeNumber_eq hq hq'
    have hbound := bindArgument_same (h.arguments hkept hkept') type q.nodeNumber
    cases hr
    cases hr'
    rw [← nodeNumber, ← nodeNumber, ← hnumber]
    exact .of_corresponds (le_refl _)
      (h.state.addNode hq.consistent.stacked hq'.consistent.stacked hnode hbound)

/-- The work for a value can be carried out where it begins. -/
theorem Proper.ready (hq : q.Proper resolver) {m : Making}
    (hm : (q.seen see).verdict resolver = .ok (.make m)) :
    Ready resolver (seeing resolver see) (q.inner m.key q.nodeNumber) m.work.jobs
      (q.begun resolver m) :=
  have hgrounds := (verdict_grounds hm).of_seen
  ⟨hq.growsSeen hm, begun_consistent hq hgrounds, begun_placed hq hgrounds⟩

/-- Whether what two queries ask for their values agrees wherever it corresponds. -/
def AsksAgree (resolver : Resolver) (see see' : State → State) (q q' : Query) : Prop :=
  ∀ d d' pairs, q.AsksSeen resolver see d → q'.AsksSeen resolver see' d' → d.Corresponds pairs d' →
    ∀ r r', d.outcomeSeen resolver see = .ok r → d'.outcomeSeen resolver see' = .ok r' →
      Agree none pairs r r'

/-- The work for values that correspond agrees when what is asked for them does. The node of the
value has one number in each build, so that the work is for the same node. -/
theorem Corresponds.carryOut_agree (h : q.Corresponds pairs q') (hkept : ¬ q.Bereft)
    (hkept' : ¬ q'.Bereft) (hq : q.Proper resolver) (hq' : q'.Proper resolver) {m m' : Making}
    (hm : (q.seen see).verdict resolver = .ok (.make m))
    (hm' : (q'.seen see').verdict resolver = .ok (.make m'))
    (hv : (Verdict.make m).Corresponds pairs (.make m')) (hasks : AsksAgree resolver see see' q q')
    {b b' : Bool} {t t' : State}
    (hr : m.work.carryOut (seeing resolver see) (q.inner m.key q.nodeNumber) q.nodeNumber
      (q.begun resolver m) = .ok (b, t))
    (hr' : m'.work.carryOut (seeing resolver see') (q'.inner m'.key q'.nodeNumber) q'.nodeNumber
      (q'.begun resolver m') = .ok (b', t')) : Agree false pairs (b, t) (b', t') := by
  cases hv with | make hkey hcontent hwork hshared
  have hnumber := h.nodeNumber_eq hq hq'
  have hready' := hq'.ready hm'
  have hattempts : AttemptsAgree (seeing resolver see) (seeing resolver see')
      (q.inner m.key q.nodeNumber) (q'.inner m'.key q.nodeNumber) q.nodeNumber
      (m.work.attempts (seeing resolver see) (q.inner m.key q.nodeNumber) q.nodeNumber
        (q.begun resolver m))
      (m.work.attempts (seeing resolver see') (q'.inner m'.key q.nodeNumber) q.nodeNumber
        (q'.begun resolver m')) := by
    intro a ha a' ha' c hc c' hc' pairs' hcc
    refine hasks c.query c'.query pairs' ⟨a, ?_, c, ?_, rfl⟩ ⟨a', ?_, c', ?_, rfl⟩ hcc
    · simpa only [attemptsSeen, hm] using ha
    · simpa only [callsSeen, hm] using hc
    · simpa only [attemptsSeen, hm', ← hwork, ← hnumber] using ha'
    · simpa only [callsSeen, hm', ← hnumber] using hc'
  rw [← hwork, ← hnumber] at hr' hready'
  exact Wiring.carryOut_agree (hkey ▸ h.inner _ _) (h.begun hkept hkept' hq hq' hcontent)
    (hq.ready hm) hready' hattempts hr hr'

/-- Values that correspond are made alike when what is asked for them agrees. -/
theorem Corresponds.make_agree (h : q.Corresponds pairs q') (hkept : ¬ q.Bereft)
    (hkept' : ¬ q'.Bereft) (hq : q.Proper resolver) (hq' : q'.Proper resolver) {m m' : Making}
    (hm : (q.seen see).verdict resolver = .ok (.make m))
    (hm' : (q'.seen see').verdict resolver = .ok (.make m'))
    (hv : (Verdict.make m).Corresponds pairs (.make m')) (hasks : AsksAgree resolver see see' q q')
    {r r' : Option NodeId × State} (hr : q.outcomeSeen resolver see = .ok r)
    (hr' : q'.outcomeSeen resolver see' = .ok r') : Agree none pairs r r' := by
  obtain ⟨a, t⟩ := r
  obtain ⟨a', t'⟩ := r'
  obtain ⟨u, hu⟩ := outcomeSeen_make_cases hq.toAdmissible hm hr
  obtain ⟨u', hu'⟩ := outcomeSeen_make_cases hq'.toAdmissible hm' hr'
  have hagree : ∀ {b b'}, _ → _ → Agree false pairs (b, u) (b', u') :=
    h.carryOut_agree hkept hkept' hq hq' hm hm' hv hasks
  cases hv with | make hkey hcontent hwork hshared
  rcases hu with ⟨rfl, rfl, hcarry⟩ | ⟨rfl, rfl, hcarry⟩ <;>
    rcases hu' with ⟨rfl, rfl, hcarry'⟩ | ⟨rfl, rfl, hcarry'⟩
  · obtain ⟨pairs₁, hle, hstates⟩ := (hagree hcarry hcarry').2 Bool.noConfusion
    have hkeys : Option.Rel (SharedKey.Corresponds pairs₁) m.shared m'.shared := by
      obtain ⟨hk, hk'⟩ | ⟨k, k', hk, hk', hkk⟩ := rel_cases hshared
      · rw [hk, hk']
        exact .none
      · rw [hk, hk']
        exact .some (hkk.mono hle)
    rw [← h.nodeNumber_eq hq hq']
    exact .of_corresponds hle (hstates.sharing hkeys _)
  · cases (hagree hcarry hcarry').1
  · cases (hagree hcarry hcarry').1
  · exact .of_failed

/-- The outcomes of queries that correspond agree, as long as on the way no visible argument lost
its node and of two queries that correspond none has an answer when the other is answered by a
remembered failure. Where neither is answered so, the verdicts correspond, and only one to make a
value asks for more. -/
theorem Corresponds.outcomeSeen_agree (hsee : Forgetful see) (hsee' : Forgetful see')
    (hq : q.Proper resolver) (hq' : q'.Proper resolver) (h : q.Corresponds pairs q')
    (hkept : ∀ d, q.ReachesSeen resolver see d → ¬ d.Bereft)
    (hkept' : ∀ d, q'.ReachesSeen resolver see' d → ¬ d.Bereft)
    (hexcused : ∀ d d' pairs, q.ReachesSeen resolver see d → q'.ReachesSeen resolver see' d' →
      d.Corresponds pairs d' → Excused resolver see see' d d')
    {r r' : Option NodeId × State} (hr : q.outcomeSeen resolver see = .ok r)
    (hr' : q'.outcomeSeen resolver see' = .ok r') : Agree none pairs r r' := by
  have hadmissible := hq.toAdmissible
  induction q, hadmissible using Admissible.inductSeen generalizing q' pairs r r' with
  | step q hadmissible ih
  obtain ⟨a, t⟩ := r
  obtain ⟨a', t'⟩ := r'
  have hfails : a = none → a' = none → Agree none pairs (a, t) (a', t') := by
    rintro rfl rfl
    exact .of_failed
  have hbereft := hkept q .refl
  have hbereft' := hkept' q' .refl
  obtain ⟨hexcuse, hexcuse'⟩ := hexcused q q' pairs .refl .refl h
  by_cases hrecalled : (q.seen see).Recalls resolver
  · exact hfails (none_of_recalls hadmissible hrecalled hr) ((hexcuse hrecalled).eq_none hr')
  by_cases hrecalled' : (q'.seen see').Recalls resolver
  · exact hfails ((hexcuse' hrecalled').eq_none hr)
      (none_of_recalls hq'.toAdmissible hrecalled' hr')
  obtain ⟨e, hv, -⟩ | ⟨v, v', hv, hv', hvv⟩ := (h.seen hsee hsee').verdict
    (mt hsee.bereft hbereft) (mt hsee'.bereft hbereft') hrecalled hrecalled'
  · rw [outcomeSeen_eq hadmissible, hv] at hr
    cases hr
  have hsettle := outcomeSeen_eq hadmissible ▸ hr
  have hsettle' := outcomeSeen_eq hq'.toAdmissible ▸ hr'
  rw [hv, ok_bind] at hsettle
  rw [hv', ok_bind] at hsettle'
  cases hvv with
  | argument hsame => exact h.settle_argument hbereft hbereft' hq hq' hsame hsettle hsettle'
  | unresolved =>
    cases hsettle
    cases hsettle'
    exact .of_failed
  | linked n =>
    cases hsettle
    cases hsettle'
    exact .of_corresponds (le_refl _) h.reached
  | loop =>
    cases hsettle
    cases hsettle'
    exact .of_failed
  | make hkey hcontent hwork hshared =>
    refine h.make_agree hbereft hbereft' hq hq' hv hv' (.make hkey hcontent hwork hshared) ?_ hr hr'
    intro d d' pairs' hd hd' hdd r r' hr hr'
    obtain ⟨hproper, hbelow⟩ := hq.of_asksSeen hd
    obtain ⟨hproper', -⟩ := hq'.of_asksSeen hd'
    exact ih see d hbelow hproper hproper' hdd (fun e he => hkept e (.head hd he))
      (fun e he => hkept' e (.head hd' he))
      (fun e e' pairs he he' => hexcused e e' pairs (.head hd he) (.head hd' he')) hr hr'

end Query

end Injector.Wiring

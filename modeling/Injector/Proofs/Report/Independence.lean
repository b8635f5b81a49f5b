import Injector.Proofs.Report.Completion
import Injector.Proofs.Wiring.Lockstep

/-!
# What remembered failures and reported loops change

A failure is remembered for a binding and its substitution alone, and the loops that were reported
for other roots decide which failures are remembered. The main statements are that a root is built
as if nothing was remembered when every remembered failure that answers a query stands where it is
used, and that the loops reported before change nothing when what is remembered after some of them
fails after the others too. Neither holds of every root.
-/

namespace Injector

open Wiring

namespace Wiring

/-- What is seen of a state where remembered failures are not consulted. -/
def State.forgetting (s : State) : State := { s with failures := [] }

theorem forgetful_forgetting : Forgetful .forgetting := fun _ => ⟨[], List.nil_subset _, rfl⟩

/-- Builds the graph of a root, where what becomes of queries is decided by what is seen of their
states. -/
def buildRootSeen (resolver : Resolver) (see : State → State) (root : Table.Root)
    (cycles : CycleLog) : Except Fault RootBuild :=
  ((Query.ofRoot root cycles).outcomeSeen resolver see).map fun r =>
    ⟨r.2.rooted r.1, r.2.issues, r.2.touched, r.2.cycles⟩

/-- Builds the graph of a root without ever consulting remembered failures. -/
def buildRootAfresh (resolver : Resolver) : Table.Root → CycleLog → Except Fault RootBuild :=
  buildRootSeen resolver .forgetting

/-- Whether two builds of a root have the same outcome: both fail, or both resolve the root with one
graph, up to the names of blocks. -/
structure RootBuild.Agrees (b b' : RootBuild) : Prop where
  /-- The root is resolved by both or by none. -/
  resolved : b.isResolved = b'.isResolved
  /-- Where it is resolved, it has one graph. -/
  graph : b.isResolved → ∃ pairs, Relator.BiUnique pairs ∧ pairs 0 0 ∧
    b.graph.Corresponds pairs b'.graph

variable {resolver : Resolver} {see see' : State → State} {root : Table.Root}
  {cycles cycles' : CycleLog}

/-- A root is built by what is seen of whole states. -/
theorem buildRoot_eq_seen (resolver : Resolver) (root : Table.Root) (cycles : CycleLog) :
    buildRoot resolver root cycles = buildRootSeen resolver id root cycles := by
  rw [buildRoot_eq, Query.outcome_eq_outcomeSeen, buildRootSeen]

namespace Query

variable {q d : Query}

/-- Nothing is recalled where remembered failures are not consulted. -/
theorem not_recalls_forgetting : ¬ (q.seen .forgetting).Recalls resolver := by
  rintro ⟨issues, hv⟩
  cases verdict_grounds hv with
  | recalled hknown => cases hknown

/-- An argument that answers a query by its node has not lost it, if none has. -/
theorem not_stale_of_not_bereft (h : ¬ q.Bereft) : ¬ q.Stale := by
  rintro ⟨type, n, hvisible, hlost⟩
  exact h ⟨_, (visible?_eq_some hvisible).2.2.2, n, rfl, hlost⟩

/-- The queries for one root correspond after whatever loops: only the outermost block is open. -/
theorem ofRoot_corresponds (root : Table.Root) (cycles cycles' : CycleLog) :
    (ofRoot root cycles).Corresponds (paired (fun _ _ => False) 0 0) (ofRoot root cycles') := by
  have houter : paired (fun _ _ => False) 0 0 0 0 := .inr ⟨rfl, rfl⟩
  refine ⟨⟨.nil, houter, houter⟩, rfl, rfl, rfl, ⟨?_, ?_, ⟨.nil, rfl, rfl⟩, .nil, .nil⟩⟩
  · refine paired_unique ⟨?_, ?_⟩ fun _ _ h => h.elim
    · exact fun _ _ _ h => h.elim
    · exact fun _ _ _ h => h.elim
  · rintro b b' (h | ⟨rfl, rfl⟩)
    · exact h.elim
    · exact ⟨Nat.zero_lt_one, Nat.zero_lt_one⟩

/-- The query of a root has an outcome if no visible argument loses its node on the way. -/
theorem ofRoot_outcomeSeen_ok (hsee : Forgetful see)
    (hkept : ∀ d, (ofRoot root cycles).ReachesSeen resolver see d → ¬ d.Bereft) :
    ∃ a s, (ofRoot root cycles).outcomeSeen resolver see = .ok (a, s) ∧ s.graph.root = none := by
  have hproper := ofRoot_proper resolver root cycles
  obtain ⟨a, s, hout, -⟩ := (completesSeen_iff hsee hproper).mpr
    fun d hd => not_stale_of_not_bereft (hkept d hd)
  exact ⟨a, s, hout, (outcomeSeen_extends see hproper hout).1.graph.root⟩

end Query

/-- Two builds of a root agree, as long as on the way no visible argument lost its node and of two
queries that correspond none has an answer when the other is answered by a remembered failure. -/
theorem buildRootSeen_agree (hsee : Forgetful see) (hsee' : Forgetful see')
    (hkept : ∀ d, (Query.ofRoot root cycles).ReachesSeen resolver see d → ¬ d.Bereft)
    (hkept' : ∀ d, (Query.ofRoot root cycles').ReachesSeen resolver see' d → ¬ d.Bereft)
    (hexcused : ∀ d d' pairs, (Query.ofRoot root cycles).ReachesSeen resolver see d →
      (Query.ofRoot root cycles').ReachesSeen resolver see' d' → d.Corresponds pairs d' →
      Query.Excused resolver see see' d d') :
    ∃ b b', buildRootSeen resolver see root cycles = .ok b ∧
      buildRootSeen resolver see' root cycles' = .ok b' ∧ b.Agrees b' := by
  obtain ⟨a, s, hout, hroot⟩ := Query.ofRoot_outcomeSeen_ok hsee hkept
  obtain ⟨a', s', hout', hroot'⟩ := Query.ofRoot_outcomeSeen_ok hsee' hkept'
  obtain ⟨ha, hs⟩ := (Query.ofRoot_corresponds root cycles cycles').outcomeSeen_agree hsee hsee'
    (Query.ofRoot_proper resolver root cycles) (Query.ofRoot_proper resolver root cycles')
    hkept hkept' hexcused hout hout'
  cases ha
  refine ⟨_, _, by rw [buildRootSeen, hout]; rfl, by rw [buildRootSeen, hout']; rfl, ?_⟩
  cases a with
  | none =>
    refine ⟨?_, fun hresolved => ?_⟩
    · simp only [RootBuild.isResolved, State.rooted, hroot, hroot']
    · simp only [RootBuild.isResolved, State.rooted, hroot] at hresolved
      cases hresolved
  | some n =>
    obtain ⟨pairs, hle, hst⟩ := hs (Option.some_ne_none n)
    exact ⟨rfl, fun _ => ⟨pairs, hst.unique, hle 0 0 (.inr ⟨rfl, rfl⟩),
      hst.graph.nodes, hst.graph.edges, rfl⟩⟩

/-- A root is built as without remembered failures, as long as each that answers a query stands for
a failure of the query that corresponds, and no visible argument lost its node. -/
theorem buildRoot_agree_afresh
    (hkept : ∀ d, (Query.ofRoot root cycles).Reaches resolver d → ¬ d.Bereft)
    (hkept' : ∀ d, (Query.ofRoot root cycles).ReachesSeen resolver .forgetting d → ¬ d.Bereft)
    (hstands : ∀ d d' pairs, (Query.ofRoot root cycles).Reaches resolver d →
      (Query.ofRoot root cycles).ReachesSeen resolver .forgetting d' → d.Corresponds pairs d' →
      d.Recalls resolver → d'.Unanswered resolver .forgetting) :
    ∃ b b', buildRoot resolver root cycles = .ok b ∧
      buildRootAfresh resolver root cycles = .ok b' ∧ b.Agrees b' := by
  rw [buildRoot_eq_seen]
  simp only [Query.reaches_iff_seen] at hkept hstands
  exact buildRootSeen_agree forgetful_id forgetful_forgetting hkept hkept'
    fun d d' pairs hd hd' hdd => ⟨hstands d d' pairs hd hd' hdd,
      fun h => absurd h Query.not_recalls_forgetting⟩

/-- A root is built alike after the loops of two logs, as long as of two queries that correspond
none has an answer when the other is answered by a remembered failure, and no visible argument lost
its node. -/
theorem buildRoot_agree
    (hkept : ∀ d, (Query.ofRoot root cycles).Reaches resolver d → ¬ d.Bereft)
    (hkept' : ∀ d, (Query.ofRoot root cycles').Reaches resolver d → ¬ d.Bereft)
    (hexcused : ∀ d d' pairs, (Query.ofRoot root cycles).Reaches resolver d →
      (Query.ofRoot root cycles').Reaches resolver d' → d.Corresponds pairs d' →
      Query.Excused resolver id id d d') :
    ∃ b b', buildRoot resolver root cycles = .ok b ∧ buildRoot resolver root cycles' = .ok b' ∧
      b.Agrees b' := by
  rw [buildRoot_eq_seen, buildRoot_eq_seen]
  simp only [Query.reaches_iff_seen] at hkept hkept' hexcused
  exact buildRootSeen_agree forgetful_id forgetful_id hkept hkept' hexcused

namespace Query

variable {q d : Query}

/-- Whether something holds of all queries that are reached in a number of steps, and no more steps
can be made. -/
def holdsOnWay (resolver : Resolver) (see : State → State) (p : Query → Bool) :
    (steps : Nat) → Query → Bool
  | 0, _ => false
  | steps + 1, q => p q && (q.attemptsSeen resolver see).all fun a =>
      (q.callsSeen resolver see a).all fun c => holdsOnWay resolver see p steps c.query

theorem of_holdsOnWay {p : Query → Bool} {steps : Nat}
    (h : holdsOnWay resolver see p steps q = true) (hd : ReachesSeen resolver see q d) :
    p d = true := by
  induction hd using Relation.ReflTransGen.head_induction_on generalizing steps with
  | refl =>
    cases steps with
    | zero => cases h
    | succ steps => exact (Bool.and_eq_true_iff.mp h).1
  | head hasks _ ih =>
    cases steps with
    | zero => cases h
    | succ steps =>
      obtain ⟨a, ha, c, hc, rfl⟩ := hasks
      exact ih (List.all_eq_true.mp (List.all_eq_true.mp (Bool.and_eq_true_iff.mp h).2 a ha) c hc)

/-- Whether no argument is visible to a query, one request is the only one that is recalled, and it
is never answered. -/
def recallsOnly (resolver : Resolver) (see : State → State) (request : Request) (q : Query) :
    Bool :=
  q.state.arguments.isEmpty &&
    (match (q.seen see).verdict resolver with
      | .ok (.recalled _) => q.request == request
      | _ => true) &&
    (q.request != request || match q.outcomeSeen resolver see with
      | .ok (some _, _) => false
      | _ => true)

theorem not_bereft_of_recallsOnly {request : Request}
    (h : recallsOnly resolver see request q = true) : ¬ q.Bereft := by
  rintro ⟨a, ha, -⟩
  simp only [recallsOnly, Bool.and_eq_true, List.isEmpty_iff] at h
  rw [h.1.1] at ha
  cases ha

theorem request_of_recallsOnly {request : Request} (h : recallsOnly resolver see request q = true)
    (hq : (q.seen see).Recalls resolver) : q.request = request := by
  obtain ⟨issues, hv⟩ := hq
  simp only [recallsOnly, hv, Bool.and_eq_true] at h
  exact beq_iff_eq.mp h.1.2

theorem unanswered_of_recallsOnly {request : Request}
    (h : recallsOnly resolver see request q = true) (hq : q.request = request) :
    q.Unanswered resolver see := by
  intro n s hout
  simp [recallsOnly, hq, hout] at h

theorem excused_of_recallsOnly {request : Request} {pairs : Pairing}
    (h : recallsOnly resolver see request q = true)
    (h' : recallsOnly resolver see' request d = true) (hqd : q.Corresponds pairs d) :
    Excused resolver see see' q d :=
  ⟨fun hq => unanswered_of_recallsOnly h' (hqd.request ▸ request_of_recallsOnly h hq),
    fun hd => unanswered_of_recallsOnly h (hqd.request.trans (request_of_recallsOnly h' hd))⟩

end Query

/-- A root with four ways to be made: two need a part that needs what nothing makes, one needs a
loop, and one can be used. -/
def spare : Setup :=
  .sample [("IR", "R",
      [[.named "IA" []], [.named "IB" []], [.named "IX" []], [.named "IC" []]]),
    ("IA", "A", [[.named "IMissing" []]]), ("IB", "B", [[.named "IA" []]]),
    ("IX", "X", [[.named "IX" []]]), ("IC", "C", [[]])] ["IR"]

/-- On the way from such a root, only the part fails again. -/
def sparesOnly (see : State → State) (cycles : CycleLog) : Bool :=
  Query.holdsOnWay (.ofSetup spare) see
    (Query.recallsOnly (.ofSetup spare) see (.free ⟨.named "IA" [], none⟩)) 5
    (.ofRoot spare.firstRoot cycles)

/-- Such a root is built as without remembered failures. -/
theorem buildRoot_agree_afresh_spare :
    ∃ b b', buildRoot (.ofSetup spare) spare.firstRoot .empty = .ok b ∧
      buildRootAfresh (.ofSetup spare) spare.firstRoot .empty = .ok b' ∧ b.Agrees b' := by
  have hseen : sparesOnly id .empty = true := by decide +kernel
  have hafresh : sparesOnly .forgetting .empty = true := by decide +kernel
  refine buildRoot_agree_afresh (fun d hd => ?_) (fun d hd => ?_) fun d d' pairs hd hd' hdd => ?_
  · exact Query.not_bereft_of_recallsOnly
      (Query.of_holdsOnWay hseen (Query.reaches_iff_seen.mp hd))
  · exact Query.not_bereft_of_recallsOnly (Query.of_holdsOnWay hafresh hd)
  · exact (Query.excused_of_recallsOnly
      (Query.of_holdsOnWay hseen (Query.reaches_iff_seen.mp hd))
      (Query.of_holdsOnWay hafresh hd') hdd).1

/-- Such a root is built alike after its loop was reported. -/
theorem buildRoot_agree_spare :
    ∃ b b', buildRoot (.ofSetup spare) spare.firstRoot .empty = .ok b ∧
      buildRoot (.ofSetup spare) spare.firstRoot ⟨[["IX"]]⟩ = .ok b' ∧ b.Agrees b' := by
  have hbefore : sparesOnly id .empty = true := by decide +kernel
  have hafter : sparesOnly id ⟨[["IX"]]⟩ = true := by decide +kernel
  refine buildRoot_agree (fun d hd => ?_) (fun d hd => ?_) fun d d' pairs hd hd' hdd => ?_
  · exact Query.not_bereft_of_recallsOnly
      (Query.of_holdsOnWay hbefore (Query.reaches_iff_seen.mp hd))
  · exact Query.not_bereft_of_recallsOnly
      (Query.of_holdsOnWay hafter (Query.reaches_iff_seen.mp hd))
  · exact Query.excused_of_recallsOnly
      (Query.of_holdsOnWay hbefore (Query.reaches_iff_seen.mp hd))
      (Query.of_holdsOnWay hafter (Query.reaches_iff_seen.mp hd')) hdd

/-- A root that asks for a service at once, or else for a provider of it; the service takes the
argument of the provider call. -/
def lateArgument : Setup :=
  .sample [("IR", "R", [[.named "IS" []], [.named "Func" [.named "int" [], .named "IS" []]]]),
    ("IS", "S", [[.named "int" []]])] ["IR"]

/-- The failure of the service outside of the provider call is remembered, and answers the query for
it inside, where it can be made. -/
theorem lateArgument_recalled :
    (Table.merge [lateArgument] "Composition" .empty .empty).2 =
        some (Resolver.ofSetup lateArgument).table ∧
      lateArgument.firstRoot ∈ (Resolver.ofSetup lateArgument).table.roots ∧
      (buildRoot (.ofSetup lateArgument) lateArgument.firstRoot .empty).map
          RootBuild.isResolved = .ok false ∧
      (buildRootAfresh (.ofSetup lateArgument) lateArgument.firstRoot .empty).map
          RootBuild.isResolved = .ok true := by
  refine ⟨by decide +kernel, by decide +kernel, by decide +kernel, by decide +kernel⟩

/-- A root that tries to use a part which needs the root, or else something that nothing makes, and
another root that needs both. -/
def hiddenLoop : Setup :=
  .sample [("IR", "R", [[.named "IP" []], []]),
    ("IP", "P", [[.named "IR" []], [.named "IMissing" []]]),
    ("IT", "T", [[.named "IR" [], .named "IP" []]])] ["IR", "IT"]

/-- The root that a setup declares last. -/
def lastRootOf (setup : Setup) : Table.Root :=
  (setup.roots.getLast?.map (Table.rootOf setup)).getD default

/-- After the first root the loop is not reported again, so that the failure of the part is
remembered for the second root, which resolves when it is built alone. -/
theorem hiddenLoop_dependent :
    (Table.merge [hiddenLoop] "Composition" .empty .empty).2 =
        some (Resolver.ofSetup hiddenLoop).table ∧
      (Resolver.ofSetup hiddenLoop).table.roots =
        [hiddenLoop.firstRoot, lastRootOf hiddenLoop] ∧
      (buildRoot (.ofSetup hiddenLoop) (lastRootOf hiddenLoop) .empty).map
          RootBuild.isResolved = .ok true ∧
      ((buildRoot (.ofSetup hiddenLoop) hiddenLoop.firstRoot .empty).bind fun b =>
          buildRoot (.ofSetup hiddenLoop) (lastRootOf hiddenLoop) b.cycles).map
          RootBuild.isResolved = .ok false := by
  refine ⟨by decide +kernel, by decide +kernel, by decide +kernel, by decide +kernel⟩

end Wiring

end Injector

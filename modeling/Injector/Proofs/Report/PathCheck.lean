import Injector.Proofs.Report.Completion
import Injector.Proofs.Wiring.Segments

/-!
# What the path check finds

Before a value is made it is looked for among what is under construction. Where it is asked for at
once, and the first one found was begun in the present segment, a loop is reported. The main
statements are that such a loop is one, in which each value is asked for at once by the one before
it, and that a value is never begun again in its segment exactly when no query asks at once for what
is under construction both since an earlier segment and since the present one.
-/

namespace Injector.Wiring

namespace Query

variable {resolver : Resolver} {q d : Query}

/-- The key of what a query asks for, and whether one instance of it is shared. -/
def asked? (resolver : Resolver) (q : Query) : Option (Key × Bool) :=
  match resolver.resolve q.request with
  | .unresolved => none
  | .binding id s =>
      (resolver.table.bindings[id]?).map fun r => (.binding id s, r.lifetime != .transient)
  | .synthesized _ _ _ => some (.contract q.request.contract, false)

/-- What becomes of a query that no argument answers because of what is under construction. -/
def checked? (resolver : Resolver) (q : Query) : Option Verdict :=
  match q.visible? with
  | some _ => none
  | none => (q.asked? resolver).bind fun p => q.onPath? p.1 p.2

theorem checked?_eq_some {v : Verdict} :
    q.checked? resolver = some v ↔ q.visible? = none ∧
      ∃ key isShared, q.asked? resolver = some (key, isShared) ∧
        q.onPath? key isShared = some v := by
  unfold checked?
  cases q.visible? with
  | some a => simp
  | none => simp [Option.bind_eq_some_iff]

/-- What the path check decides becomes of the query. -/
theorem verdict_of_checked? {v : Verdict} (h : q.checked? resolver = some v) :
    q.verdict resolver = .ok v := by
  obtain ⟨hvisible, key, isShared, hasked, hpath⟩ := checked?_eq_some.mp h
  unfold asked? at hasked
  split at hasked
  · cases hasked
  · next id s hres =>
    obtain ⟨r, hr, heq⟩ := Option.map_eq_some_iff.mp hasked
    cases heq
    simp only [verdict, hvisible, hres, hr, bindingVerdict, hpath]
  · next hres =>
    cases hasked
    simp only [verdict, hvisible, hres, hpath, Option.getD_some]

/-- What is to be made was not decided by the path check. -/
theorem onPath?_eq_none_of_make {m : Making} (h : q.verdict resolver = .ok (.make m)) :
    q.onPath? m.key (m.content.lifetime != .transient) = none := by
  cases verdict_grounds h with
  | makeBinding hres hr =>
    exact (bindingVerdict_eq_make.mp (bindingVerdict_of_verdict h (by simp) hres hr)).1
  | makeShape hres =>
    cases hpath : q.onPath? (.contract q.request.contract) false with
    | none => exact hpath
    | some v =>
      have hvisible := visible?_eq_none h (by simp)
      simp only [verdict, hvisible, hres, hpath, Option.getD_some] at h
      obtain ⟨f, -, -, rfl⟩ | ⟨members, path, rfl⟩ := onPath?_cases hpath <;> cases h

/-- Whether values under construction are a loop that `q` closes by asking for a key: the first has
this key, all are made in the segment of `q`, and each is asked for at once by the one before it,
with no provider call in between, as `q` is by the last one. -/
structure Circle (resolver : Resolver) (q : Query) (key : Key) (askers : List Query)
    (frames : List Frame) : Prop where
  /-- The values are what the queries ask for. -/
  entered : List.Forall₂ (Enters resolver) askers frames
  /-- The first value is the one that is asked for again. -/
  first : frames.head?.map Frame.key = some key
  /-- All are made in one segment. -/
  segment : ∀ f ∈ frames, f.segment = q.context.segment
  /-- Each is asked for at once by the one before it. -/
  asked : (askers ++ [q]).IsChain (AsksDirectly resolver)

/-- The query that is asked on the way at a place: for each step, the number of an attempt and that
of one of its calls. -/
def descendant? (resolver : Resolver) : List (Nat × Nat) → Query → Option Query
  | [], q => some q
  | (i, j) :: place, q => do
      let a ← (q.attempts resolver)[i]?
      let c ← (q.callsOf resolver a)[j]?
      descendant? resolver place c.query

theorem reaches_of_descendant? {place : List (Nat × Nat)}
    (h : descendant? resolver place q = some d) : q.Reaches resolver d := by
  induction place generalizing q with
  | nil =>
    obtain rfl := Option.some.inj h
    exact .refl
  | cons first place ih =>
    obtain ⟨a, ha, h⟩ := Option.bind_eq_some_iff.mp h
    obtain ⟨c, hc, h⟩ := Option.bind_eq_some_iff.mp h
    exact .head ⟨a, List.mem_of_getElem? ha, c, List.mem_of_getElem? hc, rfl⟩ (ih h)

end Query

/-- The members and the text of a loop. -/
def Verdict.loop? : Verdict → Option (List String × String)
  | .loop members text => some (members, text)
  | _ => none

theorem Verdict.eq_loop {v : Verdict} {members : List String} {text : String}
    (h : v.loop? = some (members, text)) : v = .loop members text := by
  cases v <;> cases h
  rfl

variable {resolver : Resolver} {root : Table.Root} {cycles : CycleLog} {q : Query}

/-- A loop that the path check finds is one. Nothing is made, and the loop is reported unless it was
before: it consists of the last values under construction, which lead from the first one back to its
key. -/
theorem exists_circle (hq : (Query.ofRoot root cycles).Reaches resolver q)
    {members : List String} {text : String}
    (h : q.checked? resolver = some (.loop members text)) :
    q.outcome resolver =
        .ok (none, (q.reached resolver).looping members text q.site.location) ∧
      q.timing = .eager ∧
      ∃ key isShared before frames askers, q.asked? resolver = some (key, isShared) ∧
        q.context.path = before ++ frames ∧ q.Circle resolver key askers frames ∧
        (∀ p ∈ askers, (Query.ofRoot root cycles).Reaches resolver p) ∧
        members = frames.map (fun f => f.contract.text) ∧
        text = " -> ".intercalate (members ++ [q.request.contract.text]) := by
  have houtcome : q.outcome resolver =
      .ok (none, (q.reached resolver).looping members text q.site.location) := by
    rw [Query.outcome_eq (Query.proper_of_reaches hq).toAdmissible, Query.verdict_of_checked? h]
    rfl
  obtain ⟨-, key, isShared, hasked, hloop⟩ := Query.checked?_eq_some.mp h
  obtain ⟨heager, before, f, rest, hpath, hkey, hsegment, hmembers, htext⟩ :=
    Query.exists_since_of_loop hloop
  obtain ⟨askers, hentered, haskers, hchain⟩ := Query.exists_direct hq hpath hsegment
  have hsame : ∀ g ∈ f :: rest, g.segment = q.context.segment := by
    intro g hg
    have hmem := List.mem_map_of_mem (f := Frame.segment) hg
    rw [Query.map_segment hentered] at hmem
    obtain ⟨p, hp, heq⟩ := List.mem_map.mp hmem
    exact heq.symm.trans (haskers p hp).2
  exact ⟨houtcome, heager, key, isShared, before, f :: rest, askers, hasked, hpath,
    ⟨hentered, congrArg some hkey, hsame, hchain⟩, fun p hp => (haskers p hp).1, hmembers, htext⟩

/-- A service with a provider of a part, which needs at once another one that needs it at once. -/
def deferredLoop : Setup :=
  Setup.sample [("IR", "R", [[.named "Func" [.named "IA" []]]]), ("IA", "A", [[.named "IB" []]]),
    ("IB", "B", [[.named "IA" []]])] ["IR"]

/-- The loop of the parts is found in the provider call, and neither the service nor the provider is
in it. -/
theorem exists_circle_deferredLoop :
    ∃ q, (Query.ofRoot deferredLoop.firstRoot .empty).Reaches (.ofSetup deferredLoop) q ∧
      q.checked? (.ofSetup deferredLoop) = some (.loop ["IA", "IB"] "IA -> IB -> IA") ∧
      ∃ key frames askers, q.Circle (.ofSetup deferredLoop) key askers frames ∧
        frames.map (fun f => f.contract.text) = ["IA", "IB"] := by
  have hfound : ((Query.descendant? (.ofSetup deferredLoop) [(0, 0), (0, 0), (0, 0), (0, 0)]
      (.ofRoot deferredLoop.firstRoot .empty)).bind fun q =>
        (q.checked? (.ofSetup deferredLoop)).bind Verdict.loop?) =
      some (["IA", "IB"], "IA -> IB -> IA") := by
    decide +kernel
  obtain ⟨q, hq, hfound⟩ := Option.bind_eq_some_iff.mp hfound
  obtain ⟨v, hv, hloop⟩ := Option.bind_eq_some_iff.mp hfound
  have hreached := Query.reaches_of_descendant? hq
  have hcheck := Verdict.eq_loop hloop ▸ hv
  obtain ⟨-, -, key, -, -, frames, askers, -, -, hcircle, -, hmembers, -⟩ :=
    exists_circle hreached hcheck
  exact ⟨q, hreached, hcheck, key, frames, askers, hcircle, hmembers.symm⟩

/-- Whether no two values under construction in one segment are recognised by the same key. -/
def Distinct (path : List Frame) : Prop :=
  path.Pairwise fun f g => f.segment = g.segment → f.key ≠ g.key

instance (path : List Frame) : Decidable (Distinct path) :=
  inferInstanceAs (Decidable (path.Pairwise _))

theorem Distinct.concat {path : List Frame} {g : Frame} (hpath : Distinct path)
    (hnew : ∀ f ∈ path, f.segment = g.segment → f.key ≠ g.key) : Distinct (path ++ [g]) :=
  List.pairwise_append.mpr ⟨hpath, List.pairwise_singleton _ _,
    fun f hf _ hg => List.mem_singleton.mp hg ▸ hnew f hf⟩

namespace Query

/-- Whether at no moment of following a query two values under construction in one segment are
recognised by the same key. -/
def BeginsOnce (resolver : Resolver) (q : Query) : Prop :=
  ∀ d, q.Reaches resolver d → ∀ m, d.verdict resolver = .ok (.make m) →
    Distinct (d.inner m.key d.nodeNumber).path

/-- Whether a query asks at once for a transient value that is to be made, although it is under
construction both since an earlier segment and since the present one. -/
def BeginsAgain (resolver : Resolver) (q : Query) : Prop :=
  ∃ m, q.verdict resolver = .ok (.make m) ∧ q.timing = .eager ∧
    m.content.lifetime = .transient ∧
    (∃ f ∈ q.context.path, f.key = m.key ∧ f.segment < q.context.segment) ∧
    ∃ f ∈ q.context.path, f.key = m.key ∧ f.segment = q.context.segment

/-- Where each value is begun once in its segment, what is under construction is distinct whenever a
query is asked. -/
theorem BeginsOnce.distinct (h : (ofRoot root cycles).BeginsOnce resolver)
    (hq : (ofRoot root cycles).Reaches resolver q) : Distinct q.context.path := by
  cases hq with
  | refl => exact .nil
  | tail hd hasks =>
    obtain ⟨f, ⟨m, hm, rfl⟩, hpath⟩ := (proper_of_reaches hd).exists_entered hasks
    exact hpath ▸ h _ hd m hm

/-- What is made while it is under construction in the segment of the query is under construction in
an earlier one too, which hides it from the path check. -/
theorem beginsAgain_of_mem (hq : (ofRoot root cycles).Reaches resolver q) {m : Making}
    (hm : q.verdict resolver = .ok (.make m)) {f : Frame} (hf : f ∈ q.context.path)
    (hkey : f.key = m.key) (hsegment : f.segment = q.context.segment) :
    q.BeginsAgain resolver := by
  have hpath := onPath?_eq_none_of_make hm
  obtain ⟨heager, hlifetime⟩ := of_onPath?_eq_none hpath hf hkey
  obtain ⟨g, hg, hgkey, hne⟩ := exists_elsewhere hpath hf hkey
  have hlt := Nat.lt_of_le_of_ne (segment_le_of_mem_path hq hg) hne
  exact ⟨m, hm, heager, by simpa using hlifetime, ⟨g, hg, hgkey, hlt⟩, f, hf, hkey, hsegment⟩

/-- Where the value of a query is not begun again, it differs from what is under construction. -/
theorem distinct_inner (hq : (ofRoot root cycles).Reaches resolver q)
    (hnot : ¬ q.BeginsAgain resolver) (hpath : Distinct q.context.path) {m : Making}
    (hm : q.verdict resolver = .ok (.make m)) :
    Distinct (q.inner m.key q.nodeNumber).path :=
  hpath.concat fun _ hf hsegment hkey => hnot (beginsAgain_of_mem hq hm hf hkey hsegment)

/-- Where nothing is begun again on the way, what is under construction stays distinct. -/
theorem distinct_path (hnone : ∀ d, (ofRoot root cycles).Reaches resolver d →
    ¬ d.BeginsAgain resolver) (hq : (ofRoot root cycles).Reaches resolver q) :
    Distinct q.context.path := by
  induction hq with
  | refl => exact .nil
  | @tail q d hq hasks ih =>
    obtain ⟨f, ⟨m, hm, rfl⟩, hpath⟩ := (proper_of_reaches hq).exists_entered hasks
    exact hpath ▸ distinct_inner hq (hnone q hq) ih hm

end Query

/-- No value is begun again in its segment, at any moment of building a root, exactly when no query
on the way from the root asks at once for a transient value that is to be made although it is under
construction both since an earlier segment and since the present one. -/
theorem beginsOnce_iff (resolver : Resolver) (root : Table.Root) (cycles : CycleLog) :
    (Query.ofRoot root cycles).BeginsOnce resolver ↔
      ∀ q, (Query.ofRoot root cycles).Reaches resolver q → ¬ q.BeginsAgain resolver := by
  constructor
  · rintro honce q hq ⟨m, hm, -, -, -, f, hf, hkey, hsegment⟩
    obtain ⟨-, -, hnew⟩ := List.pairwise_append.mp (honce q hq m hm)
    exact hnew f hf _ (List.mem_singleton_self _) hsegment hkey
  · intro hnone q hq m hm
    exact Query.distinct_inner hq (hnone q hq) (Query.distinct_path hnone hq) hm

/-- A service that needs itself at once, and before that a provider of a part that needs it. -/
def restartedLoop : Setup :=
  Setup.sample [("IA", "A", [[.named "Func" [.named "IB" []], .named "IA" []]]),
    ("IB", "B", [[.named "IA" []]])] ["IA"]

/-- In the provider call the service, begun outside of it, is made anew, and when it then needs
itself it is begun again. -/
theorem restartedLoop_not_beginsOnce :
    ¬ (Query.ofRoot restartedLoop.firstRoot .empty).BeginsOnce (.ofSetup restartedLoop) := by
  intro honce
  let place := [(0, 0), (0, 0), (0, 0), (0, 1), (0, 0)]
  have hfound : ((Query.descendant? (.ofSetup restartedLoop) place
      (.ofRoot restartedLoop.firstRoot .empty)).any fun q =>
        !decide (Distinct q.context.path)) = true := by
    decide +kernel
  obtain ⟨q, hq, hfound⟩ := (Option.any_eq_true _ _).mp hfound
  have hdistinct := honce.distinct (Query.reaches_of_descendant? hq)
  simp [hdistinct] at hfound

end Injector.Wiring

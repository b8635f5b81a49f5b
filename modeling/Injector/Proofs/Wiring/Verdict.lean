import Injector.Proofs.Wiring.Job

/-!
# What becomes of a query

Whether a query is answered at once, closes a loop, or makes a value is decided by its context and
state alone, before anything further is followed. The main statement is that following a query is
settling its verdict: only a verdict to make a value leads to further queries, by the work for it.
-/

namespace Injector.Wiring

/-- A value to be made. -/
structure Making where
  /-- What it is recognised by while it is made. -/
  key : Key
  /-- Its node. -/
  content : Node
  /-- What is to be done for it. -/
  work : Work
  /-- What it is recognised by once it is made, if it is shared. -/
  shared : Option SharedKey

/-- What becomes of a query. -/
inductive Verdict where
  /-- A visible argument of a provider call answers it. -/
  | argument (a : Argument)
  /-- Nothing answers it. -/
  | unresolved
  /-- A node that is under construction or shared answers it. -/
  | linked (n : NodeId)
  /-- It closes a loop, or asks for a binding that is under construction too often. -/
  | loop (members : List String) (path : String)
  /-- It asks for what is known to fail. -/
  | recalled (issues : List Issue)
  /-- It asks for a value that is to be made. -/
  | make (m : Making)

namespace Query

/-- The visible argument that answers a query: one of its very type, when it has no tag and no
pin. -/
def visible? (q : Query) : Option Argument :=
  if q.request.pin.isNone && q.request.contract.tag.isNone then
    q.state.arguments.find? fun a => a.type == q.request.contract.type
  else none

/-- What becomes of a query for what is under construction. -/
def onPath? (q : Query) (key : Key) (isShared : Bool) : Option Verdict :=
  match q.context.path.find? fun f => f.key == key with
  | none => none
  | some frame =>
      match q.timing with
      | .deferred => some (.linked frame.node)
      | .eager =>
          if frame.segment = q.context.segment then
            let members := contractsFrom q.context.path fun f => f.key == key
            some (.loop members (" -> ".intercalate (members ++ [q.request.contract.text])))
          else if isShared then some (.linked frame.node)
          else none

/-- The value that a query for a binding asks for. -/
def bindingMaking (q : Query) (id : BindingId) (s : Substitution) (r : Registration) : Making where
  key := .binding id s
  content :=
    { contract := q.request.contract
      block := q.context.block
      origin := .binding id s none
      lifetime := r.lifetime
      scope := r.scope
      disposable := r.disposable
      label := if s.isEmpty then r.describe else r.describe ++ " [" ++ s.text ++ "]"
      location := r.location }
  work := workOf r s
  shared := SharedKey.of? r.lifetime id s q.context.block

/-- The value that a query for a shape asks for. -/
def shapeMaking (q : Query) (strategy : Strategy) (dependencies : List Dependency)
    (providerArgs : List TypeExpr) : Making where
  key := .contract q.request.contract
  content :=
    { contract := q.request.contract
      block := q.context.block
      origin := .synthesized strategy providerArgs
      lifetime := .transient
      scope := none
      disposable := false
      label := strategy.label
      location := q.site.location }
  work := .once (partJobs providerArgs q.site 0 dependencies)
  shared := none

/-- What becomes of a query that a binding answers. -/
def bindingVerdict (q : Query) (id : BindingId) (s : Substitution) (r : Registration) : Verdict :=
  match q.onPath? (.binding id s) (r.lifetime != .transient) with
  | some v => v
  | none =>
      if (q.context.path.filter (Frame.isOf id)).length < maxSpecializations then
        match (SharedKey.of? r.lifetime id s q.context.block).bind fun k =>
            q.state.shared.lookup k with
        | some n => .linked n
        | none =>
            match q.state.failures.lookup (.binding id s) with
            | some issues => .recalled issues
            | none => .make (q.bindingMaking id s r)
      else
        let members := contractsFrom q.context.path (Frame.isOf id)
        .loop members (" -> ".intercalate members ++ " -> ...")

/-- What becomes of a query. -/
def verdict (resolver : Resolver) (q : Query) : Except Fault Verdict :=
  match q.visible? with
  | some a => .ok (.argument a)
  | none =>
      match resolver.resolve q.request with
      | .unresolved => .ok .unresolved
      | .binding id s =>
          match resolver.table.bindings[id]? with
          | none => .error (.absentBinding id)
          | some r => .ok (q.bindingVerdict id s r)
      | .synthesized strategy dependencies providerArgs =>
          .ok ((q.onPath? (.contract q.request.contract) false).getD
            (.make (q.shapeMaking strategy dependencies providerArgs)))

/-- The state of a query once a binding is reached that answers it. -/
def reached (resolver : Resolver) (q : Query) : State :=
  match resolver.resolve q.request with
  | .binding id _ => { q.state with touched := insertDistinct id q.state.touched }
  | _ => q.state

/-- The node of a visible argument that was not used before. -/
def argumentNode (type : TypeExpr) (block : BlockId) (index : Nat) : Node where
  contract := ⟨type, none⟩
  block
  origin := .argument block index
  lifetime := .transient
  scope := none
  disposable := false
  label := "provider argument " ++ toString index
  location := .unknown

/-- The context in which a value is made. -/
def inner (q : Query) (key : Key) (node : NodeId) : Context :=
  { q.context with
    path := q.context.path ++ [⟨key, node, q.context.segment, q.request.contract⟩] }

end Query

/-- A state in which a value was made and may be shared. -/
def State.sharing (s : State) (key : Option SharedKey) (n : NodeId) : State :=
  match key with
  | some k => { s with shared := (k, n) :: s.shared }
  | none => s

@[simp] theorem State.graph_sharing (s : State) (key : Option SharedKey) (n : NodeId) :
    (s.sharing key n).graph = s.graph := by
  cases key <;> rfl

@[simp] theorem State.issues_sharing (s : State) (key : Option SharedKey) (n : NodeId) :
    (s.sharing key n).issues = s.issues := by
  cases key <;> rfl

/-- A state in which a value failed with some issues; the lasting failure of a binding is
remembered. -/
def State.failing (s : State) (key : Key) (issues : List Issue) : State :=
  match key with
  | .binding .. =>
      if isLasting s.arguments issues then { s with failures := (key, issues) :: s.failures }
      else s
  | .contract _ => s

@[simp] theorem State.issues_failing (s : State) (key : Key) (issues : List Issue) :
    (s.failing key issues).issues = s.issues := by
  unfold failing
  split
  · split <;> rfl
  · rfl

/-- A state in which a loop was met, with the issue about it if it is new. -/
def State.looping (s : State) (members : List String) (path : String) (location : Location) :
    State :=
  let r := s.cycles.report members
  { s with
    cycles := r.2
    issues := if r.1 then s.issues ++ [⟨location, .cyclicDependency path⟩] else s.issues }

/-- Makes a value: its node is added, the work for it is carried out in the context in which it is
under construction, and the outcome is remembered. -/
def Making.run (m : Making) (follow : Follow) (q : Query) (s : State) :
    Except Fault (Option NodeId × State) :=
  let node := s.graph.nodes.nextNumber
  (m.work.carryOut follow (q.inner m.key node) node
    { s with graph := s.graph.addNode m.content }).map fun r =>
      if r.1 then (some node, r.2.sharing m.shared node)
      else (none, r.2.failing m.key (r.2.issues.drop s.issues.length))

/-- Carries out a verdict; what is asked for a value of a key is followed by `follow`. -/
def Verdict.settle (resolver : Resolver) (follow : Key → Follow) (q : Query) :
    Verdict → Except Fault (Option NodeId × State)
  | .argument ⟨_, .node n⟩ => .ok (some n, q.state)
  | .argument ⟨type, .argument block index⟩ =>
      let n := q.state.graph.nodes.nextNumber
      .ok (some n, { q.state with
        graph := q.state.graph.addNode (Query.argumentNode type block index)
        arguments := bindArgument type (.node n) q.state.arguments })
  | .unresolved =>
      .ok (none, { q.state with
        issues := q.state.issues ++
          [⟨q.site.location, .unableToResolve q.request.contract.text q.site.consumer⟩] })
  | .linked n => .ok (some n, q.reached resolver)
  | .loop members path => .ok (none, (q.reached resolver).looping members path q.site.location)
  | .recalled issues =>
      .ok (none, { q.reached resolver with issues := q.state.issues ++ issues })
  | .make m => m.run (follow m.key) q (q.reached resolver)

/-- What follows the queries for a value of a key: values of bindings count against the bound on
bindings, and those of shapes are bounded by their types. -/
def handler (below within : Follow) : Key → Follow
  | .binding .. => below
  | .contract _ => within

/-- A query is linked to what is under construction, closes a loop with it, or is left open. -/
theorem decide?_eq (q : Query) (key : Key) (isShared : Bool) (s : State) :
    decide? q.context key q.request.contract q.timing isShared q.site s =
      .ok (match q.onPath? key isShared with
        | some (.linked n) => (some (some n), s)
        | some (.loop members path) => (some none, s.looping members path q.site.location)
        | _ => (none, s)) := by
  unfold decide? Query.onPath?
  cases q.context.path.find? fun f => f.key == key with
  | none => rfl
  | some frame =>
    cases q.timing with
    | deferred => rfl
    | eager =>
      simp only
      split
      · simp only [State.looping]
        cases hr : (s.cycles.report (contractsFrom q.context.path fun f => f.key == key)).1 <;>
          simp [reportCycle, report, hr, bind_apply, pure_apply, get_apply, set_apply, modify_apply]
      · split <;> rfl

/-- A binding is refused when it is under construction as often as it may be, and then a loop is
told of. -/
theorem refuses_eq (q : Query) (id : BindingId) (s : State) :
    refuses q.context id q.site s =
      .ok (if (q.context.path.filter (Frame.isOf id)).length < maxSpecializations then (false, s)
        else (true, s.looping (contractsFrom q.context.path (Frame.isOf id))
          (" -> ".intercalate (contractsFrom q.context.path (Frame.isOf id)) ++ " -> ...")
          q.site.location)) := by
  unfold refuses
  split
  · rfl
  · simp only [State.looping]
    cases hr : (s.cycles.report (contractsFrom q.context.path (Frame.isOf id))).1 <;>
      simp [reportCycle, report, hr, bind_apply, pure_apply, get_apply, set_apply, modify_apply]

/-- Making the value of a shape is carrying out the jobs for its parts. -/
theorem synthesizedNode_eq (follow : Follow) (q : Query) (strategy : Strategy)
    (dependencies : List Dependency) (providerArgs : List TypeExpr) (s : State) :
    synthesizedNode follow q.context q.request.contract strategy dependencies providerArgs q.site
        s = (q.shapeMaking strategy dependencies providerArgs).run follow q s := by
  simp only [synthesizedNode, connectParts_eq, Making.run, Query.shapeMaking, Work.carryOut,
    Query.inner, addNode, bind_apply, pure_apply, get_apply, set_apply, ok_bind]
  cases performAll follow _ _ _ _ with
  | error e => rfl
  | ok r =>
    obtain ⟨b, s'⟩ := r
    cases b <;> rfl

/-- A binding that is neither shared yet nor known to fail is made by its recipe. -/
theorem bindingNode_eq (follow : Follow) (q : Query) (r : Registration) (id : BindingId)
    (s : Substitution) (st : State) :
    bindingNode follow q.context q.request.contract r id s st =
      match (SharedKey.of? r.lifetime id s q.context.block).bind fun k => st.shared.lookup k with
      | some n => .ok (some n, st)
      | none =>
          match st.failures.lookup (.binding id s) with
          | some issues => .ok (none, { st with issues := st.issues ++ issues })
          | none => (q.bindingMaking id s r).run follow q st := by
  simp only [bindingNode, bind_apply, get_apply, ok_bind]
  cases (SharedKey.of? r.lifetime id s q.context.block).bind fun k => st.shared.lookup k with
  | some n => rfl
  | none =>
    cases st.failures.lookup (.binding id s) with
    | some issues => rfl
    | none =>
      simp only [realize_eq, Making.run, Query.bindingMaking, Query.inner, addNode, bind_apply,
        pure_apply, get_apply, set_apply, ok_bind]
      cases (workOf r s).carryOut follow _ _ _ with
      | error e => rfl
      | ok out =>
        obtain ⟨b, s'⟩ := out
        cases b with
        | true =>
          simp only [ok_bind, ↓reduceIte, Except.map, State.sharing]
          cases SharedKey.of? r.lifetime id s q.context.block <;> rfl
        | false =>
          simp only [ok_bind, Bool.false_eq_true, ↓reduceIte, Except.map, State.failing, bind_apply,
            get_apply]
          cases isLasting s'.arguments (s'.issues.drop st.issues.length) <;> rfl

/-- The first visible argument of a type answers, and gets a node if it has none. -/
theorem argument?_eq (type : TypeExpr) (s : State) :
    argument? type s =
      .ok (match s.arguments.find? fun a => a.type == type with
        | none => (none, s)
        | some ⟨_, .node n⟩ => (some n, s)
        | some ⟨_, .argument block index⟩ =>
            (some s.graph.nodes.nextNumber, { s with
              graph := s.graph.addNode (Query.argumentNode type block index)
              arguments := bindArgument type (.node s.graph.nodes.nextNumber) s.arguments })) := by
  simp only [argument?, bind_apply, get_apply, ok_bind]
  cases s.arguments.find? fun a => a.type == type with
  | none => rfl
  | some a =>
    obtain ⟨t, source⟩ := a
    cases source <;> rfl

namespace Query

variable {resolver : Resolver} {q : Query}

/-- What is under construction is linked to or closes a loop. -/
theorem onPath?_cases {key : Key} {isShared : Bool} {v : Verdict}
    (h : q.onPath? key isShared = some v) :
    (∃ f ∈ q.context.path, f.key = key ∧ v = .linked f.node) ∨
      ∃ members path, v = .loop members path := by
  unfold onPath? at h
  split at h
  · cases h
  · next f hf =>
    have hkey : f.key = key := by simpa using List.find?_some hf
    have hlinked : v = .linked f.node →
        ∃ f ∈ q.context.path, f.key = key ∧ v = .linked f.node :=
      fun hv => ⟨f, List.mem_of_find?_eq_some hf, hkey, hv⟩
    split at h
    · exact .inl (hlinked (Option.some.inj h).symm)
    · split at h
      · exact .inr ⟨_, _, (Option.some.inj h).symm⟩
      · split at h
        · exact .inl (hlinked (Option.some.inj h).symm)
        · cases h

/-- What a verdict rests on. -/
inductive Grounds (resolver : Resolver) (q : Query) : Verdict → Prop
  /-- An argument of the very type is visible. -/
  | argument {a : Argument} (visible : q.visible? = some a) : Grounds resolver q (.argument a)
  /-- Resolution finds nothing. -/
  | unresolved (resolves : resolver.resolve q.request = .unresolved) :
      Grounds resolver q .unresolved
  /-- What a binding makes is under construction. -/
  | binding {id : BindingId} {s : Substitution} {f : Frame}
      (resolves : resolver.resolve q.request = .binding id s) (path : f ∈ q.context.path)
      (key : f.key = .binding id s) : Grounds resolver q (.linked f.node)
  /-- What a binding makes is shared. -/
  | shared {id : BindingId} {s : Substitution} {r : Registration} {k : SharedKey} {n : NodeId}
      (resolves : resolver.resolve q.request = .binding id s)
      (key : SharedKey.of? r.lifetime id s q.context.block = some k)
      (known : (k, n) ∈ q.state.shared) : Grounds resolver q (.linked n)
  /-- A value of the shape is under construction. -/
  | shape {strategy : Strategy} {dependencies : List Dependency} {providerArgs : List TypeExpr}
      {f : Frame} (resolves : resolver.resolve q.request =
        .synthesized strategy dependencies providerArgs) (path : f ∈ q.context.path)
      (key : f.key = .contract q.request.contract) : Grounds resolver q (.linked f.node)
  /-- What is under construction needs it at once, or a binding is under construction too often. -/
  | loop {members : List String} {path : String} : Grounds resolver q (.loop members path)
  /-- The failure of a binding was noted. -/
  | recalled {id : BindingId} {s : Substitution} {issues : List Issue}
      (known : (.binding id s, issues) ∈ q.state.failures) :
      Grounds resolver q (.recalled issues)
  /-- A binding is under construction less often than allowed. -/
  | makeBinding {id : BindingId} {s : Substitution} {r : Registration}
      (resolves : resolver.resolve q.request = .binding id s)
      (registered : resolver.table.bindings[id]? = some r)
      (bounded : (q.context.path.filter (Frame.isOf id)).length < maxSpecializations) :
      Grounds resolver q (.make (q.bindingMaking id s r))
  /-- The type has a shape. -/
  | makeShape {strategy : Strategy} {dependencies : List Dependency}
      {providerArgs : List TypeExpr} (resolves : resolver.resolve q.request =
        .synthesized strategy dependencies providerArgs) :
      Grounds resolver q (.make (q.shapeMaking strategy dependencies providerArgs))

/-- What is looked up is in the list. -/
private theorem mem_of_lookup {α β : Type} [BEq α] [LawfulBEq α] {l : List (α × β)} {a : α} {b : β}
    (h : l.lookup a = some b) : (a, b) ∈ l := by
  obtain ⟨before, after, rfl, -⟩ := List.lookup_eq_some_iff.mp h
  exact List.mem_append_right _ List.mem_cons_self

/-- What becomes of a query for a binding has grounds. -/
theorem bindingVerdict_grounds {id : BindingId} {s : Substitution} {r : Registration}
    (hres : resolver.resolve q.request = .binding id s)
    (hr : resolver.table.bindings[id]? = some r) :
    q.Grounds resolver (q.bindingVerdict id s r) := by
  unfold bindingVerdict
  split
  · next v hpath =>
    obtain ⟨f, hf, hkey, rfl⟩ | ⟨members, path, rfl⟩ := onPath?_cases hpath
    · exact .binding hres hf hkey
    · exact .loop
  · split
    · next hcount =>
      split
      · next n hn =>
        obtain ⟨k, hk, hknown⟩ := Option.bind_eq_some_iff.mp hn
        exact .shared hres hk (mem_of_lookup hknown)
      · split
        · next issues hknown => exact .recalled (mem_of_lookup hknown)
        · exact .makeBinding hres hr hcount
    · exact .loop

/-- Every verdict has its grounds. -/
theorem verdict_grounds {v : Verdict} (h : q.verdict resolver = .ok v) : q.Grounds resolver v := by
  unfold verdict at h
  split at h
  · next a ha =>
    cases h
    exact .argument ha
  · split at h
    · next hres =>
      cases h
      exact .unresolved hres
    · next id s hres =>
      split at h
      · cases h
      · next r hr =>
        cases h
        exact bindingVerdict_grounds hres hr
    · next strategy deps args hres =>
      cases h
      cases hpath : q.onPath? (.contract q.request.contract) false with
      | none => exact .makeShape hres
      | some v =>
        obtain ⟨f, hf, hkey, rfl⟩ | ⟨members, path, rfl⟩ := onPath?_cases hpath
        · exact .shape hres hf hkey
        · exact .loop

/-- What is under construction is left undecided only where it is asked for at once and is made anew
each time. -/
theorem of_onPath?_eq_none {key : Key} {isShared : Bool} (h : q.onPath? key isShared = none)
    {f : Frame} (hf : f ∈ q.context.path) (hkey : f.key = key) :
    q.timing = .eager ∧ isShared = false := by
  unfold onPath? at h
  split at h
  · next hnone => exact absurd hkey (by simpa using List.find?_eq_none.mp hnone f hf)
  · split at h
    · cases h
    · next heager =>
      refine ⟨heager, ?_⟩
      split at h
      · cases h
      · simpa using h

/-- What is under construction and yet left undecided is found in another segment first. -/
theorem exists_elsewhere {key : Key} {isShared : Bool} (h : q.onPath? key isShared = none)
    {f : Frame} (hf : f ∈ q.context.path) (hkey : f.key = key) :
    ∃ g ∈ q.context.path, g.key = key ∧ g.segment ≠ q.context.segment := by
  obtain ⟨heager, rfl⟩ := of_onPath?_eq_none h hf hkey
  simp only [onPath?, heager] at h
  split at h
  · next hnone => exact absurd hkey (by simpa using List.find?_eq_none.mp hnone f hf)
  · next g hg =>
    split at h
    · cases h
    · next hsegment =>
      exact ⟨g, List.mem_of_find?_eq_some hg, by simpa using List.find?_some hg, hsegment⟩

/-- A loop consists of what is under construction since the first value with the key. -/
theorem exists_since_of_loop {key : Key} {isShared : Bool} {members : List String} {text : String}
    (h : q.onPath? key isShared = some (.loop members text)) :
    q.timing = .eager ∧ ∃ before f rest, q.context.path = before ++ f :: rest ∧ f.key = key ∧
      f.segment = q.context.segment ∧ members = (f :: rest).map (fun f => f.contract.text) ∧
      text = " -> ".intercalate (members ++ [q.request.contract.text]) := by
  unfold onPath? at h
  split at h
  · cases h
  · next f hfind =>
    obtain ⟨hkey, before, rest, hpath, hbefore⟩ := List.find?_eq_some_iff_append.mp hfind
    have hmembers : contractsFrom q.context.path (fun f => f.key == key) =
        (f :: rest).map fun f => f.contract.text := by
      rw [contractsFrom, hpath, List.dropWhile_append_of_pos hbefore,
        List.dropWhile_cons_of_neg (by simpa using hkey)]
    split at h
    · cases h
    · next htiming =>
      split at h
      · next hsegment =>
        cases h
        rw [hmembers]
        exact ⟨htiming, before, f, rest, hpath, by simpa using hkey, hsegment, rfl, rfl⟩
      · split at h <;> cases h

/-- A loop is closed by what is under construction in the same segment. -/
theorem onPath?_eq_loop {key : Key} {isShared : Bool} {members : List String} {path : String}
    (h : q.onPath? key isShared = some (.loop members path)) :
    ∃ f ∈ q.context.path, f.key = key ∧ f.segment = q.context.segment := by
  obtain ⟨-, before, f, rest, hpath, hkey, hsegment, -⟩ := exists_since_of_loop h
  exact ⟨f, hpath ▸ List.mem_append_right before List.mem_cons_self, hkey, hsegment⟩

/-- What is asked for at once is linked to where it is under construction in another segment. -/
theorem onPath?_eq_linked {key : Key} {isShared : Bool} {n : NodeId}
    (h : q.onPath? key isShared = some (.linked n)) (heager : q.timing = .eager) :
    ∃ f ∈ q.context.path, f.key = key ∧ f.node = n ∧ f.segment ≠ q.context.segment := by
  simp only [onPath?, heager] at h
  split at h
  · cases h
  · next f hf =>
    split at h
    · cases h
    · next hsegment =>
      split at h
      · cases h
        exact ⟨f, List.mem_of_find?_eq_some hf, by simpa using List.find?_some hf, rfl, hsegment⟩
      · cases h

/-- A binding is made where it is not under construction, or to be made anew, and neither too often
under construction, nor shared, nor known to fail. -/
theorem bindingVerdict_eq_make {id : BindingId} {s : Substitution} {r : Registration}
    {m : Making} :
    q.bindingVerdict id s r = .make m ↔
      q.onPath? (.binding id s) (r.lifetime != .transient) = none ∧
        (q.context.path.filter (Frame.isOf id)).length < maxSpecializations ∧
        ((SharedKey.of? r.lifetime id s q.context.block).bind fun k =>
          q.state.shared.lookup k) = none ∧
        q.state.failures.lookup (.binding id s) = none ∧ m = q.bindingMaking id s r := by
  unfold bindingVerdict
  cases hpath : q.onPath? (.binding id s) (r.lifetime != .transient) with
  | some v =>
    obtain ⟨f, -, -, rfl⟩ | ⟨members, path, rfl⟩ := onPath?_cases hpath <;> simp
  | none =>
    by_cases hcount : (q.context.path.filter (Frame.isOf id)).length < maxSpecializations
    · cases (SharedKey.of? r.lifetime id s q.context.block).bind fun k =>
        q.state.shared.lookup k with
      | some n => simp [hcount]
      | none => cases q.state.failures.lookup (.binding id s) <;> simp [hcount, eq_comm]
    · simp [hcount]

/-- A query is answered by the argument that is visible to it, before anything else. -/
theorem verdict_eq_argument {a : Argument} :
    q.verdict resolver = .ok (.argument a) ↔ q.visible? = some a := by
  constructor
  · intro h
    cases verdict_grounds h with | argument visible
    exact visible
  · intro h
    simp only [verdict, h]

/-- Any other verdict is for what no argument answers. -/
theorem visible?_eq_none {v : Verdict} (h : q.verdict resolver = .ok v)
    (hv : ∀ a, v ≠ .argument a) : q.visible? = none := by
  rw [Option.eq_none_iff_forall_ne_some]
  intro a ha
  cases h.symm.trans (verdict_eq_argument.mpr ha)
  exact hv a rfl

/-- A loop is closed by a binding or a value of a shape that is under construction, or found where a
binding is under construction too often. -/
theorem verdict_eq_loop {members : List String} {path : String}
    (h : q.verdict resolver = .ok (.loop members path)) :
    (∃ id s isShared, resolver.resolve q.request = .binding id s ∧
      (q.onPath? (.binding id s) isShared = some (.loop members path) ∨
        q.onPath? (.binding id s) isShared = none ∧
          maxSpecializations ≤ (q.context.path.filter (Frame.isOf id)).length)) ∨
    ∃ strategy dependencies providerArgs,
      resolver.resolve q.request = .synthesized strategy dependencies providerArgs ∧
      q.onPath? (.contract q.request.contract) false = some (.loop members path) := by
  unfold verdict at h
  split at h
  · cases h
  · split at h
    · cases h
    · next id s hres =>
      split at h
      · cases h
      · next r hr =>
        refine .inl ⟨id, s, r.lifetime != .transient, hres, ?_⟩
        have hverdict := Except.ok.inj h
        unfold bindingVerdict at hverdict
        split at hverdict
        · next v hpath => exact .inl (hverdict ▸ hpath)
        · next hpath =>
          split at hverdict
          · split at hverdict
            · cases hverdict
            · split at hverdict <;> cases hverdict
          · next hcount => exact .inr ⟨hpath, Nat.le_of_not_lt hcount⟩
    · next strategy dependencies providerArgs hres =>
      refine .inr ⟨strategy, dependencies, providerArgs, hres, ?_⟩
      have hverdict := Except.ok.inj h
      cases hpath : q.onPath? (.contract q.request.contract) false with
      | none =>
        rw [hpath] at hverdict
        cases hverdict
      | some v =>
        rw [hpath, Option.getD_some] at hverdict
        rw [hverdict]

/-- A binding that is under construction as often as is allowed, and is not linked to, closes a
loop. -/
theorem verdict_of_count_le (hvisible : q.visible? = none) {id : BindingId} {s : Substitution}
    (hres : resolver.resolve q.request = .binding id s) {r : Registration}
    (hr : resolver.table.bindings[id]? = some r)
    (hcount : maxSpecializations ≤ (q.context.path.filter (Frame.isOf id)).length)
    (hlinked : ∀ n, q.onPath? (.binding id s) (r.lifetime != .transient) ≠ some (.linked n)) :
    ∃ members path, q.verdict resolver = .ok (.loop members path) := by
  simp only [verdict, hvisible, hres, hr, bindingVerdict]
  cases hpath : q.onPath? (.binding id s) (r.lifetime != .transient) with
  | some v =>
    obtain ⟨f, -, -, rfl⟩ | ⟨members, path, rfl⟩ := onPath?_cases hpath
    · exact absurd hpath (hlinked f.node)
    · exact ⟨members, path, rfl⟩
  | none => exact ⟨_, _, by rw [if_neg (Nat.not_lt.mpr hcount)]⟩

/-- What is asked for at once and is made anew each time is not linked to. -/
theorem onPath?_ne_linked {key : Key} (heager : q.timing = .eager) (n : NodeId) :
    q.onPath? key false ≠ some (.linked n) := by
  simp only [onPath?, heager]
  split
  · simp
  · split <;> simp

/-- Where no argument answers, a binding that resolution finds decides. -/
theorem bindingVerdict_of_verdict {v : Verdict} (h : q.verdict resolver = .ok v)
    (hv : ∀ a, v ≠ .argument a) {id : BindingId} {s : Substitution} {r : Registration}
    (hres : resolver.resolve q.request = .binding id s)
    (hr : resolver.table.bindings[id]? = some r) : q.bindingVerdict id s r = v := by
  unfold verdict at h
  split at h
  · next a _ =>
    cases h
    exact absurd rfl (hv a)
  · simp only [hres, hr] at h
    exact Except.ok.inj h

end Query

/-- An argument is looked for only when the request has no pin and its contract no tag. -/
private theorem visible_eq (q : Query) :
    (if q.request.pin.isNone && q.request.contract.tag.isNone then
      argument? q.request.contract.type else pure none : Build (Option NodeId)) q.state =
      .ok (match q.visible? with
        | none => (none, q.state)
        | some ⟨_, .node n⟩ => (some n, q.state)
        | some ⟨type, .argument block index⟩ =>
            (some q.state.graph.nodes.nextNumber, { q.state with
              graph := q.state.graph.addNode (Query.argumentNode type block index)
              arguments := bindArgument type (.node q.state.graph.nodes.nextNumber)
                q.state.arguments })) := by
  unfold Query.visible?
  split
  · rw [argument?_eq]
    cases hfind : q.state.arguments.find? fun a => a.type == q.request.contract.type with
    | none => rfl
    | some a =>
      have htype : a.type = q.request.contract.type := by
        simpa using List.find?_some hfind
      obtain ⟨type, source⟩ := a
      cases htype
      cases source <;> rfl
  · rfl

/-- What is done once a binding is reached settles what becomes of a query that it answers. -/
private theorem settle_bindingVerdict {resolver : Resolver} {q : Query} {id : BindingId}
    {s : Substitution} (hres : resolver.resolve q.request = .binding id s) (r : Registration)
    (below within : Follow) :
    (do match ← decide? q.context (.binding id s) q.request.contract q.timing
          (r.lifetime != .transient) q.site with
        | some decided => return decided
        | none =>
            if ← refuses q.context id q.site then return none
            else bindingNode below q.context q.request.contract r id s : Build (Option NodeId))
        (q.reached resolver) =
      (q.bindingVerdict id s r).settle resolver (handler below within) q := by
  have hreached : q.reached resolver =
      { q.state with touched := insertDistinct id q.state.touched } := by
    simp [Query.reached, hres]
  simp only [decide?_eq, bind_apply, ok_bind, Query.bindingVerdict]
  cases hv : q.onPath? (.binding id s) (r.lifetime != .transient) with
  | some v => obtain ⟨f, -, -, rfl⟩ | ⟨members, path, rfl⟩ := Query.onPath?_cases hv <;> rfl
  | none =>
    simp only [refuses_eq, bind_apply, ok_bind]
    split
    · simp only [Bool.false_eq_true, ↓reduceIte, bindingNode_eq, hreached]
      cases (SharedKey.of? r.lifetime id s q.context.block).bind fun k =>
          q.state.shared.lookup k with
      | some n => simp only [Verdict.settle, hreached]
      | none =>
        cases q.state.failures.lookup (.binding id s) with
        | some issues => simp only [Verdict.settle, hreached]
        | none => simp only [Verdict.settle, hreached, handler, Query.bindingMaking]
    · rfl

/-- What is done for a shape settles what becomes of a query that it answers. -/
private theorem settle_shapeVerdict {resolver : Resolver} {q : Query} {strategy : Strategy}
    {dependencies : List Dependency} {providerArgs : List TypeExpr}
    (hres : resolver.resolve q.request = .synthesized strategy dependencies providerArgs)
    (below within : Follow) :
    (do match ← decide? q.context (.contract q.request.contract) q.request.contract q.timing false
          q.site with
        | some decided => return decided
        | none =>
            synthesizedNode within q.context q.request.contract strategy dependencies providerArgs
              q.site : Build (Option NodeId)) q.state =
      ((q.onPath? (.contract q.request.contract) false).getD
        (.make (q.shapeMaking strategy dependencies providerArgs))).settle resolver
          (handler below within) q := by
  have hreached : q.reached resolver = q.state := by
    simp [Query.reached, hres]
  simp only [decide?_eq, bind_apply, ok_bind]
  cases hv : q.onPath? (.contract q.request.contract) false with
  | none =>
    simp only [Option.getD_none, Verdict.settle, hreached, synthesizedNode_eq]
    rfl
  | some v =>
    obtain ⟨f, -, -, rfl⟩ | ⟨members, path, rfl⟩ := Query.onPath?_cases hv <;>
      simp only [Option.getD_some, Verdict.settle, hreached] <;> rfl

/-- Following a query is settling its verdict. -/
theorem answer_followWith_succ (resolver : Resolver) (below : Follow) (fuel : Nat) (q : Query) :
    Follow.answer (followWith resolver below (fuel + 1)) q =
      (q.verdict resolver).bind fun v =>
        v.settle resolver (handler below (followWith resolver below fuel)) q := by
  have hbind : ∀ (c : Prop) [Decidable c] (x y : Build (Option NodeId))
      (k : Option NodeId → Build (Option NodeId)),
      (if c then x >>= k else y >>= k) = (if c then x else y) >>= k := by
    intros
    split <;> rfl
  simp only [Follow.answer, followWith, Query.verdict]
  rw [hbind]
  simp only [bind_apply, visible_eq]
  cases q.visible? with
  | some a =>
    obtain ⟨type, source⟩ := a
    cases source <;> rfl
  | none =>
    simp only [ok_bind]
    cases hres : resolver.resolve q.request with
    | unresolved => rfl
    | binding id s =>
      have htouch : touch id q.state = .ok ((), q.reached resolver) := by
        simp only [Query.reached, hres]
        rfl
      simp only [bind_apply, htouch, ok_bind]
      cases resolver.table.bindings[id]? with
      | none => rfl
      | some r => exact settle_bindingVerdict hres r below _
    | synthesized strategy dependencies providerArgs => exact settle_shapeVerdict hres below _

end Injector.Wiring

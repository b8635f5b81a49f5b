import Injector.Proofs.Wiring.Creation

/-!
# Provider calls

A deferred dependency of a provider is made in a block of its own, in which the arguments of the
call are visible. The main statements are that a block is opened by one call, the only one of its
provider, and that what is asked on a way on which the block is not opened neither sees an argument
of the block nor is asked for a value that was begun in it.
-/

namespace Injector.Wiring

variable {resolver : Resolver}

/-- Whether a call opens a block. -/
def Call.Opens (c : Call) (block : BlockId) : Prop :=
  c.link.provides.isSome ∧ c.query.context.block = block

theorem calls_singleton (follow : Follow) (context : Context) (node : NodeId) (l : Link)
    (s : State) :
    calls follow context node [.link l] s = [⟨l, l.query context s⟩] := by
  simp only [calls, Job.call?, Option.toList_some]
  cases perform follow context node (.link l) s <;> rfl

theorem NotedAt.blocks_eq {node : NodeId} {g g' : Graph} (h : NotedAt node g g') :
    g'.blocks = g.blocks := by
  obtain rfl | ⟨index, hg⟩ := h
  · rfl
  · rw [Graph.modifyNode_eq_ok hg]

namespace Query

variable {q d d' : Query} {c c' : Call} {block : BlockId}

/-- A value whose only dependency is made later has one call, a provider call. -/
theorem exists_lastCall_of_deferred {strategy : Strategy} {dependency : Dependency}
    {providerArgs : List TypeExpr}
    (hm : q.verdict resolver = .ok (.make (q.shapeMaking strategy [dependency] providerArgs)))
    (htiming : dependency.timing = .deferred) :
    ∃ c, q.lastCalls resolver = [c] ∧ c.link.provides = some providerArgs := by
  simp only [lastCalls, attempts, callsOf, hm, Work.attempts, shapeMaking, partJobs,
    List.getLast?_singleton, Option.map_some, Option.getD_some, calls_singleton]
  exact ⟨_, rfl, by simp [htiming]⟩

/-- A provider call is the only call for its value, which is that of a shape. -/
theorem Proper.eq_singleton_of_provides (hq : q.Proper resolver) (hc : c ∈ q.lastCalls resolver)
    (hl : c.link.provides.isSome) :
    q.lastCalls resolver = [c] ∧ c.link.wire.timing = .deferred ∧
      ∃ strategy dependencies providerArgs,
        q.verdict resolver = .ok (.make (q.shapeMaking strategy dependencies providerArgs)) := by
  obtain ⟨m, s, hm, hlink, -⟩ := hq.exists_lastLink hc
  cases verdict_grounds hm with
  | makeBinding =>
    rw [(plain_of_mem_workOf hlink).within] at hl
    cases hl
  | @makeShape strategy dependencies providerArgs hres =>
    obtain ⟨d, hd, -, hwire, hprovides, -⟩ := part_of_mem_partJobs hlink
    have htiming := hprovides.mp hl
    obtain rfl := Resolver.eq_singleton_of_deferred hres hd htiming
    refine ⟨?_, hwire.trans htiming, strategy, [d], providerArgs, hm⟩
    obtain ⟨c', hsingle, -⟩ := exists_lastCall_of_deferred hm htiming
    rw [hsingle] at hc
    rw [hsingle, List.mem_singleton.mp hc]

/-- Only functions give arguments to their calls, those of their type. -/
theorem Proper.exists_func (hq : q.Proper resolver) (hc : c ∈ q.lastCalls resolver)
    {args : List TypeExpr} (hl : c.link.provides = some args) {index : Nat} {type : TypeExpr}
    (hindex : args[index]? = some type) :
    ∃ dependencies, q.verdict resolver = .ok (.make (q.shapeMaking .func dependencies args)) := by
  obtain ⟨m, s, hm, hlink, -⟩ := hq.exists_lastLink hc
  cases verdict_grounds hm with
  | makeBinding => cases hl.symm.trans (plain_of_mem_workOf hlink).within
  | @makeShape strategy dependencies providerArgs hres =>
    obtain ⟨-, -, -, -, -, hargs⟩ := part_of_mem_partJobs hlink
    obtain rfl := hargs args hl
    obtain ⟨-, hargs, -⟩ := Resolver.synthesize_eq (Resolver.synthesize_of_resolve hres)
    by_cases hfunc : strategy = .func
    · subst hfunc
      exact ⟨dependencies, hm⟩
    · rw [if_neg hfunc] at hargs
      rw [hargs] at hindex
      cases hindex

/-- Without a provider call a call is made in the block and the segment of its query. -/
theorem Proper.context_of_provides_eq_none (hq : q.Proper resolver)
    (hc : c ∈ q.lastCalls resolver) (hl : c.link.provides = none) :
    c.query.context.block = q.context.block ∧ c.query.context.segment = q.context.segment := by
  obtain ⟨m, s, -, -, heq, -⟩ := hq.exists_lastLink hc
  simp [heq, Link.query, hl, inner]

/-- Blocks and segments are opened together, so that where both have one number they have one on
the whole way. -/
theorem Proper.segment_eq_block (hq : q.Proper resolver) (h : q.Retains resolver d)
    (hsame : q.context.segment = q.context.block) : d.context.segment = d.context.block := by
  induction h with
  | refl => exact hsame
  | tail hd hkeeps ih =>
    obtain ⟨c, hc, rfl⟩ := hkeeps
    have hproper := (hq.of_retains hd).1
    cases hprovides : c.link.provides with
    | none =>
      obtain ⟨hblock, hsegment⟩ := hproper.context_of_provides_eq_none hc hprovides
      rw [hblock, hsegment, ih]
    | some args =>
      obtain ⟨m, s, -, -, heq, -, hs⟩ := hproper.exists_lastLink hc
      simpa [heq, Link.query, hprovides] using hs.segments

/-- The block that a call opens is the next one when the call is made, and in use inside of it. -/
theorem Proper.blocks_of_opens (hq : q.Proper resolver) (hc : c ∈ q.lastCalls resolver)
    {block : Nat} (ho : c.Opens block) :
    q.state.graph.blocks ≤ block ∧ c.query.state.graph.blocks = block + 1 := by
  obtain ⟨hl, hblock⟩ := ho
  obtain ⟨m, s, -, -, heq, hx, -⟩ := hq.exists_lastLink hc
  have hle : q.state.graph.blocks ≤ s.graph.blocks :=
    Nat.le_trans (extends_begun q m).blocks hx.blocks
  obtain ⟨args, hargs⟩ := Option.isSome_iff_exists.mp hl
  have hblocks : c.query.context.block = s.graph.blocks := by simp [heq, Link.query, hargs]
  have hopened : c.query.state.graph.blocks = s.graph.blocks + 1 := by
    simp [heq, Link.query, hargs, State.opened, Graph.addBlock]
  obtain rfl : s.graph.blocks = block := hblocks.symm.trans hblock
  exact ⟨hle, hopened⟩

/-- A block is opened once. -/
theorem leaves_block (resolver : Resolver) (block : Nat) :
    Leaves resolver (fun q => ∃ c ∈ q.lastCalls resolver, c.Opens block)
      (fun s => block < s.graph.blocks) where
  kept hx hs := Nat.lt_of_lt_of_le hs hx.blocks
  completed hmade hs := by rwa [NotedAt.blocks_eq hmade.noted]
  left := by
    rintro q n s hq ⟨c, hc, ho⟩ hout
    obtain ⟨⟨m, hm⟩, hproper, -⟩ := hq.of_mem_lastCalls hc
    obtain ⟨-, s₀, s₁, hmade⟩ := exists_made hq hm hout
    obtain ⟨n', s', hanswer, -, -, hx, -⟩ := hmade.chain.answered hc
    have hgrows := (outcome_extends hproper hanswer).1.blocks
    have hopened := (hq.blocks_of_opens hc ho).2
    have hle := hx.blocks
    rw [NotedAt.blocks_eq hmade.noted]
    omega
  once := by
    rintro q hq hs ⟨c, hc, ho⟩
    have hle := (hq.blocks_of_opens hc ho).1
    omega
  below := by
    rintro q d c' hq ⟨c, hc, ho⟩ hc' hd ⟨e, he, ho'⟩
    obtain ⟨hsingle, -⟩ := hq.eq_singleton_of_provides hc ho.1
    rw [hsingle] at hc'
    obtain rfl := List.mem_singleton.mp hc'
    obtain ⟨-, hproper, -⟩ := hq.of_mem_lastCalls hc
    obtain ⟨hlast, hx⟩ := hproper.of_retains hd
    have hopened := (hq.blocks_of_opens hc ho).2
    have hle := (hlast.blocks_of_opens he ho').1
    have hgrows := hx.blocks
    omega

/-- Of the calls that are retained, one opens a block. -/
theorem eq_of_opens (hq : q.Proper resolver) {n : NodeId} {s : State}
    (h : q.outcome resolver = .ok (some n, s)) (hd : q.Retains resolver d)
    (hd' : q.Retains resolver d') (hc : c ∈ d.lastCalls resolver)
    (hc' : c' ∈ d'.lastCalls resolver) (ho : c.Opens block) (ho' : c'.Opens block) :
    d = d' ∧ c = c' := by
  obtain rfl := (leaves_block resolver block).unique hq h hd hd' ⟨c, hc, ho⟩ ⟨c', hc', ho'⟩
  obtain ⟨hsingle, -⟩ := (hq.of_retains hd).1.eq_singleton_of_provides hc ho.1
  rw [hsingle] at hc'
  exact ⟨rfl, (List.mem_singleton.mp hc').symm⟩

/-- An argument that is seen when a call is made, not used yet, was seen before, or it is one that
the call gives. -/
theorem Proper.argument_cases (hq : q.Proper resolver) (hc : c ∈ q.lastCalls resolver)
    {a : Argument} {index : Nat} (ha : a ∈ c.query.state.arguments)
    (hsource : a.source = .argument block index) : a ∈ q.state.arguments ∨
      c.Opens block ∧ ∃ args, c.link.provides = some args ∧ args[index]? = some a.type := by
  obtain ⟨m, s, -, -, heq, hx, -⟩ := hq.exists_lastLink hc
  have hold : a ∈ s.arguments → a ∈ q.state.arguments := fun ha =>
    State.mem_of_becomes (extends_begun q m).arguments
      (State.mem_of_becomes hx.arguments ha hsource) hsource
  rw [heq] at ha
  cases hprovides : c.link.provides with
  | none => exact .inl (hold (by simpa [Link.query, hprovides] using ha))
  | some args =>
    simp only [Link.query, hprovides, State.opened, List.mem_append, List.mem_reverse,
      List.mem_map] at ha
    rcases ha with ⟨⟨type, i⟩, hi, rfl⟩ | ha
    · obtain ⟨hblock, rfl⟩ := Source.argument.inj hsource
      refine .inr ⟨⟨by simp [hprovides], ?_⟩, args, rfl, List.mem_zipIdx_iff_getElem?.mp hi⟩
      simpa [heq, Link.query, hprovides] using hblock
    · exact .inl (hold ha)

/-- An argument that is seen, not used yet, was seen from the beginning, or it is one that a call on
the way gives. -/
theorem Proper.exists_gives (hq : q.Proper resolver) (hd : q.Retains resolver d) {a : Argument}
    {index : Nat} (ha : a ∈ d.state.arguments) (hsource : a.source = .argument block index) :
    a ∈ q.state.arguments ∨ ∃ r c, q.Retains resolver r ∧ c ∈ r.lastCalls resolver ∧
      c.Opens block ∧ ∃ args, c.link.provides = some args ∧ args[index]? = some a.type := by
  induction hd with
  | refl => exact .inl ha
  | @tail r _ hr hkeeps ih =>
    obtain ⟨c, hc, rfl⟩ := hkeeps
    rcases (hq.of_retains hr).1.argument_cases hc ha hsource with hold | ⟨ho, hargs⟩
    · exact ih hold
    · exact .inr ⟨r, c, hr, hc, ho, hargs⟩

/-- Whether `d` is `q` or asked on the way from it by calls that are retained, none of which opens a
block. -/
def RetainsOutside (resolver : Resolver) (block : BlockId) : Query → Query → Prop :=
  Relation.ReflTransGen fun q d => ∃ c ∈ q.lastCalls resolver, ¬ c.Opens block ∧ c.query = d

theorem RetainsOutside.retains (h : q.RetainsOutside resolver block d) :
    q.Retains resolver d := by
  induction h with
  | refl => exact .refl
  | tail _ hstep ih =>
    obtain ⟨c, hc, -, rfl⟩ := hstep
    exact ih.tail ⟨c, hc, rfl⟩

/-- What is under construction outside of a block was begun there. -/
theorem RetainsOutside.exists_of_frame (h : q.RetainsOutside resolver block d)
    (hq : q.Proper resolver) {f : Frame} (hf : f ∈ d.context.path) :
    f ∈ q.context.path ∨
      ∃ r, q.RetainsOutside resolver block r ∧ r.Makes resolver ∧ f.node = r.nodeNumber := by
  induction h with
  | refl => exact .inl hf
  | @tail d _ hd hstep ih =>
    obtain ⟨c, hc, -, rfl⟩ := hstep
    have hproper := (hq.of_retains (RetainsOutside.retains hd)).1
    rcases hproper.frame_cases hc hf with hf | ⟨m, hm, rfl⟩
    · exact ih hf
    · exact .inr ⟨d, hd, ⟨m, hm⟩, rfl⟩

/-- What is asked outside of a block sees no argument of it that was not seen before. -/
theorem RetainsOutside.mem_arguments (h : q.RetainsOutside resolver block d)
    (hq : q.Proper resolver) {a : Argument} {index : Nat} (ha : a ∈ d.state.arguments)
    (hsource : a.source = .argument block index) : a ∈ q.state.arguments := by
  induction h with
  | refl => exact ha
  | @tail d _ hd hstep ih =>
    obtain ⟨c, hc, hopen, rfl⟩ := hstep
    have hproper := (hq.of_retains (RetainsOutside.retains hd)).1
    rcases hproper.argument_cases hc ha hsource with hold | ⟨ho, -⟩
    · exact ih hold
    · exact absurd ho hopen

end Query

end Injector.Wiring

import Injector.Proofs.Report.Resolved
import Injector.Proofs.Wiring.Offers

/-!
# Blocks have instances of their own

An instance that is kept for a block is shared by what is made in the block, and a provider call
opens another one. The main statement is that every edge to such an instance which is made at once
stays in its block exactly when no query on the way from the root asks at once for one that is under
construction outside of the present provider call, and none is answered by the number of an argument
that stands for an instance of another block.
-/

namespace Injector

/-- Whether what is needed at once of the instances that are kept for a block is needed in their
block. -/
def Graph.KeepsBlocks (g : Graph) : Prop :=
  ∀ e, g.HasEdge e → e.timing = .eager → ∀ node, g.nodes.get? e.target = some node →
    node.lifetime = .perBlock → g.Has e.source (·.block = node.block)

namespace Wiring

/-- The lifetime of what is made for a key. -/
def Key.lifetime? (resolver : Resolver) : Key → Option Lifetime
  | .binding id _ => resolver.table.bindings[id]?.map (·.lifetime)
  | .contract _ => some .transient

/-- Whether a node is an instance that is kept for another block. -/
def IsForeign (block : BlockId) (node : Node) : Prop :=
  node.lifetime = .perBlock ∧ node.block ≠ block

namespace Query

/-- Whether a query asks at once for an instance that is kept for a block and under construction in
another segment. -/
def Reenters (resolver : Resolver) (q : Query) : Prop :=
  q.timing = .eager ∧ q.visible? = none ∧ ∃ id s,
    resolver.resolve q.request = .binding id s ∧
      (Key.binding id s).lifetime? resolver = some .perBlock ∧
      ∃ f ∈ q.context.path, f.key = .binding id s ∧ f.segment ≠ q.context.segment

/-- Whether a query is answered at once by the number noted for an argument that stands for an
instance of another block. -/
def Displaced (q : Query) : Prop :=
  q.timing = .eager ∧ ∃ type n, q.visible? = some ⟨type, .node n⟩ ∧
    q.state.graph.Has n (IsForeign q.context.block)

end Query

variable {resolver : Resolver} {root : Table.Root} {cycles : CycleLog} {b : RootBuild}

theorem isForeign_chosen (block : BlockId) (index : Nat) (node : Node) :
    IsForeign block (chosen index node) ↔ IsForeign block node := by
  rw [IsForeign, IsForeign, block_chosen]
  unfold chosen
  split <;> rfl

/-- What is shared under the key of an instance that is kept for a block is asked for in it. -/
theorem SharedKey.block_eq {lifetime : Lifetime} {id : BindingId} {s : Substitution}
    {block : BlockId} {k : SharedKey} (hk : of? lifetime id s block = some k) {node : Node}
    (hnode : ofNode? node = some k) (hlifetime : node.lifetime = .perBlock) :
    node.block = block := by
  have hown : k.block = some node.block := by
    unfold ofNode? at hnode
    split at hnode
    · rw [hlifetime] at hnode
      cases hnode
      rfl
    · cases hnode
  unfold of? at hk
  split at hk <;> cases hk
  · exact (Option.some.inj hown).symm
  all_goals cases hown

namespace Query

variable {q : Query}

/-- What is made for a key has the lifetime of the key. -/
theorem lifetime?_key {m : Making} (h : q.Grounds resolver (.make m)) :
    m.key.lifetime? resolver = some m.content.lifetime := by
  cases h with
  | makeBinding hres hr => exact congrArg (Option.map _) hr
  | makeShape => rfl

/-- Arguments of provider calls are kept for no block, so that what a query creates is not foreign
to its own. -/
theorem Creates.not_isForeign {node : Node} (h : q.Creates resolver node) :
    ¬ IsForeign q.context.block node := by
  rintro ⟨hlifetime, hblock⟩
  refine hblock (h.block_eq (h.makes fun block index ho => ?_))
  obtain ⟨type, hvisible, -⟩ := h.visible ho
  rw [h.eq_argumentNode hvisible] at hlifetime
  cases hlifetime

/-- What answers a query at once from under construction was begun in another segment: the binding
is under construction, and as the value is shared it is linked to. -/
theorem Reenters.exists_frame (h : q.Reenters resolver) (hq : q.Proper resolver) {n : NodeId}
    {s : State} (hout : q.outcome resolver = .ok (some n, s)) :
    ∃ f ∈ q.context.path, f.node = n ∧ f.key.lifetime? resolver = some .perBlock ∧
      f.segment ≠ q.context.segment := by
  obtain ⟨heager, hvisible, id, t, hres, hlifetime, f, hf, hkey, -⟩ := h
  obtain ⟨r, hr, hl⟩ := Option.map_eq_some_iff.mp hlifetime
  obtain ⟨v, hv, hsettle⟩ := outcome_eq_ok hq.toAdmissible hout
  have hverdict : q.bindingVerdict id t r = v := by
    refine bindingVerdict_of_verdict hv (fun a ha => ?_) hres hr
    cases hvisible.symm.trans (verdict_eq_argument.mp (ha ▸ hv))
  simp only [bindingVerdict, hl] at hverdict
  cases hpath : q.onPath? (.binding id t) (Lifetime.perBlock != .transient) with
  | none => cases (of_onPath?_eq_none hpath hf hkey).2
  | some w =>
    rw [hpath] at hverdict
    obtain rfl : w = v := hverdict
    rcases onPath?_cases hpath with ⟨g, -, -, rfl⟩ | ⟨members, path, rfl⟩
    · cases hsettle
      obtain ⟨f, hf, hkey, hnode, hsegment⟩ := onPath?_eq_linked hpath heager
      exact ⟨f, hf, hnode, hkey ▸ hlifetime, hsegment⟩
    · cases hsettle

end Query

/-- On the way from a root, blocks and segments have the same numbers. -/
theorem Query.segment_of_retains {q : Query} (hq : (ofRoot root cycles).Retains resolver q) :
    q.context.segment = q.context.block :=
  (ofRoot_proper resolver root cycles).segment_eq_block hq rfl

section Resolved

variable (h : buildRoot resolver root cycles = .ok b) (hresolved : b.isResolved = true)

include h hresolved

/-- What is under construction on the way to a resolved root has a node in the block of its segment,
with the lifetime of its key. -/
theorem has_of_frame {q : Query} (hq : (Query.ofRoot root cycles).Retains resolver q) {f : Frame}
    (hf : f ∈ q.context.path) : b.graph.Has f.node fun node =>
      node.block = f.segment ∧ f.key.lifetime? resolver = some node.lifetime := by
  have hroot := Query.ofRoot_proper resolver root cycles
  rcases hroot.exists_retained_of_frame hq hf with hf | ⟨p, m, hp, hm, rfl⟩
  · cases hf
  · refine (has_of_creates h hresolved hp (.value hm)).mono fun node hnode => ⟨?_, ?_⟩
    · exact (hnode.block_eq ⟨m, hm⟩).trans (Query.segment_of_retains hp).symm
    · rw [(hnode.of_make hm).1]
      exact Query.lifetime?_key (Query.verdict_grounds hm)

/-- What is shared on the way to a resolved root is a node with its key. -/
theorem has_of_shared {q : Query} (hq : (Query.ofRoot root cycles).Retains resolver q)
    {k : SharedKey} {n : NodeId} (hknown : (k, n) ∈ q.state.shared) :
    b.graph.Has n (SharedKey.ofNode? · = some k) := by
  have hshared := ((Query.ofRoot_proper resolver root cycles).of_retains hq).1.consistent.shared
    _ hknown
  exact (has_iff_of_retains h hresolved hq hshared.mem_taken
    fun index node => by rw [SharedKey.ofNode?_chosen]).mpr hshared

/-- What a query is linked to at once is kept for another block only where it is under construction
there: what is shared has the key of its own block. -/
theorem reenters_of_linked {q : Query} (hq : (Query.ofRoot root cycles).Retains resolver q)
    {n : NodeId} (hv : q.verdict resolver = .ok (.linked n)) (heager : q.timing = .eager)
    {node : Node} (hnode : b.graph.nodes.get? n = some node)
    (hforeign : IsForeign q.context.block node) : q.Reenters resolver := by
  have hvisible := Query.visible?_eq_none hv (by simp)
  cases Query.verdict_grounds hv with
  | @binding id s f hres hf hkey =>
    obtain ⟨hblock, hlifetime⟩ := (has_of_frame h hresolved hq hf).of_get? hnode
    rw [hkey, hforeign.1] at hlifetime
    refine ⟨heager, hvisible, id, s, hres, hlifetime, f, hf, hkey, fun hsame => ?_⟩
    exact hforeign.2 (hblock.trans (hsame.trans (Query.segment_of_retains hq)))
  | shared hres hkey hknown =>
    have hshared := (has_of_shared h hresolved hq hknown).of_get? hnode
    exact absurd (SharedKey.block_eq hkey hshared hforeign.1) hforeign.2
  | shape hres hf hkey =>
    obtain ⟨-, hlifetime⟩ := (has_of_frame h hresolved hq hf).of_get? hnode
    rw [hkey, hforeign.1] at hlifetime
    cases hlifetime

/-- A call that is made at once is answered by an instance of another block exactly when it asks for
one that is under construction there, or when an argument stands for one. -/
theorem isForeign_iff {d : Query} {c : Call} {n : NodeId}
    (hconnects : (Query.ofRoot root cycles).Connects resolver d c n)
    (heager : c.query.timing = .eager) :
    b.graph.Has n (IsForeign c.query.context.block) ↔
      c.query.Reenters resolver ∨ c.query.Displaced := by
  have hroot := Query.ofRoot_proper resolver root cycles
  obtain ⟨_, htraced, -⟩ := buildRoot_traced h hresolved
  obtain ⟨hd, hc, s, hout⟩ := hconnects
  have hq : (Query.ofRoot root cycles).Retains resolver c.query := hd.tail ⟨c, hc, rfl⟩
  have hproper := (hroot.of_retains hq).1
  have hnoted : ∀ type, c.query.visible? = some ⟨type, .node n⟩ →
      (b.graph.Has n (IsForeign c.query.context.block) ↔
        c.query.state.graph.Has n (IsForeign c.query.context.block)) := fun type hvisible =>
    has_iff_of_retains h hresolved hq
      (htraced.mem_taken_of_visible hroot ⟨hd, hc, s, hout⟩ hvisible) (isForeign_chosen _)
  constructor
  · rintro ⟨node, hnode, hforeign⟩
    rcases Query.creates_or_finds hproper hout with ⟨rfl, content, hcreates⟩ | hv | ⟨type, hvisible⟩
    · exact absurd hforeign ((has_of_creates h hresolved hq hcreates).of_get? hnode).not_isForeign
    · exact .inl (reenters_of_linked h hresolved hq hv heager hnode hforeign)
    · exact .inr ⟨heager, type, n, hvisible, (hnoted type hvisible).mp ⟨node, hnode, hforeign⟩⟩
  · rintro (hreenters | ⟨-, type, k, hvisible, hforeign⟩)
    · obtain ⟨f, hf, rfl, hlifetime, hne⟩ := hreenters.exists_frame hproper hout
      refine (has_of_frame h hresolved hq hf).mono fun node hnode => ⟨?_, fun hsame => ?_⟩
      · exact Option.some.inj (hnode.2.symm.trans hlifetime)
      · exact hne (hnode.1.symm.trans (hsame.trans (Query.segment_of_retains hq).symm))
    · obtain rfl : n = k := Query.Finds.answer (.inr ⟨type, hvisible⟩) hproper hout
      exact (hnoted type hvisible).mpr hforeign

/-- What makes a call at once is in the block of the call. -/
theorem has_block_of_eager {d : Query} (hd : (Query.ofRoot root cycles).Retains resolver d)
    {c : Call} (hc : c ∈ d.lastCalls resolver) (heager : c.query.timing = .eager) :
    b.graph.Has d.nodeNumber (·.block = c.query.context.block) := by
  have hproper := ((Query.ofRoot_proper resolver root cycles).of_retains hd).1
  obtain ⟨m, hm⟩ := (hproper.of_mem_lastCalls hc).1
  obtain ⟨hblock, -⟩ :=
    hproper.context_of_provides_eq_none hc (hproper.provides_eq_none hc heager)
  exact (has_of_creates h hresolved hd (.value hm)).mono fun node hnode =>
    (hnode.block_eq ⟨m, hm⟩).trans hblock.symm

end Resolved

/-- In a resolved root, what is needed at once of the instances that are kept for a block is needed
in their block exactly when no query on the way from the root asks at once for one that is under
construction in another segment, and none is answered by the number of an argument that stands for
an instance of another block. -/
theorem keepsBlocks_iff (h : buildRoot resolver root cycles = .ok b)
    (hresolved : b.isResolved = true) :
    b.graph.KeepsBlocks ↔ ∀ q, (Query.ofRoot root cycles).Retains resolver q →
      ¬ q.Reenters resolver ∧ ¬ q.Displaced := by
  have hroot := Query.ofRoot_proper resolver root cycles
  constructor
  · intro hkeeps q hq
    rw [← not_or]
    intro hforeign
    rcases hq.cases_tail with rfl | ⟨d, hd, c, hc, rfl⟩
    · rcases hforeign with ⟨-, -, _, _, -, -, f, hf, -⟩ | ⟨-, _, _, hvisible, -⟩
      · cases hf
      · cases (Query.ofRoot_visible root cycles).symm.trans hvisible
    · obtain ⟨n, s, hout, -⟩ := exists_answer h hresolved hq
      have hconnects : (Query.ofRoot root cycles).Connects resolver d c n := ⟨hd, hc, s, hout⟩
      have heager : c.query.timing = .eager := hforeign.elim And.left And.left
      obtain ⟨node, hnode, hlifetime, hblock⟩ :=
        (isForeign_iff h hresolved hconnects heager).mpr hforeign
      obtain ⟨source, hsource, hcall⟩ := has_block_of_eager h hresolved hd hc heager
      have hedge := (buildRoot_hasEdge_iff h hresolved _).mpr ⟨d, c, n, hconnects, rfl⟩
      have htiming := ((hroot.of_retains hd).1.timing_of_mem_lastCalls hc).symm.trans heager
      have hkept := (hkeeps _ hedge htiming node hnode hlifetime).of_get? hsource
      exact hblock (hkept.symm.trans hcall)
  · intro hnone e he htiming node hnode hlifetime
    obtain ⟨d, c, n, hconnects, rfl⟩ := (buildRoot_hasEdge_iff h hresolved e).mp he
    have hd := hconnects.1
    have hc := hconnects.2.1
    have heager := ((hroot.of_retains hd).1.timing_of_mem_lastCalls hc).trans htiming
    refine (has_block_of_eager h hresolved hd hc heager).mono fun source hcall => ?_
    by_contra hblock
    have hforeign := (isForeign_iff h hresolved hconnects heager).mp
      ⟨node, hnode, hlifetime, fun hsame => hblock (hcall.trans hsame.symm)⟩
    exact not_or.mpr (hnone c.query (hd.tail ⟨c, hc, rfl⟩)) hforeign

/-- A part that is kept for a block and asks by a provider for something that needs the part. -/
def returningPart : Setup :=
  let base := Setup.sample [("IP", "P", [[.named "Func" [.named "IX" []]]]),
    ("IX", "X", [[.named "IP" []]])] ["IP"]
  { base with bindings := base.bindings.modifyHead fun p => { p with lifetime := some .perBlock } }

/-- What is made in the provider call gets the part of the root. -/
theorem returningPart_edge :
    ∃ b, buildRoot (.ofSetup returningPart) returningPart.firstRoot .empty = .ok b ∧
      b.isResolved = true ∧ ¬ b.graph.KeepsBlocks := by
  have hbuilt : ((buildRoot (.ofSetup returningPart) returningPart.firstRoot
      .empty).toOption.any fun b => b.isResolved && b.graph.edges.entries.any fun e =>
        e.2.timing == .eager && (b.graph.nodes.get? e.2.target).any fun node =>
          node.lifetime == .perBlock &&
            !decide (b.graph.Has e.2.source (·.block = node.block))) = true := by
    decide +kernel
  obtain ⟨b, hb, hfacts⟩ := any_toOption.mp hbuilt
  obtain ⟨hresolved, hedges⟩ := Bool.and_eq_true_iff.mp hfacts
  obtain ⟨⟨i, e⟩, he, hedge⟩ := List.any_eq_true.mp hedges
  obtain ⟨htiming, htarget⟩ := Bool.and_eq_true_iff.mp hedge
  obtain ⟨node, hnode, hforeign⟩ := (Option.any_eq_true _ _).mp htarget
  simp only [Bool.and_eq_true, beq_iff_eq, Bool.not_eq_true', decide_eq_false_iff_not]
    at hforeign htiming
  exact ⟨b, hb, hresolved, fun hkeeps =>
    hforeign.2 (hkeeps e ⟨i, he⟩ htiming node hnode hforeign.1)⟩

/-- A query on the way from such a part asks for it again in the provider call, or is answered by
an instance of another block. -/
theorem keepsBlocks_iff_returningPart :
    ∃ b, buildRoot (.ofSetup returningPart) returningPart.firstRoot .empty = .ok b ∧
      b.isResolved = true ∧ ∃ q,
        (Query.ofRoot returningPart.firstRoot .empty).Retains (.ofSetup returningPart) q ∧
        (q.Reenters (.ofSetup returningPart) ∨ q.Displaced) := by
  obtain ⟨b, hb, hresolved, hnot⟩ := returningPart_edge
  refine ⟨b, hb, hresolved, Classical.byContradiction fun hnone => hnot ?_⟩
  exact (keepsBlocks_iff hb hresolved).mpr fun q hq =>
    not_or.mp fun hforeign => hnone ⟨q, hq, hforeign⟩

/-- An edge of a resolved root that is made at once can lead to an instance that is kept for another
block. -/
theorem returningPart_not_kept :
    ¬ ∀ b, buildRoot (.ofSetup returningPart) returningPart.firstRoot .empty = .ok b →
      b.isResolved = true → b.graph.KeepsBlocks := by
  intro hall
  obtain ⟨b, hb, hresolved, hnot⟩ := returningPart_edge
  exact hnot (hall b hb hresolved)

end Wiring

end Injector

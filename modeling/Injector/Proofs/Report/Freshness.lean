import Injector.Proofs.Report.Fitting
import Injector.Proofs.Report.Separation

/-!
# Transient values are made anew

A transient value is made for the one request that asks for it. The main statement is that in a
resolved root, no function of which takes arguments, a transient node is needed at once at most at
one place, and nowhere when it is the root or was made for a later call. Whatever else leads to it
links back from a provider call, for every way to find a node that exists gives a shared one.
-/

namespace Injector

/-- Whether no function of a graph takes arguments. -/
def Graph.TakesNoArguments (g : Graph) : Prop :=
  ∀ n args, (g.Has n fun node => node.origin = .synthesized .func args) → args = []

/-- A list without repetition, at most one member of which has an image, has at most one image. -/
theorem length_filterMap_le_one {α β : Type} {f : α → Option β} {as : List α} (hnodup : as.Nodup)
    (hone : ∀ a ∈ as, ∀ a' ∈ as, (f a).isSome → (f a').isSome → a = a') :
    (as.filterMap f).length ≤ 1 := by
  induction as with
  | nil => exact Nat.zero_le 1
  | cons a as ih =>
    obtain ⟨ha, hnodup⟩ := List.nodup_cons.mp hnodup
    cases hfa : f a with
    | none =>
      rw [List.filterMap_cons_none hfa]
      exact ih hnodup fun b hb b' hb' =>
        hone b (List.mem_cons_of_mem a hb) b' (List.mem_cons_of_mem a hb')
    | some image =>
      have hothers : as.filterMap f = [] := List.filterMap_eq_nil_iff.mpr fun b hb => by
        by_contra hfb
        obtain rfl := hone a List.mem_cons_self b (List.mem_cons_of_mem a hb) (by simp [hfa])
          (Option.isSome_iff_ne_none.mpr hfb)
        exact ha hb
      rw [List.filterMap_cons_some hfa, hothers, List.length_singleton]

namespace Wiring

variable {resolver : Resolver} {root : Table.Root} {cycles : CycleLog} {b : RootBuild}

/-- Whether a node was made for a request of a provider call. -/
def MadeLater (resolver : Resolver) (root : Table.Root) (cycles : CycleLog) (n : NodeId) : Prop :=
  ∃ q, (Query.ofRoot root cycles).Retains resolver q ∧ q.nodeNumber = n ∧ q.Makes resolver ∧
    q.timing = .deferred

/-- What has a key to be shared under is not transient. -/
theorem SharedKey.lifetime_ne {node : Node} {k : SharedKey} (h : ofNode? node = some k) :
    node.lifetime ≠ .transient := by
  intro htransient
  unfold ofNode? at h
  split at h
  · rw [htransient] at h
    cases h
  · cases h

namespace Query

variable {q d d' : Query} {c c' : Call}

/-- What is linked to at once is the value of a binding that is not transient. -/
theorem exists_shared_of_linked {n : NodeId} (h : q.verdict resolver = .ok (.linked n))
    (heager : q.timing = .eager) : ∃ id s r, resolver.resolve q.request = .binding id s ∧
      resolver.table.bindings[id]? = some r ∧ r.lifetime ≠ .transient := by
  unfold verdict at h
  split at h
  · cases h
  · split at h
    · cases h
    · next id s hres =>
      split at h
      · cases h
      · next r hr =>
        refine ⟨id, s, r, hres, hr, fun htransient => ?_⟩
        have hverdict : q.bindingVerdict id s r = .linked n := Except.ok.inj h
        rw [bindingVerdict, htransient, bne_self_eq_false] at hverdict
        split at hverdict
        · next v hpath => exact onPath?_ne_linked heager n (hverdict ▸ hpath)
        · split at hverdict
          · split at hverdict
            · next k hk => cases hk
            · split at hverdict <;> cases hverdict
          · cases hverdict
    · next hres =>
      cases hpath : q.onPath? (.contract q.request.contract) false with
      | none =>
        rw [hpath] at h
        cases h
      | some v =>
        rw [hpath, Option.getD_some] at h
        exact absurd (Except.ok.inj h ▸ hpath) (onPath?_ne_linked heager n)

/-- Where arguments are visible, a call on the way gives some. -/
theorem Proper.exists_provides (hq : q.Proper resolver) (hd : q.Retains resolver d)
    (ha : d.state.arguments ≠ []) : q.state.arguments ≠ [] ∨
      ∃ r c args, q.Retains resolver r ∧ c ∈ r.lastCalls resolver ∧
        c.link.provides = some args ∧ args ≠ [] := by
  induction hd with
  | refl => exact .inl ha
  | @tail r _ hr hkeeps ih =>
    obtain ⟨c, hc, rfl⟩ := hkeeps
    obtain ⟨m, s, -, -, heq, hx, -⟩ := (hq.of_retains hr).1.exists_lastLink hc
    have hlength := ((extends_begun r m).trans hx).arguments.length_eq
    have hold : s.arguments ≠ [] → r.state.arguments ≠ [] := fun hs hr =>
      hs (List.eq_nil_of_length_eq_zero (by rw [← hlength, hr]; rfl))
    rw [heq] at ha
    cases hprovides : c.link.provides with
    | none => exact ih (hold (by simpa [Link.query, hprovides] using ha))
    | some args =>
      by_cases hargs : args = []
      · exact ih (hold (by simpa [Link.query, hprovides, State.opened, hargs] using ha))
      · exact .inr ⟨r, c, args, hr, hc, hprovides, hargs⟩

/-- A value is made for one call. It is the last under construction for that call, and of two calls
the later one would find the node that the earlier one left. -/
theorem eq_of_query_eq (hq : q.Proper resolver) {n : NodeId} {s' : State}
    (h : q.outcome resolver = .ok (some n, s')) (hd : q.Retains resolver d)
    (hd' : q.Retains resolver d') (hc : c ∈ d.lastCalls resolver) (hc' : c' ∈ d'.lastCalls resolver)
    {node : Node} (hcreates : c.query.Creates resolver node) (heq : c.query = c'.query) :
    d = d' ∧ c = c' := by
  have hproper := (hq.of_retains hd).1
  have hproper' := (hq.of_retains hd').1
  obtain ⟨m, hm⟩ := (hproper.of_mem_lastCalls hc).1
  obtain ⟨m', hm'⟩ := (hproper'.of_mem_lastCalls hc').1
  have hpath := congrArg (fun q => q.context.path) heq
  simp only [hproper.path_of_mem_lastCalls hm hc, hproper'.path_of_mem_lastCalls hm' hc'] at hpath
  have hnumber : d.nodeNumber = d'.nodeNumber :=
    congrArg Frame.node (List.cons.inj (List.append_inj' hpath rfl).2).1
  obtain rfl := eq_of_nodeNumber_eq hq h hd hd' (.value hm) (.value hm') hnumber
  refine ⟨rfl, Classical.byContradiction fun hne => ?_⟩
  obtain ⟨n, s, hmade, -⟩ := (outcome_traced hq h).answered d hd
  obtain ⟨-, s₀, s₁, hmade⟩ := exists_made hproper hm hmade
  have hitself : ∀ n s, c.query.outcome resolver = .ok (some n, s) →
      s.Precedes c.query.state := by
    rcases hmade.chain.ordered hc hc' hne with hprecedes | hprecedes
    · rwa [← heq] at hprecedes
    · rwa [← heq] at hprecedes
  obtain ⟨n, s, hout, -⟩ := hmade.chain.answered hc
  have hcall := (hproper.of_mem_lastCalls hc).2.1
  have htaken := (hcreates.answer hcall hout).2.mem_taken
  exact nodeNumber_not_mem hcall ((hitself n s hout).graph.mem_taken htaken)

end Query

section Resolved

variable (h : buildRoot resolver root cycles = .ok b) (hresolved : b.isResolved = true)

include h hresolved

/-- Where functions take no arguments, none are visible on the way to a resolved root. -/
theorem arguments_eq_nil (hnone : b.graph.TakesNoArguments) {q : Query}
    (hq : (Query.ofRoot root cycles).Retains resolver q) : q.state.arguments = [] := by
  have hroot := Query.ofRoot_proper resolver root cycles
  by_contra hvisible
  obtain hstart | ⟨d, c, args, hd, hc, hl, hargs⟩ := hroot.exists_provides hq hvisible
  · exact hstart rfl
  · obtain ⟨first, rest, rfl⟩ := List.exists_cons_of_ne_nil hargs
    have hfirst : (first :: rest)[0]? = some first := rfl
    obtain ⟨dependencies, hm⟩ := (hroot.of_retains hd).1.exists_func hc hl hfirst
    refine hargs (hnone d.nodeNumber _ ?_)
    exact (has_of_creates h hresolved hd (.value hm)).mono
      fun node hcreates => hcreates.origin_eq_synthesized hm

/-- What a query is linked to at once is not transient. -/
theorem lifetime_ne_of_linked {q : Query} (hq : (Query.ofRoot root cycles).Retains resolver q)
    {n : NodeId} (hv : q.verdict resolver = .ok (.linked n)) (heager : q.timing = .eager)
    {node : Node} (hnode : b.graph.nodes.get? n = some node) : node.lifetime ≠ .transient := by
  obtain ⟨id, s, r, hres, hr, hlifetime⟩ := Query.exists_shared_of_linked hv heager
  cases Query.verdict_grounds hv with
  | @binding id' s' f hres' hf hkey =>
    cases hres.symm.trans hres'
    obtain ⟨-, hsame⟩ := (has_of_frame h hresolved hq hf).of_get? hnode
    rw [hkey, Key.lifetime?, hr] at hsame
    exact fun htransient => hlifetime ((Option.some.inj hsame).trans htransient)
  | shared hres' hkey hknown =>
    exact SharedKey.lifetime_ne ((has_of_shared h hresolved hq hknown).of_get? hnode)
  | shape hres' => cases hres.symm.trans hres'

/-- A query that is answered at once by a transient node makes it. -/
theorem creates_of_transient (hnone : b.graph.TakesNoArguments) {q : Query}
    (hq : (Query.ofRoot root cycles).Retains resolver q) (heager : q.timing = .eager) {n : NodeId}
    {s : State} (hout : q.outcome resolver = .ok (some n, s)) {node : Node}
    (hnode : b.graph.nodes.get? n = some node) (htransient : node.lifetime = .transient) :
    n = q.nodeNumber ∧ ∃ node, q.Creates resolver node := by
  have hproper := ((Query.ofRoot_proper resolver root cycles).of_retains hq).1
  rcases Query.creates_or_finds hproper hout with hcreates | hv | ⟨type, hvisible⟩
  · exact hcreates
  · exact absurd htransient (lifetime_ne_of_linked h hresolved hq hv heager hnode)
  · have hmem := (Query.visible?_eq_some hvisible).2.2.2
    rw [arguments_eq_nil h hresolved hnone hq] at hmem
    cases hmem

/-- An edge to a transient node that is made at once is that of the call for which the node is
made. -/
theorem exists_call_of_eager (hnone : b.graph.TakesNoArguments) {e : Edge} (he : b.graph.HasEdge e)
    (heager : e.timing = .eager) {node : Node} (hnode : b.graph.nodes.get? e.target = some node)
    (htransient : node.lifetime = .transient) :
    ∃ d c, (Query.ofRoot root cycles).Retains resolver d ∧ c ∈ d.lastCalls resolver ∧
      e = c.link.wire.edge d.nodeNumber e.target ∧ c.query.timing = .eager ∧
      c.query.nodeNumber = e.target ∧ ∃ node, c.query.Creates resolver node := by
  obtain ⟨d, c, n, ⟨hd, hc, s, hout⟩, rfl⟩ := (buildRoot_hasEdge_iff h hresolved e).mp he
  have hproper := ((Query.ofRoot_proper resolver root cycles).of_retains hd).1
  have htiming := (hproper.timing_of_mem_lastCalls hc).trans heager
  obtain ⟨hn, hcreates⟩ := creates_of_transient h hresolved hnone (hd.tail ⟨c, hc, rfl⟩) htiming
    hout hnode htransient
  exact ⟨d, c, hd, hc, rfl, htiming, hn.symm, hcreates⟩

/-- The edges that leave a node of a resolved root are different. -/
theorem eq_of_mem_outgoing {n : NodeId} {node : Node} (hn : b.graph.nodes.get? n = some node)
    {e e' : Nat × Edge} (he : e ∈ b.graph.outgoing n) (he' : e' ∈ b.graph.outgoing n)
    (heq : e.2 = e'.2) : e = e' := by
  obtain ⟨places, _, _, -, -, -, -, hfits⟩ := exists_fitsAt h hresolved hn
  have hpositions := hfits.pairwise.sublist hfits.sublist
  have hdependencies : (b.graph.dependencies n).Nodup :=
    (hpositions.of_map Edge.place fun _ _ => id).imp fun hlt heq => by simp [heq] at hlt
  have houtgoing : ((b.graph.outgoing n).map Prod.snd).Nodup :=
    (sortBy_perm _ _).nodup_iff.mp hdependencies
  exact List.inj_on_of_nodup_map houtgoing he he' heq

/-- Two edges to a transient node that are made at once are one. -/
theorem eq_of_target_eq (hnone : b.graph.TakesNoArguments) {e e' : Nat × Edge}
    (he : e ∈ b.graph.edges.entries) (he' : e' ∈ b.graph.edges.entries)
    (heager : e.2.timing = .eager) (heager' : e'.2.timing = .eager) {node : Node}
    (hnode : b.graph.nodes.get? e.2.target = some node) (htransient : node.lifetime = .transient)
    (htarget : e'.2.target = e.2.target) : e = e' := by
  have hroot := Query.ofRoot_proper resolver root cycles
  obtain ⟨_, out, -, hbuilt, -⟩ := buildRoot_resolved h hresolved
  obtain ⟨d, c, hd, hc, hedge, -, hnumber, _, hcreates⟩ :=
    exists_call_of_eager h hresolved hnone ⟨e.1, he⟩ heager hnode htransient
  obtain ⟨d', c', hd', hc', hedge', -, hnumber', _, hcreates'⟩ :=
    exists_call_of_eager h hresolved hnone ⟨e'.1, he'⟩ heager' (htarget ▸ hnode) htransient
  have hquery : c.query = c'.query := Query.eq_of_nodeNumber_eq hroot hbuilt
    (hd.tail ⟨c, hc, rfl⟩) (hd'.tail ⟨c', hc', rfl⟩) hcreates hcreates'
    (hnumber.trans (htarget.symm.trans hnumber'.symm))
  obtain ⟨rfl, rfl⟩ := Query.eq_of_query_eq hroot hbuilt hd hd' hc hc' hcreates hquery
  have hsame : e.2 = e'.2 := by rw [hedge, hedge', htarget]
  obtain ⟨source, hsource⟩ := Option.isSome_iff_exists.mp
    (Pool.get?_isSome_iff.mpr ((buildRoot_consistent h).1.source_mem e he))
  refine eq_of_mem_outgoing h hresolved hsource ?_ ?_ hsame
  · exact List.mem_filter.mpr ⟨he, by simp⟩
  · exact List.mem_filter.mpr ⟨he', by simp [hsame]⟩

/-- No edge to a transient node is made at once if the node was not made for such a call. For the
root nothing is under construction, as there is for a call. -/
theorem eagerPredecessors_eq_nil (hnone : b.graph.TakesNoArguments) {q : Query}
    (hq : (Query.ofRoot root cycles).Retains resolver q)
    (hcreates : ∃ node, q.Creates resolver node) {node : Node}
    (hnode : b.graph.nodes.get? q.nodeNumber = some node) (htransient : node.lifetime = .transient)
    (hother : q.timing = .eager → q = .ofRoot root cycles) :
    b.graph.eagerPredecessors q.nodeNumber = [] := by
  have hroot := Query.ofRoot_proper resolver root cycles
  obtain ⟨_, out, -, hbuilt, -⟩ := buildRoot_resolved h hresolved
  obtain ⟨_, hcreates⟩ := hcreates
  rw [List.eq_nil_iff_forall_not_mem]
  intro k hk
  obtain ⟨e, he, htarget, -, heager⟩ := Graph.mem_eagerPredecessors.mp hk
  obtain ⟨d, c, hd, hc, -, htiming, hnumber, _, hcall⟩ := exists_call_of_eager h hresolved hnone
    ⟨e.1, he⟩ heager (htarget ▸ hnode) htransient
  obtain rfl := Query.eq_of_nodeNumber_eq hroot hbuilt hq (hd.tail ⟨c, hc, rfl⟩) hcreates hcall
    (htarget.symm.trans hnumber.symm)
  have hproper := (hroot.of_retains hd).1
  obtain ⟨m, hm⟩ := (hproper.of_mem_lastCalls hc).1
  have hpath := hproper.path_of_mem_lastCalls hm hc
  rw [hother htiming] at hpath
  simp [Query.ofRoot] at hpath

end Resolved

/-- In a resolved root without functions that take arguments, a transient node is needed at once at
most at one place, and at none when it is the root or was made for a request of a provider call. -/
theorem transient_neededOnce (h : buildRoot resolver root cycles = .ok b)
    (hresolved : b.isResolved = true) (hnone : b.graph.TakesNoArguments) {n : NodeId} {node : Node}
    (hn : b.graph.nodes.get? n = some node) (htransient : node.lifetime = .transient) :
    (b.graph.eagerPredecessors n).length ≤ 1 ∧
      (b.graph.root = some n ∨ MadeLater resolver root cycles n →
        b.graph.eagerPredecessors n = []) := by
  constructor
  · have hentries : b.graph.edges.entries.Nodup :=
      .of_map Prod.fst (buildRoot_consistent h).1.edges.nodup_taken
    refine length_filterMap_le_one (hentries.filter _) fun e he e' he' heager heager' => ?_
    rw [Graph.incoming, List.mem_filter, beq_iff_eq] at he he'
    rw [Option.isSome_ite] at heager heager'
    obtain ⟨he, rfl⟩ := he
    exact eq_of_target_eq h hresolved hnone he he'.1 heager heager' hn htransient he'.2
  · rintro (hanswer | ⟨q, hq, rfl, ⟨m, hm⟩, hlater⟩)
    · obtain ⟨_, s, hstart, hout, -⟩ := buildRoot_resolved h hresolved
      cases hstart.symm.trans hanswer
      obtain ⟨rfl, hcreates⟩ := creates_of_transient h hresolved hnone .refl rfl hout hn htransient
      exact eagerPredecessors_eq_nil h hresolved hnone .refl hcreates hn htransient fun _ => rfl
    · exact eagerPredecessors_eq_nil h hresolved hnone hq ⟨_, .value hm⟩ hn htransient
        fun heager => by cases heager.symm.trans hlater

/-- A service that gets one part twice, a provider of it, and itself later. -/
def repeatedPart : Setup :=
  .sample [("IS", "Sv", [[.named "IP" [], .named "IP" [], .named "Func" [.named "IP" []],
    .named "Lazy" [.named "IS" []]]]), ("IP", "P", [[]])] ["IS"]

/-- The part is made three times, the service once although it is needed again later, and each value
is needed at once at most at one place. -/
theorem transient_neededOnce_repeatedPart :
    ∃ b, buildRoot (.ofSetup repeatedPart) repeatedPart.firstRoot .empty = .ok b ∧
      b.isResolved = true ∧ b.graph.TakesNoArguments ∧ b.graph.nodes.size = 6 ∧
      b.graph.root = some 0 ∧ b.graph.incoming 0 ≠ [] ∧ b.graph.eagerPredecessors 0 = [] ∧
      ∀ n node, b.graph.nodes.get? n = some node → node.lifetime = .transient ∧
        (b.graph.eagerPredecessors n).length ≤ 1 := by
  have hbuilt : ((buildRoot (.ofSetup repeatedPart) repeatedPart.firstRoot
      .empty).toOption.any fun b => b.isResolved && b.graph.nodes.size == 6 &&
        b.graph.root == some 0 && !(b.graph.incoming 0).isEmpty &&
        b.graph.nodes.entries.all fun e => e.2.lifetime == .transient &&
          [.binding 0 .empty (some 0), .binding 1 .empty (some 0), .synthesized .func [],
            .synthesized .lazy []].contains e.2.origin) = true := by decide +kernel
  obtain ⟨b, hb, hfacts⟩ := (Option.any_eq_true _ _).mp hbuilt
  have hb := toOption_eq_some.mp hb
  simp only [Bool.and_eq_true, beq_iff_eq, Bool.not_eq_true', List.all_eq_true] at hfacts
  obtain ⟨⟨⟨⟨hresolved, hsize⟩, hroot⟩, hentered⟩, hall⟩ := hfacts
  have hentry : ∀ n node, b.graph.nodes.get? n = some node → (n, node) ∈ b.graph.nodes.entries :=
    fun n node => (buildRoot_consistent hb).1.nodes.get?_eq_some_iff.mp
  have hnone : b.graph.TakesNoArguments := by
    rintro n args ⟨node, hn, ho⟩
    have horigin := (hall _ (hentry n node hn)).2
    rw [ho] at horigin
    simpa using horigin
  obtain ⟨node, hn⟩ := Option.isSome_iff_exists.mp (Pool.get?_isSome_iff.mpr
    ((buildRoot_consistent hb).1.root_mem 0 hroot))
  have htransient : ∀ n node, b.graph.nodes.get? n = some node → node.lifetime = .transient :=
    fun n node hn => (hall _ (hentry n node hn)).1
  refine ⟨b, hb, hresolved, hnone, hsize, hroot, by simpa using hentered, ?_, fun n node hn =>
    ⟨htransient n node hn, ?_⟩⟩
  · exact (transient_neededOnce hb hresolved hnone hn (htransient 0 node hn)).2 (.inl hroot)
  · exact (transient_neededOnce hb hresolved hnone hn (htransient n node hn)).1

end Wiring

end Injector

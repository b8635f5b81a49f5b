import Injector.Proofs.Plan.Creation

/-!
# The order of disposal

A plan disposes of what it made last first: in one list, what lives as long as the composition or a
scope, in the other what belongs to the resolution that made it. The main statement is that each
disposable node has its slot once in the list of its lifetime, and before the slots of all that it
eagerly depends on (`disposes_of_derive?`).
-/

namespace Injector

namespace Plan

/-- Whether the slots and the steps of a plan are those of the nodes for which slots stand. -/
structure Legend.Describes (l : Legend) (g : Graph) (plan : Plan) : Prop where
  /-- There are as many slots as nodes that have one. -/
  length_eq : plan.slots.length = l.slots.length
  /-- A slot has the number under which it stands, and is described as its node. -/
  described : ∀ (s : Nat) n, l.slots[s]? = some n → g.Has n fun node =>
    plan.slots[s]? = some ⟨s, node.contract, node.lifetime, node.scope⟩
  /-- A step makes a node as the graph has it. -/
  rendered : ∀ r ∈ plan.routines, ∀ st ∈ r.steps, ∃ n, st.Renders g l n

/-- Whether slots are listed for disposal as the nodes of a graph that stand behind them require. -/
structure Legend.Disposes (l : Legend) (g : Graph) (d : Disposal) : Prop where
  /-- The slot of a disposable node is listed once. -/
  once : ∀ n, (g.Has n fun node => node.disposable = true) →
    ∃ s, l.slots[s]? = some n ∧ (d.scopeTeardown ++ d.perOwner).count s = 1
  /-- With the composition or a scope go the slots of disposable nodes that live as long. -/
  mem_scopeTeardown_iff : ∀ s, s ∈ d.scopeTeardown ↔ ∃ n, l.slots[s]? = some n ∧
    g.Has n fun node => node.disposable = true ∧
      (node.lifetime = .scoped ∨ node.lifetime = .singleton)
  /-- With their owners go those of the other disposable nodes. -/
  mem_perOwner_iff : ∀ s, s ∈ d.perOwner ↔ ∃ n, l.slots[s]? = some n ∧
    g.Has n fun node => node.disposable = true ∧
      ¬ (node.lifetime = .scoped ∨ node.lifetime = .singleton)
  /-- In either list, what depends on something eagerly, at once or by way of others, stands before
  it. -/
  ordered : ∀ list ∈ [d.scopeTeardown, d.perOwner], ∀ m n s t, Relation.TransGen g.Precedes m n →
    l.slots[s]? = some m → l.slots[t]? = some n → s ∈ list → t ∈ list → [t, s].Sublist list

/-- The slots of the disposable nodes of a kind, what was made last first. -/
def slotsToDispose (kind : Node → Bool) (nodes : List (NodeId × Node)) (slots : List NodeId) :
    List Nat :=
  nodes.reverse.filterMap fun n =>
    if n.2.disposable && kind n.2 then slots.idxOf? n.1 else none

theorem disposalOf_scopeTeardown (nodes : List (NodeId × Node)) (slots : List NodeId) :
    (disposalOf nodes slots).scopeTeardown =
      slotsToDispose (fun n => n.lifetime.isLongLived) nodes slots := by
  simp only [disposalOf, slotsToDispose, List.filterMap_filter, Bool.and_eq_true, ite_and]

theorem disposalOf_perOwner (nodes : List (NodeId × Node)) (slots : List NodeId) :
    (disposalOf nodes slots).perOwner =
      slotsToDispose (fun n => !n.lifetime.isLongLived) nodes slots := by
  simp only [disposalOf, slotsToDispose, List.filterMap_filter, Bool.and_eq_true, ite_and]

section Slots

variable {kind : Node → Bool} {nodes : List (NodeId × Node)} {slots : List NodeId}

theorem idxOf?_eq_some_iff_of_nodup (hslots : slots.Nodup) {n : NodeId} {s : Nat} :
    slots.idxOf? n = some s ↔ slots[s]? = some n := by
  rw [List.idxOf?_eq_some_iff, List.getElem?_eq_some_iff]
  refine exists_congr fun hlt => and_iff_left_of_imp fun heq j hj hsame => ?_
  have := hslots.getElem_inj_iff.mp (hsame.trans heq.symm)
  omega

theorem mem_slotsToDispose (hslots : slots.Nodup) {s : Nat} :
    s ∈ slotsToDispose kind nodes slots ↔
      ∃ x ∈ nodes, slots[s]? = some x.1 ∧ x.2.disposable = true ∧ kind x.2 = true := by
  simp only [slotsToDispose, List.mem_filterMap, List.mem_reverse, Option.ite_none_right_eq_some,
    Bool.and_eq_true, idxOf?_eq_some_iff_of_nodup hslots, and_comm]

/-- Nodes that are listed once have their slots listed once. -/
theorem nodup_slotsToDispose (kind : Node → Bool) (hslots : slots.Nodup)
    (hnodes : (nodes.map Prod.fst).Nodup) : (slotsToDispose kind nodes slots).Nodup := by
  have hreverse : nodes.reverse.Pairwise fun x y => x.1 ≠ y.1 :=
    List.pairwise_reverse.mpr ((List.pairwise_map.mp hnodes).imp fun h => h.symm)
  refine List.pairwise_filterMap.mpr (hreverse.imp fun hne s hs t ht heq => hne ?_)
  rw [Option.ite_none_right_eq_some, idxOf?_eq_some_iff_of_nodup hslots] at hs ht
  exact Option.some.inj (hs.2.symm.trans (heq ▸ ht.2))

/-- What is made first is disposed of last. -/
theorem sublist_slotsToDispose (hslots : slots.Nodup) (hnodes : (nodes.map Prod.fst).Nodup)
    {m n : NodeId} {s t : Nat} (hsub : [m, n].Sublist (nodes.map Prod.fst))
    (hm : slots[s]? = some m) (hn : slots[t]? = some n) (hs : s ∈ slotsToDispose kind nodes slots)
    (ht : t ∈ slotsToDispose kind nodes slots) :
    [t, s].Sublist (slotsToDispose kind nodes slots) := by
  obtain ⟨x, hx, hxs, hxkind⟩ := (mem_slotsToDispose hslots).mp hs
  obtain ⟨y, hy, hyt, hykind⟩ := (mem_slotsToDispose hslots).mp ht
  obtain rfl := Option.some.inj (hm.symm.trans hxs)
  obtain rfl := Option.some.inj (hn.symm.trans hyt)
  have hpair : [x, y].Sublist nodes := by
    obtain ⟨pair, hpair, heq⟩ := List.sublist_map_iff.mp hsub
    obtain ⟨x', others, rfl, hx', hothers⟩ := List.map_eq_cons_iff.mp heq.symm
    obtain ⟨y', none, rfl, hy', hnone⟩ := List.map_eq_cons_iff.mp hothers
    obtain rfl := List.map_eq_nil_iff.mp hnone
    obtain rfl := List.inj_on_of_nodup_map hnodes hx (hpair.subset (by simp)) hx'.symm
    obtain rfl := List.inj_on_of_nodup_map hnodes hy (hpair.subset (by simp)) hy'.symm
    exact hpair
  have hslot := (hpair.reverse).filterMap fun n : NodeId × Node =>
    if n.2.disposable && kind n.2 then slots.idxOf? n.1 else none
  have hx : slots.idxOf? x.1 = some s := (idxOf?_eq_some_iff_of_nodup hslots).mpr hm
  have hy : slots.idxOf? y.1 = some t := (idxOf?_eq_some_iff_of_nodup hslots).mpr hn
  simpa [slotsToDispose, hx, hy, hxkind, hykind] using hslot

end Slots

variable {g : Graph} {table : Table} {p : Planner}

/-- The contents of some nodes are those that the graph has. -/
theorem nodesOf_eq_ok {ns : List NodeId} {nodes : List (NodeId × Node)}
    (h : nodesOf g ns = .ok nodes) :
    nodes.map Prod.fst = ns ∧ ∀ x ∈ nodes, g.nodes.get? x.1 = some x.2 := by
  have hstep : ∀ n x, (do return (n, ← g.node n) : Except Fault (NodeId × Node)) = .ok x →
      n = x.1 ∧ g.nodes.get? x.1 = some x.2 := by
    intro n x hx
    obtain ⟨node, hnode, hx⟩ := bind_eq_ok.mp hx
    cases hx
    exact ⟨rfl, Graph.get?_of_node hnode⟩
  refine ⟨?_, forall_mem_of_mapM_eq_ok h fun n _ x hx => (hstep n x hx).2⟩
  have hsame : List.Forall₂ (fun n x => n = x.1) ns nodes :=
    (mapM_eq_ok.mp h).imp fun n x hx => (hstep n x hx).1
  rw [← List.forall₂_map_right_iff, List.forall₂_eq_eq_eq] at hsame
  exact hsame.symm

/-- The slots and steps of a plan are those of the nodes to which the planner gave slots. -/
theorem describes_of_nodesOf {held : List (NodeId × Node)} (hheld : nodesOf g p.slots = .ok held)
    {plan : Plan} (hslots : plan.slots = held.zipIdx.map fun n =>
      ⟨n.2, n.1.2.contract, n.1.2.lifetime, n.1.2.scope⟩)
    (hpasses : ∀ r ∈ plan.routines, r.Passes g table p.legend) : p.legend.Describes g plan := by
  obtain ⟨hfst, hget⟩ := nodesOf_eq_ok hheld
  refine ⟨?_, fun s n hn => ?_, fun r hr st hst => ?_⟩
  · rw [hslots, List.length_map, List.length_zipIdx, ← List.length_map Prod.fst, hfst]
    rfl
  · change p.slots[s]? = some n at hn
    rw [← hfst, List.getElem?_map, Option.map_eq_some_iff] at hn
    obtain ⟨x, hx, rfl⟩ := hn
    refine ⟨x.2, hget x (List.mem_of_getElem? hx), ?_⟩
    simp [hslots, hx]
  · obtain ⟨n, hn⟩ := hpasses r hr st hst
    exact ⟨n, hn.renders⟩

section Created

variable {created : List (NodeId × Node)} {s t : Nat}
  (hcreated : nodesOf g p.created = .ok created) (hslots : p.slots.Nodup)

include hcreated hslots

/-- The slots to dispose are those of the disposable nodes of the kind, if these are listed. -/
theorem mem_slotsToDispose_iff (kind : Node → Bool)
    (hlisted : ∀ n, (g.Has n fun node => node.disposable = true) → n ∈ p.created) :
    s ∈ slotsToDispose kind created p.slots ↔ ∃ n, p.slots[s]? = some n ∧
      g.Has n fun node => node.disposable = true ∧ kind node = true := by
  obtain ⟨hfst, hget⟩ := nodesOf_eq_ok hcreated
  rw [mem_slotsToDispose hslots]
  constructor
  · rintro ⟨x, hx, hslot, hfacts⟩
    exact ⟨x.1, hslot, x.2, hget x hx, hfacts⟩
  · rintro ⟨n, hslot, node, hnode, hfacts⟩
    have hn : n ∈ created.map Prod.fst := hfst ▸ hlisted n ⟨node, hnode, hfacts.1⟩
    obtain ⟨x, hx, rfl⟩ := List.mem_map.mp hn
    cases hnode.symm.trans (hget x hx)
    exact ⟨x, hx, hslot, hfacts⟩

/-- A slot is disposed of before those of what its node eagerly depends on. -/
theorem Planner.Lists.sublist_slotsToDispose (h : p.Lists g) (kind : Node → Bool)
    (hsound : ∀ n, ∀ e ∈ g.dependencies n, g.Makes n)
    (hmade : ∀ n, (g.Has n fun node => node.disposable = true) → g.Makes n) {m n : NodeId}
    (hpath : Relation.TransGen g.Precedes m n) (hm : p.slots[s]? = some m)
    (hn : p.slots[t]? = some n) (hs : s ∈ slotsToDispose kind created p.slots)
    (ht : t ∈ slotsToDispose kind created p.slots) :
    [t, s].Sublist (slotsToDispose kind created p.slots) := by
  obtain ⟨hfst, hget⟩ := nodesOf_eq_ok hcreated
  obtain ⟨x, hx, hxm, hdisposable, -⟩ := (Plan.mem_slotsToDispose hslots).mp hs
  obtain ⟨y, hy, hyn, -⟩ := (Plan.mem_slotsToDispose hslots).mp ht
  obtain rfl := Option.some.inj (hm.symm.trans hxm)
  obtain rfl := Option.some.inj (hn.symm.trans hyn)
  have hlisted : y.1 ∈ p.created := hfst ▸ List.mem_map_of_mem hy
  obtain ⟨before, rest, heq⟩ := List.append_of_mem hlisted
  have hbefore : x.1 ∈ before :=
    h.mem_before hsound hpath (hmade x.1 ⟨x.2, hget x hx, hdisposable⟩) heq
  have hsub : [x.1, y.1].Sublist p.created := by
    rw [heq]
    exact (List.singleton_sublist.mpr hbefore).append (List.singleton_sublist.mpr (by simp))
  exact Plan.sublist_slotsToDispose hslots (hfst ▸ h.needsFirst.nodup) (hfst ▸ hsub) hm hn hs ht

/-- Where all that is disposable is listed among what is created, the slots are listed for disposal
as required. -/
theorem Planner.Lists.disposes (h : p.Lists g)
    (hlisted : ∀ n, (g.Has n fun node => node.disposable = true) → n ∈ p.created)
    (hsound : ∀ n, ∀ e ∈ g.dependencies n, g.Makes n)
    (hmade : ∀ n, (g.Has n fun node => node.disposable = true) → g.Makes n) :
    p.legend.Disposes g (disposalOf created p.slots) := by
  obtain ⟨hfst, -⟩ := nodesOf_eq_ok hcreated
  have hnodes : (created.map Prod.fst).Nodup := hfst ▸ h.needsFirst.nodup
  have hteardown : ∀ s, s ∈ (disposalOf created p.slots).scopeTeardown ↔
      ∃ n, p.slots[s]? = some n ∧ g.Has n fun node => node.disposable = true ∧
        (node.lifetime = .scoped ∨ node.lifetime = .singleton) := by
    intro s
    rw [disposalOf_scopeTeardown, mem_slotsToDispose_iff hcreated hslots _ hlisted]
    simp only [Lifetime.isLongLived_iff_eq]
  have howner : ∀ s, s ∈ (disposalOf created p.slots).perOwner ↔
      ∃ n, p.slots[s]? = some n ∧ g.Has n fun node => node.disposable = true ∧
        ¬ (node.lifetime = .scoped ∨ node.lifetime = .singleton) := by
    intro s
    rw [disposalOf_perOwner, mem_slotsToDispose_iff hcreated hslots _ hlisted]
    simp only [Bool.not_eq_true', ← Bool.not_eq_true, Lifetime.isLongLived_iff_eq]
  refine ⟨fun n hn => ?_, hteardown, howner, List.forall_mem_cons.mpr ⟨?_,
    List.forall_mem_singleton.mpr ?_⟩⟩
  · obtain ⟨s, hs⟩ := List.mem_iff_getElem?.mp (h.slots (hlisted n hn))
    refine ⟨s, hs, List.count_eq_one_of_mem (List.nodup_append'.mpr ⟨?_, ?_, fun s ht ho => ?_⟩) ?_⟩
    · exact disposalOf_scopeTeardown created p.slots ▸ nodup_slotsToDispose _ hslots hnodes
    · exact disposalOf_perOwner created p.slots ▸ nodup_slotsToDispose _ hslots hnodes
    · obtain ⟨a, ha, node, hnode, -, hlong⟩ := (hteardown s).mp ht
      obtain ⟨b, hb, hshort⟩ := (howner s).mp ho
      obtain rfl := Option.some.inj (ha.symm.trans hb)
      exact (hshort.of_get? hnode).2 hlong
    · obtain ⟨node, hnode, hdisposable⟩ := hn
      refine List.mem_append.mpr ?_
      by_cases hlong : node.lifetime = .scoped ∨ node.lifetime = .singleton
      · exact .inl ((hteardown s).mpr ⟨n, hs, node, hnode, hdisposable, hlong⟩)
      · exact .inr ((howner s).mpr ⟨n, hs, node, hnode, hdisposable, hlong⟩)
  · intro m n s t hpath hm hn
    rw [disposalOf_scopeTeardown]
    exact h.sublist_slotsToDispose hcreated hslots _ hsound hmade hpath hm hn
  · intro m n s t hpath hm hn
    rw [disposalOf_perOwner]
    exact h.sublist_slotsToDispose hcreated hslots _ hsound hmade hpath hm hn

end Created

/-- The plan of a root without loops disposes of what is disposable, if all that is has a place in
the plan: it is needed by the root and made, and only what is made has dependencies. -/
theorem disposes_of_derive? (h : g.Consistent) (hk : g.Knows table)
    (hroot : ∀ n ∈ g.root, g.Makes n) (hloop : g.Acyclic)
    (hsound : ∀ n, ∀ e ∈ g.dependencies n, g.Makes n)
    (hneeded : ∀ n, (g.Has n fun node => node.disposable = true) → g.Reachable n ∧ g.Makes n)
    {root : Table.Root} {plan : Plan} (hplan : derive? g root table = .ok (some plan)) :
    ∃ l : Legend, l.Explains g plan ∧ l.Describes g plan ∧ l.Disposes g plan.disposal := by
  obtain ⟨start, rs, p, hstart, hok, hexplains, hmem, hpasses, ⟨held, hheld, hslots⟩, created,
    hcreated, hdisposal⟩ := exists_planner_of_derive? h hk hroot hplan
  obtain ⟨hlists, hcreates⟩ := routinesOf_lists h hk hloop (hroot start hstart) rs p hok
  have hlisted : ∀ n, (g.Has n fun node => node.disposable = true) → n ∈ p.created := by
    intro n hn
    obtain ⟨hreach, hmade⟩ := hneeded n hn
    obtain ⟨r, hr, st, hst, hshows⟩ := hexplains.exists_step hsound hreach hmade
    obtain ⟨m, hm, hslot⟩ := hcreates r (hmem r hr) st hst
    exact Option.some.inj (hslot.symm.trans hshows.slot) ▸ hm
  refine ⟨p.legend, hexplains, describes_of_nodesOf hheld hslots hpasses, ?_⟩
  rw [hdisposal]
  exact hlists.disposes hcreated hexplains.slots_nodup hlisted hsound fun n hn => (hneeded n hn).2

end Plan

end Injector

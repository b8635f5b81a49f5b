import Injector.Proofs.Plan.Planner
import Mathlib.Data.List.Perm.Subperm

/-!
# Plans that can be carried out

A plan can be carried out when every value that a step uses is there: a slot was filled by an
earlier step of the same routine, and a provider has exactly one routine. The main statements are
that a consistent graph is always planned, and that its plan can be carried out when no eager
dependencies form a loop.
-/

namespace Injector

namespace Plan

/-- Whether the steps of a routine can be carried out in turn and produce its value. -/
structure Routine.Executable (r : Routine) : Prop where
  /-- A slot that a step uses is filled by an earlier step. -/
  filled : Filled r.steps
  /-- No slot is filled twice. -/
  nodup : (r.steps.map Step.slot).Nodup
  /-- The last step fills the slot of the value. -/
  target_last : (r.steps.map Step.slot).getLast? = some r.target

/-- The routines of a plan, that of the root first. -/
def routines (plan : Plan) : List Routine := plan.entry :: plan.providers

/-- Whether a plan can be carried out. -/
structure Executable (plan : Plan) : Prop where
  /-- Its routines can be. -/
  routine : ∀ r ∈ plan.routines, r.Executable
  /-- The routines behind providers are numbered from one on. -/
  map_id_providers : plan.providers.map Routine.id = List.range' 1 plan.providers.length
  /-- A provider carries out exactly one routine. -/
  count_provider : ∀ r ∈ plan.routines, ∀ st ∈ r.steps, ∀ i strategy,
    .provider i strategy ∈ st.operands → (plan.providers.map Routine.id).count i = 1
  /-- Slots are numbered from zero on. -/
  map_id_slots : plan.slots.map Slot.id = List.range plan.slots.length
  /-- Slots are what steps fill. -/
  mem_slots_iff : ∀ s, s ∈ plan.slots.map Slot.id ↔
    ∃ r ∈ plan.routines, s ∈ r.steps.map Step.slot

/-- Whether some routines are what was derived between two states of a planner. -/
structure Planner.Derives (g : Graph) (p p' : Planner) (rs : List Routine) : Prop where
  /-- Slots are only added. -/
  slots : p.slots <+: p'.slots
  /-- Routines are only added. -/
  routines : p.routines <+: p'.routines
  /-- Without a loop, the routines can be carried out. -/
  executable : g.Acyclic → ∀ r ∈ rs, r.Executable
  /-- What steps fill are slots. -/
  slot_lt : ∀ r ∈ rs, ∀ s ∈ r.steps.map Step.slot, s < p'.slots.length
  /-- Without a loop, added slots are filled. -/
  slot_filled : g.Acyclic →
    ∀ s < p'.slots.length, s < p.slots.length ∨ ∃ r ∈ rs, s ∈ r.steps.map Step.slot
  /-- Providers carry out routines that were asked for. -/
  provider_mem : ∀ r ∈ rs, ∀ st ∈ r.steps, ∀ i strategy, .provider i strategy ∈ st.operands →
    i ∈ List.range' 1 p'.routines.length

variable {g : Graph} {table : Table} {derived : List Nat} {p p' p'' : Planner} {n : NodeId}

theorem Planner.Derives.append {rs rs' : List Routine} (h : p.Derives g p' rs)
    (h' : p'.Derives g p'' rs') : p.Derives g p'' (rs ++ rs') := by
  have hslots := h'.slots.length_le
  have hroutines := h'.routines.length_le
  refine ⟨h.slots.trans h'.slots, h.routines.trans h'.routines, fun hloop => ?_, ?_,
    fun hloop s hs => ?_, ?_⟩
  · exact List.forall_mem_append.mpr ⟨h.executable hloop, h'.executable hloop⟩
  · refine List.forall_mem_append.mpr ⟨fun r hr s hs => ?_, h'.slot_lt⟩
    exact Nat.lt_of_lt_of_le (h.slot_lt r hr s hs) hslots
  · rcases h'.slot_filled hloop s hs with hs | ⟨r, hr, hs⟩
    · refine (h.slot_filled hloop s hs).imp_right fun ⟨r, hr, hs⟩ => ?_
      exact ⟨r, List.mem_append_left _ hr, hs⟩
    · exact .inr ⟨r, List.mem_append_right _ hr, hs⟩
  · refine List.forall_mem_append.mpr ⟨fun r hr st hst i strategy hi => ?_, h'.provider_mem⟩
    have hmem := h.provider_mem r hr st hst i strategy hi
    rw [List.mem_range'_1] at hmem ⊢
    omega

theorem Planner.Derives.nil (g : Graph) (p : Planner) : p.Derives g p [] :=
  ⟨List.prefix_refl _, List.prefix_refl _, by simp, by simp, fun _ _ hs => .inl hs, by simp⟩

/-- Routines are for different nodes of the graph. -/
theorem Planner.Fits.length_routines_le (h : p.Fits g derived) :
    p.routines.length ≤ g.nodes.size := by
  have hsub : p.routines ⊆ g.nodes.taken := fun n hn => (h.routines_made n hn).mem_taken
  have hle := (h.routines_nodup.subperm hsub).length_le
  rwa [Pool.taken, List.length_map] at hle

/-- A routine that is derived next is no longer pending. -/
theorem Planner.Fits.next (h : p.Fits g derived) {target : NodeId} {id : Nat}
    {pending : List (NodeId × Nat)} (hpending : p.pending = (target, id) :: pending) :
    Planner.Fits g (id :: derived) { p with pending } ∧ g.Makes target := by
  have hmem := h.pending_mem
  have hnumbered := h.numbered
  rw [hpending] at hmem hnumbered
  obtain ⟨hhere, hrest⟩ := List.forall_mem_cons.mp hmem
  refine ⟨{ h with pending_mem := hrest, numbered := ?_ }, h.routines_made target hhere⟩
  exact List.perm_middle.trans hnumbered

/-- Every routine of a node that is made is derived. -/
theorem routine_meets (h : g.Consistent) (hk : g.Knows table) (hp : p.Fits g derived)
    (hn : g.Makes n) (id : Nat) :
    Meets (routine g table n id) p fun r p' =>
      r.id = id ∧ p'.Fits g derived ∧ p.Derives g p' [r] := by
  have hfuel : unspent (fun _ => 1) g.places ([] : List NodeId) < g.nodes.size + 1 := by
    simp [unspent_nil, h.card_places]
  refine meets_modify_bind (((collect_ok h hk hn.mem_taken hfuel).and_yields
    (collect_planned h hn.mem_taken (hp.ready n))).bind ?_)
  rintro - p₂ ⟨-, hplanned⟩
  obtain ⟨before, st, hsteps, hst⟩ := hplanned.last List.not_mem_nil hn
  obtain ⟨hlt, -⟩ := List.getElem?_eq_some_iff.mp hst
  have hgrows := hplanned.grows
  have hordered := hplanned.ordered
  refine (slotOf_meets n p₂).bind ?_
  rintro i p₃ (hi | hnew)
  · obtain rfl := (List.getElem?_inj hlt hplanned.fits.slots_nodup).mp (hst.trans hi.symm)
    refine meets_get_bind (meets_pure ⟨rfl, hplanned.fits, hgrows.slots, hgrows.routines,
      fun hloop => ?_, ?_, fun hloop s hs => ?_, ?_⟩)
    · refine List.forall_mem_singleton.mpr ⟨hordered.filled hloop, hordered.steps_nodup, ?_⟩
      simp [hsteps]
    · refine List.forall_mem_singleton.mpr fun s hs => ?_
      obtain ⟨st', hst', rfl⟩ := List.mem_map.mp hs
      obtain ⟨m, -, hslot⟩ := hordered.step_entered st' hst'
      exact (List.getElem?_eq_some_iff.mp hslot).1
    · refine (hgrows.slot_filled hloop s hs).imp_right fun hs => ?_
      exact ⟨_, List.mem_singleton_self _, hs⟩
    · exact List.forall_mem_singleton.mpr hordered.provider_mem
  · exact absurd (List.mem_of_getElem? hst) hnew

/-- Routines are derived until none is asked for any more. -/
theorem providerRoutines_meets (h : g.Consistent) (hk : g.Knows table) {fuel : Nat}
    (hp : p.Fits g derived) (hfuel : g.nodes.size ≤ fuel + derived.length) :
    Meets (providerRoutines g table fuel) p fun rs p' =>
      (rs.map Routine.id ++ derived).Perm (List.range' 1 p'.routines.length) ∧
        (∃ derived', p'.Fits g derived') ∧ p.Derives g p' rs := by
  have hlength := hp.numbered.length_eq
  simp only [List.length_append, List.length_map, List.length_range'] at hlength
  induction fuel generalizing p derived with
  | zero =>
    have hle := hp.length_routines_le
    have hnone : p.pending = [] := List.length_eq_zero_iff.mp (by omega)
    have hnumbered := hp.numbered
    rw [hnone, List.map_nil, List.nil_append] at hnumbered
    rw [providerRoutines]
    refine meets_get_bind ?_
    simp only [hnone, List.isEmpty_nil, ↓reduceIte]
    exact meets_pure ⟨hnumbered, ⟨derived, hp⟩, .nil g p⟩
  | succ fuel ih =>
    rw [providerRoutines]
    refine meets_get_bind ?_
    split
    · next hnone =>
      have hnumbered := hp.numbered
      rw [hnone, List.map_nil, List.nil_append] at hnumbered
      exact meets_pure ⟨hnumbered, ⟨derived, hp⟩, .nil g p⟩
    · next target id pending hpending =>
      obtain ⟨hp₁, htarget⟩ := hp.next hpending
      refine meets_set_bind ?_
      refine (routine_meets h hk hp₁ htarget id).bind ?_
      rintro r p₂ ⟨hid, hp₂, hderives⟩
      have hlength₂ := hp₂.numbered.length_eq
      simp only [List.length_append, List.length_map, List.length_range'] at hlength₂
      refine (ih hp₂ (by simp only [List.length_cons]; omega) hlength₂).bind ?_
      rintro rs p₃ ⟨hids, hfits, hderives'⟩
      refine meets_pure ⟨?_, hfits, ?_⟩
      · rw [List.map_cons, hid, List.cons_append]
        exact List.perm_middle.symm.trans hids
      · have hall := hderives.append hderives'
        exact { hall with }

theorem nodesOf_ok {ns : List NodeId} (hn : ∀ n ∈ ns, n ∈ g.nodes.taken) :
    ∃ nodes, nodesOf g ns = .ok nodes ∧ nodes.length = ns.length := by
  induction ns with
  | nil => exact ⟨[], rfl, rfl⟩
  | cons n rest ih =>
    obtain ⟨hhere, hrest⟩ := List.forall_mem_cons.mp hn
    obtain ⟨node, hnode⟩ := Graph.node_ok hhere
    obtain ⟨nodes, hnodes, hlength⟩ := ih hrest
    refine ⟨(n, node) :: nodes, ?_, by simp [hlength]⟩
    rw [nodesOf] at hnodes
    rw [nodesOf, List.mapM_cons, hnode, hnodes]
    rfl

/-- The routines behind providers are put in the order of their numbers. -/
theorem map_id_sortOn {rs : List Routine} {k : Nat}
    (h : (rs.map Routine.id).Perm (List.range' 1 k)) :
    (sortOn Routine.id rs).map Routine.id = List.range' 1 k := by
  have hperm : ((sortOn Routine.id rs).map Routine.id).Perm (List.range' 1 k) :=
    ((sortBy_perm _ rs).map Routine.id).trans h
  have hsorted : ((sortOn Routine.id rs).map Routine.id).Pairwise (· ≤ ·) :=
    List.pairwise_map.mpr (pairwise_sortOn Routine.id rs)
  exact hperm.eq_of_pairwise (fun a b _ _ => Nat.le_antisymm) hsorted List.pairwise_le_range'

/-- What was derived from nothing for a root is a plan that can be carried out, unless there is a
loop. -/
theorem executable_of_derives {entry : Routine} {providers : List Routine} {plan : Plan}
    (hloop : g.Acyclic) (h : Planner.initial.Derives g p (entry :: providers))
    (hids : (providers.map Routine.id).Perm (List.range' 1 p.routines.length))
    (hentry : plan.entry = entry) (hproviders : plan.providers = sortOn Routine.id providers)
    (hslots : plan.slots.map Slot.id = List.range p.slots.length) : Executable plan := by
  have hmem : ∀ r, r ∈ plan.routines ↔ r ∈ entry :: providers := by
    intro r
    rw [routines, hentry, hproviders, List.mem_cons, List.mem_cons, sortOn, mem_sortBy]
  have hsorted : plan.providers.map Routine.id = List.range' 1 p.routines.length := by
    rw [hproviders]
    exact map_id_sortOn hids
  have hlength : plan.providers.length = p.routines.length := by
    simpa using congrArg List.length hsorted
  have hcount : plan.slots.length = p.slots.length := by
    simpa using congrArg List.length hslots
  refine ⟨fun r hr => h.executable hloop r ((hmem r).mp hr), by rw [hsorted, hlength], ?_,
    by rw [hslots, hcount], fun s => ?_⟩
  · intro r hr st hst i strategy hi
    rw [hsorted]
    exact List.count_eq_one_of_mem List.nodup_range'
      (h.provider_mem r ((hmem r).mp hr) st hst i strategy hi)
  · rw [hslots, List.mem_range]
    constructor
    · intro hs
      rcases h.slot_filled hloop s hs with hnone | ⟨r, hr, hs⟩
      · exact absurd hnone (Nat.not_lt_zero s)
      · exact ⟨r, (hmem r).mpr hr, hs⟩
    · rintro ⟨r, hr, hs⟩
      exact h.slot_lt r ((hmem r).mp hr) s hs

/-- A planner that has planned nothing. -/
theorem fits_initial (g : Graph) : Planner.initial.Fits g [] := by
  constructor <;> simp [Planner.initial]

/-- The routine of a root is derived, and then all that is asked for. -/
theorem routinesOf_meets (h : g.Consistent) (hk : g.Knows table) {start : NodeId}
    (hroot : g.Makes start) :
    Meets (routinesOf g table start) .initial fun r p =>
      (r.2.map Routine.id).Perm (List.range' 1 p.routines.length) ∧
        (∃ derived, p.Fits g derived) ∧ Planner.initial.Derives g p (r.1 :: r.2) := by
  refine (routine_meets h hk (fits_initial g) hroot 0).bind ?_
  rintro entry p₁ ⟨-, hp₁, hderives⟩
  refine (providerRoutines_meets h hk hp₁ (by simp)).bind ?_
  rintro rs p₂ ⟨hids, hfits, hderives'⟩
  rw [List.append_nil] at hids
  exact meets_pure ⟨hids, hfits, hderives.append hderives'⟩

/-- The graph of a root is planned, and its plan can be carried out unless there is a loop. -/
theorem derive?_ok (h : g.Consistent) (hk : g.Knows table) (hroot : ∀ n ∈ g.root, g.Makes n)
    (root : Table.Root) :
    ∃ plan, derive? g root table = .ok plan ∧ plan.isSome = g.root.isSome ∧
      ∀ x ∈ plan, g.Acyclic → Executable x := by
  unfold derive?
  cases hstart : g.root with
  | none => exact ⟨none, rfl, rfl, by simp⟩
  | some start =>
    obtain ⟨⟨entry, providers⟩, p, hok, hids, ⟨derived, hfits⟩, hderives⟩ :=
      routinesOf_meets h hk (hroot start hstart)
    obtain ⟨holders, hholders, hlength⟩ := nodesOf_ok hfits.slots_mem
    obtain ⟨made, hmade, -⟩ := nodesOf_ok hfits.created_mem
    simp only [StateT.run]
    rw [hok]
    simp only [hholders, hmade, bind, Except.bind]
    refine ⟨_, rfl, rfl, ?_⟩
    rintro plan ⟨⟩ hloop
    refine executable_of_derives hloop hderives hids rfl rfl ?_
    simp [List.map_map, ← hlength, Function.comp_def, List.range_eq_range']

end Plan

end Injector

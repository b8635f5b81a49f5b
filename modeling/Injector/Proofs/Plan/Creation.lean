import Injector.Proofs.NeedsFirst
import Injector.Proofs.Plan.Depiction

/-!
# The order in which plans make things

A planner lists the nodes that it makes across all routines, each one when it first gets a step.
While a routine is planned, the nodes that were entered and are not listed yet are those that
eagerly depend on the one that is planned. The main statement is that, unless eager dependencies
form a loop, each node is listed once, after all that it eagerly depends on, and that every step of
every routine is for a listed node (`routinesOf_lists`).
-/

namespace Injector

namespace Plan

/-- Whether a step makes a node as the graph has it. -/
structure Step.Renders (g : Graph) (l : Legend) (st : Step) (n : NodeId) : Prop where
  /-- It fills the slot of the node. -/
  slot : l.slots[st.slot]? = some n
  /-- The value answers the contract of the node and is shared as the node is. -/
  described : g.Has n fun node => st.contract = node.contract ∧ st.lifetime = node.lifetime
  /-- What the edges of the node supply is passed, each at its position; besides, there are only
  variables that the factory supplies itself. -/
  passed : ∃ supplied inline : List (Nat × Operand),
    List.Forall₂ (fun e o => o.1 = e.position ∧ o.2.StandsFor g l e) (g.dependencies n) supplied ∧
    (∀ o ∈ inline, ∃ v, o.2 = .inline v) ∧
    st.operands = (sortOn Prod.fst (supplied ++ inline)).map Prod.snd

/-- The step for a node makes the node as the graph has it. -/
theorem Step.Passes.renders {g : Graph} {table : Table} {l : Legend} {st : Step} {n : NodeId}
    (hst : st.Passes g table l n) : st.Renders g l n := by
  obtain ⟨node, supplied, hnode, hcontract, hlifetime, hsupplied, hoperands⟩ := hst.passed
  exact ⟨hst.slot, ⟨node, hnode, hcontract, hlifetime⟩, supplied, _, hsupplied,
    fun o ho => inline_of_mem_inlineOf ho, hoperands⟩

namespace Planner

/-- Whether a node that is made was entered and is not listed yet. -/
def Waits (g : Graph) (p : Planner) (m : NodeId) : Prop :=
  m ∈ p.entered ∧ g.Makes m ∧ m ∉ p.created

/-- Whether a step fills the slot of a listed node. -/
def Creates (p : Planner) (st : Step) : Prop := ∃ m ∈ p.created, p.slots[st.slot]? = some m

/-- Whether what is made is listed once, has a slot, and stands after what it needs at once. -/
structure Lists (g : Graph) (p : Planner) : Prop where
  /-- What a node needs at once and is made stands before the node. -/
  needsFirst : NeedsFirst (fun n m => g.Precedes m n ∧ g.Makes m) p.created
  /-- What is listed has a slot. -/
  slots : p.created ⊆ p.slots

/-- Whether a planner comes from another by extending its legend and listing more nodes. -/
structure Keeps (p p' : Planner) : Prop where
  /-- Slots and routines are only added. -/
  legend : p.legend.Extends p'.legend
  /-- Nodes are only added to those listed. -/
  created : p.created <+: p'.created

/-- Whether a planner comes from another by planning nodes up to their steps. -/
structure Adds (g : Graph) (p p' : Planner) : Prop extends p.Keeps p' where
  /-- Nothing more waits. -/
  waits : ∀ m, p'.Waits g m → p.Waits g m
  /-- Added steps are for listed nodes. -/
  creates : ∀ st ∈ p'.steps, st ∈ p.steps ∨ p'.Creates st

variable {g : Graph} {p p' p'' : Planner} {n m : NodeId}

theorem Keeps.refl (p : Planner) : p.Keeps p := ⟨.refl _, List.prefix_refl _⟩

theorem Keeps.trans (h : p.Keeps p') (h' : p'.Keeps p'') : p.Keeps p'' :=
  ⟨h.legend.trans h'.legend, h.created.trans h'.created⟩

/-- Extending the legend keeps what is listed. -/
theorem Keeps.of_extends (h : p.legend.Extends p'.legend) (hcreated : p'.created = p.created) :
    p.Keeps p' :=
  ⟨h, by rw [hcreated]⟩

theorem Creates.of_keeps {st : Step} (hst : p.Creates st) (h : p.Keeps p') : p'.Creates st := by
  obtain ⟨m, hm, hslot⟩ := hst
  exact ⟨m, h.created.subset hm, getElem?_of_isPrefix h.legend.slots hslot⟩

/-- Extending the legend and listing nodes adds to a planner. -/
theorem Keeps.adds (h : p.Keeps p') (hentered : p'.entered = p.entered)
    (hsteps : p'.steps = p.steps) : p.Adds g p' := by
  refine ⟨h, fun m hm => ?_, fun st hst => .inl (hsteps ▸ hst)⟩
  obtain ⟨hmem, hmade, hnot⟩ := hm
  exact ⟨hentered ▸ hmem, hmade, fun hold => hnot (h.created.subset hold)⟩

theorem Adds.refl (g : Graph) (p : Planner) : p.Adds g p := (Keeps.refl p).adds rfl rfl

theorem Adds.trans (h : p.Adds g p') (h' : p'.Adds g p'') : p.Adds g p'' := by
  refine ⟨h.toKeeps.trans h'.toKeeps, fun m hm => h.waits m (h'.waits m hm), fun st hst => ?_⟩
  rcases h'.creates st hst with hst | hnew
  · exact (h.creates st hst).imp_right fun hst => hst.of_keeps h'.toKeeps
  · exact .inr hnew

/-- A step for a listed node may be added. -/
theorem Adds.addStep (h : p.Adds g p') {st : Step} (hst : p'.Creates st) :
    p.Adds g { p' with steps := p'.steps ++ [st] } := by
  refine ⟨⟨h.legend, h.created⟩, h.waits, fun st' hst' => ?_⟩
  rcases List.mem_append.mp hst' with hst' | hst'
  · exact h.creates st' hst'
  · exact .inr (List.mem_singleton.mp hst' ▸ hst)

/-- Where a node is entered, nothing but this node begins to wait. -/
theorem waits_enter (h : Waits g { p with entered := n :: p.entered } m) :
    m = n ∨ p.Waits g m := by
  obtain ⟨hmem, hmade, hnot⟩ := h
  exact (List.mem_cons.mp hmem).imp_right fun hmem => ⟨hmem, hmade, hnot⟩

/-- A node that was entered waits no more once it is listed. -/
theorem Adds.of_enter (h : Adds g { p with entered := n :: p.entered } p') (hn : n ∈ p'.created) :
    p.Adds g p' := by
  refine ⟨⟨h.legend, h.created⟩, fun m hm => ?_, h.creates⟩
  rcases waits_enter (h.waits m hm) with rfl | hwaits
  · exact absurd hn hm.2.2
  · exact hwaits

theorem Lists.of_slots (h : p.Lists g) (hslots : p.slots <+: p'.slots)
    (hcreated : p'.created = p.created) : p'.Lists g :=
  ⟨hcreated ▸ h.needsFirst, fun _ hm => hslots.subset (h.slots (hcreated ▸ hm))⟩

/-- A node may be listed when what it needs at once is. -/
theorem Lists.create (h : p.Lists g) (hdone : ∀ m, g.Precedes m n → g.Makes m → m ∈ p.created)
    (hextends : p.legend.Extends p'.legend) (hn : n ∈ p'.slots)
    (hcreated : p'.created = if n ∈ p.created then p.created else p.created ++ [n]) :
    p'.Lists g ∧ p.Keeps p' ∧ n ∈ p'.created := by
  split at hcreated
  · next hold =>
    exact ⟨h.of_slots hextends.slots hcreated, .of_extends hextends hcreated, hcreated ▸ hold⟩
  · next hnew =>
    refine ⟨⟨?_, fun m hm => ?_⟩, ⟨hextends, hcreated ▸ List.prefix_append _ _⟩, by simp [hcreated]⟩
    · rw [hcreated]
      exact h.needsFirst.concat hnew fun m hm => hdone m hm.1 hm.2
    · rcases List.mem_append.mp (hcreated ▸ hm) with hm | hm
      · exact hextends.slots.subset (h.slots hm)
      · exact List.mem_singleton.mp hm ▸ hn

/-- Whatever a listed node eagerly depends on, at once or by way of others, is listed before it, if
only what is made has dependencies. -/
theorem Lists.mem_before (h : p.Lists g) (hsound : ∀ n, ∀ e ∈ g.dependencies n, g.Makes n)
    (hpath : Relation.TransGen g.Precedes m n) (hmade : g.Makes m) {before rest : List NodeId}
    (heq : p.created = before ++ n :: rest) : m ∈ before := by
  have hneeds : Relation.TransGen (fun n m => g.Precedes m n ∧ g.Makes m) n m := by
    clear heq
    induction hpath with
    | single hlast => exact .single ⟨hlast, hmade⟩
    | @tail between n hpath hlast ih =>
      obtain ⟨a, -, hdepends⟩ := Relation.TransGen.tail'_iff.mp hpath
      obtain ⟨e, he, -⟩ := Graph.precedes_iff.mp hdepends
      exact .head ⟨hlast, hsound between e he⟩ ih
  exact h.needsFirst.mem_before heq hneeds

end Planner

variable {g : Graph} {table : Table} {derived : List Nat} {p p' : Planner} {n : NodeId}

/-- Once the operands that edges supply are there, all that is needed at once is listed. -/
private theorem Supplies.lists {node : Node} {es : List Edge} {supplied : List (Nat × Operand)}
    (hs : Supplies g node (fun m p p' => g.Makes m → p.Lists g →
      (∀ a, p.Waits g a → Relation.TransGen g.Precedes m a) →
      p'.Lists g ∧ p.Adds g p' ∧ m ∈ p'.created) es p supplied p')
    (hes : ∀ e ∈ es, e ∈ g.dependencies n) (hp : p.Lists g)
    (hwaits : ∀ a, p.Waits g a → Relation.ReflTransGen g.Precedes n a) :
    p'.Lists g ∧ p.Adds g p' ∧
      ∀ e ∈ es, e.timing = .eager → g.Makes e.target → e.target ∈ p'.created := by
  induction hs with
  | @nil p => exact ⟨hp, .refl g p, by simp⟩
  | argument htarget _ ih =>
    obtain ⟨hp', hadds, hall⟩ := ih (List.forall_mem_cons.mp hes).2 hp hwaits
    refine ⟨hp', hadds, List.forall_mem_cons.mpr ⟨fun _ hmade => ?_, hall⟩⟩
    obtain ⟨child, hchild, ho⟩ := htarget
    exact absurd ho (hmade.of_get? hchild _ _)
  | @slot e rest p p₁ p₂ p' others s hmade htiming hplanned hgiven _ ih =>
    obtain ⟨he, hrest⟩ := List.forall_mem_cons.mp hes
    have hprecedes : g.Precedes e.target n := Graph.precedes_iff.mpr ⟨e, he, rfl, htiming⟩
    obtain ⟨hp₁, hfirst, hcreated⟩ := hplanned hmade hp fun a ha => .head' hprecedes (hwaits a ha)
    obtain ⟨slots, rfl, hslots, -⟩ := hgiven.exists_slots
    have hkeeps : p₁.Keeps { p₁ with slots } := .of_extends ⟨hslots, List.prefix_refl _⟩ rfl
    have hadds₂ := hfirst.trans (hkeeps.adds (g := g) rfl rfl)
    obtain ⟨hp', hadds, hall⟩ :=
      ih hrest (hp₁.of_slots hslots rfl) fun a ha => hwaits a (hadds₂.waits a ha)
    exact ⟨hp', hadds₂.trans hadds,
      List.forall_mem_cons.mpr ⟨fun _ _ => hadds.created.subset hcreated, hall⟩⟩
  | @provider e rest p p₁ p' others r _ htiming hgiven _ ih =>
    obtain ⟨hp₁, hkeeps, hentered, hsteps⟩ : p₁.Lists g ∧ p.Keeps p₁ ∧ p₁.entered = p.entered ∧
        p₁.steps = p.steps := by
      cases hgiven with
      | old _ => exact ⟨hp, .refl p, rfl, rfl⟩
      | new _ => exact ⟨hp.of_slots (List.prefix_refl _) rfl,
          .of_extends ⟨List.prefix_refl _, List.prefix_append _ _⟩ rfl, rfl, rfl⟩
    have hadds₁ := hkeeps.adds (g := g) hentered hsteps
    obtain ⟨hp', hadds, hall⟩ := ih (List.forall_mem_cons.mp hes).2 hp₁
      fun a ha => hwaits a (hadds₁.waits a ha)
    refine ⟨hp', hadds₁.trans hadds, List.forall_mem_cons.mpr ⟨fun hnow => ?_, hall⟩⟩
    cases htiming.symm.trans hnow

/-- Planning a node lists it, after all that it needs at once: what was entered and is not listed
would need itself. -/
theorem collect_lists (hloop : g.Acyclic) {fuel : Nat} (hn : g.Makes n) (hp : p.Lists g)
    (hwaits : ∀ a, p.Waits g a → Relation.TransGen g.Precedes n a) :
    Yields (collect g table fuel n) p fun _ p' => p'.Lists g ∧ p.Adds g p' ∧ n ∈ p'.created := by
  refine fun a p' hrun => collect_yields (C := fun m p p' => g.Makes m → p.Lists g →
    (∀ a, p.Waits g a → Relation.TransGen g.Precedes m a) →
    p'.Lists g ∧ p.Adds g p' ∧ m ∈ p'.created) ?_ ?_ ?_ fuel n p a p' hrun hn hp hwaits
  · intro n p hold hn hp hwaits
    refine ⟨hp, .refl g p, ?_⟩
    by_contra hnot
    exact hloop n (hwaits n ⟨hold, hn, hnot⟩)
  · exact fun _ hnot hmade => absurd hmade hnot
  · intro n p node supplied p₁ p' _ hnode _ hsupplies hconcludes hn hp hwaits
    have hbelow : ∀ a, Planner.Waits g { p with entered := n :: p.entered } a →
        Relation.ReflTransGen g.Precedes n a := by
      intro a ha
      rcases Planner.waits_enter ha with rfl | ha
      · exact .refl
      · exact (hwaits a ha).to_reflTransGen
    obtain ⟨hp₁, hadds, hdone⟩ := hsupplies.lists (fun e he => he)
      (hp.of_slots (List.prefix_refl _) rfl) hbelow
    have hneeds : ∀ m, g.Precedes m n → g.Makes m → m ∈ p₁.created := by
      intro m hm hmade
      obtain ⟨e, he, rfl, htiming⟩ := Graph.precedes_iff.mp hm
      exact hdone e he htiming hmade
    cases hconcludes with
    | @step action s r hgiven =>
      obtain ⟨slots, rfl, hslots, hs, -⟩ := hgiven.exists_slots
      let q : Planner := { p₁.note n (action.rootArgument? node.contract) with slots }
      obtain ⟨hlists, hkeeps, hcreated⟩ : q.Lists g ∧ p₁.Keeps q ∧ n ∈ q.created :=
        hp₁.create hneeds ⟨hslots, List.prefix_refl _⟩ (List.mem_of_getElem? hs) rfl
      have hall := hadds.trans (hkeeps.adds (g := g) rfl rfl)
      exact ⟨hlists.of_slots (List.prefix_refl _) rfl,
        (hall.addStep ⟨n, hcreated, hs⟩).of_enter hcreated, hcreated⟩

/-- The steps of a routine are for listed nodes. -/
theorem routine_lists (hloop : g.Acyclic) (hn : g.Makes n) (id : Nat) (hp : p.Lists g) :
    Yields (routine g table n id) p fun r p' => p'.Lists g ∧ p.Keeps p' ∧
      ∀ st ∈ r.steps, p'.Creates st := by
  let p₀ : Planner := { p with entered := [], steps := [] }
  have hp₀ : p₀.Lists g := hp.of_slots (List.prefix_refl _) rfl
  have hnone : ∀ a, ¬ p₀.Waits g a := by simp [p₀, Planner.Waits]
  refine routine_yields id ((collect_lists hloop hn hp₀ fun a ha => absurd ha (hnone a)).imp ?_)
  rintro - p₁ ⟨hp₁, hadds, -⟩ s p₂ hgiven
  obtain ⟨slots, rfl, hslots, -⟩ := hgiven.exists_slots
  have hkeeps : p₁.Keeps { p₁ with slots } := .of_extends ⟨hslots, List.prefix_refl _⟩ rfl
  refine ⟨hp₁.of_slots hslots rfl, ⟨hadds.legend.trans hkeeps.legend,
    hadds.created.trans hkeeps.created⟩, fun st hst => ?_⟩
  exact ((hadds.creates st hst).resolve_left List.not_mem_nil).of_keeps hkeeps

/-- The steps of the routines behind providers are for listed nodes. -/
theorem providerRoutines_list (h : g.Consistent) (hk : g.Knows table) (hloop : g.Acyclic)
    {fuel : Nat} (hfits : p.Fits g derived) (hp : p.Lists g) :
    Yields (providerRoutines g table fuel) p fun rs p' => p'.Lists g ∧ p.Keeps p' ∧
      ∀ r ∈ rs, ∀ st ∈ r.steps, p'.Creates st := by
  refine fun rs p' hrun => providerRoutines_yields (R := fun p rs p' => ∀ derived,
    p.Fits g derived → p.Lists g → p'.Lists g ∧ p.Keeps p' ∧
      ∀ r ∈ rs, ∀ st ∈ r.steps, p'.Creates st) ?_ ?_ fuel p rs p' hrun derived hfits hp
  · exact fun _ _ hp => ⟨hp, .refl _, by simp⟩
  · intro p target id pending hnext r p₁ hrun rs p' hrest derived hfits hp
    obtain ⟨hfits₀, hmade⟩ := hfits.next hnext
    obtain ⟨-, hfits₁, -⟩ := (routine_meets h hk hfits₀ hmade id).yields r p₁ hrun
    have hp₀ : Planner.Lists g { p with pending } := hp.of_slots (List.prefix_refl _) rfl
    obtain ⟨hp₁, hkeeps, hsteps⟩ := routine_lists hloop hmade id hp₀ r p₁ hrun
    obtain ⟨hp', hkeeps', hall⟩ := hrest _ hfits₁ hp₁
    exact ⟨hp', ⟨hkeeps.legend.trans hkeeps'.legend, hkeeps.created.trans hkeeps'.created⟩,
      List.forall_mem_cons.mpr ⟨fun st hst => (hsteps st hst).of_keeps hkeeps', hall⟩⟩

/-- Unless there is a loop, the routines of a root have steps for listed nodes, and each of these is
listed once, after all that it needs at once. -/
theorem routinesOf_lists (h : g.Consistent) (hk : g.Knows table) (hloop : g.Acyclic)
    {start : NodeId} (hroot : g.Makes start) :
    Yields (routinesOf g table start) .initial fun r p => p.Lists g ∧
      ∀ a ∈ r.1 :: r.2, ∀ st ∈ a.steps, p.Creates st := by
  have hnone : Planner.initial.Lists g := ⟨.nil, List.nil_subset _⟩
  refine routinesOf_yields ((routine_meets h hk (fits_initial g) hroot 0).yields.and
    (routine_lists hloop hroot 0 hnone)) ?_
  rintro entry p₁ ⟨⟨-, hfits, -⟩, hp₁, -, hsteps⟩
  refine (providerRoutines_list h hk hloop hfits hp₁).imp ?_
  rintro rs p₂ ⟨hp₂, hkeeps, hrest⟩
  exact ⟨hp₂, List.forall_mem_cons.mpr ⟨fun st hst => (hsteps st hst).of_keeps hkeeps, hrest⟩⟩

end Plan

end Injector

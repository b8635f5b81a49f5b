import Injector.Proofs.Graph.Captures
import Injector.Proofs.Plan.Executable

/-!
# What plans show of graphs

A legend says which nodes the slots and the routines of a plan stand for. Read with it, each step
shows a node: its operands stand for what the edges of the node supply, and besides there are only
variables that the factory supplies itself. The main statement is that every plan has a legend under
which each of its routines shows exactly what is made together with its target, and under which
there is a routine for exactly the values that providers are asked for.
-/

namespace Injector

/-- Whether a node is made whenever another one is: eager dependencies lead to it. -/
def Graph.MadeWith (g : Graph) : NodeId → NodeId → Prop :=
  Relation.ReflTransGen fun n m => g.Makes m ∧ ∃ e ∈ g.dependencies n, e.timing = .eager ∧
    e.target = m

/-- Whether a node is what some provider makes. -/
def Graph.Provides (g : Graph) (t : NodeId) : Prop :=
  g.Makes t ∧ ∃ n, ∃ e ∈ g.dependencies n, e.timing = .deferred ∧ e.target = t

/-- What is in one of two lists that are related member by member has its counterpart. -/
theorem exists_of_forall₂ {α β : Type} {R : α → β → Prop} {as : List α} {bs : List β}
    (h : List.Forall₂ R as bs) {a : α} (ha : a ∈ as) : ∃ b ∈ bs, R a b := by
  induction h with
  | nil => cases ha
  | @cons a₁ b₁ as bs hfirst _ ih =>
    rcases List.mem_cons.mp ha with rfl | ha
    · exact ⟨b₁, List.mem_cons_self, hfirst⟩
    · obtain ⟨b, hb, hr⟩ := ih ha
      exact ⟨b, List.mem_cons_of_mem _ hb, hr⟩

namespace Plan

/-- What slots and routines stand for. -/
structure Legend where
  /-- The nodes of the slots. -/
  slots : List NodeId
  /-- The targets of the routines behind providers; the first one is that of routine one. -/
  routines : List NodeId

/-- What the slots and routines of a planner stand for. -/
def Planner.legend (p : Planner) : Legend := ⟨p.slots, p.routines⟩

/-- Whether a legend has, under the same numbers, all that another one has. -/
structure Legend.Extends (l l' : Legend) : Prop where
  /-- Slots are only added. -/
  slots : l.slots <+: l'.slots
  /-- Routines are only added. -/
  routines : l.routines <+: l'.routines

/-- Whether an operand stands for what an edge supplies. -/
def Operand.StandsFor (g : Graph) (l : Legend) (e : Edge) : Operand → Prop
  | .slot s => e.timing = .eager ∧ g.Makes e.target ∧ l.slots[s]? = some e.target
  | .provider r strategy =>
      e.timing = .deferred ∧ g.Makes e.target ∧
        (g.Has e.source fun node => providerStrategy node = strategy) ∧
        ∃ j, r = j + 1 ∧ l.routines[j]? = some e.target
  | .providerArgument index =>
      g.Has e.target fun node => ∃ block, node.origin = .argument block index
  | .inline _ => False

/-- Whether a step shows how a node is made. -/
structure Step.Shows (g : Graph) (l : Legend) (st : Step) (n : NodeId) : Prop where
  /-- It fills the slot of the node. -/
  slot : l.slots[st.slot]? = some n
  /-- The node is made. -/
  made : g.Makes n
  /-- An operand stands for what an edge supplies, unless it is a variable of the factory. -/
  of_operand : ∀ o ∈ st.operands, (∃ v, o = .inline v) ∨ ∃ e ∈ g.dependencies n, o.StandsFor g l e
  /-- What an edge supplies is passed. -/
  of_edge : ∀ e ∈ g.dependencies n, ∃ o ∈ st.operands, o.StandsFor g l e

/-- Whether a step is the one for a node: it fills the slot of the node, answers its contract, and
passes what the edges of the node supply, each at its position, and what no edge supplies. -/
structure Step.Passes (g : Graph) (table : Table) (l : Legend) (st : Step) (n : NodeId) : Prop where
  /-- It fills the slot of the node. -/
  slot : l.slots[st.slot]? = some n
  /-- The node is made. -/
  made : g.Makes n
  /-- It has the operands of the node. -/
  passed : ∃ (node : Node) (supplied : List (Nat × Operand)), g.nodes.get? n = some node ∧
    st.contract = node.contract ∧ st.lifetime = node.lifetime ∧
    List.Forall₂ (fun e o => o.1 = e.position ∧ o.2.StandsFor g l e) (g.dependencies n) supplied ∧
    st.operands = (sortOn Prod.fst (supplied ++ inlineOf table node supplied)).map Prod.snd

/-- Whether the steps of a routine show what is made together with a node. -/
structure Routine.Covers (g : Graph) (l : Legend) (r : Routine) (t : NodeId) : Prop where
  /-- It produces the node. -/
  target : l.slots[r.target]? = some t
  /-- A step is for what is made with the node. -/
  shown : ∀ st ∈ r.steps, ∃ n, g.MadeWith t n ∧ st.Shows g l n
  /-- There is a step for all that is made with the node. -/
  covered : ∀ n, g.MadeWith t n → ∃ st ∈ r.steps, st.Shows g l n

/-- Whether the steps of a routine are for nodes. -/
def Routine.Passes (g : Graph) (table : Table) (l : Legend) (r : Routine) : Prop :=
  ∀ st ∈ r.steps, ∃ n, st.Passes g table l n

/-- Whether a plan, read with a legend, shows how the root of a graph is made. -/
structure Legend.Explains (l : Legend) (g : Graph) (plan : Plan) : Prop where
  /-- A node has at most one slot. -/
  slots_nodup : l.slots.Nodup
  /-- A node has at most one routine. -/
  routines_nodup : l.routines.Nodup
  /-- The entry is the routine of the root. -/
  entry : plan.entry.id = 0 ∧ ∃ start ∈ g.root, plan.entry.Covers g l start
  /-- The other routines are those of their targets. -/
  provider : ∀ r ∈ plan.providers, ∃ j t, r.id = j + 1 ∧ l.routines[j]? = some t ∧ r.Covers g l t
  /-- Each target has its routine. -/
  derived : ∀ j t, l.routines[j]? = some t → ∃ r ∈ plan.providers, r.id = j + 1
  /-- Targets are what providers make. -/
  asked : ∀ t ∈ l.routines, g.Provides t

variable {g : Graph} {l l' l'' : Legend} {e : Edge} {n : NodeId}

theorem Legend.Extends.refl (l : Legend) : l.Extends l := ⟨List.prefix_refl _, List.prefix_refl _⟩

/-- What extends an extension of a legend extends the legend. -/
theorem Legend.Extends.trans (h : l.Extends l') (h' : l'.Extends l'') : l.Extends l'' :=
  ⟨h.slots.trans h'.slots, h.routines.trans h'.routines⟩

/-- An operand stands for the same edge under a legend that goes on. -/
theorem Operand.StandsFor.of_extends {o : Operand} (ho : o.StandsFor g l e) (h : l.Extends l') :
    o.StandsFor g l' e := by
  cases o with
  | slot s => exact ⟨ho.1, ho.2.1, Planner.getElem?_of_isPrefix h.slots ho.2.2⟩
  | provider r strategy =>
    obtain ⟨htiming, hmade, hnode, j, hr, hj⟩ := ho
    exact ⟨htiming, hmade, hnode, j, hr, Planner.getElem?_of_isPrefix h.routines hj⟩
  | providerArgument index => exact ho
  | inline v => exact ho

/-- A step shows the same node under a legend that goes on. -/
theorem Step.Shows.of_extends {st : Step} (hst : st.Shows g l n) (h : l.Extends l') :
    st.Shows g l' n := by
  refine ⟨Planner.getElem?_of_isPrefix h.slots hst.slot, hst.made, fun o ho => ?_, fun e he => ?_⟩
  · refine (hst.of_operand o ho).imp_right ?_
    rintro ⟨e, he, hstands⟩
    exact ⟨e, he, hstands.of_extends h⟩
  · obtain ⟨o, ho, hstands⟩ := hst.of_edge e he
    exact ⟨o, ho, hstands.of_extends h⟩

/-- A step passes the same arguments under a legend that goes on. -/
theorem Step.Passes.of_extends {table : Table} {st : Step} (hst : st.Passes g table l n)
    (h : l.Extends l') : st.Passes g table l' n := by
  obtain ⟨node, supplied, hnode, hcontract, hlifetime, hsupplied, hoperands⟩ := hst.passed
  refine ⟨Planner.getElem?_of_isPrefix h.slots hst.slot, hst.made, node, supplied, hnode,
    hcontract, hlifetime, hsupplied.imp fun e o ho => ⟨ho.1, ho.2.of_extends h⟩, hoperands⟩

/-- The step for a node shows how the node is made. -/
theorem Step.Passes.shows {table : Table} {st : Step} (hst : st.Passes g table l n) :
    st.Shows g l n := by
  obtain ⟨node, supplied, -, -, -, hsupplied, hoperands⟩ := hst.passed
  refine ⟨hst.slot, hst.made, fun o ho => ?_, fun e he => ?_⟩
  · rw [hoperands] at ho
    obtain ⟨x, hx, rfl⟩ := List.mem_map.mp ho
    rcases List.mem_append.mp (mem_sortBy.mp hx) with hx | hx
    · obtain ⟨e, he, -, hstands⟩ := exists_of_forall₂ hsupplied.flip hx
      exact .inr ⟨e, he, hstands⟩
    · exact .inl (inline_of_mem_inlineOf hx)
  · obtain ⟨x, hx, -, hstands⟩ := exists_of_forall₂ hsupplied he
    refine ⟨x.2, ?_, hstands⟩
    rw [hoperands]
    exact List.mem_map_of_mem (mem_sortBy.mpr (List.mem_append_left _ hx))

/-- A routine passes the same arguments under a legend that goes on. -/
theorem Routine.Passes.of_extends {table : Table} {r : Routine} (hr : r.Passes g table l)
    (h : l.Extends l') : r.Passes g table l' := by
  intro st hst
  obtain ⟨n, hn⟩ := hr st hst
  exact ⟨n, hn.of_extends h⟩

/-- A routine covers the same node under a legend that goes on. -/
theorem Routine.Covers.of_extends {r : Routine} {t : NodeId} (hr : r.Covers g l t)
    (h : l.Extends l') : r.Covers g l' t := by
  refine ⟨Planner.getElem?_of_isPrefix h.slots hr.target, fun st hst => ?_, fun n hn => ?_⟩
  · obtain ⟨n, hn, hshows⟩ := hr.shown st hst
    exact ⟨n, hn, hshows.of_extends h⟩
  · obtain ⟨st, hst, hshows⟩ := hr.covered n hn
    exact ⟨st, hst, hshows.of_extends h⟩

namespace Planner

/-- Whether a planner comes from another by steps for nodes of some kind, each of which comes after
the eager dependencies of its node were entered. -/
structure Draws (g : Graph) (table : Table) (kind : NodeId → Prop) (p p' : Planner) : Prop where
  /-- Slots and routines are only added. -/
  legend : p.legend.Extends p'.legend
  /-- What was entered stays so. -/
  entered : p.entered ⊆ p'.entered
  /-- Added steps are for nodes of the kind. -/
  drawn : ∀ st ∈ p'.steps, st ∈ p.steps ∨ ∃ m, kind m ∧ st.Passes g table p'.legend m ∧
    ∀ e ∈ g.dependencies m, e.timing = .eager → g.Makes e.target → e.target ∈ p'.entered
  /-- Added routines are for what providers make. -/
  asked : ∀ t ∈ p'.routines, t ∈ p.routines ∨ g.Provides t
  /-- What was added to the pending routines bears the number of its routine. -/
  numbered : ∀ a ∈ p'.pending, a ∈ p.pending ∨ ∃ j, a.2 = j + 1 ∧ p'.routines[j]? = some a.1

variable {table : Table} {kind kind' : NodeId → Prop} {p p' p'' : Planner}

/-- Adding slots draws nothing, and neither does what legends do not tell. -/
theorem Draws.of_slots (hslots : p.slots <+: p'.slots) (hroutines : p'.routines = p.routines)
    (hentered : p'.entered = p.entered) (hsteps : p'.steps = p.steps)
    (hpending : p'.pending = p.pending) : p.Draws g table kind p' := by
  have hsame : p.routines <+: p'.routines := by rw [hroutines]
  have hsub : p.entered ⊆ p'.entered := by simp [hentered]
  exact ⟨⟨hslots, hsame⟩, hsub, fun _ hst => .inl (hsteps ▸ hst), fun _ ht => .inl (hroutines ▸ ht),
    fun _ ha => .inl (hpending ▸ ha)⟩

theorem Draws.refl (g : Graph) (table : Table) (kind : NodeId → Prop) (p : Planner) :
    p.Draws g table kind p :=
  .of_slots (List.prefix_refl _) rfl rfl rfl rfl

/-- The kind of node that steps were drawn for may be widened. -/
theorem Draws.mono (h : p.Draws g table kind p') (hkind : ∀ m, kind m → kind' m) :
    p.Draws g table kind' p' := by
  refine ⟨h.legend, h.entered, fun st hst => ?_, h.asked, h.numbered⟩
  refine (h.drawn st hst).imp_right ?_
  rintro ⟨m, hm, hshows⟩
  exact ⟨m, hkind m hm, hshows⟩

/-- What is drawn in two stages is drawn in all. -/
theorem Draws.trans (h : p.Draws g table kind p') (h' : p'.Draws g table kind p'') :
    p.Draws g table kind p'' := by
  refine ⟨h.legend.trans h'.legend, List.Subset.trans h.entered h'.entered, fun st hst => ?_,
    fun t ht => ?_, fun a ha => ?_⟩
  · rcases h'.drawn st hst with hst | hnew
    · refine (h.drawn st hst).imp_right ?_
      rintro ⟨m, hm, hshows, hall⟩
      exact ⟨m, hm, hshows.of_extends h'.legend,
        fun e he htiming hmade => h'.entered (hall e he htiming hmade)⟩
    · exact .inr hnew
  · exact (h'.asked t ht).elim (h.asked t) .inr
  · rcases h'.numbered a ha with ha | hnew
    · refine (h.numbered a ha).imp_right ?_
      rintro ⟨j, hid, hj⟩
      exact ⟨j, hid, getElem?_of_isPrefix h'.legend.routines hj⟩
    · exact .inr hnew

/-- Entering a node draws nothing yet. -/
theorem Draws.enter (g : Graph) (table : Table) (kind : NodeId → Prop) (p : Planner) (n : NodeId) :
    p.Draws g table kind { p with entered := n :: p.entered } :=
  ⟨.refl _, List.subset_cons_self _ _, fun _ => .inl, fun _ => .inl, fun _ => .inl⟩

/-- The step for a node is drawn once the eager dependencies of the node were entered. -/
theorem Draws.addStep (h : p.Draws g table kind p') (hn : kind n) {st : Step}
    (hst : st.Passes g table p'.legend n)
    (hdone : ∀ e ∈ g.dependencies n, e.timing = .eager → g.Makes e.target →
      e.target ∈ p'.entered) :
    p.Draws g table kind { p' with steps := p'.steps ++ [st] } := by
  refine ⟨h.legend, h.entered, fun s hs => ?_, h.asked, h.numbered⟩
  rcases List.mem_append.mp hs with hs | hs
  · exact h.drawn s hs
  · obtain rfl := List.mem_singleton.mp hs
    exact .inr ⟨n, hn, hst, hdone⟩

end Planner

variable {table : Table} {derived : List Nat} {p p' p'' : Planner}

/-- A slot is given without steps. -/
theorem Planner.GivesSlot.draws {s : Nat} (h : p.GivesSlot n s p') (table : Table)
    (kind : NodeId → Prop) : p.Draws g table kind p' ∧ p'.slots[s]? = some n ∧
      p'.entered = p.entered ∧ p'.steps = p.steps := by
  obtain ⟨slots, rfl, hslots, hs, -⟩ := h.exists_slots
  exact ⟨.of_slots hslots rfl rfl rfl rfl, hs, rfl, rfl⟩

/-- A routine is given without steps, and bears its number. -/
theorem Planner.GivesRoutine.draws {r : Nat} (h : p.GivesRoutine n r p') (table : Table)
    (kind : NodeId → Prop) (hn : g.Provides n) : p.Draws g table kind p' ∧
      ∃ j, r = j + 1 ∧ p'.routines[j]? = some n := by
  cases h with
  | @old i hi => exact ⟨.refl g table kind p, i, rfl, hi⟩
  | new _ =>
    refine ⟨⟨⟨List.prefix_refl _, List.prefix_append _ _⟩, List.Subset.refl _, fun _ => .inl,
      fun t ht => ?_, fun a ha => ?_⟩, _, rfl, by simp⟩
    · rcases List.mem_append.mp ht with ht | ht
      · exact .inl ht
      · exact .inr (List.mem_singleton.mp ht ▸ hn)
    · rcases List.mem_cons.mp ha with rfl | ha
      · exact .inr ⟨p.routines.length, rfl, by simp⟩
      · exact .inl ha

/-- The operands that edges supply stand for what these supply, each at its position, and eager
dependencies were entered. -/
private theorem Supplies.draws {node : Node} (hnode : g.nodes.get? n = some node) {es : List Edge}
    {supplied : List (Nat × Operand)}
    (hs : Supplies g node (fun m p p' => g.Makes m →
      p.Draws g table (g.MadeWith m) p' ∧ m ∈ p'.entered) es p supplied p')
    (hes : ∀ e ∈ es, e ∈ g.dependencies n) :
    p.Draws g table (g.MadeWith n) p' ∧
      List.Forall₂ (fun e o => o.1 = e.position ∧ o.2.StandsFor g p'.legend e) es supplied ∧
      ∀ e ∈ es, e.timing = .eager → g.Makes e.target → e.target ∈ p'.entered := by
  induction hs with
  | @nil p => exact ⟨.refl g table _ p, .nil, by simp⟩
  | @argument e rest p p' others block index htarget _ ih =>
    obtain ⟨hdraws, hsupplied, hdone⟩ := ih (List.forall_mem_cons.mp hes).2
    refine ⟨hdraws, .cons ⟨rfl, htarget.mono fun _ ho => ⟨block, ho⟩⟩ hsupplied,
      List.forall_mem_cons.mpr ⟨fun _ hmade => ?_, hdone⟩⟩
    obtain ⟨child, hchild, ho⟩ := htarget
    exact absurd ho (hmade.of_get? hchild block index)
  | @slot e rest p p₁ p₂ p' others s hmade htiming hplanned hgiven _ ih =>
    obtain ⟨he, hrest⟩ := List.forall_mem_cons.mp hes
    obtain ⟨hdraws, hsupplied, hdone⟩ := ih hrest
    obtain ⟨hbelow, hentered⟩ := hplanned hmade
    obtain ⟨hslots, hs, hsame, -⟩ := hgiven.draws (g := g) table (g.MadeWith n)
    have hwith : p.Draws g table (g.MadeWith n) p₁ :=
      hbelow.mono fun m hm => .head ⟨hmade, e, he, htiming, rfl⟩ hm
    refine ⟨(hwith.trans hslots).trans hdraws, .cons ⟨rfl, htiming, hmade,
      Planner.getElem?_of_isPrefix hdraws.legend.slots hs⟩ hsupplied,
      List.forall_mem_cons.mpr ⟨fun _ _ => hdraws.entered (hsame ▸ hentered), hdone⟩⟩
  | @provider e rest p p₁ p' others r hmade htiming hgiven _ ih =>
    obtain ⟨he, hrest⟩ := List.forall_mem_cons.mp hes
    obtain ⟨hdraws, hsupplied, hdone⟩ := ih hrest
    obtain ⟨hasked, j, hr, hj⟩ :=
      hgiven.draws table (g.MadeWith n) ⟨hmade, n, e, he, htiming, rfl⟩
    have hsource : g.nodes.get? e.source = some node := by
      obtain ⟨-, -, rfl⟩ := Graph.mem_dependencies.mp he
      exact hnode
    refine ⟨hasked.trans hdraws, .cons ⟨rfl, htiming, hmade, ⟨node, hsource, rfl⟩, j, hr,
      Planner.getElem?_of_isPrefix hdraws.legend.routines hj⟩ hsupplied,
      List.forall_mem_cons.mpr ⟨fun hnow => ?_, hdone⟩⟩
    cases htiming.symm.trans hnow

/-- What is planned for a node are steps for what is made with it. -/
theorem collect_draws {fuel : Nat} (hn : g.Makes n) :
    Yields (collect g table fuel n) p fun _ p' =>
      p.Draws g table (g.MadeWith n) p' ∧ n ∈ p'.entered := by
  refine fun a p' hrun => collect_yields (C := fun m p p' => g.Makes m →
    p.Draws g table (g.MadeWith m) p' ∧ m ∈ p'.entered) ?_ ?_ ?_ fuel n p a p' hrun hn
  · exact fun hold _ => ⟨.refl g table _ _, hold⟩
  · exact fun _ hnot hmade => absurd hmade hnot
  · intro n p node supplied p₁ p' _ hnode hmade hsupplies hconcludes _
    obtain ⟨hdraws, hsupplied, hdone⟩ := hsupplies.draws hnode fun e he => he
    cases hconcludes with
    | @step action s r hgiven =>
      have hnote : p₁.Draws g table (g.MadeWith n)
          (p₁.note n (action.rootArgument? node.contract)) :=
        .of_slots (List.prefix_refl _) rfl rfl rfl rfl
      obtain ⟨hslots, hs, -⟩ := hgiven.draws (g := g) table (g.MadeWith n)
      have hafter : p₁.Draws g table (g.MadeWith n) r := hnote.trans hslots
      have hall : p.Draws g table (g.MadeWith n) r :=
        (Planner.Draws.enter g table _ p n).trans (hdraws.trans hafter)
      have hstands := hsupplied.imp fun e o ho => And.intro ho.1 (ho.2.of_extends hafter.legend)
      refine ⟨hall.addStep .refl ⟨hs, hmade, node, supplied, hnode, rfl, rfl, hstands, rfl⟩
        fun e he htiming hmade => hafter.entered (hdone e he htiming hmade), ?_⟩
      exact hafter.entered (hdraws.entered List.mem_cons_self)

/-- Whether some routines, derived between two states of a planner, cover what they are for. -/
structure Planner.Covers (g : Graph) (table : Table) (p p' : Planner) (rs : List Routine) :
    Prop where
  /-- Slots and routines are only added. -/
  legend : p.legend.Extends p'.legend
  /-- Each routine covers what its number stands for. -/
  covered : ∀ r ∈ rs, ∃ j t, r.id = j + 1 ∧ p'.routines[j]? = some t ∧ r.Covers g p'.legend t
  /-- Its steps are for nodes. -/
  passes : ∀ r ∈ rs, r.Passes g table p'.legend
  /-- Added routines are for what providers make. -/
  asked : ∀ t ∈ p'.routines, t ∈ p.routines ∨ g.Provides t

/-- Whether what is pending bears the number of its routine. -/
def Planner.Numbered (p : Planner) : Prop :=
  ∀ a ∈ p.pending, ∃ j, a.2 = j + 1 ∧ p.routines[j]? = some a.1

/-- The routine of a node shows what is made with the node, and nothing else, in steps for nodes:
nothing waits for a step when it is derived, so that whatever was entered has one. -/
theorem routine_covers (h : g.Consistent) (hp : p.Fits g derived) (hpending : p.Numbered)
    (hn : g.Makes n) (id : Nat) :
    Yields (routine g table n id) p fun r p' => p.legend.Extends p'.legend ∧
      r.id = id ∧ r.Covers g p'.legend n ∧ r.Passes g table p'.legend ∧
      (∀ t ∈ p'.routines, t ∈ p.routines ∨ g.Provides t) ∧ p'.Numbered := by
  refine routine_yields id (((collect_planned h hn.mem_taken (hp.ready n)).and
    (collect_draws hn)).imp ?_)
  rintro - p₂ ⟨hplanned, hdraws, hentered⟩ s p₃ hgiven
  obtain ⟨hslots, hs, -, hsteps⟩ := hgiven.draws (g := g) table (g.MadeWith n)
  have hall := hdraws.trans hslots
  have hstep : ∀ m, m ∈ p₂.entered → g.Makes m → ∃ st ∈ p₂.steps, st.Shows g p₂.legend m ∧
      ∀ e ∈ g.dependencies m, e.timing = .eager → g.Makes e.target → e.target ∈ p₂.entered := by
    intro m hm hmade
    have hstepped : p₂.Stepped m := by
      by_contra hnot
      exact p.not_begun_restart g m ((hplanned.grows.begun_iff m).mp ⟨hm, hmade, hnot⟩)
    obtain ⟨st, hst, hslot⟩ := hstepped
    rcases hdraws.drawn st hst with hold | ⟨m', -, hpasses, hdone⟩
    · exact absurd hold List.not_mem_nil
    · obtain rfl := Option.some.inj (hslot.symm.trans hpasses.slot)
      exact ⟨st, hst, hpasses.shows, hdone⟩
  have hreached : ∀ m, g.MadeWith n m → m ∈ p₂.entered ∧ g.Makes m := by
    intro m hm
    induction hm with
    | refl => exact ⟨hentered, hn⟩
    | tail _ hlast ih =>
      obtain ⟨hmade, e, he, htiming, rfl⟩ := hlast
      obtain ⟨st, -, -, hdone⟩ := hstep _ ih.1 ih.2
      exact ⟨hdone e he htiming hmade, hmade⟩
  have hdrawn : ∀ st ∈ p₃.steps, ∃ m, g.MadeWith n m ∧ st.Passes g table p₃.legend m := by
    intro st hst
    rcases hall.drawn st hst with hold | ⟨m, hm, hpasses, -⟩
    · exact absurd hold List.not_mem_nil
    · exact ⟨m, hm, hpasses⟩
  refine ⟨hall.legend, rfl, ⟨hs, fun st hst => ?_, fun m hm => ?_⟩, fun st hst => ?_, hall.asked,
    fun a ha => ?_⟩
  · obtain ⟨m, hm, hpasses⟩ := hdrawn st hst
    exact ⟨m, hm, hpasses.shows⟩
  · obtain ⟨hmem, hmade⟩ := hreached m hm
    obtain ⟨st, hst, hshows, -⟩ := hstep m hmem hmade
    exact ⟨st, hsteps ▸ hst, hshows.of_extends hslots.legend⟩
  · obtain ⟨m, -, hpasses⟩ := hdrawn st hst
    exact ⟨m, hpasses⟩
  · rcases hall.numbered a ha with ha | hnew
    · obtain ⟨j, hid, hj⟩ := hpending a ha
      exact ⟨j, hid, Planner.getElem?_of_isPrefix hall.legend.routines hj⟩
    · exact hnew

/-- The routines that are asked for cover what they are for. -/
theorem providerRoutines_covers (h : g.Consistent) (hk : g.Knows table) {fuel : Nat}
    (hp : p.Fits g derived) (hpending : p.Numbered) :
    Yields (providerRoutines g table fuel) p fun rs p' => p.Covers g table p' rs := by
  refine fun rs p' hrun => providerRoutines_yields (R := fun p rs p' => ∀ derived,
    p.Fits g derived → p.Numbered → p.Covers g table p' rs) ?_ ?_ fuel p rs p' hrun derived hp
    hpending
  · exact fun _ _ _ => ⟨.refl _, by simp, by simp, fun _ => .inl⟩
  · intro p target id pending hnext r p₁ hrun rs p' hrest derived hp hpending
    obtain ⟨hp₀, hmade⟩ := hp.next hnext
    unfold Planner.Numbered at hpending
    rw [hnext] at hpending
    obtain ⟨⟨j, hid, hj⟩, hothers⟩ := List.forall_mem_cons.mp hpending
    obtain ⟨-, hp₁, -⟩ := (routine_meets h hk hp₀ hmade id).yields r p₁ hrun
    obtain ⟨hlegend, hr, hcovers, hpasses, hasked, hnumbered⟩ :=
      routine_covers h hp₀ hothers hmade id r p₁ hrun
    have hcovered := hrest _ hp₁ hnumbered
    refine ⟨hlegend.trans hcovered.legend, List.forall_mem_cons.mpr
      ⟨⟨j, target, hr.trans hid, ?_, hcovers.of_extends hcovered.legend⟩, hcovered.covered⟩,
      List.forall_mem_cons.mpr ⟨hpasses.of_extends hcovered.legend, hcovered.passes⟩,
      fun t ht => ?_⟩
    · exact Planner.getElem?_of_isPrefix (hlegend.trans hcovered.legend).routines hj
    · exact (hcovered.asked t ht).elim (hasked t) .inr

/-- The routines that are derived for a root cover what they are for, and there are no others. -/
theorem routinesOf_covers (h : g.Consistent) (hk : g.Knows table) {start : NodeId}
    (hmade : g.Makes start) :
    Yields (routinesOf g table start) .initial fun r p =>
      r.1.id = 0 ∧ r.1.Covers g p.legend start ∧
      (∀ a ∈ r.2, ∃ j t, a.id = j + 1 ∧ p.routines[j]? = some t ∧ a.Covers g p.legend t) ∧
      (∀ t ∈ p.routines, g.Provides t) ∧ ∀ a ∈ r.1 :: r.2, a.Passes g table p.legend := by
  have hnumbered : Planner.initial.Numbered := by simp [Planner.Numbered, Planner.initial]
  refine routinesOf_yields ((routine_meets h hk (fits_initial g) hmade 0).yields.and
    (routine_covers h (fits_initial g) hnumbered hmade 0)) ?_
  rintro entry p₁ ⟨⟨-, hp₁, -⟩, -, hid, hcovers, hpasses, hasked, hnumbered⟩
  refine (providerRoutines_covers h hk hp₁ hnumbered).imp fun rs p₂ hrest => ?_
  refine ⟨hid, hcovers.of_extends hrest.legend, hrest.covered, fun t ht => ?_,
    List.forall_mem_cons.mpr ⟨hpasses.of_extends hrest.legend, hrest.passes⟩⟩
  rcases hrest.asked t ht with hold | hnew
  · exact (hasked t hold).resolve_left List.not_mem_nil
  · exact hnew

/-- A plan is read off a planner, whose slots and targets explain it: the routines are those that
were derived, the slots are those of the planner, and what it listed tells what to dispose of. -/
theorem exists_planner_of_derive? (h : g.Consistent) (hk : g.Knows table)
    (hroot : ∀ n ∈ g.root, g.Makes n) {root : Table.Root} {plan : Plan}
    (hplan : derive? g root table = .ok (some plan)) :
    ∃ start rs p, start ∈ g.root ∧ routinesOf g table start .initial = .ok (rs, p) ∧
      p.legend.Explains g plan ∧ (∀ r ∈ plan.routines, r ∈ rs.1 :: rs.2) ∧
      (∀ r ∈ plan.routines, r.Passes g table p.legend) ∧
      (∃ held, nodesOf g p.slots = .ok held ∧ plan.slots = held.zipIdx.map fun n =>
        ⟨n.2, n.1.2.contract, n.1.2.lifetime, n.1.2.scope⟩) ∧
      ∃ created, nodesOf g p.created = .ok created ∧
        plan.disposal = disposalOf created p.slots := by
  obtain ⟨start, planned, p, hstart, hrun, hproviders, -, hheld, hcreated⟩ :=
    exists_run_of_derive? hplan
  have hmade : g.Makes start := hroot start hstart
  obtain ⟨hids, ⟨derived, hfits⟩, -⟩ := (routinesOf_meets h hk hmade).yields _ _ hrun
  obtain ⟨hid, hcovers, hcovered, hasked, hpasses⟩ := routinesOf_covers h hk hmade _ _ hrun
  have hmem : ∀ r ∈ plan.routines, r ∈ plan.entry :: planned := by
    intro r hr
    rw [routines, hproviders] at hr
    exact ((sortBy_perm _ planned).cons plan.entry).mem_iff.mp hr
  refine ⟨start, (plan.entry, planned), p, hstart, hrun, ⟨hfits.slots_nodup, hfits.routines_nodup,
    ⟨hid, start, hstart, hcovers⟩, fun r hr => ?_, fun j t hj => ?_, hasked⟩, hmem,
    fun r hr => hpasses r (hmem r hr), hheld, hcreated⟩
  · exact hcovered r (mem_sortBy.mp (hproviders ▸ hr))
  · have hmem : j + 1 ∈ planned.map Routine.id := by
      obtain ⟨hlt, -⟩ := List.getElem?_eq_some_iff.mp hj
      rw [hids.mem_iff, List.mem_range'_1]
      have : j < p.routines.length := hlt
      omega
    obtain ⟨r, hr, hid⟩ := List.mem_map.mp hmem
    exact ⟨r, hproviders ▸ mem_sortBy.mpr hr, hid⟩

/-- The plan of a root shows how the root is made. -/
theorem explains_of_derive? (h : g.Consistent) (hk : g.Knows table)
    (hroot : ∀ n ∈ g.root, g.Makes n) {root : Table.Root} {plan : Plan}
    (hplan : derive? g root table = .ok (some plan)) : ∃ l : Legend, l.Explains g plan := by
  obtain ⟨-, -, p, -, -, hexplains, -⟩ := exists_planner_of_derive? h hk hroot hplan
  exact ⟨p.legend, hexplains⟩

/-- A deferred dependency on what is made is passed as a provider that carries out its routine. -/
theorem Step.Shows.exists_provider {st : Step} (hst : st.Shows g l n)
    (he : e ∈ g.dependencies n) (htiming : e.timing = .deferred) (hmade : g.Makes e.target) :
    ∃ j strategy, .provider (j + 1) strategy ∈ st.operands ∧
      l.routines[j]? = some e.target ∧
      g.Has e.source fun node => providerStrategy node = strategy := by
  obtain ⟨o, ho, hstands⟩ := hst.of_edge e he
  cases o with
  | slot s => cases htiming.symm.trans hstands.1
  | provider r strategy =>
    obtain ⟨-, -, hnode, j, rfl, hj⟩ := hstands
    exact ⟨j, strategy, ho, hj, hnode⟩
  | providerArgument index =>
    obtain ⟨node, hnode, block, horigin⟩ := hstands
    exact absurd horigin (hmade.of_get? hnode block index)
  | inline v => cases hstands

/-- An argument that a node depends on is passed by its place. -/
theorem Step.Shows.mem_operands {st : Step} (hst : st.Shows g l n) (he : e ∈ g.dependencies n)
    {node : Node} (hnode : g.nodes.get? e.target = some node) {block : BlockId} {index : Nat}
    (ho : node.origin = .argument block index) : .providerArgument index ∈ st.operands := by
  have hnot : ¬ g.Makes e.target := fun hmade => hmade.of_get? hnode block index ho
  obtain ⟨o, hmem, hstands⟩ := hst.of_edge e he
  cases o with
  | slot s => exact absurd hstands.2.1 hnot
  | provider r strategy => exact absurd hstands.2.1 hnot
  | providerArgument index' =>
    obtain ⟨block', ho'⟩ := Graph.Has.of_get? hstands hnode
    cases ho.symm.trans ho'
    exact hmem
  | inline v => cases hstands

namespace Legend.Explains

variable {plan : Plan} (h : l.Explains g plan)

include h

/-- Each routine shows what is made with some node. -/
theorem covers {r : Routine} (hr : r ∈ plan.routines) : ∃ t, r.Covers g l t := by
  rcases List.mem_cons.mp hr with rfl | hr
  · obtain ⟨-, start, -, hcovers⟩ := h.entry
    exact ⟨start, hcovers⟩
  · obtain ⟨j, t, -, -, hcovers⟩ := h.provider r hr
    exact ⟨t, hcovers⟩

/-- A step shows the node of its slot. -/
theorem shows {r : Routine} (hr : r ∈ plan.routines) {st : Step} (hst : st ∈ r.steps)
    (hn : l.slots[st.slot]? = some n) : st.Shows g l n := by
  obtain ⟨t, hcovers⟩ := h.covers hr
  obtain ⟨m, -, hshows⟩ := hcovers.shown st hst
  obtain rfl := Option.some.inj (hn.symm.trans hshows.slot)
  exact hshows

/-- The routine with the number of a target shows what is made with the target. -/
theorem exists_routine {j : Nat} {t : NodeId} (hj : l.routines[j]? = some t) :
    ∃ r ∈ plan.providers, r.id = j + 1 ∧ r.Covers g l t := by
  obtain ⟨r, hr, hid⟩ := h.derived j t hj
  obtain ⟨i, t', hid', hi, hcovers⟩ := h.provider r hr
  obtain rfl : i = j := Nat.succ.inj (hid'.symm.trans hid)
  obtain rfl := Option.some.inj (hj.symm.trans hi)
  exact ⟨r, hr, hid, hcovers⟩

/-- What is made and needed by the root has a step, if only what is made has dependencies: what is
needed at once has it in the same routine, and what a provider makes in another one. -/
theorem exists_step (hsound : ∀ n, ∀ e ∈ g.dependencies n, g.Makes n) (hreach : g.Reachable n)
    (hmade : g.Makes n) : ∃ r ∈ plan.routines, ∃ st ∈ r.steps, st.Shows g l n := by
  obtain ⟨start, hstart, hpath⟩ := hreach
  induction hpath with
  | refl =>
    obtain ⟨-, start', hstart', hcovers⟩ := h.entry
    cases hstart.symm.trans hstart'
    obtain ⟨st, hst, hshows⟩ := hcovers.covered start .refl
    exact ⟨plan.entry, List.mem_cons_self, st, hst, hshows⟩
  | @tail m n _ hlast ih =>
    obtain ⟨e, he, rfl⟩ := hlast
    obtain ⟨r, hr, st, hst, hshows⟩ := ih (hsound m e he)
    obtain ⟨t, hcovers⟩ := h.covers hr
    cases htiming : e.timing with
    | eager =>
      obtain ⟨m', hwith, hshows'⟩ := hcovers.shown st hst
      obtain rfl := Option.some.inj (hshows.slot.symm.trans hshows'.slot)
      obtain ⟨st', hst', hnext⟩ := hcovers.covered e.target
        (hwith.tail ⟨hmade, e, he, htiming, rfl⟩)
      exact ⟨r, hr, st', hst', hnext⟩
    | deferred =>
      obtain ⟨j, -, -, hj, -⟩ := hshows.exists_provider he htiming hmade
      obtain ⟨r', hr', -, hcovers'⟩ := h.exists_routine hj
      obtain ⟨st', hst', hnext⟩ := hcovers'.covered e.target .refl
      exact ⟨r', List.mem_cons_of_mem _ hr', st', hst', hnext⟩

end Legend.Explains

end Plan

end Injector

import Injector.Proofs.Plan.Traversal

/-!
# What planning keeps

Slots and routines are numbered without gaps, and a routine enters each node once, in depth. While a
node is planned, the nodes that are entered and have no step yet are those that eagerly depend on
it. The main statement is that a node of a consistent graph is always planned, and that what it
needs is filled before, unless eager dependencies form a loop.
-/

namespace Injector

namespace Plan

/-- Whether every slot that a step uses is filled by an earlier step. -/
def Filled (steps : List Step) : Prop :=
  ∀ before step after, steps = before ++ step :: after →
    ∀ s, .slot s ∈ step.operands → s ∈ before.map Step.slot

theorem filled_nil : Filled [] := by
  intro before step after h
  simp at h

/-- A step whose slots were filled may come last. -/
theorem Filled.concat {steps : List Step} (h : Filled steps) {step : Step}
    (hstep : ∀ s, .slot s ∈ step.operands → s ∈ steps.map Step.slot) :
    Filled (steps ++ [step]) := by
  intro before st after heq s hs
  rcases List.eq_nil_or_concat after with rfl | ⟨later, last, rfl⟩
  · obtain ⟨rfl, hlast⟩ := List.append_inj' heq rfl
    obtain rfl := List.singleton_inj.mp hlast
    exact hstep s hs
  · rw [List.concat_eq_append, ← List.cons_append, ← List.append_assoc] at heq
    obtain ⟨hsteps, -⟩ := List.append_inj' heq rfl
    exact h before st later hsteps s hs

namespace Planner

/-- Whether there is a step for a node in the present routine. -/
def Stepped (p : Planner) (n : NodeId) : Prop := ∃ st ∈ p.steps, p.slots[st.slot]? = some n

/-- Whether a node that is to be made was entered and has no step yet. -/
def Begun (g : Graph) (p : Planner) (n : NodeId) : Prop :=
  n ∈ p.entered ∧ g.Makes n ∧ ¬ p.Stepped n

/-- Whether slots and routines are numbered without gaps, for nodes of a graph, where `derived` are
the numbers of routines that are no longer pending. -/
structure Fits (g : Graph) (derived : List Nat) (p : Planner) : Prop where
  /-- A node has at most one slot. -/
  slots_nodup : p.slots.Nodup
  /-- Slots are for nodes. -/
  slots_mem : ∀ n ∈ p.slots, n ∈ g.nodes.taken
  /-- A node has at most one routine. -/
  routines_nodup : p.routines.Nodup
  /-- Routines are for nodes that are made. -/
  routines_made : ∀ n ∈ p.routines, g.Makes n
  /-- Steps are for nodes. -/
  created_mem : ∀ n ∈ p.created, n ∈ g.nodes.taken
  /-- What is pending was asked for. -/
  pending_mem : ∀ a ∈ p.pending, a.1 ∈ p.routines
  /-- Each routine is pending or no longer so. -/
  numbered : (p.pending.map Prod.snd ++ derived).Perm (List.range' 1 p.routines.length)

/-- Whether the steps of the present routine are for different nodes, each after what it needs. -/
structure Ordered (g : Graph) (p : Planner) : Prop where
  /-- Steps are for nodes that were entered. -/
  step_entered : ∀ st ∈ p.steps, ∃ n ∈ p.entered, p.slots[st.slot]? = some n
  /-- A slot is filled once. -/
  steps_nodup : (p.steps.map Step.slot).Nodup
  /-- Without a loop, what is used was filled before. -/
  filled : g.Acyclic → Filled p.steps
  /-- Providers carry out routines that were asked for. -/
  provider_mem : ∀ st ∈ p.steps, ∀ r strategy, .provider r strategy ∈ st.operands →
    r ∈ List.range' 1 p.routines.length

/-- Whether a planner comes from another by planning further nodes to their ends. -/
structure Grows (g : Graph) (p p' : Planner) : Prop where
  /-- Slots are only added. -/
  slots : p.slots <+: p'.slots
  /-- Routines are only added. -/
  routines : p.routines <+: p'.routines
  /-- Steps are only added. -/
  steps : p.steps <+: p'.steps
  /-- What was entered stays so. -/
  entered : ∀ n ∈ p.entered, n ∈ p'.entered
  /-- Without a loop, added slots are filled. -/
  slot_filled : g.Acyclic →
    ∀ s < p'.slots.length, s < p.slots.length ∨ s ∈ p'.steps.map Step.slot
  /-- The same nodes wait for their steps. -/
  begun_iff : ∀ n, p'.Begun g n ↔ p.Begun g n

variable {g : Graph} {derived : List Nat} {p p' p'' : Planner} {n m : NodeId}

theorem Grows.refl (g : Graph) (p : Planner) : p.Grows g p :=
  ⟨List.prefix_refl _, List.prefix_refl _, List.prefix_refl _, fun _ h => h,
    fun _ _ h => .inl h, fun _ => .rfl⟩

/-- A planner that grew in two stages grew in all. -/
theorem Grows.trans (h : p.Grows g p') (h' : p'.Grows g p'') : p.Grows g p'' := by
  refine ⟨h.slots.trans h'.slots, h.routines.trans h'.routines, h.steps.trans h'.steps,
    fun n hn => h'.entered n (h.entered n hn), fun hloop s hs => ?_,
    fun n => (h'.begun_iff n).trans (h.begun_iff n)⟩
  rcases h'.slot_filled hloop s hs with hs | hs
  · exact (h.slot_filled hloop s hs).imp_right fun hs => (h'.steps.map Step.slot).subset hs
  · exact .inr hs

/-- What a list has at a place stays there when the list goes on. -/
theorem getElem?_of_isPrefix {l l' : List NodeId} (h : l <+: l') {i : Nat} (hi : l[i]? = some n) :
    l'[i]? = some n := by
  obtain ⟨more, rfl⟩ := h
  obtain ⟨hlt, heq⟩ := List.getElem?_eq_some_iff.mp hi
  rw [List.getElem?_append_left hlt, hi]

/-- A node with a step keeps it. -/
theorem Grows.stepped (h : p.Grows g p') (hn : p.Stepped n) : p'.Stepped n := by
  obtain ⟨st, hst, hslot⟩ := hn
  exact ⟨st, h.steps.subset hst, getElem?_of_isPrefix h.slots hslot⟩

/-- A node with a step has a slot. -/
theorem Stepped.mem_slots (h : p.Stepped n) : n ∈ p.slots := by
  obtain ⟨st, -, hslot⟩ := h
  exact List.mem_of_getElem? hslot

/-- A slot that stands for a node with a step is filled. -/
theorem Stepped.mem_map_slot (h : p.Stepped n) (hp : p.Fits g derived) {s : Nat}
    (hs : p.slots[s]? = some n) : s ∈ p.steps.map Step.slot := by
  obtain ⟨st, hst, hslot⟩ := h
  obtain ⟨hlt, -⟩ := List.getElem?_eq_some_iff.mp hs
  obtain rfl := (List.getElem?_inj hlt hp.slots_nodup).mp (hs.trans hslot.symm)
  exact List.mem_map_of_mem hst

/-- A node that was not entered has no step. -/
theorem Ordered.not_stepped (ho : p.Ordered g) (hn : n ∉ p.entered) : ¬ p.Stepped n := by
  rintro ⟨st, hst, hslot⟩
  obtain ⟨m, hm, hslot'⟩ := ho.step_entered st hst
  obtain rfl := Option.some.inj (hslot.symm.trans hslot')
  exact hn hm

/-- Adding slots and routines leaves the steps for the nodes that they were for. -/
theorem Ordered.of_steps_eq (ho : p.Ordered g) (hslots : p.slots <+: p'.slots)
    (hroutines : p.routines <+: p'.routines) (hsteps : p'.steps = p.steps)
    (hentered : ∀ n ∈ p.entered, n ∈ p'.entered) :
    p'.Ordered g ∧ ∀ n, p'.Stepped n ↔ p.Stepped n := by
  refine ⟨⟨fun st hst => ?_, hsteps ▸ ho.steps_nodup, hsteps ▸ ho.filled,
    fun st hst r strategy hr => ?_⟩, fun n => ⟨?_, ?_⟩⟩
  · obtain ⟨n, hn, hslot⟩ := ho.step_entered st (hsteps ▸ hst)
    exact ⟨n, hentered n hn, getElem?_of_isPrefix hslots hslot⟩
  · have hle := hroutines.length_le
    have hmem := ho.provider_mem st (hsteps ▸ hst) r strategy hr
    rw [List.mem_range'_1] at hmem ⊢
    omega
  · rintro ⟨st, hst, hslot⟩
    obtain ⟨m, -, hslot'⟩ := ho.step_entered st (hsteps ▸ hst)
    obtain rfl := Option.some.inj (hslot.symm.trans (getElem?_of_isPrefix hslots hslot'))
    exact ⟨st, hsteps ▸ hst, hslot'⟩
  · rintro ⟨st, hst, hslot⟩
    exact ⟨st, hsteps ▸ hst, getElem?_of_isPrefix hslots hslot⟩

/-- Adding routines, and slots only where there is a loop, is no step. -/
theorem Ordered.grows (ho : p.Ordered g) (hslots : p.slots <+: p'.slots)
    (hroutines : p.routines <+: p'.routines) (hsteps : p'.steps = p.steps)
    (hentered : p'.entered = p.entered) (hsame : g.Acyclic → p'.slots = p.slots) :
    p'.Ordered g ∧ p.Grows g p' := by
  obtain ⟨ho', hstepped⟩ := ho.of_steps_eq hslots hroutines hsteps fun n hn => hentered ▸ hn
  refine ⟨ho', hslots, hroutines, hsteps ▸ List.prefix_refl _, fun n hn => hentered ▸ hn,
    fun hloop s hs => .inl (hsame hloop ▸ hs), fun n => ?_⟩
  rw [Begun, Begun, hstepped, hentered]

/-- A new slot fits for a node in use that has none. -/
theorem Fits.addSlot (hp : p.Fits g derived) (hn : n ∈ g.nodes.taken) (hnew : n ∉ p.slots) :
    { p with slots := p.slots ++ [n] }.Fits g derived := by
  refine { hp with slots_nodup := ?_, slots_mem := ?_ }
  · rw [List.nodup_append]
    refine ⟨hp.slots_nodup, List.nodup_singleton n, fun a ha b hb => ?_⟩
    rintro rfl
    exact hnew (List.mem_singleton.mp hb ▸ ha)
  · intro a ha
    rcases List.mem_append.mp ha with ha | ha
    · exact hp.slots_mem a ha
    · exact List.mem_singleton.mp ha ▸ hn

/-- A new routine fits for a node that is made and has none, and is asked for. -/
theorem Fits.addRoutine (hp : p.Fits g derived) (hn : g.Makes n) (hnew : n ∉ p.routines) :
    { p with
      routines := p.routines ++ [n]
      pending := (n, p.routines.length + 1) :: p.pending }.Fits g derived := by
  refine { hp with routines_nodup := ?_, routines_made := ?_, pending_mem := ?_, numbered := ?_ }
  · rw [List.nodup_append]
    refine ⟨hp.routines_nodup, List.nodup_singleton n, fun a ha b hb => ?_⟩
    rintro rfl
    exact hnew (List.mem_singleton.mp hb ▸ ha)
  · intro a ha
    rcases List.mem_append.mp ha with ha | ha
    · exact hp.routines_made a ha
    · exact List.mem_singleton.mp ha ▸ hn
  · refine List.forall_mem_cons.mpr ⟨by simp, fun a ha => ?_⟩
    exact List.mem_append_left _ (hp.pending_mem a ha)
  · rw [List.length_append, List.length_singleton, List.range'_1_concat, Nat.add_comm 1]
    exact (hp.numbered.cons _).trans (List.perm_append_singleton _ _).symm

end Planner

variable {g : Graph} {table : Table} {derived : List Nat} {p p' : Planner} {n : NodeId}

/-- Whether an operand is there when a step uses it: a slot is filled unless there is a loop, and a
routine was asked for. -/
def Operand.Supplied (g : Graph) (p : Planner) : Operand → Prop
  | .slot s => ∃ n, p.slots[s]? = some n ∧ (g.Acyclic → p.Stepped n)
  | .provider r _ => r ∈ List.range' 1 p.routines.length
  | .providerArgument _ | .inline _ => True

/-- An operand stays supplied when slots, routines and steps are only added. -/
theorem Operand.Supplied.mono {o : Operand} (ho : o.Supplied g p) (hslots : p.slots <+: p'.slots)
    (hroutines : p.routines <+: p'.routines) (hstepped : ∀ n, p.Stepped n → p'.Stepped n) :
    o.Supplied g p' := by
  cases o with
  | slot s =>
    obtain ⟨n, hn, hfilled⟩ := ho
    exact ⟨n, Planner.getElem?_of_isPrefix hslots hn, fun hloop => hstepped n (hfilled hloop)⟩
  | provider r strategy =>
    have hle := hroutines.length_le
    simp only [Supplied, List.mem_range'_1] at ho ⊢
    omega
  | providerArgument index => trivial
  | inline variableName => trivial

/-- An operand stays supplied when a planner grows. -/
theorem Operand.Supplied.of_grows {o : Operand} (ho : o.Supplied g p) (h : p.Grows g p') :
    o.Supplied g p' :=
  ho.mono h.slots h.routines fun _ => h.stepped

/-- A slot for a node that has a step, unless there is a loop, is supplied. -/
theorem Planner.GivesSlot.grows {s : Nat} (h : p.GivesSlot n s p') (hp : p.Fits g derived)
    (ho : p.Ordered g) (hn : n ∈ g.nodes.taken) (hstepped : g.Acyclic → p.Stepped n) :
    p'.Fits g derived ∧ p'.Ordered g ∧ p.Grows g p' ∧ (Operand.slot s).Supplied g p' := by
  cases h with
  | old hs => exact ⟨hp, ho, .refl g p, n, hs, hstepped⟩
  | new hnew =>
    have hloop : ¬ g.Acyclic := fun hloop => hnew (hstepped hloop).mem_slots
    obtain ⟨ho', hgrows⟩ := @Planner.Ordered.grows g p { p with slots := p.slots ++ [n] } ho
      (List.prefix_append _ _) (List.prefix_refl _) rfl rfl fun h => absurd h hloop
    exact ⟨hp.addSlot hn hnew, ho', hgrows, n, by simp, fun h => absurd h hloop⟩

/-- A routine for a node that is made is supplied. -/
theorem Planner.GivesRoutine.grows {r : Nat} (h : p.GivesRoutine n r p') (hp : p.Fits g derived)
    (ho : p.Ordered g) (hn : g.Makes n) (strategy : Strategy) :
    p'.Fits g derived ∧ p'.Ordered g ∧ p.Grows g p' ∧
      (Operand.provider r strategy).Supplied g p' := by
  cases h with
  | @old i hi =>
    obtain ⟨hlt, -⟩ := List.getElem?_eq_some_iff.mp hi
    refine ⟨hp, ho, .refl g p, ?_⟩
    simp only [Operand.Supplied, List.mem_range'_1]
    omega
  | new hnew =>
    obtain ⟨ho', hgrows⟩ := @Planner.Ordered.grows g p { p with
      routines := p.routines ++ [n]
      pending := (n, p.routines.length + 1) :: p.pending } ho (List.prefix_refl _)
      (List.prefix_append _ _) rfl rfl fun _ => rfl
    refine ⟨hp.addRoutine hn hnew, ho', hgrows, ?_⟩
    simp only [Operand.Supplied, List.mem_range'_1, List.length_append, List.length_singleton]
    omega

/-- A slot that a node is given fits. -/
theorem Planner.GivesSlot.fits {s : Nat} (h : p.GivesSlot n s p') (hp : p.Fits g derived)
    (hn : n ∈ g.nodes.taken) : p'.Fits g derived := by
  cases h with
  | old _ => exact hp
  | new hnew => exact hp.addSlot hn hnew

/-- Whether a node can be planned next: the nodes that wait for their steps depend on it. -/
structure Planner.Ready (g : Graph) (derived : List Nat) (n : NodeId) (p : Planner) : Prop where
  /-- Slots and routines are numbered without gaps. -/
  fits : p.Fits g derived
  /-- Steps stand after what they need. -/
  ordered : p.Ordered g
  /-- What waits depends on the node. -/
  below : ∀ m, p.Begun g m → Relation.TransGen g.Precedes n m

/-- Where nothing was entered, nothing waits for its step. -/
theorem Planner.not_begun_restart (g : Graph) (p : Planner) (m : NodeId) :
    ¬ Planner.Begun g { p with entered := [], steps := [] } m := by
  simp [Planner.Begun]

/-- Any node can be planned next when a routine begins. -/
theorem Planner.Fits.ready (hp : p.Fits g derived) (n : NodeId) :
    Planner.Ready g derived n { p with entered := [], steps := [] } :=
  ⟨{ hp with }, ⟨by simp, by simp, fun _ => filled_nil, by simp⟩,
    fun m hm => absurd hm (p.not_begun_restart g m)⟩

/-- What planning a node leaves. -/
structure Planner.Planned (g : Graph) (derived : List Nat) (n : NodeId) (p p' : Planner) :
    Prop where
  /-- Slots and routines are numbered without gaps. -/
  fits : p'.Fits g derived
  /-- Steps stand after what they need. -/
  ordered : p'.Ordered g
  /-- Nothing planned before is lost. -/
  grows : p.Grows g p'
  /-- The node was entered. -/
  entered : n ∈ p'.entered
  /-- The node has the last step, unless it was entered before. -/
  last : n ∉ p.entered → g.Makes n →
    ∃ before st, p'.steps = before ++ [st] ∧ p'.slots[st.slot]? = some n

/-- Without a loop, a dependency has a step once it was planned. -/
theorem Planner.Planned.stepped {m : NodeId} (h : Planner.Planned g derived m p p')
    (hm : g.Makes m) (hbelow : ∀ a, p.Begun g a → Relation.TransGen g.Precedes m a)
    (hloop : g.Acyclic) : p'.Stepped m := by
  by_contra hnot
  exact hloop m (hbelow m ((h.grows.begun_iff m).mp ⟨h.entered, hm, hnot⟩))

/-- The operands that edges supply are there when a step uses them. -/
private theorem Supplies.planned (h : g.Consistent) {node : Node} {es : List Edge}
    {supplied : List (Nat × Operand)}
    (hs : Supplies g node (fun m p p' => m ∈ g.nodes.taken → p.Ready g derived m →
      Planner.Planned g derived m p p') es p supplied p')
    (hes : ∀ e ∈ es, e ∈ g.dependencies n) (hp : p.Fits g derived) (ho : p.Ordered g)
    (hbelow : ∀ m, p.Begun g m → Relation.ReflTransGen g.Precedes n m) :
    p'.Fits g derived ∧ p'.Ordered g ∧ p.Grows g p' ∧ ∀ o ∈ supplied, o.2.Supplied g p' := by
  have hnext : ∀ {p q : Planner}, p.Grows g q →
      (∀ m, p.Begun g m → Relation.ReflTransGen g.Precedes n m) →
      ∀ m, q.Begun g m → Relation.ReflTransGen g.Precedes n m :=
    fun hgrows hbelow m hm => hbelow m ((hgrows.begun_iff m).mp hm)
  induction hs with
  | @nil p => exact ⟨hp, ho, .refl g p, by simp⟩
  | argument _ _ ih =>
    obtain ⟨hp', ho', hgrows, hall⟩ := ih (List.forall_mem_cons.mp hes).2 hp ho hbelow
    exact ⟨hp', ho', hgrows, List.forall_mem_cons.mpr ⟨trivial, hall⟩⟩
  | @slot e rest p p₁ p₂ p' others s hmade htiming hplanned hgiven _ ih =>
    obtain ⟨he, hrest⟩ := List.forall_mem_cons.mp hes
    have htarget := h.target_of_dependency he
    have hprecedes : g.Precedes e.target n := Graph.precedes_iff.mpr ⟨e, he, rfl, htiming⟩
    have hbelow' : ∀ m, p.Begun g m → Relation.TransGen g.Precedes e.target m :=
      fun m hm => .head' hprecedes (hbelow m hm)
    have hfirst := hplanned htarget ⟨hp, ho, hbelow'⟩
    obtain ⟨hp₂, ho₂, hgrows, hs⟩ := hgiven.grows hfirst.fits hfirst.ordered htarget
      (hfirst.stepped hmade hbelow')
    have hgrows₂ := hfirst.grows.trans hgrows
    obtain ⟨hp', ho', hgrows', hall⟩ := ih hrest hp₂ ho₂ (hnext hgrows₂ hbelow)
    exact ⟨hp', ho', hgrows₂.trans hgrows',
      List.forall_mem_cons.mpr ⟨hs.of_grows hgrows', hall⟩⟩
  | provider hmade _ hgiven _ ih =>
    obtain ⟨hp₁, ho₁, hgrows, hr⟩ := hgiven.grows hp ho hmade (providerStrategy node)
    obtain ⟨hp', ho', hgrows', hall⟩ :=
      ih (List.forall_mem_cons.mp hes).2 hp₁ ho₁ (hnext hgrows hbelow)
    exact ⟨hp', ho', hgrows.trans hgrows', List.forall_mem_cons.mpr ⟨hr.of_grows hgrows', hall⟩⟩

/-- What is put in line are variables of the expression. -/
theorem inline_of_mem_inlineOf {node : Node} {supplied : List (Nat × Operand)} {o : Nat × Operand}
    (ho : o ∈ inlineOf table node supplied) : ∃ v, o.2 = .inline v := by
  unfold inlineOf at ho
  split at ho
  · split at ho
    · obtain ⟨st, -, hst⟩ := List.mem_filterMap.mp ho
      split at hst
      · split at hst
        · cases hst
        · cases hst
          exact ⟨_, rfl⟩
      · cases hst
    · cases ho
  · cases ho
  · cases ho

namespace Planner

/-- Entering a node makes it wait for its step. -/
theorem begun_enter (ho : p.Ordered g) (hn : n ∉ p.entered) (m : NodeId) :
    Begun g { p with entered := n :: p.entered } m ↔ p.Begun g m ∨ m = n ∧ g.Makes n := by
  have hstepped : Stepped { p with entered := n :: p.entered } m ↔ p.Stepped m := .rfl
  simp only [Begun, hstepped, List.mem_cons]
  constructor
  · rintro ⟨rfl | hm, hmake, hnot⟩
    · exact .inr ⟨rfl, hmake⟩
    · exact .inl ⟨hm, hmake, hnot⟩
  · rintro (⟨hm, hmake, hnot⟩ | ⟨rfl, hmake⟩)
    · exact ⟨.inr hm, hmake, hnot⟩
    · exact ⟨.inl rfl, hmake, ho.not_stepped hn⟩

/-- The step of a node that waits for it stands after what it needs. -/
theorem Ordered.addStep (ho : p.Ordered g) (hp : p.Fits g derived) (hn : p.Begun g n) {st : Step}
    (hslot : p.slots[st.slot]? = some n) (hsupplied : ∀ o ∈ st.operands, o.Supplied g p) :
    Ordered g { p with steps := p.steps ++ [st] } ∧
      ∀ m, Begun g { p with steps := p.steps ++ [st] } m ↔ p.Begun g m ∧ m ≠ n := by
  obtain ⟨hentered, hmake, hnot⟩ := hn
  have hstepped : ∀ m, Stepped { p with steps := p.steps ++ [st] } m ↔ p.Stepped m ∨ m = n := by
    intro m
    simp only [Stepped, List.mem_append, List.mem_singleton, or_and_right, exists_or,
      exists_eq_left, hslot, Option.some.injEq, @eq_comm _ n m]
  refine ⟨⟨fun s hs => ?_, ?_, fun hloop => ?_, fun s hs r strategy hr => ?_⟩, fun m => ?_⟩
  · rcases List.mem_append.mp hs with hs | hs
    · exact ho.step_entered s hs
    · exact ⟨n, hentered, List.mem_singleton.mp hs ▸ hslot⟩
  · rw [List.map_append, List.nodup_append]
    refine ⟨ho.steps_nodup, List.nodup_singleton _, fun a ha b hb => ?_⟩
    rintro rfl
    obtain ⟨s, hs, heq⟩ := List.mem_map.mp ha
    exact hnot ⟨s, hs, by rw [heq, List.mem_singleton.mp hb, hslot]⟩
  · refine (ho.filled hloop).concat fun s hs => ?_
    obtain ⟨m, hm, hfilled⟩ := hsupplied _ hs
    exact (hfilled hloop).mem_map_slot hp hm
  · rcases List.mem_append.mp hs with hs | hs
    · exact ho.provider_mem s hs r strategy hr
    · obtain rfl := List.mem_singleton.mp hs
      exact hsupplied _ hr
  · simp only [Begun, hstepped, not_or]
    tauto

end Planner

/-- What was planned for the dependencies of a node, and then its slot and its step, is what is
planned for the node. -/
private theorem planned_of_step {q r : Planner} (ho : p.Ordered g) (hnew : n ∉ p.entered)
    (hmake : g.Makes n) (hgrows : Planner.Grows g { p with entered := n :: p.entered } q)
    (hq : q.Ordered g) (hr : r.Fits g derived) {st : Step} (hslot : r.slots[st.slot]? = some n)
    (hadded : ∃ more, r = { q with slots := q.slots ++ more })
    (hfilled : ∀ s < r.slots.length, s < q.slots.length ∨ s = st.slot)
    (hsupplied : ∀ o ∈ st.operands, o.Supplied g q) :
    Planner.Planned g derived n p { r with steps := r.steps ++ [st] } := by
  obtain ⟨more, rfl⟩ := hadded
  obtain ⟨hor, hstepped⟩ := @Planner.Ordered.of_steps_eq g q { q with slots := q.slots ++ more } hq
    (List.prefix_append _ _) (List.prefix_refl _) rfl fun m hm => hm
  have hbegun : ∀ m, Planner.Begun g { q with slots := q.slots ++ more } m ↔
      p.Begun g m ∨ m = n := by
    intro m
    rw [Planner.Begun, hstepped]
    refine (hgrows.begun_iff m).trans ((Planner.begun_enter ho hnew m).trans ?_)
    simp only [hmake, and_true]
  obtain ⟨hordered, hrest⟩ := hor.addStep hr ((hbegun n).mpr (.inr rfl)) hslot fun o ho =>
    (hsupplied o ho).mono (List.prefix_append _ _) (List.prefix_refl _) fun m => (hstepped m).mpr
  refine ⟨{ hr with }, hordered, ⟨hgrows.slots.trans (List.prefix_append _ _), hgrows.routines,
    hgrows.steps.trans (List.prefix_append _ _),
    fun m hm => hgrows.entered m (List.mem_cons_of_mem _ hm), fun hloop s hs => ?_, fun m => ?_⟩,
    hgrows.entered n List.mem_cons_self, fun _ _ => ⟨q.steps, st, rfl, hslot⟩⟩
  · simp only [List.map_append, List.mem_append, List.map_cons, List.map_nil,
      List.mem_singleton]
    rcases hfilled s hs with hs | hs
    · exact (hgrows.slot_filled hloop s hs).imp_right .inl
    · exact .inr (.inr hs)
  · refine (hrest m).trans (((hbegun m).and .rfl).trans ?_)
    constructor
    · rintro ⟨hm | hm, hne⟩
      · exact hm
      · exact absurd hm hne
    · intro hm
      refine ⟨.inl hm, ?_⟩
      rintro rfl
      exact hnew hm.1

/-- A node that is not made is planned once it was entered. -/
private theorem planned_of_not_makes (hp : p.Fits g derived) (ho : p.Ordered g)
    (hnew : n ∉ p.entered) (hnot : ¬ g.Makes n) :
    Planner.Planned g derived n p { p with entered := n :: p.entered } := by
  obtain ⟨hentered, -⟩ := @Planner.Ordered.of_steps_eq g p { p with entered := n :: p.entered } ho
    (List.prefix_refl _) (List.prefix_refl _) rfl fun m hm => List.mem_cons_of_mem _ hm
  refine ⟨{ hp with }, hentered, ⟨List.prefix_refl _, List.prefix_refl _, List.prefix_refl _,
    fun m hm => List.mem_cons_of_mem _ hm, fun _ s hs => .inl hs, fun m => ?_⟩,
    List.mem_cons_self, fun _ hmake => absurd hmake hnot⟩
  exact (Planner.begun_enter ho hnew m).trans (or_iff_left fun hm => hnot hm.2)

/-- Listing a node and noting what it takes changes neither slots nor steps. -/
private theorem fits_note (hp : p.Fits g derived) (ho : p.Ordered g) (hn : n ∈ g.nodes.taken)
    (argument? : Option RootArgument) :
    (p.note n argument?).Fits g derived ∧ (p.note n argument?).Ordered g ∧
      p.Grows g (p.note n argument?) := by
  refine ⟨{ hp with created_mem := fun m hm => ?_ },
    ho.grows (List.prefix_refl _) (List.prefix_refl _) rfl rfl fun _ => rfl⟩
  unfold Planner.note at hm
  dsimp only at hm
  split at hm
  · exact hp.created_mem m hm
  · rcases List.mem_append.mp hm with hm | hm
    · exact hp.created_mem m hm
    · exact List.mem_singleton.mp hm ▸ hn

/-- What planning a node leaves, if it goes through. -/
theorem collect_planned (h : g.Consistent) {fuel : Nat} (hn : n ∈ g.nodes.taken)
    (hp : p.Ready g derived n) :
    Yields (collect g table fuel n) p fun _ p' => Planner.Planned g derived n p p' := by
  refine fun a p' hrun => collect_yields (C := fun m p p' => m ∈ g.nodes.taken →
    p.Ready g derived m → Planner.Planned g derived m p p') ?_ ?_ ?_ fuel n p a p' hrun hn hp
  · intro n p hold _ hp
    exact ⟨hp.fits, hp.ordered, .refl g p, hold, fun hnew => absurd hold hnew⟩
  · intro n p hnew hnot _ hp
    exact planned_of_not_makes hp.fits hp.ordered hnew hnot
  · intro n p node supplied p₁ p' hnew hnode hmake hsupplies hconcludes hn hp
    obtain ⟨ho₀, -⟩ := @Planner.Ordered.of_steps_eq g p { p with entered := n :: p.entered }
      hp.ordered (List.prefix_refl _) (List.prefix_refl _) rfl fun m hm => List.mem_cons_of_mem _ hm
    have hbelow : ∀ m, Planner.Begun g { p with entered := n :: p.entered } m →
        Relation.ReflTransGen g.Precedes n m := by
      intro m hm
      rcases (Planner.begun_enter hp.ordered hnew m).mp hm with hm | ⟨rfl, -⟩
      · exact (hp.below m hm).to_reflTransGen
      · exact .refl
    obtain ⟨hp₁, ho₁, hgrows, hsupplied⟩ :=
      hsupplies.planned h (fun e he => he) { hp.fits with } ho₀ hbelow
    cases hconcludes with
    | @step action s r hgiven =>
      obtain ⟨hq, hoq, hnote⟩ := fits_note hp₁ ho₁ hn (action.rootArgument? node.contract)
      have hr := hgiven.fits hq hn
      obtain ⟨slots, rfl, ⟨more, rfl⟩, hs, hfilled⟩ := hgiven.exists_slots
      refine planned_of_step hp.ordered hnew hmake (hgrows.trans hnote) hoq hr hs ⟨more, rfl⟩
        hfilled fun o ho => ?_
      obtain ⟨x, hx, rfl⟩ := List.mem_map.mp ho
      rcases List.mem_append.mp (mem_sortBy.mp hx) with hx | hx
      · exact (hsupplied x hx).of_grows hnote
      · obtain ⟨v, hv⟩ := inline_of_mem_inlineOf hx
        rw [hv]
        trivial

end Plan

end Injector

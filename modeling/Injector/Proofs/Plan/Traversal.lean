import Injector.Plan.Derivation
import Injector.Proofs.Graph.Loops

/-!
# How graphs are planned

Planning a node gives slots and routines to what it depends on, plans first what it needs at once,
and ends with its step. The main statements say this once for all that is proved of plans: what
planning a node does is whatever its three ways to go on do (`collect_yields`), what planning
routines does is whatever each routine does (`providerRoutines_yields`), and a node of a consistent
graph can always be planned (`collect_ok`).
-/

namespace Injector

namespace Plan

section Outcomes

variable {α β : Type} {x : Planning α} {p : Planner}

/-- Whether all that planning can lead to from a planner satisfies `Q`. -/
def Yields (x : Planning α) (p : Planner) (Q : α → Planner → Prop) : Prop :=
  ∀ a p', x p = .ok (a, p') → Q a p'

/-- Whether planning goes through from a planner, with an outcome that satisfies `Q`. -/
def Meets (x : Planning α) (p : Planner) (Q : α → Planner → Prop) : Prop :=
  ∃ a p', x p = .ok (a, p') ∧ Q a p'

/-- What a second part leads to is what it leads to from the outcomes of the first. -/
theorem Yields.bind {f : α → Planning β} {P : α → Planner → Prop} {Q : β → Planner → Prop}
    (hx : Yields x p P) (hf : ∀ a p', P a p' → Yields (f a) p' Q) : Yields (x >>= f) p Q := by
  intro b p'' h
  rw [bind_apply] at h
  cases hfirst : x p with
  | error fault =>
    rw [hfirst] at h
    cases h
  | ok r =>
    rw [hfirst] at h
    exact hf r.1 r.2 (hx r.1 r.2 hfirst) b p'' h

theorem yields_pure {a : α} {Q : α → Planner → Prop} (h : Q a p) : Yields (pure a) p Q := by
  intro a' p' heq
  cases heq
  exact h

/-- A failure leads to nothing. -/
theorem yields_throw {fault : Fault} {Q : α → Planner → Prop} :
    Yields (throw fault : Planning α) p Q := by
  intro a p' heq
  cases heq

/-- A change of the planner yields what holds after it. -/
theorem yields_modify {c : Planner → Planner} {Q : PUnit → Planner → Prop} (h : Q ⟨⟩ (c p)) :
    Yields (modify c) p Q := by
  intro a p' heq
  cases heq
  exact h

theorem yields_get_bind {f : Planner → Planning β} {Q : β → Planner → Prop}
    (h : Yields (f p) p Q) : Yields (get >>= f) p Q := h

theorem yields_set_bind {p' : Planner} {f : PUnit → Planning β} {Q : β → Planner → Prop}
    (h : Yields (f ⟨⟩) p' Q) : Yields (set p' >>= f) p Q := h

theorem yields_modify_bind {c : Planner → Planner} {f : PUnit → Planning β}
    {Q : β → Planner → Prop} (h : Yields (f ⟨⟩) (c p) Q) : Yields (modify c >>= f) p Q := h

/-- A part that reads no planner is followed from each of its results. -/
theorem yields_lift_bind {x : Except Fault α} {f : α → Planning β} {Q : β → Planner → Prop}
    (h : ∀ a, x = .ok a → Yields (f a) p Q) : Yields ((liftM x : Planning α) >>= f) p Q := by
  cases x with
  | error fault =>
    intro b p' heq
    cases heq
  | ok a => exact h a rfl

/-- Planning goes through when each of two parts does, the second from the outcome of the first. -/
theorem Meets.bind {f : α → Planning β} {P : α → Planner → Prop} {Q : β → Planner → Prop}
    (hx : Meets x p P) (hf : ∀ a p', P a p' → Meets (f a) p' Q) : Meets (x >>= f) p Q := by
  obtain ⟨a, p', hfirst, hP⟩ := hx
  obtain ⟨b, p'', hrest, hQ⟩ := hf a p' hP
  refine ⟨b, p'', ?_, hQ⟩
  simp only [Bind.bind, StateT.bind, hfirst, Except.bind, hrest]

theorem meets_pure {a : α} {Q : α → Planner → Prop} (h : Q a p) : Meets (pure a) p Q :=
  ⟨a, p, rfl, h⟩

/-- A change of the planner ends, and meets what holds after it. -/
theorem meets_modify {c : Planner → Planner} {Q : PUnit → Planner → Prop} (h : Q ⟨⟩ (c p)) :
    Meets (modify c) p Q :=
  ⟨⟨⟩, c p, rfl, h⟩

theorem meets_get_bind {f : Planner → Planning β} {Q : β → Planner → Prop}
    (h : Meets (f p) p Q) : Meets (get >>= f) p Q := h

theorem meets_set_bind {p' : Planner} {f : PUnit → Planning β} {Q : β → Planner → Prop}
    (h : Meets (f ⟨⟩) p' Q) : Meets (set p' >>= f) p Q := h

theorem meets_modify_bind {c : Planner → Planner} {f : PUnit → Planning β}
    {Q : β → Planner → Prop} (h : Meets (f ⟨⟩) (c p) Q) : Meets (modify c >>= f) p Q := h

/-- A part that reads no planner and gives a result goes through. -/
theorem meets_lift_bind {e : Except Fault α} {a : α} {f : α → Planning β}
    {Q : β → Planner → Prop} (he : e = .ok a) (h : Meets (f a) p Q) :
    Meets ((liftM e : Planning α) >>= f) p Q := by
  subst he
  exact h

/-- What planning leads to satisfies whatever all that it can lead to does. -/
theorem Meets.and_yields {P Q : α → Planner → Prop} (hP : Meets x p P) (hQ : Yields x p Q) :
    Meets x p fun a p' => P a p' ∧ Q a p' := by
  obtain ⟨a, p', hx, h⟩ := hP
  exact ⟨a, p', hx, h, hQ a p' hx⟩

/-- What is yielded may be weakened. -/
theorem Yields.imp {P Q : α → Planner → Prop} (hP : Yields x p P)
    (h : ∀ a p', P a p' → Q a p') : Yields x p Q :=
  fun a p' hx => h a p' (hP a p' hx)

/-- What is yielded in two respects is yielded in both. -/
theorem Yields.and {P Q : α → Planner → Prop} (hP : Yields x p P) (hQ : Yields x p Q) :
    Yields x p fun a p' => P a p' ∧ Q a p' :=
  fun a p' h => ⟨hP a p' h, hQ a p' h⟩

/-- What planning is known to lead to is all that it leads to. -/
theorem Meets.yields {Q : α → Planner → Prop} (h : Meets x p Q) : Yields x p Q := by
  obtain ⟨a, p', hx, hQ⟩ := h
  intro a' p'' hx'
  cases hx.symm.trans hx'
  exact hQ

end Outcomes

/-! ### Slots and routines -/

/-- Whether a node has a slot in a planner that comes from another by adding it where it is
missing. -/
inductive Planner.GivesSlot (n : NodeId) (p : Planner) : Nat → Planner → Prop
  /-- The node has a slot. -/
  | old {s : Nat} (h : p.slots[s]? = some n) : p.GivesSlot n s p
  /-- It gets the next one. -/
  | new (h : n ∉ p.slots) : p.GivesSlot n p.slots.length { p with slots := p.slots ++ [n] }

/-- Whether a node has a routine in a planner that comes from another by asking for it where this
was not done. -/
inductive Planner.GivesRoutine (n : NodeId) (p : Planner) : Nat → Planner → Prop
  /-- The node has a routine. -/
  | old {i : Nat} (h : p.routines[i]? = some n) : p.GivesRoutine n (i + 1) p
  /-- It gets the next one, which is to be derived. -/
  | new (h : n ∉ p.routines) : p.GivesRoutine n (p.routines.length + 1)
      { p with
        routines := p.routines ++ [n]
        pending := (n, p.routines.length + 1) :: p.pending }

/-- What is found at a place stands there. -/
theorem getElem?_of_idxOf? {l : List NodeId} {n : NodeId} {i : Nat} (h : l.idxOf? n = some i) :
    l[i]? = some n := by
  obtain ⟨hlt, heq, -⟩ := List.findIdx?_eq_some_iff_getElem.mp h
  rw [List.getElem?_eq_getElem hlt, eq_of_beq heq]

/-- A node always gets a slot. -/
theorem slotOf_meets (n : NodeId) (p : Planner) : Meets (slotOf n) p (p.GivesSlot n) := by
  cases hi : p.slots.idxOf? n with
  | some i =>
    refine ⟨i, p, ?_, .old (getElem?_of_idxOf? hi)⟩
    simp only [slotOf, bind_apply, get_apply, ok_bind, hi, pure_apply]
  | none =>
    refine ⟨_, _, ?_, .new (List.idxOf?_eq_none_iff.mp hi)⟩
    simp only [slotOf, bind_apply, get_apply, set_apply, ok_bind, hi, pure_apply]

/-- A node always gets a routine. -/
theorem routineOf_meets (n : NodeId) (p : Planner) : Meets (routineOf n) p (p.GivesRoutine n) := by
  cases hi : p.routines.idxOf? n with
  | some i =>
    refine ⟨i + 1, p, ?_, .old (getElem?_of_idxOf? hi)⟩
    simp only [routineOf, bind_apply, get_apply, ok_bind, hi, pure_apply]
  | none =>
    refine ⟨_, _, ?_, .new (List.idxOf?_eq_none_iff.mp hi)⟩
    simp only [routineOf, bind_apply, get_apply, set_apply, ok_bind, hi, pure_apply]

/-- Giving a node a slot changes nothing but the slots, to which at most the node is added. -/
theorem Planner.GivesSlot.exists_slots {n : NodeId} {p p' : Planner} {s : Nat}
    (h : p.GivesSlot n s p') : ∃ slots, p' = { p with slots } ∧ p.slots <+: slots ∧
      slots[s]? = some n ∧ ∀ i < slots.length, i < p.slots.length ∨ i = s := by
  cases h with
  | old h => exact ⟨p.slots, rfl, List.prefix_refl _, h, fun _ => .inl⟩
  | new h =>
    refine ⟨_, rfl, List.prefix_append _ _, by simp, fun i hi => ?_⟩
    simp only [List.length_append, List.length_singleton] at hi
    omega

/-! ### The ways to go on -/

/-- The argument of the root member that answers a contract, if that is how its value is made. -/
def Action.rootArgument? (contract : Contract) : Action → Option RootArgument
  | .argument name .root => some ⟨name, contract⟩
  | _ => none

/-- Notes an argument unless one of its name was noted. -/
def RootArgument.note (noted : List RootArgument) (a : RootArgument) : List RootArgument :=
  if noted.any fun b => b.name == a.name then noted else noted ++ [a]

/-- Lists a node among those that are made, and notes the argument of the root member that it takes,
if it takes one. -/
def Planner.note (p : Planner) (n : NodeId) (argument? : Option RootArgument) : Planner :=
  { p with
    created := if n ∈ p.created then p.created else p.created ++ [n]
    rootArguments := argument?.toList.foldl RootArgument.note p.rootArguments }

/-- The operands of a node that no edge supplies: variables that its factory supplies itself. -/
def inlineOf (table : Table) (node : Node) (supplied : List (Nat × Operand)) :
    List (Nat × Operand) :=
  match node.origin with
  | .binding id _ _ =>
      match table.bindings[id]?.map Registration.recipe with
      | some (.factory _ steps _) => inlineOperands steps supplied
      | _ => []
  | .synthesized _ _ | .argument _ _ => []

/-- Whether edges of a node supply operands, where a planner comes from another by planning what is
needed at once, as `C` says, and by giving it slots, and routines to what is not. -/
inductive Supplies (g : Graph) (node : Node) (C : NodeId → Planner → Planner → Prop) :
    List Edge → Planner → List (Nat × Operand) → Planner → Prop
  /-- Nothing is left to be supplied. -/
  | nil {p : Planner} : Supplies g node C [] p [] p
  /-- An argument of a provider call is passed by its place. -/
  | argument {e : Edge} {rest : List Edge} {p p' : Planner} {others : List (Nat × Operand)}
      {block : BlockId} {index : Nat}
      (target : g.Has e.target fun child => child.origin = .argument block index)
      (tail : Supplies g node C rest p others p') :
      Supplies g node C (e :: rest) p ((e.position, .providerArgument index) :: others) p'
  /-- What is needed at once is planned and has a slot. -/
  | slot {e : Edge} {rest : List Edge} {p p₁ p₂ p' : Planner} {others : List (Nat × Operand)}
      {s : Nat} (made : g.Makes e.target) (timing : e.timing = .eager)
      (planned : C e.target p p₁) (given : p₁.GivesSlot e.target s p₂)
      (tail : Supplies g node C rest p₂ others p') :
      Supplies g node C (e :: rest) p ((e.position, .slot s) :: others) p'
  /-- What is not has a routine, which a provider carries out. -/
  | provider {e : Edge} {rest : List Edge} {p p₁ p' : Planner} {others : List (Nat × Operand)}
      {r : Nat} (made : g.Makes e.target) (timing : e.timing = .deferred)
      (given : p.GivesRoutine e.target r p₁) (tail : Supplies g node C rest p₁ others p') :
      Supplies g node C (e :: rest) p
        ((e.position, .provider r (providerStrategy node)) :: others) p'

/-- Whether a planner comes from another by the step for a node for which operands are there. -/
inductive Concludes (table : Table) (n : NodeId) (node : Node) (supplied : List (Nat × Operand))
    (p : Planner) : Planner → Prop
  /-- The node is listed and has a slot, and its step is added. -/
  | step {action : Action} {s : Nat} {p' : Planner}
      (given : (p.note n (action.rootArgument? node.contract)).GivesSlot n s p') :
      Concludes table n node supplied p { p' with steps := p'.steps ++ [{
        slot := s
        contract := node.contract
        lifetime := node.lifetime
        action
        operands := (sortOn Prod.fst (supplied ++ inlineOf table node supplied)).map Prod.snd
        isShared := node.lifetime != .transient }] }

variable {g : Graph} {table : Table} {node : Node}

/-- A node that is made has an action, which notes the argument that it takes. -/
theorem actionOf_yields (hmake : ∀ block index, node.origin ≠ .argument block index)
    (supplied : List (Nat × Operand)) (p : Planner) :
    Yields (actionOf table node supplied) p fun made p' => ∃ action : Action,
      made = some (action, inlineOf table node supplied) ∧ p' = { p with
        rootArguments := (action.rootArgument? node.contract).toList.foldl RootArgument.note
          p.rootArguments } := by
  unfold actionOf inlineOf
  cases ho : node.origin with
  | argument block index => exact absurd ho (hmake block index)
  | synthesized strategy args => exact yields_pure ⟨.synthesize strategy, rfl, rfl⟩
  | binding id s constructor =>
    cases hr : table.bindings[id]? with
    | none =>
      simp only [hr]
      exact yields_throw
    | some r =>
      simp only [hr, Option.map_some]
      cases r.recipe with
      | construct implementation implements constructors =>
        exact yields_pure ⟨.construct implementation.text constructor, rfl, rfl⟩
      | factory expression steps isAsync => exact yields_pure ⟨.factory expression, rfl, rfl⟩
      | argument name source =>
        simp only
        split
        · next hroot =>
          subst hroot
          refine yields_modify_bind (yields_pure ⟨.argument name .root, rfl, ?_⟩)
          simp only [Action.rootArgument?, Option.toList_some, List.foldl_cons, List.foldl_nil,
            RootArgument.note]
          split <;> rfl
        · next hother =>
          refine yields_pure ⟨.argument name source, rfl, ?_⟩
          cases source <;> first | rfl | exact absurd rfl hother

/-- Edges supply operands in one of the three ways each. -/
theorem suppliedOperands_yields {C : NodeId → Planner → Planner → Prop}
    {visit : NodeId → Planning Unit} (hvisit : ∀ n p, Yields (visit n) p fun _ => C n p)
    (es : List Edge) (p : Planner) :
    Yields (suppliedOperands g visit node es) p (Supplies g node C es p) := by
  induction es generalizing p with
  | nil => exact yields_pure .nil
  | cons e rest ih =>
    rw [suppliedOperands]
    refine yields_lift_bind fun child hchild => ?_
    have hget := Graph.get?_of_node hchild
    simp only [pure_bind]
    split
    · next block index ho =>
      exact (ih p).bind fun _ _ h => yields_pure (.argument ⟨child, hget, ho⟩ h)
    · next htiming hmake =>
      refine (hvisit e.target p).bind fun _ p₁ hplanned => ?_
      refine (slotOf_meets e.target p₁).yields.bind fun s p₂ hgiven => ?_
      exact (ih p₂).bind fun _ _ h => yields_pure (.slot ⟨child, hget, hmake⟩ htiming hplanned
        hgiven h)
    · next htiming hmake =>
      refine (routineOf_meets e.target p).yields.bind fun r p₁ hgiven => ?_
      exact (ih p₁).bind fun _ _ h => yields_pure (.provider ⟨child, hget, hmake⟩ htiming hgiven h)

/-- Planning a node does what its ways to go on do: it was entered before, it is an argument of a
provider call, or it is made, and then its step follows what its edges supply. -/
theorem collect_yields {C : NodeId → Planner → Planner → Prop}
    (entered : ∀ {n p}, n ∈ p.entered → C n p p)
    (argument : ∀ {n p}, n ∉ p.entered → ¬ g.Makes n →
      C n p { p with entered := n :: p.entered })
    (made : ∀ {n p node supplied p₁ p'}, n ∉ p.entered → g.nodes.get? n = some node → g.Makes n →
      Supplies g node C (g.dependencies n) { p with entered := n :: p.entered } supplied p₁ →
      Concludes table n node supplied p₁ p' → C n p p')
    (fuel : Nat) (n : NodeId) (p : Planner) :
    Yields (collect g table fuel n) p fun _ => C n p := by
  induction fuel generalizing n p with
  | zero => exact yields_throw
  | succ fuel ih =>
    rw [collect]
    refine yields_get_bind ?_
    split
    · next hold => exact yields_pure (entered hold)
    · next hnew =>
      refine yields_set_bind (yields_lift_bind fun node hnode => ?_)
      have hget := Graph.get?_of_node hnode
      split
      · next block index ho =>
        exact yields_pure (argument hnew fun hmade => hmade.of_get? hget block index ho)
      · next hmake =>
        refine (suppliedOperands_yields ih _ _).bind fun supplied p₁ hsupplied => ?_
        refine (actionOf_yields hmake supplied p₁).bind ?_
        rintro _ _ ⟨action, rfl, rfl⟩
        refine yields_modify_bind ?_
        have hnote : (if n ∈ p₁.created then { p₁ with
              rootArguments := (action.rootArgument? node.contract).toList.foldl
                RootArgument.note p₁.rootArguments }
            else { p₁ with
              rootArguments := (action.rootArgument? node.contract).toList.foldl
                RootArgument.note p₁.rootArguments
              created := p₁.created ++ [n] }) =
            p₁.note n (action.rootArgument? node.contract) := by
          unfold Planner.note
          split <;> rfl
        simp only [hnote]
        refine (slotOf_meets n _).yields.bind fun s p₂ hgiven => ?_
        exact yields_modify (made hnew hget ⟨node, hget, hmake⟩ hsupplied (.step hgiven))

/-! ### Planning goes through -/

/-- A node that is made has an action if its binding is one of the table. -/
theorem actionOf_ok {n : NodeId} (hk : g.Knows table) (hn : (n, node) ∈ g.nodes.entries)
    (supplied : List (Nat × Operand)) (p : Planner) :
    Meets (actionOf table node supplied) p fun _ _ => True := by
  unfold actionOf
  cases ho : node.origin with
  | argument block index => exact meets_pure trivial
  | synthesized strategy args => exact meets_pure trivial
  | binding id s constructor =>
    have hlt := hk _ hn id s constructor ho
    simp only [List.getElem?_eq_getElem hlt]
    cases (table.bindings[id]).recipe with
    | construct implementation implements constructors => exact meets_pure trivial
    | factory expression steps isAsync => exact meets_pure trivial
    | argument name source =>
      simp only
      split
      · exact meets_modify_bind (meets_pure trivial)
      · exact meets_pure trivial

/-- Edges can supply their operands if what is needed at once can be planned. -/
private theorem suppliedOperands_ok (h : g.Consistent) {visit : NodeId → Planning Unit} {fuel : Nat}
    (hvisit : ∀ m p, m ∈ g.nodes.taken → unspent (fun _ => 1) g.places p.entered < fuel →
      Meets (visit m) p fun _ p' => p.entered ⊆ p'.entered)
    {n : NodeId} {es : List Edge} (hes : ∀ e ∈ es, e ∈ g.dependencies n) {p : Planner}
    (hfuel : unspent (fun _ => 1) g.places p.entered < fuel) :
    Meets (suppliedOperands g visit node es) p fun _ p' => p.entered ⊆ p'.entered := by
  induction es generalizing p with
  | nil => exact meets_pure (List.Subset.refl _)
  | cons e rest ih =>
    obtain ⟨he, hrest⟩ := List.forall_mem_cons.mp hes
    have htarget := h.target_of_dependency he
    obtain ⟨child, hchild⟩ := Graph.node_ok htarget
    have hothers : ∀ (o : Operand) p', p.entered ⊆ p'.entered →
        Meets (suppliedOperands g visit node rest >>= fun others =>
          pure ((e.position, o) :: others)) p' fun _ p'' => p.entered ⊆ p''.entered := by
      intro o p' hsub
      have hless := unspent_le_of_subset (fun _ => 1) g.places hsub
      exact (ih hrest (by omega)).bind fun _ _ hsub' => meets_pure (List.Subset.trans hsub hsub')
    rw [suppliedOperands]
    refine meets_lift_bind hchild ?_
    simp only [pure_bind]
    split
    · exact hothers _ p (List.Subset.refl _)
    · refine (hvisit e.target p htarget hfuel).bind fun _ p₁ hsub => ?_
      refine (slotOf_meets e.target p₁).bind fun s p₂ hgiven => ?_
      obtain ⟨slots, rfl, -⟩ := hgiven.exists_slots
      exact hothers _ _ hsub
    · refine (routineOf_meets e.target p).bind fun r p₁ hgiven => hothers _ p₁ ?_
      cases hgiven <;> exact List.Subset.refl _

/-- A node of a consistent graph can be planned while there are fewer nodes to enter than steps
allowed. -/
theorem collect_ok (h : g.Consistent) (hk : g.Knows table) {fuel : Nat} {n : NodeId} {p : Planner}
    (hn : n ∈ g.nodes.taken) (hfuel : unspent (fun _ => 1) g.places p.entered < fuel) :
    Meets (collect g table fuel n) p fun _ p' => p.entered ⊆ p'.entered := by
  induction fuel generalizing n p with
  | zero => exact absurd hfuel (Nat.not_lt_zero _)
  | succ fuel ih =>
    rw [collect]
    refine meets_get_bind ?_
    split
    · exact meets_pure (List.Subset.refl _)
    · next hnew =>
      obtain ⟨node, hnode⟩ := Graph.node_ok hn
      refine meets_set_bind (meets_lift_bind hnode ?_)
      split
      · exact meets_pure (List.subset_cons_self _ _)
      · next hmake =>
        have hspend := unspent_cons (fun _ => 1) (Graph.mem_places.mpr hn) hnew
        refine (suppliedOperands_ok h (fun m q hm hq => ih hm hq) (fun e he => he)
          (by dsimp only; omega)).bind fun supplied p₁ hsub => ?_
        refine ((actionOf_ok hk (Graph.mem_entries_of_node h hnode) supplied p₁).and_yields
          (actionOf_yields hmake supplied p₁)).bind ?_
        rintro _ _ ⟨-, action, rfl, rfl⟩
        refine meets_modify_bind ((slotOf_meets n _).bind fun s p₂ hgiven => meets_modify ?_)
        obtain ⟨slots, rfl, -⟩ := hgiven.exists_slots
        intro m hm
        have hold := hsub (List.mem_cons_of_mem n hm)
        dsimp only
        split <;> exact hold

/-! ### Routines -/

/-- Deriving a routine plans its node from a planner that has no steps, and takes the steps. -/
theorem routine_yields {target : NodeId} {p : Planner} {Q : Routine → Planner → Prop} (id : Nat)
    (h : Yields (collect g table (g.nodes.size + 1) target) { p with entered := [], steps := [] }
      fun _ p₁ => ∀ s p', p₁.GivesSlot target s p' → Q ⟨id, s, p'.steps⟩ p') :
    Yields (routine g table target id) p Q := by
  refine yields_modify_bind (h.bind fun _ p₁ hslot => ?_)
  refine (slotOf_meets target p₁).yields.bind fun s p' hgiven => ?_
  exact yields_get_bind (yields_pure (hslot s p' hgiven))

/-- Routines are derived one after the other, the one that was asked for last first. -/
theorem providerRoutines_yields {R : Planner → List Routine → Planner → Prop}
    (nil : ∀ {p}, R p [] p)
    (cons : ∀ {p target id pending}, p.pending = (target, id) :: pending →
      Yields (routine g table target id) { p with pending } fun r p₁ =>
        ∀ rs p', R p₁ rs p' → R p (r :: rs) p')
    (fuel : Nat) (p : Planner) : Yields (providerRoutines g table fuel) p (R p) := by
  induction fuel generalizing p with
  | zero =>
    rw [providerRoutines]
    refine yields_get_bind ?_
    split
    · exact yields_pure nil
    · exact yields_throw
  | succ fuel ih =>
    rw [providerRoutines]
    refine yields_get_bind ?_
    split
    · exact yields_pure nil
    · next target id pending hnext =>
      refine yields_set_bind ((cons hnext).bind fun r p₁ hr => ?_)
      exact (ih p₁).bind fun rs p' hrs => yields_pure (hr rs p' hrs)

/-- What is known of the routine of a node, and of the routines that are derived after it, is what
planning from that node leads to. -/
theorem routinesOf_yields {start : NodeId} {p : Planner} {P : Routine → Planner → Prop}
    {Q : Routine × List Routine → Planner → Prop} (hentry : Yields (routine g table start 0) p P)
    (hproviders : ∀ entry p₁, P entry p₁ →
      Yields (providerRoutines g table (g.nodes.size + 1)) p₁ fun rs => Q (entry, rs)) :
    Yields (routinesOf g table start) p Q :=
  hentry.bind fun entry p₁ h => (hproviders entry p₁ h).bind fun _ _ hQ => yields_pure hQ

/-- A plan is read off a run of the planner. -/
theorem exists_run_of_derive? {root : Table.Root} {plan : Plan}
    (h : derive? g root table = .ok (some plan)) : ∃ start planned p, g.root = some start ∧
      routinesOf g table start .initial = .ok ((plan.entry, planned), p) ∧
      plan.providers = sortOn Routine.id planned ∧ plan.rootArguments = p.rootArguments ∧
      (∃ held, nodesOf g p.slots = .ok held ∧ plan.slots = held.zipIdx.map fun n =>
        ⟨n.2, n.1.2.contract, n.1.2.lifetime, n.1.2.scope⟩) ∧
      ∃ created, nodesOf g p.created = .ok created ∧
        plan.disposal = disposalOf created p.slots := by
  cases hstart : g.root with
  | none => simp [derive?, hstart, pure, Except.pure] at h
  | some start =>
    simp only [derive?, hstart] at h
    obtain ⟨⟨⟨entry, planned⟩, p⟩, hrun, h⟩ := bind_eq_ok.mp h
    obtain ⟨held, hheld, h⟩ := bind_eq_ok.mp h
    obtain ⟨created, hcreated, h⟩ := bind_eq_ok.mp h
    cases h
    exact ⟨start, planned, p, rfl, hrun, rfl, rfl, ⟨held, hheld, rfl⟩, created, hcreated, rfl⟩

end Plan

end Injector

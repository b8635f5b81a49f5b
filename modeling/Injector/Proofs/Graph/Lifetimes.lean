import Injector.Proofs.Graph.Captures

/-!
# Lifetime defects are the violating eager paths

A walk looks at a node once under each capture, on graphs whose deferred edges may lead back. The
main statement is that the defects it tells are exactly the violations of the rules about lifetimes,
each a statement about eager paths of the graph, and that without a defect no eager path leads from
a singleton to a scoped instance or from one scope to another.
-/

namespace Injector

/-- A violation of the rules about lifetimes. -/
inductive Violation where
  /-- A singleton holds a scoped instance. -/
  | held (holder n : NodeId)
  /-- A scoped instance holds one of another scope. -/
  | crossed (holder n : NodeId)
  /-- A static root holds what needs an instance of the composition. -/
  | needed (n : NodeId)
  deriving DecidableEq, Repr

/-- What a node needs of an instance of the composition, in words. -/
inductive Requires (table : Table) (node : Node) : String → Prop
  /-- A long-lived instance is stored in it. -/
  | storage (h : node.lifetime = .scoped ∨ node.lifetime = .singleton) :
      Requires table node ("the " ++ node.lifetime.name ++ " instance storage")
  /-- An argument is given to it. -/
  | argument {id : BindingId} {s : Substitution} {constructor : Option Nat}
      {r : Registration} {name : String}
      (h : ¬ (node.lifetime = .scoped ∨ node.lifetime = .singleton))
      (horigin : node.origin = .binding id s constructor) (hbinding : table.bindings[id]? = some r)
      (hrecipe : r.recipe = .argument name .composition) :
      Requires table node ("the composition argument \"" ++ name ++ "\"")

/-- Whether the table says what a node needs: it has the binding of one that is not long lived. -/
def Table.Describes (table : Table) (node : Node) : Prop :=
  node.lifetime = .scoped ∨ node.lifetime = .singleton ∨
    ∀ id s constructor, node.origin = .binding id s constructor → id < table.bindings.length

/-- Whether an issue is about lifetimes. -/
def Issue.isLifetimeDefect (i : Issue) : Bool := i.message.kind == .lifetimeDefect

namespace Graph

variable {g : Graph} {table : Table} {root : Table.Root}

/-- Whether a graph, as that of a root, violates the rules about lifetimes. -/
def Violates (g : Graph) (table : Table) (root : Table.Root) : Violation → Prop
  | .held s n =>
      g.Reachable s ∧ g.Has s (·.lifetime = .singleton) ∧ g.Has n (·.lifetime = .scoped) ∧
        g.Holds .singleton s n
  | .crossed m n =>
      g.Reachable m ∧ g.Has m (·.lifetime = .scoped) ∧ g.Holds .scoped m n ∧
        g.Has n fun node => node.lifetime = .scoped ∧ ¬ g.Has m (·.scope = node.scope)
  | .needed n =>
      root.kind = .static ∧ g.EagerlyReachable n ∧
        g.Has n fun node => ∃ requirement, Requires table node requirement

/-- Whether an issue tells of a violation. -/
def Tells (g : Graph) (table : Table) (root : Table.Root) : Violation → Issue → Prop
  | .held s n, i =>
      ∃ holder node, g.node s = .ok holder ∧ g.node n = .ok node ∧ i = lifetimeDefect holder node
  | .crossed s n, i =>
      ∃ holder node, g.node s = .ok holder ∧ g.node n = .ok node ∧
        i = crossScopeCapture holder node
  | .needed n, i =>
      ∃ node requirement, g.node n = .ok node ∧ Requires table node requirement ∧
        i = ⟨root.location, .staticRootDefect root.describe node.label requirement⟩

theorem Tells.isLifetimeDefect {v : Violation} {i : Issue} (h : g.Tells table root v i) :
    i.isLifetimeDefect = true := by
  cases v <;> obtain ⟨_, _, _, _, rfl⟩ := h <;> rfl

/-- Whether no eager path from what the root leads to captures a scoped instance: none leads from a
singleton to one, or from one scope to another. -/
def CapturesNothing (g : Graph) : Prop :=
  ∀ s n, g.Reachable s → Relation.TransGen g.ReceivesEagerly s n →
    (g.Has s (·.lifetime = .singleton) → ¬ g.Has n (·.lifetime = .scoped)) ∧
    (g.Has s (·.lifetime = .scoped) →
      g.Has n (·.lifetime = .scoped) → g.Has n fun node => g.Has s (·.scope = node.scope))

/-- The violations that are met at a place. -/
def MetAt (g : Graph) (table : Table) (n : NodeId) (node : Node) (c : Capture) :
    Violation → Prop
  | .held s m => m = n ∧ node.lifetime = .scoped ∧ c.holder .singleton = some s
  | .crossed s m =>
      m = n ∧ node.lifetime = .scoped ∧ c.holder .scoped = some s ∧
        ¬ g.Has s (·.scope = node.scope)
  | .needed m =>
      m = n ∧ c.fromStaticRoot = true ∧ ∃ requirement, Requires table node requirement

/-- What a node needs is said by the table, and only then. -/
theorem instanceRequirement_eq_some {node : Node} {requirement : String} :
    instanceRequirement table node = .ok (some requirement) ↔ Requires table node requirement := by
  unfold instanceRequirement
  constructor
  · intro h
    split at h
    · next hlong =>
      cases h
      exact .storage (Lifetime.isLongLived_iff_eq.mp hlong)
    · next hlong =>
      have hshort := mt Lifetime.isLongLived_iff_eq.mpr hlong
      split at h
      · next id s constructor horigin =>
        split at h
        · cases h
        · next r hbinding =>
          split at h
          · next name hrecipe =>
            cases h
            exact .argument hshort horigin hbinding hrecipe
          · cases h
      · cases h
  · rintro (hlong | ⟨hshort, horigin, hbinding, hrecipe⟩)
    · rw [if_pos (Lifetime.isLongLived_iff_eq.mpr hlong)]
    · rw [if_neg (mt Lifetime.isLongLived_iff_eq.mp hshort)]
      simp [horigin, hbinding, hrecipe]

/-- It is found out what a node needs exactly when the table describes it. -/
theorem instanceRequirement_ok_iff {node : Node} :
    (∃ requirement, instanceRequirement table node = .ok requirement) ↔ table.Describes node := by
  unfold instanceRequirement Table.Describes
  by_cases hlong : node.lifetime = .scoped ∨ node.lifetime = .singleton
  · rw [if_pos (Lifetime.isLongLived_iff_eq.mpr hlong)]
    rcases hlong with h | h <;> simp [h]
  · rw [if_neg (mt Lifetime.isLongLived_iff_eq.mp hlong)]
    obtain ⟨hscoped, hsingleton⟩ := not_or.mp hlong
    simp only [hscoped, hsingleton, false_or]
    split
    · next id s constructor horigin =>
      simp only [horigin, Origin.binding.injEq, and_imp]
      cases hbinding : table.bindings[id]? with
      | none =>
        have hle := List.getElem?_eq_none_iff.mp hbinding
        simp only [reduceCtorEq, exists_false, false_iff, not_forall]
        exact ⟨id, s, constructor, rfl, rfl, rfl, not_lt.mpr hle⟩
      | some r =>
        obtain ⟨hlt, -⟩ := List.getElem?_eq_some_iff.mp hbinding
        refine iff_of_true ?_ (by rintro _ _ _ rfl _ _; exact hlt)
        simp only
        split <;> exact ⟨_, rfl⟩
    · next horigin =>
      refine iff_of_true ⟨_, rfl⟩ fun id s constructor h => absurd h (horigin id s constructor)

/-- What an instance of the node is held by, told. -/
def heldAt (g : Graph) (node : Node) (c : Capture) : Except Fault (List Issue) :=
  match node.lifetime, c.singletonHolder with
  | .scoped, some n => do pure [lifetimeDefect (← g.node n) node]
  | _, _ => pure []

/-- What an instance of the node is held by in another scope, told. -/
def crossedAt (g : Graph) (node : Node) (c : Capture) : Except Fault (List Issue) :=
  match node.lifetime, c.scopedHolder with
  | .scoped, some n => do
      let consumer ← g.node n
      pure (if consumer.scope ≠ node.scope then [crossScopeCapture consumer node] else [])
  | _, _ => pure []

/-- What an instance of the node needs below a static root, told. -/
def neededAt (table : Table) (root : Table.Root) (node : Node) (c : Capture) :
    Except Fault (List Issue) :=
  if c.fromStaticRoot then do
    match ← instanceRequirement table node with
    | some requirement =>
        pure [⟨root.location, .staticRootDefect root.describe node.label requirement⟩]
    | none => pure []
  else pure []

theorem defectsAt_eq (g : Graph) (table : Table) (root : Table.Root) (node : Node) (c : Capture) :
    g.defectsAt table root node c = (do
      let held ← g.heldAt node c
      let crossed ← g.crossedAt node c
      let needed ← neededAt table root node c
      return held ++ crossed ++ needed) := by
  unfold defectsAt heldAt crossedAt neededAt
  cases node.lifetime <;> cases c.singletonHolder <;> cases c.scopedHolder <;>
    cases c.fromStaticRoot <;> simp <;>
    repeat refine bind_congr fun a => ?_
  all_goals cases a <;> simp

section Place

variable {n : NodeId} {node : Node} {c : Capture}

private theorem heldAt_tells (hn : g.node n = .ok node) (hc : c.HeldIn g) (table : Table)
    (root : Table.Root) : ∃ vs issues, g.heldAt node c = .ok issues ∧
      List.Forall₂ (g.Tells table root) vs issues ∧
      ∀ v, v ∈ vs ↔ ∃ s, v = .held s n ∧ node.lifetime = .scoped ∧ c.singletonHolder = some s := by
  by_cases hscoped : node.lifetime = .scoped
  · cases hs : c.singletonHolder with
    | none => exact ⟨[], [], by simp [heldAt, hs]; rfl, .nil, by simp⟩
    | some s =>
      obtain ⟨holder, hholder⟩ := node_ok (hc.singletonHolder_mem s hs)
      refine ⟨[.held s n], [lifetimeDefect holder node], ?_, ?_, by simp [hscoped]⟩
      · simp only [heldAt, hscoped, hs, hholder]
        rfl
      · exact .cons ⟨holder, node, hholder, hn, rfl⟩ .nil
  · refine ⟨[], [], ?_, .nil, by simp [hscoped]⟩
    unfold heldAt
    split
    · next hl _ => exact absurd hl hscoped
    · rfl

private theorem crossedAt_tells (hn : g.node n = .ok node) (hc : c.HeldIn g) (table : Table)
    (root : Table.Root) : ∃ vs issues, g.crossedAt node c = .ok issues ∧
      List.Forall₂ (g.Tells table root) vs issues ∧
      ∀ v, v ∈ vs ↔ ∃ s, v = .crossed s n ∧ node.lifetime = .scoped ∧ c.scopedHolder = some s ∧
        ¬ g.Has s (·.scope = node.scope) := by
  by_cases hscoped : node.lifetime = .scoped
  · cases hs : c.scopedHolder with
    | none => exact ⟨[], [], by simp [crossedAt, hs]; rfl, .nil, by simp⟩
    | some s =>
      obtain ⟨holder, hholder⟩ := node_ok (hc.scopedHolder_mem s hs)
      have heq : g.crossedAt node c = .ok
          (if holder.scope ≠ node.scope then [crossScopeCapture holder node] else []) := by
        simp only [crossedAt, hscoped, hs, hholder]
        rfl
      by_cases hscope : holder.scope = node.scope
      · exact ⟨[], [], by simp [heq, hscope], .nil, by simp [has_iff hholder, hscope]⟩
      · refine ⟨[.crossed s n], [crossScopeCapture holder node], by simp [heq, hscope], ?_, ?_⟩
        · exact .cons ⟨holder, node, hholder, hn, rfl⟩ .nil
        · intro v
          simp only [List.mem_singleton, hscoped, Option.some.injEq, true_and]
          constructor
          · rintro rfl
            exact ⟨s, rfl, rfl, by rwa [has_iff hholder]⟩
          · rintro ⟨_, rfl, rfl, -⟩
            rfl
  · refine ⟨[], [], ?_, .nil, by simp [hscoped]⟩
    unfold crossedAt
    split
    · next hl _ => exact absurd hl hscoped
    · rfl

private theorem neededAt_tells (hn : g.node n = .ok node) {issues : List Issue}
    (h : neededAt table root node c = .ok issues) :
    ∃ vs, List.Forall₂ (g.Tells table root) vs issues ∧
      ∀ v, v ∈ vs ↔ v = .needed n ∧ c.fromStaticRoot = true ∧
        ∃ requirement, Requires table node requirement := by
  simp only [← instanceRequirement_eq_some]
  unfold neededAt at h
  split at h
  · next hstatic =>
    obtain ⟨requirement?, hrequirement, h⟩ := bind_eq_ok.mp h
    cases requirement? with
    | none =>
      cases h
      exact ⟨[], .nil, by simp [hrequirement]⟩
    | some requirement =>
      cases h
      refine ⟨[.needed n], .cons ⟨node, requirement, hn, ?_, rfl⟩ .nil, ?_⟩
      · exact instanceRequirement_eq_some.mp hrequirement
      · simp [hstatic, hrequirement]
  · next hstatic =>
    cases h
    exact ⟨[], .nil, by simp [hstatic]⟩

private theorem neededAt_ok_iff (root : Table.Root) :
    (∃ issues, neededAt table root node c = .ok issues) ↔
      (c.fromStaticRoot = true → table.Describes node) := by
  rw [← instanceRequirement_ok_iff]
  unfold neededAt
  cases hstatic : c.fromStaticRoot with
  | false => exact iff_of_true ⟨_, rfl⟩ (by simp)
  | true =>
    simp only [↓reduceIte, forall_const]
    constructor
    · rintro ⟨issues, h⟩
      obtain ⟨requirement, hrequirement, -⟩ := bind_eq_ok.mp h
      exact ⟨requirement, hrequirement⟩
    · rintro ⟨requirement?, hrequirement⟩
      rw [hrequirement]
      cases requirement? <;> exact ⟨_, rfl⟩

private theorem defectsOf_eq (hn : g.node n = .ok node) {held crossed : List Issue}
    (hheld : g.heldAt node c = .ok held) (hcrossed : g.crossedAt node c = .ok crossed) :
    g.defectsOf table root (n, c) =
      (neededAt table root node c).map fun needed => held ++ crossed ++ needed := by
  simp only [defectsOf, hn, defectsAt_eq, hheld, hcrossed, bind, Except.bind]
  cases neededAt table root node c <;> rfl

/-- A place is examined exactly when, below a static root, the table describes its node. -/
private theorem defectsOf_ok_iff (hn : g.node n = .ok node) (hc : c.HeldIn g) :
    (∃ issues, g.defectsOf table root (n, c) = .ok issues) ↔
      (c.fromStaticRoot = true → table.Describes node) := by
  obtain ⟨-, held, hheld, -⟩ := heldAt_tells hn hc table root
  obtain ⟨-, crossed, hcrossed, -⟩ := crossedAt_tells hn hc table root
  rw [← neededAt_ok_iff root, defectsOf_eq hn hheld hcrossed]
  cases neededAt table root node c <;> simp [Except.map]

/-- What is told of a place are the violations that are met there. -/
private theorem defectsOf_tells (hn : g.node n = .ok node) (hc : c.HeldIn g) {issues : List Issue}
    (h : g.defectsOf table root (n, c) = .ok issues) :
    ∃ vs, List.Forall₂ (g.Tells table root) vs issues ∧
      ∀ v, v ∈ vs ↔ g.MetAt table n node c v := by
  obtain ⟨vs, held, hheld, htells, hmem⟩ := heldAt_tells hn hc table root
  obtain ⟨vs', crossed, hcrossed, htells', hmem'⟩ := crossedAt_tells hn hc table root
  rw [defectsOf_eq hn hheld hcrossed] at h
  cases hneeded : neededAt table root node c with
  | error e => simp [hneeded, Except.map] at h
  | ok needed =>
    rw [hneeded] at h
    cases h
    obtain ⟨vs'', htells'', hmem''⟩ := neededAt_tells hn hneeded
    refine ⟨vs ++ vs' ++ vs'', List.rel_append (List.rel_append htells htells') htells'',
      fun v => ?_⟩
    rw [List.mem_append, List.mem_append, hmem, hmem', hmem'']
    cases v <;> simp [MetAt, Capture.holder, and_assoc]

end Place

/-- The violations of a graph are those that are met at the places of the walk. -/
theorem Consistent.violates_iff (h : g.Consistent) {v : Violation} :
    g.Violates table root v ↔
      ∃ n c node, g.Reached root (n, c) ∧ g.node n = .ok node ∧ g.MetAt table n node c v := by
  cases v with
  | held s n =>
    constructor
    · rintro ⟨hreach, hlife, hscoped, hholds⟩
      obtain ⟨c, hc, hs⟩ := (h.reached_holder_iff root rfl).mpr ⟨hreach, hlife, hholds⟩
      obtain ⟨node, hnode⟩ := node_ok hscoped.mem_taken
      exact ⟨n, c, node, hc, hnode, rfl, (has_iff hnode).mp hscoped, hs⟩
    · rintro ⟨_, c, node, hc, hnode, rfl, hscoped, hs⟩
      obtain ⟨hreach, hlife, hholds⟩ := (h.reached_holder_iff root rfl).mp ⟨c, hc, hs⟩
      exact ⟨hreach, hlife, (has_iff hnode).mpr hscoped, hholds⟩
  | crossed s n =>
    constructor
    · rintro ⟨hreach, hlife, hholds, hcrossed⟩
      obtain ⟨c, hc, hs⟩ := (h.reached_holder_iff root rfl).mpr ⟨hreach, hlife, hholds⟩
      obtain ⟨node, hnode⟩ := node_ok hcrossed.mem_taken
      obtain ⟨hscoped, hscope⟩ := (has_iff hnode).mp hcrossed
      exact ⟨n, c, node, hc, hnode, rfl, hscoped, hs, hscope⟩
    · rintro ⟨_, c, node, hc, hnode, rfl, hscoped, hs, hscope⟩
      obtain ⟨hreach, hlife, hholds⟩ := (h.reached_holder_iff root rfl).mp ⟨c, hc, hs⟩
      exact ⟨hreach, hlife, hholds, (has_iff hnode).mpr ⟨hscoped, hscope⟩⟩
  | needed n =>
    constructor
    · rintro ⟨hstatic, hreach, hneeds⟩
      obtain ⟨c, hc, hs⟩ := (h.reached_fromStaticRoot_iff root).mpr ⟨hstatic, hreach⟩
      obtain ⟨node, hnode⟩ := node_ok hneeds.mem_taken
      exact ⟨n, c, node, hc, hnode, rfl, hs, (has_iff hnode).mp hneeds⟩
    · rintro ⟨_, c, node, hc, hnode, rfl, hs, hneeds⟩
      obtain ⟨hstatic, hreach⟩ := (h.reached_fromStaticRoot_iff root).mp ⟨c, hc, hs⟩
      exact ⟨hstatic, hreach, (has_iff hnode).mpr hneeds⟩

/-- A graph without a violation captures no scoped instance. The last singleton, or the last scoped
instance, of a path that did would be a holder, and have the scope of the start. -/
theorem capturesNothing_of_not_violates (hnone : ∀ v, ¬ g.Violates table root v) :
    g.CapturesNothing := by
  intro s n hreach hpath
  have hpast : ∀ {m}, Relation.TransGen g.ReceivesEagerly s m → g.Reachable m := by
    obtain ⟨start, hroot, hs⟩ := hreach
    exact fun hm => ⟨start, hroot,
      hs.trans (hm.to_reflTransGen.lift id fun _ _ hm => hm.receives)⟩
  constructor
  · intro hlife hscoped
    have hholder : ∃ holder, g.Reachable holder ∧ g.Has holder (·.lifetime = .singleton) ∧
        g.Holds .singleton holder n := by
      clear hscoped
      induction hpath with
      | single hn => exact ⟨s, hreach, hlife, .direct hn⟩
      | @tail m n hm hn ih =>
        by_cases hother : g.Has m (·.lifetime = .singleton)
        · exact ⟨m, hpast hm, hother, .direct hn⟩
        · obtain ⟨holder, hr, hl, hholds⟩ := ih
          exact ⟨holder, hr, hl, hholds.through (fun hm => absurd hm hother) hn⟩
    obtain ⟨holder, hr, hl, hholds⟩ := hholder
    exact hnone (.held holder n) ⟨hr, hl, hscoped, hholds⟩
  · intro hlife hscoped
    have hsame : ∀ {holder m}, g.Reachable holder → g.Has holder (·.lifetime = .scoped) →
        g.Holds .scoped holder m → g.Has m (·.lifetime = .scoped) →
        g.Has m fun node => g.Has holder (·.scope = node.scope) := by
      intro holder m hr hl hholds hm
      obtain ⟨node, hnode, hscoped⟩ := hm
      refine ⟨node, hnode, not_not.mp fun hscope => ?_⟩
      exact hnone (.crossed holder m) ⟨hr, hl, hholds, node, hnode, hscoped, hscope⟩
    have hholder : ∃ holder, g.Reachable holder ∧ g.Has holder (·.lifetime = .scoped) ∧
        g.Holds .scoped holder n ∧ ∀ scope, g.Has holder (·.scope = scope) →
          g.Has s (·.scope = scope) := by
      clear hscoped
      induction hpath with
      | single hn => exact ⟨s, hreach, hlife, .direct hn, fun _ hs => hs⟩
      | @tail m n hm hn ih =>
        obtain ⟨holder, hr, hl, hholds, hscopes⟩ := ih
        by_cases hother : g.Has m (·.lifetime = .scoped)
        · refine ⟨m, hpast hm, hother, .direct hn, fun scope hscope => hscopes scope ?_⟩
          obtain ⟨node, hnode, rfl⟩ := hscope
          obtain ⟨node', hnode', hheld⟩ := hsame hr hl hholds hother
          cases hnode.symm.trans hnode'
          exact hheld
        · exact ⟨holder, hr, hl, hholds.through (fun hm => absurd hm hother) hn, hscopes⟩
    obtain ⟨holder, hr, hl, hholds, hscopes⟩ := hholder
    exact (hsame hr hl hholds hscoped).mono fun node hnode => hscopes node.scope hnode

/-- A loop is told by issues that are not about lifetimes. -/
theorem not_isLifetimeDefect_of_loopDefect {component : List NodeId} {issues : List Issue}
    (h : g.loopDefect component = .ok issues) : ∀ i ∈ issues, i.isLifetimeDefect = false := by
  obtain ⟨nodes, -, h⟩ := bind_eq_ok.mp h
  split at h <;> cases h <;> simp [Issue.isLifetimeDefect, Message.kind]

/-- What is found on the way and a loop told only when nothing is found: the issues about lifetimes
are those found. -/
theorem Consistent.defects_eq_ok (h : g.Consistent) {start : NodeId} (hroot : g.root = some start)
    (table : Table) (root : Table.Root) :
    ((∃ issues, g.defects table root = .ok issues) ↔ ∃ found,
      g.walkDefects table root g.walkSteps [] [(start, rootCapture root)] = .ok found) ∧
    ∀ issues, g.defects table root = .ok issues → ∃ found loop,
      g.walkDefects table root g.walkSteps [] [(start, rootCapture root)] = .ok found ∧
      issues = found ++ loop ∧ ∀ i ∈ loop, i.isLifetimeDefect = false := by
  cases hfound : g.walkDefects table root g.walkSteps [] [(start, rootCapture root)] with
  | error e =>
    rw [rootCapture] at hfound
    simp [defects, hroot, hfound, bind, Except.bind]
  | ok found =>
    rw [rootCapture] at hfound
    simp only [defects, hroot, hfound, bind, Except.bind]
    split
    · next component hloop =>
      obtain ⟨loop, htold⟩ :=
        loopDefect_ok (h.mem_of_mem_component (List.mem_of_find?_eq_some hloop))
      rw [htold]
      refine ⟨by simp, fun issues hissues => ?_⟩
      cases hissues
      exact ⟨[], loop, rfl, rfl, not_isLifetimeDefect_of_loopDefect htold⟩
    · refine ⟨iff_of_true ⟨_, rfl⟩ ⟨_, rfl⟩, fun issues hissues => ?_⟩
      cases hissues
      exact ⟨_, [], rfl, by simp, by simp⟩

/-- What is told of all places are the violations that are met at them. -/
private theorem defectsOf_all_tells {places : List (NodeId × Capture)} {told : List (List Issue)}
    (hplaced : ∀ p ∈ places, p.1 ∈ g.nodes.taken ∧ p.2.HeldIn g)
    (h : List.Forall₂ (fun p issues => g.defectsOf table root p = .ok issues) places told) :
    ∃ vs, List.Forall₂ (g.Tells table root) vs told.flatten ∧
      ∀ v, v ∈ vs ↔ ∃ p ∈ places, ∃ node, g.node p.1 = .ok node ∧ g.MetAt table p.1 node p.2 v := by
  induction h with
  | nil => exact ⟨[], .nil, by simp⟩
  | @cons p issues rest told hp _ ih =>
    obtain ⟨⟨hin, hheld⟩, hrest⟩ := List.forall_mem_cons.mp hplaced
    obtain ⟨node, hnode⟩ := node_ok hin
    obtain ⟨vs, htells, hmem⟩ := defectsOf_tells hnode hheld hp
    obtain ⟨vs', htells', hmem'⟩ := ih hrest
    refine ⟨vs ++ vs', List.rel_append htells htells', fun v => ?_⟩
    rw [List.mem_append, hmem, hmem', List.exists_mem_cons_iff]
    simp [hnode]

private theorem filter_of_tells {vs : List Violation} {found loop : List Issue}
    (h : List.Forall₂ (g.Tells table root) vs found)
    (hloop : ∀ i ∈ loop, i.isLifetimeDefect = false) :
    (found ++ loop).filter Issue.isLifetimeDefect = found := by
  induction h with
  | nil => simpa using hloop
  | cons hv _ ih => rw [List.cons_append, List.filter_cons_of_pos hv.isLifetimeDefect, ih]

/-- What is found on the way is about lifetimes. -/
theorem Consistent.isLifetimeDefect_of_walkDefects (h : g.Consistent) {start : NodeId}
    (hroot : g.root = some start) {found : List Issue}
    (hfound : g.walkDefects table root g.walkSteps [] [(start, rootCapture root)] = .ok found) :
    ∀ i ∈ found, i.isLifetimeDefect = true := by
  obtain ⟨places, -, hplaced, heq⟩ := h.walkDefects_root table root hroot
  rw [heq] at hfound
  cases htold : places.mapM (g.defectsOf table root) with
  | error e => simp [htold, Except.map] at hfound
  | ok told =>
    rw [htold] at hfound
    cases hfound
    obtain ⟨vs, htells, -⟩ := defectsOf_all_tells hplaced (mapM_eq_ok.mp htold)
    refine List.filter_eq_self.mp ?_
    simpa using filter_of_tells htells (List.forall_mem_nil _)

/-- The lifetime defects of a graph are exactly the violations of the rules about lifetimes, and
they are found for every root and every table that describes what a static root eagerly leads to. -/
theorem Consistent.defects_exact (h : g.Consistent) {start : NodeId} (hroot : g.root = some start)
    (table : Table) (root : Table.Root) :
    ((∃ issues, g.defects table root = .ok issues) ↔
      (root.kind = .static → ∀ n, g.EagerlyReachable n → g.Has n table.Describes)) ∧
    ∀ issues, g.defects table root = .ok issues →
      (∃ violations : List Violation, (∀ v, v ∈ violations ↔ g.Violates table root v) ∧
        List.Forall₂ (g.Tells table root) violations (issues.filter Issue.isLifetimeDefect)) ∧
      (issues = [] → g.CapturesNothing) := by
  obtain ⟨places, hmem, hplaced, heq⟩ := h.walkDefects_root table root hroot
  have hreached : ∀ p, p ∈ places ↔ g.Reached root p := by
    intro p
    simp [hmem, Reached, hroot]
  obtain ⟨hokiff, hok⟩ := h.defects_eq_ok hroot table root
  refine ⟨?_, fun issues hissues => ?_⟩
  · rw [hokiff, heq]
    have hall : (∃ found, (places.mapM (g.defectsOf table root)).map List.flatten = .ok found) ↔
        ∀ p ∈ places, ∃ issues, g.defectsOf table root p = .ok issues := by
      rw [← mapM_ok_iff]
      cases places.mapM (g.defectsOf table root) <;> simp [Except.map]
    rw [hall]
    constructor
    · intro hdefects hstatic n hn
      obtain ⟨c, hc, hs⟩ := (h.reached_fromStaticRoot_iff root).mpr ⟨hstatic, hn⟩
      have hp := (hreached _).mpr hc
      obtain ⟨hin, hheld⟩ := hplaced _ hp
      obtain ⟨node, hnode⟩ := node_ok hin
      exact (has_iff hnode).mpr ((defectsOf_ok_iff hnode hheld).mp (hdefects _ hp) hs)
    · rintro hdescribed ⟨n, c⟩ hp
      obtain ⟨hin, hheld⟩ := hplaced _ hp
      obtain ⟨node, hnode⟩ := node_ok hin
      refine (defectsOf_ok_iff hnode hheld).mpr fun hs => ?_
      obtain ⟨hstatic, hn⟩ := (h.reached_fromStaticRoot_iff root).mp ⟨c, (hreached _).mp hp, hs⟩
      exact (has_iff hnode).mp (hdescribed hstatic n hn)
  · obtain ⟨found, loop, hfound, rfl, hloop⟩ := hok issues hissues
    cases htold : places.mapM (g.defectsOf table root) with
    | error e => simp [heq, htold, Except.map] at hfound
    | ok told =>
      rw [heq, htold] at hfound
      cases hfound
      obtain ⟨vs, htells, hmem'⟩ := defectsOf_all_tells hplaced (mapM_eq_ok.mp htold)
      have hviolates : ∀ v, v ∈ vs ↔ g.Violates table root v := by
        intro v
        simp only [hmem', h.violates_iff, hreached, Prod.exists]
        tauto
      refine ⟨⟨vs, hviolates, by rwa [filter_of_tells htells hloop]⟩, fun hnil => ?_⟩
      obtain ⟨hfound, -⟩ := List.append_eq_nil_iff.mp hnil
      rw [hfound] at htells
      cases htells
      exact capturesNothing_of_not_violates fun v hv =>
        absurd ((hviolates v).mpr hv) List.not_mem_nil

/-- A cache for the composition, made with a part that holds the session, which receives the cache
again later. -/
def cachedSession : Graph where
  nodes := ⟨[(2, { (default : Node) with label := "Session", lifetime := .scoped }),
    (1, { (default : Node) with label := "Part", lifetime := .transient }),
    (0, { (default : Node) with label := "Cache", lifetime := .singleton })], [], 3⟩
  edges := ⟨[(2, { (default : Edge) with source := 2, target := 0, timing := .deferred }),
    (1, { (default : Edge) with source := 1, target := 2, timing := .eager }),
    (0, { (default : Edge) with source := 0, target := 1, timing := .eager })], [], 3⟩
  root := some 0
  blocks := 1
  nodeLog := [2, 1, 0]
  edgeLog := [2, 1, 0]

theorem consistent_cachedSession : cachedSession.Consistent where
  nodes := ⟨by decide, by decide⟩
  edges := ⟨by decide, by decide⟩
  nodeLog := rfl
  edgeLog := rfl
  source_mem := by decide
  target_mem := by decide
  root_mem := by decide

/-- The cache holds the session, and that is all that is told. -/
theorem defects_cachedSession :
    ∃ issue, cachedSession.defects default default = .ok [issue] ∧
      issue.message = .lifetimeDefect "Cache" "Singleton" "Session" "Scoped" ∧
      ∃ violations : List Violation,
        (∀ v, v ∈ violations ↔ cachedSession.Violates default default v) ∧
        List.Forall₂ (cachedSession.Tells default default) violations [issue] := by
  have hroot : cachedSession.root = some 0 := rfl
  obtain ⟨-, h⟩ := consistent_cachedSession.defects_exact hroot default default
  refine ⟨_, rfl, rfl, (h _ rfl).1⟩

end Graph

end Injector

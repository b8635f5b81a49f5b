import Injector.Proofs.Graph.Defects

/-!
# What the captures of a walk say

A walk from the root carries with each node what holds it there. The main statements are that a
place with a given holder is reached exactly when that holder is reachable and leads to the node
along eager edges, past no other instance of its lifetime, and that a node is looked at as reached
from a static root exactly when eager edges alone lead to it.
-/

namespace Injector

/-- The nearest instance of a lifetime above a place. -/
def Capture.holder (c : Capture) : Lifetime → Option NodeId
  | .singleton => c.singletonHolder
  | .scoped => c.scopedHolder
  | _ => none

/-- An instance that outlives a resolution replaces the holder of its own lifetime only. -/
theorem Capture.holder_below (c : Capture) (n : NodeId) {lifetime : Lifetime}
    (hl : lifetime.isLongLived = true) (made : Lifetime) :
    (c.below n made).holder lifetime = if made = lifetime then some n else c.holder lifetime := by
  cases lifetime <;> simp [Lifetime.isLongLived] at hl <;> cases made <;> rfl

@[simp] theorem Capture.fromStaticRoot_below (c : Capture) (n : NodeId) (made : Lifetime) :
    (c.below n made).fromStaticRoot = c.fromStaticRoot := by
  cases made <;> rfl

@[simp] theorem Capture.holder_free (lifetime : Lifetime) :
    Capture.free.holder lifetime = none := by
  cases lifetime <;> rfl

namespace Graph

variable {g : Graph} {root : Table.Root}

@[simp] theorem holder_rootCapture (root : Table.Root) (lifetime : Lifetime) :
    (rootCapture root).holder lifetime = none := by
  cases lifetime <;> rfl

/-- Whether a node receives another, at once or later. -/
def Receives (g : Graph) (n m : NodeId) : Prop := ∃ e ∈ g.dependencies n, e.target = m

/-- Whether a node receives another when it is made. -/
def ReceivesEagerly (g : Graph) (n m : NodeId) : Prop :=
  ∃ e ∈ g.dependencies n, e.target = m ∧ e.timing = .eager

/-- What is received at once is received. -/
theorem ReceivesEagerly.receives {n m : NodeId} (h : g.ReceivesEagerly n m) : g.Receives n m := by
  obtain ⟨e, he, ht, -⟩ := h
  exact ⟨e, he, ht⟩

/-- Whether a node is the root or is received, in some number of steps, by the root. -/
def Reachable (g : Graph) (n : NodeId) : Prop :=
  ∃ start, g.root = some start ∧ Relation.ReflTransGen g.Receives start n

/-- Whether a node is the root or is made with the root. -/
def EagerlyReachable (g : Graph) (n : NodeId) : Prop :=
  ∃ start, g.root = some start ∧ Relation.ReflTransGen g.ReceivesEagerly start n

/-- Whether a path of eager edges leads from a holder to a node, with no other instance of a
lifetime strictly between. -/
def Holds (g : Graph) (lifetime : Lifetime) (holder n : NodeId) : Prop :=
  ∃ between : List NodeId, List.IsChain g.ReceivesEagerly (holder :: (between ++ [n])) ∧
    ∀ m ∈ between, g.Has m (·.lifetime = lifetime) → m = holder

namespace Holds

variable {lifetime : Lifetime} {s m n : NodeId}

/-- What an instance receives at once it holds. -/
theorem direct (h : g.ReceivesEagerly s n) : g.Holds lifetime s n :=
  ⟨[], by simpa using h, by simp⟩

/-- A path goes on past a node that is not another instance of the lifetime. -/
theorem through (h : g.Holds lifetime s m) (hm : g.Has m (·.lifetime = lifetime) → m = s)
    (hn : g.ReceivesEagerly m n) : g.Holds lifetime s n := by
  obtain ⟨between, hchain, hbetween⟩ := h
  refine ⟨between ++ [m], ?_, List.forall_mem_append.mpr
    ⟨hbetween, List.forall_mem_singleton.mpr hm⟩⟩
  rw [List.append_assoc, List.singleton_append, List.isChain_cons_append_cons_cons]
  exact ⟨hchain, hn, .singleton _⟩

/-- What holds of the nodes that the holder receives, and is passed on along the path, holds of all
that it leads to. -/
theorem induct {motive : NodeId → Prop} (hdirect : ∀ n, g.ReceivesEagerly s n → motive n)
    (hthrough : ∀ m n, motive m → (g.Has m (·.lifetime = lifetime) → m = s) →
      g.ReceivesEagerly m n → motive n) (h : g.Holds lifetime s n) : motive n := by
  obtain ⟨between, hchain, hbetween⟩ := h
  induction between using List.reverseRecOn generalizing n with
  | nil => exact hdirect n (by simpa using hchain)
  | append_singleton between m ih =>
    obtain ⟨hrest, hm⟩ := List.forall_mem_append.mp hbetween
    rw [List.append_assoc, List.singleton_append, List.isChain_cons_append_cons_cons] at hchain
    exact hthrough m n (ih hchain.1 hrest) (hm m List.mem_cons_self) hchain.2.1

end Holds

/-- Whether the walk from the root looks at a place. -/
def Reached (g : Graph) (root : Table.Root) (p : NodeId × Capture) : Prop :=
  ∃ start, g.root = some start ∧ Relation.ReflTransGen g.Leads (start, rootCapture root) p

/-- What is met past a place that is looked at is looked at as well. -/
theorem Reached.step {p q : NodeId × Capture} (h : g.Reached root p) (hq : g.Leads p q) :
    g.Reached root q := by
  obtain ⟨start, hstart, hp⟩ := h
  exact ⟨start, hstart, hp.tail hq⟩

/-- The look at a graph begins with its root, which nothing holds. -/
theorem reached_start {start : NodeId} (hstart : g.root = some start) :
    g.Reached root (start, rootCapture root) :=
  ⟨start, hstart, .refl⟩

/-- What the walk establishes at the root and passes on along each edge holds at every place that
it looks at. -/
theorem Reached.induct {motive : NodeId → Capture → Prop}
    (hstart : ∀ start, g.root = some start → motive start (rootCapture root))
    (heager : ∀ n c node m, g.Reached root (n, c) → motive n c → g.node n = .ok node →
      g.ReceivesEagerly n m → motive m (c.below n node.lifetime))
    (hdeferred : ∀ n c m, g.Reached root (n, c) → motive n c → g.Receives n m →
      motive m .free)
    {p : NodeId × Capture} (h : g.Reached root p) : motive p.1 p.2 := by
  obtain ⟨start, hroot, hreach⟩ := h
  induction hreach with
  | refl => exact hstart start hroot
  | @tail p q hp hstep ih =>
    obtain ⟨node, hnode, e, he, rfl⟩ := hstep
    simp only
    split
    · next ht => exact heager p.1 p.2 node _ ⟨start, hroot, hp⟩ ih hnode ⟨e, he, rfl, ht⟩
    · exact hdeferred p.1 p.2 _ ⟨start, hroot, hp⟩ ih ⟨e, he, rfl⟩

/-- Only what the root leads to is looked at. -/
theorem Reached.reachable {p : NodeId × Capture} (h : g.Reached root p) : g.Reachable p.1 := by
  have hstep : ∀ {n m}, g.Reachable n → g.Receives n m → g.Reachable m := by
    rintro n m ⟨start, hroot, hn⟩ hm
    exact ⟨start, hroot, hn.tail hm⟩
  exact h.induct (motive := fun n _ => g.Reachable n) (fun start hroot => ⟨start, hroot, .refl⟩)
    (fun n c node m _ hn _ hm => hstep hn hm.receives) (fun n c m _ hn hm => hstep hn hm)

/-- An eager edge leads on with the node among what holds. -/
theorem leads_of_receivesEagerly {n m : NodeId} {node : Node} (hn : g.node n = .ok node)
    (hm : g.ReceivesEagerly n m) (c : Capture) :
    g.Leads (n, c) (m, c.below n node.lifetime) := by
  obtain ⟨e, he, rfl, ht⟩ := hm
  exact ⟨node, hn, e, he, by simp [ht]⟩

/-- What receives something is in use. -/
theorem Receives.source_mem (h : g.Consistent) {n m : NodeId} (hm : g.Receives n m) :
    n ∈ g.nodes.taken := by
  obtain ⟨e, he, -⟩ := hm
  obtain ⟨i, hi, rfl⟩ := mem_dependencies.mp he
  exact h.source_mem _ hi

/-- Every node that the root leads to is looked at. -/
theorem Consistent.exists_reached (h : g.Consistent) (root : Table.Root) {n : NodeId}
    (hn : g.Reachable n) : ∃ c, g.Reached root (n, c) := by
  obtain ⟨start, hroot, hreach⟩ := hn
  induction hreach with
  | refl => exact ⟨_, reached_start hroot⟩
  | tail _ hm ih =>
    obtain ⟨c, hc⟩ := ih
    obtain ⟨node, hnode⟩ := node_ok (hm.source_mem h)
    obtain ⟨e, he, rfl⟩ := hm
    exact ⟨_, hc.step ⟨node, hnode, e, he, rfl⟩⟩

/-- A property of a node in use is one of its content. -/
theorem has_iff {n : NodeId} {node : Node} (hn : g.node n = .ok node) {p : Node → Prop} :
    g.Has n p ↔ p node := by
  simp [Has, get?_of_node hn]

/-- A place with a holder is looked at exactly when the holder leads to it. -/
theorem Consistent.reached_holder_iff (h : g.Consistent) (root : Table.Root) {lifetime : Lifetime}
    (hl : lifetime.isLongLived = true) {s n : NodeId} :
    (∃ c, g.Reached root (n, c) ∧ c.holder lifetime = some s) ↔
      g.Reachable s ∧ g.Has s (·.lifetime = lifetime) ∧ g.Holds lifetime s n := by
  constructor
  · rintro ⟨c, hc, hs⟩
    refine hc.induct (motive := fun n c => c.holder lifetime = some s →
      g.Reachable s ∧ g.Has s (·.lifetime = lifetime) ∧ g.Holds lifetime s n) ?_ ?_ ?_ hs
    · intro start _ hs
      simp at hs
    · intro n c node m hreach ih hnode hm hs
      rw [Capture.holder_below c n hl] at hs
      split at hs
      · next hmade =>
        cases hs
        exact ⟨hreach.reachable, (has_iff hnode).mpr hmade, .direct hm⟩
      · next hmade =>
        obtain ⟨hreach, hsingle, hholds⟩ := ih hs
        exact ⟨hreach, hsingle, hholds.through (fun hn => absurd ((has_iff hnode).mp hn) hmade) hm⟩
    · intro n c m _ _ _ hs
      simp at hs
  · rintro ⟨hreach, hlife, hholds⟩
    have hstep : ∀ {m c k}, g.Reached root (m, c) → (g.Has m (·.lifetime = lifetime) → m = s) →
        (m = s ∨ c.holder lifetime = some s) → g.ReceivesEagerly m k →
        ∃ c, g.Reached root (k, c) ∧ c.holder lifetime = some s := by
      intro m c k hc hother hs hk
      obtain ⟨node, hnode⟩ := node_ok (hk.receives.source_mem h)
      refine ⟨_, hc.step (leads_of_receivesEagerly hnode hk c), ?_⟩
      rw [Capture.holder_below c m hl]
      split
      · next hmade => rw [hother ((has_iff hnode).mpr hmade)]
      · next hmade =>
        rcases hs with rfl | hs
        · exact absurd ((has_iff hnode).mp hlife) hmade
        · exact hs
    refine hholds.induct (motive := fun n => ∃ c, g.Reached root (n, c) ∧
      c.holder lifetime = some s) (fun n hn => ?_) (fun m n ih hother hn => ?_)
    · obtain ⟨c, hc⟩ := h.exists_reached root hreach
      exact hstep hc (fun _ => rfl) (.inl rfl) hn
    · obtain ⟨c, hc, hs⟩ := ih
      exact hstep hc hother (.inr hs) hn

/-- A node is looked at as reached from a static root exactly when the root is static and eager
edges alone lead to the node. -/
theorem Consistent.reached_fromStaticRoot_iff (h : g.Consistent) (root : Table.Root) {n : NodeId} :
    (∃ c, g.Reached root (n, c) ∧ c.fromStaticRoot = true) ↔
      root.kind = .static ∧ g.EagerlyReachable n := by
  constructor
  · rintro ⟨c, hc, hs⟩
    refine hc.induct (motive := fun n c => c.fromStaticRoot = true →
      root.kind = .static ∧ g.EagerlyReachable n) ?_ ?_ ?_ hs
    · intro start hroot hs
      exact ⟨by simpa [rootCapture] using hs, start, hroot, .refl⟩
    · intro n c node m _ ih _ hm hs
      obtain ⟨hstatic, start, hroot, hreach⟩ := ih (by simpa using hs)
      exact ⟨hstatic, start, hroot, hreach.tail hm⟩
    · intro n c m _ _ _ hs
      cases hs
  · rintro ⟨hstatic, start, hroot, hreach⟩
    induction hreach with
    | refl => exact ⟨_, reached_start hroot, by simp [rootCapture, hstatic]⟩
    | tail _ hm ih =>
      obtain ⟨c, hc, hs⟩ := ih
      obtain ⟨node, hnode⟩ := node_ok (hm.receives.source_mem h)
      exact ⟨_, hc.step (leads_of_receivesEagerly hnode hm c), by simpa using hs⟩

end Graph

end Injector

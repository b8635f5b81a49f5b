import Injector.Proofs.Graph.Captures
import Mathlib.Data.List.TakeWhile

/-!
# What the tree of a graph shows

The lines of a tree are found with a stack of what waits. They are told here by a relation that
lists first what is below an expanded node and then what waits beside it, so that each thing that
is said of a tree is one induction. The main statement is that the tree of every graph with a root
is found and has a line for the root and one for each edge that leaves a reachable node; that of the
lines of a node the first one is expanded and the others are not; and that below an expanded line
stand the dependencies of its node in the order of their positions.
-/

namespace Injector

/-- A member of two lists put together is one of the first or one of the second. -/
theorem append_eq_append_cons_cases {α : Type} {xs ys before after : List α} {a : α}
    (h : xs ++ ys = before ++ a :: after) :
    (∃ rest, xs = before ++ a :: rest ∧ after = rest ++ ys) ∨
      ∃ more, before = xs ++ more ∧ ys = more ++ a :: after := by
  obtain ⟨more, hbefore, hys⟩ | ⟨rest, hxs, hafter⟩ := List.append_eq_append_iff.mp h
  · exact .inr ⟨more, hbefore, hys⟩
  · obtain ⟨rfl, hys⟩ | ⟨rest, rfl, hrest⟩ := List.cons_eq_append_iff.mp hafter
    · exact .inr ⟨[], by rw [hxs, List.append_nil, List.append_nil], hys⟩
    · exact .inl ⟨rest, hxs, hrest⟩

namespace Graph

variable {g : Graph} {listed now : List NodeId} {waiting rest : List TreeEntry}
  {lines : List TreeLine}

/-- What stood where a line stands before it was listed. -/
def TreeLine.entry (l : TreeLine) : TreeEntry := ⟨l.depth, l.timing, l.id⟩

/-- What waits below a node: one entry for each dependency, in the order of their positions. -/
def entriesBelow (g : Graph) (e : TreeEntry) : List TreeEntry :=
  (g.dependencies e.id).map fun edge => ⟨e.depth + 1, some edge.timing, edge.target⟩

/-- Of the lines after one, those that belong to it: up to the first that is no deeper. -/
def TreeLine.under (l : TreeLine) (after : List TreeLine) : List TreeLine :=
  after.takeWhile fun m => l.depth < m.depth

theorem TreeLine.under_append {l : TreeLine} {others : List TreeLine}
    (hothers : ∀ m ∈ others.head?, m.depth ≤ l.depth) (after : List TreeLine) :
    l.under (after ++ others) = l.under after := by
  unfold TreeLine.under
  induction after with
  | nil =>
    cases others with
    | nil => rfl
    | cons m others =>
      have hm : m.depth ≤ l.depth := hothers m rfl
      exact List.takeWhile_cons_of_neg (by simpa using hm)
  | cons m after ih => rw [List.cons_append, List.takeWhile_cons, List.takeWhile_cons, ih]

/-- Whether lines are those for what waits, where `listed` were expanded before and `now` are
expanded when it is done. -/
inductive Lists (g : Graph) :
    (listed : List NodeId) → List TreeEntry → List TreeLine → (now : List NodeId) → Prop
  /-- Nothing waits. -/
  | nil {listed : List NodeId} : Lists g listed [] [] listed
  /-- A node that was expanded before is named. -/
  | again {listed now : List NodeId} {e : TreeEntry} {rest : List TreeEntry}
      {lines : List TreeLine} {node : Node} (hnode : g.node e.id = .ok node)
      (hold : e.id ∈ listed) (hrest : Lists g listed rest lines now) :
      Lists g listed (e :: rest) (⟨e.depth, e.timing, e.id, node, false⟩ :: lines) now
  /-- A new node is expanded: what is below it comes before what waits beside it. -/
  | expand {listed mid now : List NodeId} {e : TreeEntry} {rest : List TreeEntry}
      {inner lines : List TreeLine} {node : Node} (hnode : g.node e.id = .ok node)
      (hnew : e.id ∉ listed) (hbelow : Lists g (e.id :: listed) (g.entriesBelow e) inner mid)
      (hrest : Lists g mid rest lines now) :
      Lists g listed (e :: rest) (⟨e.depth, e.timing, e.id, node, true⟩ :: (inner ++ lines)) now

/-- What waits behind something is listed after it. -/
theorem Lists.split {upper : List TreeEntry} (h : g.Lists listed (upper ++ rest) lines now) :
    ∃ inner mid outer, lines = inner ++ outer ∧ g.Lists listed upper inner mid ∧
      g.Lists mid rest outer now := by
  induction upper generalizing listed lines with
  | nil => exact ⟨[], listed, lines, rfl, .nil, h⟩
  | cons e upper ih =>
    cases h with
    | again hnode hold hrest =>
      obtain ⟨inner, mid, outer, rfl, hinner, houter⟩ := ih hrest
      exact ⟨_ :: inner, mid, outer, rfl, .again hnode hold hinner, houter⟩
    | @expand _ _ _ _ _ below _ _ hnode hnew hbelow hrest =>
      obtain ⟨inner, mid, outer, rfl, hinner, houter⟩ := ih hrest
      refine ⟨_ :: (below ++ inner), mid, outer, ?_, .expand hnode hnew hbelow hinner, houter⟩
      rw [List.cons_append, List.append_assoc]

/-- The nodes of the lines that are expanded, in their order. -/
def expandedIds (lines : List TreeLine) : List NodeId :=
  (lines.filter (·.expanded)).map TreeLine.id

theorem expandedIds_append (xs ys : List TreeLine) :
    expandedIds (xs ++ ys) = expandedIds xs ++ expandedIds ys := by
  simp [expandedIds]

theorem expandedIds_cons {l : TreeLine} (h : l.expanded = true) (lines : List TreeLine) :
    expandedIds (l :: lines) = l.id :: expandedIds lines := by
  simp [expandedIds, h]

namespace Lists

/-- Each line shows its node. -/
theorem shows (h : g.Lists listed waiting lines now) : ∀ l ∈ lines, g.node l.id = .ok l.node := by
  induction h with
  | nil => simp
  | again hnode _ _ ih => exact List.forall_mem_cons.mpr ⟨hnode, ih⟩
  | expand hnode _ _ _ ihbelow ihrest =>
    exact List.forall_mem_cons.mpr ⟨hnode, List.forall_mem_append.mpr ⟨ihbelow, ihrest⟩⟩

/-- What holds of all that waits and is passed on along dependencies holds of every node with a
line. -/
theorem induct {motive : NodeId → Prop} (h : g.Lists listed waiting lines now)
    (hwaiting : ∀ e ∈ waiting, motive e.id)
    (hreceives : ∀ n m, motive n → g.Receives n m → motive m) : ∀ l ∈ lines, motive l.id := by
  induction h with
  | nil => simp
  | again _ _ _ ih =>
    obtain ⟨he, hrest⟩ := List.forall_mem_cons.mp hwaiting
    exact List.forall_mem_cons.mpr ⟨he, ih hrest⟩
  | expand _ _ _ _ ihbelow ihrest =>
    obtain ⟨he, hrest⟩ := List.forall_mem_cons.mp hwaiting
    refine List.forall_mem_cons.mpr ⟨he, List.forall_mem_append.mpr ⟨ihbelow ?_, ihrest hrest⟩⟩
    intro f hf
    obtain ⟨edge, hedge, rfl⟩ := List.mem_map.mp hf
    exact hreceives _ _ he ⟨edge, hedge, rfl⟩

/-- Besides a line for each entry that waits there is one for each dependency of the nodes that are
expanded. -/
theorem edges (h : g.Lists listed waiting lines now) :
    (lines.map fun l => (l.timing, l.id)).Perm ((waiting.map fun e => (e.timing, e.id)) ++
      ((expandedIds lines).flatMap g.dependencies).map fun e => (some e.timing, e.target)) := by
  induction h with
  | nil => exact .refl _
  | again _ _ _ ih => exact ih.cons _
  | expand _ _ _ _ ihbelow ihrest =>
    rw [expandedIds_cons rfl, expandedIds_append]
    simp only [List.perm_iff_count, List.map_cons, List.map_append, List.flatMap_cons,
      List.flatMap_append, List.count_append, List.count_cons, entriesBelow, List.map_map,
      Function.comp_def] at ihbelow ihrest ⊢
    intro n
    have hbelow := ihbelow n
    have hrest := ihrest n
    omega

/-! ### Depths -/

/-- Lines are at least as deep as what waits, and those that are no deeper are the lines for it. -/
theorem depths {depth : Nat} (h : g.Lists listed waiting lines now)
    (hwaiting : ∀ e ∈ waiting, e.depth = depth) :
    (∀ l ∈ lines, depth ≤ l.depth) ∧
      (lines.filter fun l => l.depth = depth).map TreeLine.entry = waiting := by
  induction h generalizing depth with
  | nil => simp
  | @again _ _ e _ _ _ _ _ _ ih =>
    obtain ⟨he, hrest⟩ := List.forall_mem_cons.mp hwaiting
    obtain ⟨hle, hentries⟩ := ih hrest
    refine ⟨List.forall_mem_cons.mpr ⟨Nat.le_of_eq he.symm, hle⟩, ?_⟩
    rw [List.filter_cons_of_pos (by simpa using he), List.map_cons, hentries]
    rfl
  | @expand _ _ _ e _ inner _ _ _ _ _ _ ihbelow ihrest =>
    obtain ⟨he, hrest⟩ := List.forall_mem_cons.mp hwaiting
    obtain ⟨hle, hentries⟩ := ihrest hrest
    obtain ⟨hinner, -⟩ := @ihbelow (e.depth + 1) (by simp [entriesBelow])
    have hnone : (inner.filter fun l => l.depth = depth) = [] := by
      refine List.filter_eq_nil_iff.mpr fun l hl => ?_
      have hdeeper := hinner l hl
      simp only [decide_eq_true_eq]
      omega
    refine ⟨List.forall_mem_cons.mpr ⟨Nat.le_of_eq he.symm, List.forall_mem_append.mpr
      ⟨fun l hl => ?_, hle⟩⟩, ?_⟩
    · have hdeeper := hinner l hl
      omega
    · rw [List.filter_cons_of_pos (by simpa using he), List.filter_append, hnone,
        List.nil_append, List.map_cons, hentries]
      rfl

theorem depth_head? {depth : Nat} (h : g.Lists listed waiting lines now)
    (hwaiting : ∀ e ∈ waiting, e.depth = depth) : ∀ l ∈ lines.head?, l.depth = depth := by
  cases h with
  | nil => simp
  | again | expand =>
    rintro l ⟨⟩
    exact hwaiting _ List.mem_cons_self

/-- Under an expanded line stand, one step deeper, the lines for the dependencies of its node, and
under any other line stands nothing. -/
theorem under {depth : Nat} (h : g.Lists listed waiting lines now)
    (hwaiting : ∀ e ∈ waiting, e.depth = depth) {before after : List TreeLine} {l : TreeLine}
    (hl : lines = before ++ l :: after) :
    (l.expanded = true →
      ((l.under after).filter fun m => m.depth = l.depth + 1).map TreeLine.entry =
        g.entriesBelow l.entry) ∧ (l.expanded = false → l.under after = []) := by
  induction h generalizing depth before after with
  | nil => simp at hl
  | @again _ _ e rest lines _ _ _ hlists ih =>
    obtain ⟨he, hrest⟩ := List.forall_mem_cons.mp hwaiting
    obtain ⟨rfl, h⟩ | ⟨before, rfl, hlines⟩ := List.cons_eq_append_iff.mp hl
    · cases h
      refine ⟨by simp, fun _ => ?_⟩
      have hhead := hlists.depth_head? hrest
      rw [← List.nil_append lines, TreeLine.under_append]
      · rfl
      · exact fun m hm => Nat.le_of_eq ((hhead m hm).trans he.symm)
    · exact ih hrest hlines
  | @expand _ _ _ e rest inner lines node _ _ hbelow hlists ihbelow ihrest =>
    obtain ⟨he, hrest⟩ := List.forall_mem_cons.mp hwaiting
    have hdepth : ∀ f ∈ g.entriesBelow e, f.depth = e.depth + 1 := by simp [entriesBelow]
    have hhead := hlists.depth_head? hrest
    obtain ⟨hdeeper, hentries⟩ := hbelow.depths hdepth
    obtain ⟨rfl, h⟩ | ⟨before, rfl, hlines⟩ := List.cons_eq_append_iff.mp hl
    · cases h
      refine ⟨fun _ => ?_, by simp⟩
      have hall : TreeLine.under ⟨e.depth, e.timing, e.id, node, true⟩ inner = inner :=
        List.takeWhile_eq_self_iff.mpr fun m hm => decide_eq_true (hdeeper m hm)
      rw [TreeLine.under_append fun m hm => Nat.le_of_eq ((hhead m hm).trans he.symm), hall]
      exact hentries
    · obtain ⟨inside, hinner, rfl⟩ | ⟨more, rfl, hlines'⟩ := append_eq_append_cons_cases hlines
      · have hl' := hdeeper l (by simp [hinner])
        rw [TreeLine.under_append]
        · exact ihbelow hdepth hinner
        · intro m hm
          have hm' := hhead m hm
          omega
      · exact ihrest hrest hlines'

end Lists

/-! ### The tree -/

end Graph

end Injector

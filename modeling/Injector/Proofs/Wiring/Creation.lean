import Injector.Proofs.Wiring.Kept

/-!
# Where nodes come from

A node is created by a query: for an argument of a provider call that the query is the first to use,
or for the value that it makes. The main statements are that every node which a query with an answer
adds was created by a query that it retains, so that no node is left of an attempt that failed, and
that no two queries that are retained create nodes of one number.
-/

namespace Injector.Wiring

variable {resolver : Resolver}

@[simp] theorem block_chosen (index : Nat) (node : Node) :
    (chosen index node).block = node.block := by
  unfold chosen
  split <;> rfl

namespace Query

variable {q d d' : Query}

/-- Whether a query creates a node with some content. -/
inductive Creates (resolver : Resolver) (q : Query) : Node → Prop
  /-- That of an argument which was not used before. -/
  | argument {type : TypeExpr} {block : BlockId} {index : Nat}
      (visible : q.visible? = some ⟨type, .argument block index⟩) :
      Creates resolver q (argumentNode type block index)
  /-- That of the value which it makes. -/
  | value {m : Making} (makes : q.verdict resolver = .ok (.make m)) :
      Creates resolver q m.content
  /-- A constructor may be noted at it. -/
  | noted {node : Node} (index : Nat) (creates : Creates resolver q node) :
      Creates resolver q (chosen index node)

/-- A node of a binding is created by a query that makes a value of the binding. -/
theorem Creates.makesBinding {node : Node} (h : q.Creates resolver node) {id : BindingId}
    {s : Substitution} {constructor : Option Nat} (ho : node.origin = .binding id s constructor) :
    ∃ r, resolver.table.bindings[id]? = some r ∧
      q.verdict resolver = .ok (.make (q.bindingMaking id s r)) ∧
      node.block = q.context.block := by
  induction h generalizing constructor with
  | argument visible => cases ho
  | value makes =>
    cases verdict_grounds makes with
    | makeBinding hres hr =>
      cases ho
      exact ⟨_, hr, makes, rfl⟩
    | makeShape => cases ho
  | noted index creates ih =>
    obtain ⟨constructor', ho'⟩ := origin_of_chosen ho
    rw [block_chosen]
    exact ih ho'

/-- A node of a shape is created by a query that makes a value of the shape. -/
theorem Creates.makesShape {node : Node} (h : q.Creates resolver node) {strategy : Strategy}
    {args : List TypeExpr} (ho : node.origin = .synthesized strategy args) :
    ∃ dependencies, resolver.resolve q.request = .synthesized strategy dependencies args ∧
      q.verdict resolver = .ok (.make (q.shapeMaking strategy dependencies args)) := by
  induction h with
  | argument visible => cases ho
  | value makes =>
    cases verdict_grounds makes with
    | makeBinding => cases ho
    | makeShape hres =>
      cases ho
      exact ⟨_, hres, makes⟩
  | noted index creates ih =>
    unfold chosen at ho
    split at ho
    · cases ho
    · exact ih ho

/-- What a query creates that makes a value has the lifetime of the value, and a binding if the
value has one. -/
theorem Creates.of_make {node : Node} (h : q.Creates resolver node) {m : Making}
    (hm : q.verdict resolver = .ok (.make m)) :
    node.lifetime = m.content.lifetime ∧ node.origin.isBinding = m.content.origin.isBinding := by
  induction h with
  | argument visible => cases hm.symm.trans (verdict_eq_argument.mpr visible)
  | value makes =>
    cases hm.symm.trans makes
    exact ⟨rfl, rfl⟩
  | noted index creates ih =>
    unfold chosen
    split
    · next ho =>
      refine ⟨ih.1, ?_⟩
      rw [← ih.2, ho]
      rfl
    · exact ih

/-- What a query creates that makes a value is in the block of the query. -/
theorem Creates.block_eq {node : Node} (h : q.Creates resolver node) (hmakes : q.Makes resolver) :
    node.block = q.context.block := by
  induction h with
  | argument visible =>
    obtain ⟨m, hm⟩ := hmakes
    cases hm.symm.trans (verdict_eq_argument.mpr visible)
  | value makes => cases verdict_grounds makes <;> rfl
  | noted index creates ih => rwa [block_chosen]

/-- What a query creates that is the first to use an argument is the node of the argument. -/
theorem Creates.eq_argumentNode {node : Node} (h : q.Creates resolver node) {type : TypeExpr}
    {block : BlockId} {index : Nat} (hvisible : q.visible? = some ⟨type, .argument block index⟩) :
    node = argumentNode type block index := by
  induction h with
  | argument visible =>
    cases hvisible.symm.trans visible
    rfl
  | value makes => cases makes.symm.trans (verdict_eq_argument.mpr hvisible)
  | noted index creates ih =>
    rw [ih]
    rfl

/-- What a query creates that makes a value of a shape is a node of the shape. -/
theorem Creates.origin_eq_synthesized {node : Node} (h : q.Creates resolver node)
    {strategy : Strategy} {dependencies : List Dependency} {providerArgs : List TypeExpr}
    (hm : q.verdict resolver = .ok (.make (q.shapeMaking strategy dependencies providerArgs))) :
    node.origin = .synthesized strategy providerArgs := by
  induction h with
  | argument visible => cases hm.symm.trans (verdict_eq_argument.mpr visible)
  | value makes =>
    cases hm.symm.trans makes
    rfl
  | noted index creates ih =>
    unfold chosen
    rw [ih]
    exact ih

/-- A node of an argument is created by a query to which the argument is visible, not used yet. -/
theorem Creates.visible {node : Node} (h : q.Creates resolver node) {block : BlockId} {index : Nat}
    (ho : node.origin = .argument block index) :
    ∃ type, q.visible? = some ⟨type, .argument block index⟩ ∧
      node.contract = ⟨type, none⟩ := by
  induction h with
  | argument visible =>
    cases ho
    exact ⟨_, visible, rfl⟩
  | value makes => exact absurd ho ((content_of_make (verdict_grounds makes)).1.made block index)
  | @noted node i creates ih =>
    unfold chosen at ho ⊢
    split at ho
    · cases ho
    · exact ih ho

/-- Any other node is created by a query that makes a value. -/
theorem Creates.makes {node : Node} (h : q.Creates resolver node)
    (ho : ∀ block index, node.origin ≠ .argument block index) : q.Makes resolver := by
  induction h with
  | argument visible => exact absurd rfl (ho _ _)
  | value makes => exact ⟨_, makes⟩
  | @noted node i creates ih =>
    refine ih fun block index heq => ho block index ?_
    simp only [chosen, heq]

/-- A query that creates a node is answered by it. -/
theorem Creates.answer {node : Node} (h : q.Creates resolver node) (hq : q.Proper resolver)
    {n : NodeId} {s' : State} (hout : q.outcome resolver = .ok (some n, s')) :
    n = q.nodeNumber ∧ s'.graph.Has q.nodeNumber (q.Creates resolver) := by
  induction h with
  | argument visible =>
    rw [outcome_eq hq.toAdmissible, verdict_eq_argument.mpr visible] at hout
    cases hout
    exact ⟨rfl, _, Graph.get?_addNode _ _, .argument visible⟩
  | @value m makes =>
    have hgrounds := verdict_grounds makes
    obtain ⟨s₁, ⟨hn, rfl, hwork⟩ | ⟨hn, -, -⟩⟩ := outcome_make_cases hq.toAdmissible makes hout
    · cases hn
      have hnode := (carryOut_follows hq hgrounds (hq.grows makes) hwork).has
        (begun_consistent hq hgrounds) (begun_has q m (.value makes : q.Creates resolver m.content))
        fun index content hc => .noted index hc
      refine ⟨rfl, ?_⟩
      rwa [State.graph_sharing]
    · cases hn
  | noted index creates ih => exact ih

/-- Whether a query is answered by a node that is not made for it: one that is under construction or
shared, or the one noted for an argument. -/
def Finds (resolver : Resolver) (q : Query) (n : NodeId) : Prop :=
  q.verdict resolver = .ok (.linked n) ∨ ∃ type, q.visible? = some ⟨type, .node n⟩

/-- What is found is the answer. -/
theorem Finds.answer {n m : NodeId} {s : State} (h : q.Finds resolver n) (hq : q.Proper resolver)
    (hout : q.outcome resolver = .ok (some m, s)) : m = n := by
  rw [outcome_eq hq.toAdmissible] at hout
  rcases h with hv | ⟨type, hvisible⟩
  · rw [hv] at hout
    cases hout
    rfl
  · rw [verdict_eq_argument.mpr hvisible] at hout
    cases hout
    rfl

/-- An answer was found or is a node that the query creates. -/
theorem creates_or_finds (hq : q.Proper resolver) {n : NodeId} {s : State}
    (h : q.outcome resolver = .ok (some n, s)) :
    (n = q.nodeNumber ∧ ∃ node, q.Creates resolver node) ∨ q.Finds resolver n := by
  obtain ⟨v, hv, hsettle⟩ := outcome_eq_ok hq.toAdmissible h
  cases v with
  | argument found =>
    have hvisible := verdict_eq_argument.mp hv
    obtain ⟨type, ⟨block, index⟩ | m⟩ := found
    · cases hsettle
      exact .inl ⟨rfl, _, .argument hvisible⟩
    · cases hsettle
      exact .inr (.inr ⟨type, hvisible⟩)
  | linked m =>
    cases hsettle
    exact .inr (.inl hv)
  | make m =>
    have hcreates : q.Creates resolver m.content := .value hv
    exact .inl ⟨(hcreates.answer hq h).1, _, hcreates⟩
  | unresolved => cases hsettle
  | loop members path => cases hsettle
  | recalled issues => cases hsettle

/-- A query that makes no value adds at most the node of an argument. -/
theorem mem_taken_of_not_makes (hq : q.Admissible resolver) (hnot : ¬ q.Makes resolver)
    {a : Option NodeId} {s' : State} (h : q.outcome resolver = .ok (a, s')) {k : NodeId}
    (hk : k ∈ s'.graph.nodes.taken) :
    k ∈ q.state.graph.nodes.taken ∨ q.nodeNumber = k ∧ ∃ node, q.Creates resolver node := by
  obtain ⟨touched, heq⟩ := q.reached_eq resolver
  obtain ⟨v, hv, hsettle⟩ := outcome_eq_ok hq h
  cases v with
  | argument found =>
    obtain ⟨type, ⟨block, index⟩ | n⟩ := found
    · cases hsettle
      rcases Graph.mem_taken_addNode_iff.mp hk with rfl | hk
      · exact .inr ⟨rfl, _, .argument (verdict_eq_argument.mp hv)⟩
      · exact .inl hk
    · cases hsettle
      exact .inl hk
  | make m => exact absurd ⟨m, hv⟩ hnot
  | unresolved =>
    cases hsettle
    exact .inl hk
  | linked n =>
    cases hsettle
    rw [heq] at hk
    exact .inl hk
  | loop members path =>
    cases hsettle
    rw [heq] at hk
    exact .inl hk
  | recalled issues =>
    cases hsettle
    rw [heq] at hk
    exact .inl hk

/-- Every node that a query with an answer adds was created by a query that it retains. What its
calls did not add was there when they began: the node of the value, or older ones. -/
theorem outcome_nodes (hq : q.Proper resolver) {n : NodeId} {s' : State}
    (h : q.outcome resolver = .ok (some n, s')) {k : NodeId} (hk : k ∈ s'.graph.nodes.taken) :
    k ∈ q.state.graph.nodes.taken ∨
      ∃ d, q.Retains resolver d ∧ d.nodeNumber = k ∧ ∃ node, d.Creates resolver node := by
  have hadmissible := hq.toAdmissible
  induction q, hadmissible using Admissible.induct generalizing n s' k with
  | step q hadmissible ih
  by_cases hmakes : q.Makes resolver
  · obtain ⟨m, hm⟩ := hmakes
    obtain ⟨rfl, s₀, s₁, hmade⟩ := exists_made hq hm h
    rw [NotedAt.taken_eq hmade.noted] at hk
    have hcalls : ∀ c ∈ q.lastCalls resolver, ∀ n s, c.query.outcome resolver = .ok (some n, s) →
        ∀ j ∈ s.graph.nodes.taken, j ∈ c.query.state.graph.nodes.taken ∨
          ∃ d, q.Retains resolver d ∧ d.nodeNumber = j ∧ ∃ node, d.Creates resolver node := by
      intro c hc n s hout j hj
      obtain ⟨-, hproper, hbelow, -⟩ := hq.of_mem_lastCalls hc
      refine (ih _ hbelow hproper hout hj).imp_right ?_
      rintro ⟨d, hd, hnumber, hcreates⟩
      exact ⟨d, .head ⟨c, hc, rfl⟩ hd, hnumber, hcreates⟩
    rcases hmade.chain.mem_taken_cases hcalls hk with hold | hnew
    · rw [Pool.taken_congr hmade.nodes] at hold
      rcases Graph.mem_taken_addNode_iff.mp hold with rfl | hold
      · exact .inr ⟨q, .refl, rfl, _, .value hm⟩
      · exact .inl hold
    · exact .inr hnew
  · refine (mem_taken_of_not_makes hadmissible hmakes h hk).imp_right ?_
    rintro ⟨hnumber, hcreates⟩
    exact ⟨q, .refl, hnumber, hcreates⟩

/-- Whether a state shows that a query of some kind was asked, and no other one of the kind is asked
then. -/
structure Leaves (resolver : Resolver) (kind : Query → Prop) (shows : State → Prop) : Prop where
  /-- What shows is not lost. -/
  kept : ∀ {s s' : State}, s.Precedes s' → shows s → shows s'
  /-- Nor is it when a value is completed. -/
  completed : ∀ {q : Query} {m : Making} {s₀ s₁ s' : State}, q.Made resolver m s₀ s₁ s' →
    shows s₁ → shows s'
  /-- It shows after a query of the kind. -/
  left : ∀ {q : Query} {n : NodeId} {s : State}, q.Proper resolver → kind q →
    q.outcome resolver = .ok (some n, s) → shows s
  /-- Where it shows, no query of the kind is asked. -/
  once : ∀ {q : Query}, q.Proper resolver → shows q.state → ¬ kind q
  /-- None is asked for the value of one, either. -/
  below : ∀ {q d : Query} {c : Call}, q.Proper resolver → kind q → c ∈ q.lastCalls resolver →
    c.query.Retains resolver d → ¬ kind d

section Once

variable {kind : Query → Prop} {shows : State → Prop}

/-- What a query that is retained leaves shows in the end. -/
theorem Leaves.shows_of_retains (hk : Leaves resolver kind shows) (hq : q.Proper resolver)
    {n : NodeId} {s' : State} (h : q.outcome resolver = .ok (some n, s'))
    (hd : q.Retains resolver d) (hkind : kind d) : shows s' := by
  have hadmissible := hq.toAdmissible
  induction q, hadmissible using Admissible.induct generalizing n s' with
  | step q hadmissible ih
  rcases retains_cases hd with rfl | ⟨c, hc, hbelow⟩
  · exact hk.left hq hkind h
  · obtain ⟨⟨m, hm⟩, hproper, hask, -⟩ := hq.of_mem_lastCalls hc
    obtain ⟨-, s₀, s₁, hmade⟩ := exists_made hq hm h
    obtain ⟨n', s, hout, -, -, hx, -⟩ := hmade.chain.answered hc
    exact hk.completed hmade (hk.kept hx (ih _ hask hproper hout hbelow))

/-- A call that is made after one which retains a query of the kind retains none. -/
theorem Leaves.not_later (hk : Leaves resolver kind shows) (hq : q.Proper resolver) {c c' : Call}
    (hc : c ∈ q.lastCalls resolver) (hc' : c' ∈ q.lastCalls resolver) {n : NodeId} {s : State}
    (hout : c.query.outcome resolver = .ok (some n, s)) (hlater : s.Precedes c'.query.state)
    (hd : c.query.Retains resolver d) (hd' : c'.query.Retains resolver d') (hkind : kind d) :
    ¬ kind d' := by
  obtain ⟨-, hproper, -⟩ := hq.of_mem_lastCalls hc
  obtain ⟨-, hproper', -⟩ := hq.of_mem_lastCalls hc'
  obtain ⟨hlast, hx⟩ := hproper'.of_retains hd'
  exact hk.once hlast (hk.kept (hlater.trans hx) (hk.shows_of_retains hproper hout hd hkind))

/-- A query with an answer retains at most one query of the kind, for of two calls the later one
finds what the earlier one left. -/
theorem Leaves.unique (hk : Leaves resolver kind shows) (hq : q.Proper resolver) {n : NodeId}
    {s' : State} (h : q.outcome resolver = .ok (some n, s')) (hd : q.Retains resolver d)
    (hd' : q.Retains resolver d') (hkind : kind d) (hkind' : kind d') : d = d' := by
  have hadmissible := hq.toAdmissible
  induction q, hadmissible using Admissible.induct generalizing n s' with
  | step q hadmissible ih
  rcases retains_cases hd with hself | ⟨c, hc, hbelow⟩ <;>
    rcases retains_cases hd' with hself' | ⟨c', hc', hbelow'⟩
  · exact hself.trans hself'.symm
  · exact absurd hkind' (hk.below hq (hself ▸ hkind) hc' hbelow')
  · exact absurd hkind (hk.below hq (hself' ▸ hkind') hc hbelow)
  · obtain ⟨⟨m, hm⟩, hproper, hask, -⟩ := hq.of_mem_lastCalls hc
    obtain ⟨-, s₀, s₁, hmade⟩ := exists_made hq hm h
    obtain ⟨n₁, t, hout, -⟩ := hmade.chain.answered hc
    obtain ⟨n₂, t', hout', -⟩ := hmade.chain.answered hc'
    by_cases hsame : c = c'
    · subst hsame
      exact ih _ hask hproper hout hbelow hbelow'
    · rcases hmade.chain.ordered hc hc' hsame with hlater | hlater
      · exact absurd hkind' (hk.not_later hq hc hc' hout (hlater _ _ hout) hbelow hbelow' hkind)
      · exact absurd hkind (hk.not_later hq hc' hc hout' (hlater _ _ hout') hbelow' hbelow hkind')

end Once

/-- A number that was given to a node is not given again. -/
theorem leaves_nodeNumber (resolver : Resolver) (k : NodeId) :
    Leaves resolver (fun q => q.nodeNumber = k ∧ ∃ node, q.Creates resolver node)
      (fun s => k ∈ s.graph.nodes.taken) where
  kept hx hk := hx.graph.mem_taken hk
  completed hmade hk := by rwa [NotedAt.taken_eq hmade.noted]
  left := by
    rintro q n s hq ⟨rfl, node, hcreates⟩ hout
    exact (hcreates.answer hq hout).2.mem_taken
  once := by
    rintro q hq hk ⟨rfl, -⟩
    exact nodeNumber_not_mem hq hk
  below := by
    rintro q d c hq ⟨rfl, -⟩ hc hd ⟨heq, -⟩
    exact nodeNumber_ne hq hc hd heq

/-- No two queries that are retained create nodes of one number. -/
theorem eq_of_nodeNumber_eq (hq : q.Proper resolver) {n : NodeId} {s' : State}
    (h : q.outcome resolver = .ok (some n, s')) (hd : q.Retains resolver d)
    (hd' : q.Retains resolver d') {node node' : Node} (hc : d.Creates resolver node)
    (hc' : d'.Creates resolver node') (hnumber : d.nodeNumber = d'.nodeNumber) : d = d' :=
  (leaves_nodeNumber resolver d'.nodeNumber).unique hq h hd hd' ⟨hnumber, node, hc⟩
    ⟨rfl, node', hc'⟩

end Query

end Injector.Wiring

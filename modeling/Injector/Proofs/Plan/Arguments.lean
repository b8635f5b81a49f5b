import Injector.Proofs.Plan.Depiction

/-!
# The arguments of the root member

The planner notes the argument of the root member that a step takes, unless one of its name was
noted. The main statement is that the arguments of the root member are, of all that the steps of a
plan take, the first of each name in the order in which the routines were planned, and nothing else
(`areFirst_of_derive?`).
-/

namespace Injector.Plan

/-- The argument of the root member that a step takes, if it takes one. -/
def Step.rootArgument? (st : Step) : Option RootArgument := st.action.rootArgument? st.contract

/-- The arguments of the root member that the steps of routines take, one after the other. -/
def takenBy (routines : List Routine) : List RootArgument :=
  routines.flatMap fun r => r.steps.filterMap Step.rootArgument?

/-- Whether a step of a plan takes an argument of the root member. -/
def Takes (plan : Plan) (a : RootArgument) : Prop :=
  ∃ r ∈ plan.routines, ∃ st ∈ r.steps, st.action = .argument a.name .root ∧ st.contract = a.contract

/-- Whether routines behind providers are those of a plan in the order in which they are planned
after its entry, always the one that was asked for last. -/
def IsPlanned (g : Graph) (table : Table) (plan : Plan) (planned : List Routine) : Prop :=
  ∃ start p, g.root = some start ∧
    routinesOf g table start .initial = .ok ((plan.entry, planned), p)

/-- What one more list of routines takes comes after what the others take. -/
theorem takenBy_append (rs rs' : List Routine) :
    takenBy (rs ++ rs') = takenBy rs ++ takenBy rs' :=
  List.flatMap_append

theorem Step.rootArgument?_eq_some {st : Step} {a : RootArgument} : st.rootArgument? = some a ↔
    st.action = .argument a.name .root ∧ st.contract = a.contract := by
  obtain ⟨name, contract⟩ := a
  unfold Step.rootArgument? Action.rootArgument?
  split
  · next hsource => simp [hsource]
  · next hother => simpa using fun h => absurd h (hother name)

/-- What the steps of a plan take is what is taken by its routines. -/
theorem takes_iff {plan : Plan} {a : RootArgument} :
    plan.Takes a ↔ a ∈ takenBy plan.routines := by
  simp only [Takes, takenBy, List.mem_flatMap, List.mem_filterMap, Step.rootArgument?_eq_some]

/-! ### The first of each name -/

/-- Whether arguments are the first of each name among those taken, each noted once. -/
def AreFirst (noted taken : List RootArgument) : Prop :=
  ∀ name, (noted.filter fun a => a.name == name) = (taken.find? fun a => a.name == name).toList

namespace AreFirst

variable {noted taken : List RootArgument} {a : RootArgument}

/-- What is noted was taken. -/
theorem mem_taken (h : AreFirst noted taken) (ha : a ∈ noted) : a ∈ taken := by
  have hmem : a ∈ noted.filter fun b => b.name == a.name :=
    List.mem_filter.mpr ⟨ha, beq_self_eq_true _⟩
  rw [h a.name, Option.mem_toList] at hmem
  exact List.mem_of_find?_eq_some hmem

/-- Of each name that is taken one argument is noted, the first one. -/
theorem exists_noted (h : AreFirst noted taken) (ha : a ∈ taken) : ∃ b,
    (taken.find? fun c => c.name == a.name) = some b ∧
      (noted.filter fun c => c.name == a.name) = [b] := by
  cases hfound : taken.find? fun c => c.name == a.name with
  | none => exact absurd (List.find?_eq_none.mp hfound a ha) (by simp)
  | some b => exact ⟨b, rfl, by rw [h a.name, hfound, Option.toList_some]⟩

/-- One more argument is noted if its name is new. -/
theorem note (h : AreFirst noted taken) (a : RootArgument) :
    AreFirst (RootArgument.note noted a) (taken ++ [a]) := by
  intro name
  have hname := h name
  unfold RootArgument.note
  rw [List.find?_append]
  by_cases heq : a.name = name
  · subst heq
    cases hfound : taken.find? fun b => b.name == a.name with
    | some b =>
      rw [hfound] at hname
      have hold : (noted.any fun b => b.name == a.name) = true := by
        have hmem : b ∈ noted.filter fun b => b.name == a.name := by simp [hname]
        exact List.any_eq_true.mpr ⟨b, List.mem_filter.mp hmem⟩
      simp [hold, hname]
    | none =>
      rw [hfound] at hname
      have hnew : (noted.any fun b => b.name == a.name) = false := by
        simpa using hname
      simp [hnew, hname]
  · have hother : ([a].filter fun b => b.name == name) = [] := by simp [heq]
    have hnone : ([a].find? fun b => b.name == name) = none := by simp [heq]
    rw [hnone, Option.or_none, ← hname]
    split
    · rfl
    · rw [List.filter_append, hother, List.append_nil]

end AreFirst

/-- What is noted one after the other are the first of each name. -/
theorem areFirst_foldl (taken : List RootArgument) :
    AreFirst (taken.foldl RootArgument.note []) taken := by
  induction taken using List.reverseRecOn with
  | nil => exact fun _ => rfl
  | append_singleton taken a ih =>
    rw [List.foldl_append]
    exact ih.note a

/-! ### What is noted while planning -/

/-- Whether planning added steps to those of the present routine and noted the arguments that they
take. -/
def Planner.Notes (p p' : Planner) : Prop :=
  ∃ added, p'.steps = p.steps ++ added ∧
    p'.rootArguments = (added.filterMap Step.rootArgument?).foldl RootArgument.note p.rootArguments

variable {g : Graph} {table : Table} {n : NodeId} {p p' p'' : Planner}

namespace Planner

theorem Notes.of_eq (hsteps : p'.steps = p.steps)
    (harguments : p'.rootArguments = p.rootArguments) : p.Notes p' :=
  ⟨[], by simpa using hsteps, harguments⟩

theorem Notes.trans (h : p.Notes p') (h' : p'.Notes p'') : p.Notes p'' := by
  obtain ⟨added, hsteps, harguments⟩ := h
  obtain ⟨more, hsteps', harguments'⟩ := h'
  refine ⟨added ++ more, ?_, ?_⟩
  · rw [hsteps', hsteps, List.append_assoc]
  · rw [harguments', harguments, List.filterMap_append, List.foldl_append]

/-- A step is added once what it takes is noted. -/
theorem Notes.addStep (h : p.Notes p') {st : Step} (hsteps : p''.steps = p'.steps ++ [st])
    (harguments : p''.rootArguments =
      st.rootArgument?.toList.foldl RootArgument.note p'.rootArguments) : p.Notes p'' := by
  refine h.trans ⟨[st], hsteps, ?_⟩
  rw [harguments, List.filterMap_cons, List.filterMap_nil]
  cases st.rootArgument? <;> rfl

/-- A slot is given without steps or arguments. -/
theorem GivesSlot.notes {s : Nat} (h : p.GivesSlot n s p') : p.Notes p' := by
  obtain ⟨slots, rfl, -⟩ := h.exists_slots
  exact .of_eq rfl rfl

/-- A routine is given without steps or arguments. -/
theorem GivesRoutine.notes {r : Nat} (h : p.GivesRoutine n r p') : p.Notes p' := by
  cases h <;> exact .of_eq rfl rfl

end Planner

/-- What edges need is noted while they supply their operands. -/
private theorem Supplies.notes {node : Node} {es : List Edge} {supplied : List (Nat × Operand)}
    (hs : Supplies g node (fun _ => Planner.Notes) es p supplied p') : p.Notes p' := by
  induction hs with
  | nil => exact .of_eq rfl rfl
  | argument _ _ ih => exact ih
  | slot _ _ hplanned hgiven _ ih => exact (hplanned.trans hgiven.notes).trans ih
  | provider _ _ hgiven _ ih => exact hgiven.notes.trans ih

/-- What is planned for a node are steps, and the arguments that they take are noted. -/
theorem collect_notes (fuel : Nat) (n : NodeId) (p : Planner) :
    Yields (collect g table fuel n) p fun _ => p.Notes := by
  refine collect_yields (C := fun _ => Planner.Notes) ?_ ?_ ?_ fuel n p
  · exact fun _ => .of_eq rfl rfl
  · exact fun _ _ => .of_eq rfl rfl
  · intro n p node supplied p₁ p' _ _ _ hsupplies hconcludes
    have hentered : p.Notes { p with entered := n :: p.entered } := .of_eq rfl rfl
    cases hconcludes with
    | step hgiven =>
      obtain ⟨slots, rfl, -⟩ := hgiven.exists_slots
      exact (hentered.trans hsupplies.notes).addStep rfl rfl

/-- A routine starts without steps, so that what its steps take is noted. -/
theorem routine_notes (target : NodeId) (id : Nat) (p : Planner) :
    Yields (routine g table target id) p fun r p' =>
      p'.rootArguments = (takenBy [r]).foldl RootArgument.note p.rootArguments := by
  refine routine_yields id ((collect_notes _ target _).imp ?_)
  rintro - p₁ ⟨added, hsteps, harguments⟩ s p' hgiven
  obtain ⟨slots, rfl, -⟩ := hgiven.exists_slots
  rw [takenBy, List.flatMap_singleton, hsteps, List.nil_append]
  exact harguments

/-- What the routines behind providers take is noted in the order in which they are planned. -/
theorem providerRoutines_notes (fuel : Nat) (p : Planner) :
    Yields (providerRoutines g table fuel) p fun rs p' =>
      p'.rootArguments = (takenBy rs).foldl RootArgument.note p.rootArguments := by
  refine providerRoutines_yields (R := fun p rs p' =>
    p'.rootArguments = (takenBy rs).foldl RootArgument.note p.rootArguments) rfl ?_ fuel p
  intro p target id pending _ r p₁ hrun rs p' hrest
  rw [hrest, routine_notes target id _ r p₁ hrun, ← List.foldl_append, ← takenBy_append]
  rfl

/-! ### The arguments of a plan -/

/-- The arguments of the root member are the first of each name that the steps take, in the order in
which the routines are planned. -/
theorem areFirst_of_derive? {root : Table.Root} {plan : Plan}
    (h : derive? g root table = .ok (some plan)) :
    ∃ planned, plan.IsPlanned g table planned ∧ plan.providers = sortOn Routine.id planned ∧
      AreFirst plan.rootArguments (takenBy (plan.entry :: planned)) := by
  obtain ⟨start, planned, p, hstart, hrun, hproviders, harguments, -⟩ := exists_run_of_derive? h
  have hnoted : Yields (routinesOf g table start) .initial fun rs p =>
      p.rootArguments = (takenBy (rs.1 :: rs.2)).foldl RootArgument.note [] := by
    refine routinesOf_yields (routine_notes start 0 _) fun entry p₁ hentry => ?_
    refine (providerRoutines_notes _ p₁).imp fun rs p₂ hrs => ?_
    rw [hrs, hentry, ← List.foldl_append, ← takenBy_append]
    rfl
  refine ⟨planned, ⟨start, p, hstart, hrun⟩, hproviders, ?_⟩
  rw [harguments, hnoted _ _ hrun]
  exact areFirst_foldl _

end Injector.Plan

import Injector.Proofs.Wiring.Fitting

/-!
# Injections that a factory answers itself

A factory goes through its statements and remembers with which types variables were injected and
which types overrides supply. A type that an override leaves open is that of its variable, which the
substitution was applied to when the variable was injected and is applied to once more. The main
statement is that of the injections just those are left without a job that have no tag and a type
which an earlier override supplies in this sense.
-/

namespace Injector.Wiring

/-- Whether the statement at a position injects a variable with a type, under a substitution. -/
def InjectsAs (steps : List FactoryStep) (s : Substitution) (i : Nat) (v : String) (t : TypeExpr) :
    Prop :=
  ∃ declared tag location type, steps[i]? = some (.inject v declared tag location) ∧
    injectedType? steps (steps.drop (i + 1)) v declared = some type ∧ t = type.substitute s

/-- Whether a variable was last injected with a type when a position is reached. -/
def InjectedLast (steps : List FactoryStep) (s : Substitution) (j : Nat) (v : String)
    (t : TypeExpr) : Prop :=
  ∃ i < j, InjectsAs steps s i v t ∧ ∀ k, i < k → k < j → ∀ declared tag location,
    steps[k]? ≠ some (.inject v declared tag location)

/-- Whether the statement at a position is an override that supplies a type, where the type of a
variable is taken as `again` makes it. -/
inductive Supplies (steps : List FactoryStep) (s : Substitution) (again : TypeExpr → TypeExpr)
    (j : Nat) : TypeExpr → Prop
  /-- It has a type of its own. -/
  | explicit {v : String} {type : TypeExpr} {location : Location}
      (step : steps[j]? = some (.override v (some type) location)) :
      Supplies steps s again j (type.substitute s)
  /-- It leaves the type to its variable. -/
  | inferred {v : String} {t : TypeExpr} {location : Location}
      (step : steps[j]? = some (.override v none location)) (last : InjectedLast steps s j v t) :
      Supplies steps s again j (again t)

/-- Whether an override before a position supplies a type. -/
def SuppliedBefore (steps : List FactoryStep) (s : Substitution) (again : TypeExpr → TypeExpr)
    (i : Nat) (t : TypeExpr) : Prop := ∃ j < i, Supplies steps s again j t

section Steps

variable {steps later : List FactoryStep} {s : Substitution} {again : TypeExpr → TypeExpr}
  {position : Nat} {v w : String} {t : TypeExpr} {scope : FactoryScope}

/-- Where the type of a variable is left as it is, nothing else matters. -/
theorem Supplies.congr {again' : TypeExpr → TypeExpr} {j : Nat}
    (hsame : ∀ v t location, steps[j]? = some (.override v none location) →
      InjectedLast steps s j v t → again t = again' t) (h : Supplies steps s again j t) :
    Supplies steps s again' j t := by
  cases h with
  | explicit step => exact .explicit step
  | inferred step last =>
    rw [hsame _ _ _ step last]
    exact .inferred step last

theorem suppliedBefore_succ : SuppliedBefore steps s again (position + 1) t ↔
    SuppliedBefore steps s again position t ∨ Supplies steps s again position t := by
  simp only [SuppliedBefore, Nat.lt_succ_iff_lt_or_eq, or_and_right, exists_or, exists_eq_left]

/-- An injection settles the type of its variable. -/
theorem injectedLast_succ_self {declared : Option TypeExpr} {tag : Option TagSpec}
    {location : Location} {type : TypeExpr}
    (hstep : steps[position]? = some (.inject v declared tag location))
    (htype : injectedType? steps (steps.drop (position + 1)) v declared = some type) :
    InjectedLast steps s (position + 1) v t ↔ t = type.substitute s := by
  constructor
  · rintro ⟨i, hi, ⟨declared', tag', location', type', hstep', htype', rfl⟩, hlast⟩
    obtain rfl : i = position := by
      by_contra hne
      exact hlast position (by omega) (by omega) _ _ _ hstep
    cases hstep.symm.trans hstep'
    cases htype.symm.trans htype'
    rfl
  · rintro rfl
    exact ⟨position, by omega, ⟨_, _, _, _, hstep, htype, rfl⟩, fun k hk hk' => by omega⟩

/-- Any other statement leaves it. -/
theorem injectedLast_succ_of_ne
    (hother : ∀ declared tag location,
      steps[position]? ≠ some (.inject v declared tag location)) :
    InjectedLast steps s (position + 1) v t ↔ InjectedLast steps s position v t := by
  constructor
  · rintro ⟨i, hi, hinjects, hlast⟩
    refine ⟨i, ?_, hinjects, fun k hk hk' => hlast k hk (by omega)⟩
    refine lt_of_le_of_ne (by omega) fun heq => ?_
    obtain ⟨_, _, _, _, hstep, -⟩ := hinjects
    exact hother _ _ _ (heq ▸ hstep)
  · rintro ⟨i, hi, hinjects, hlast⟩
    refine ⟨i, by omega, hinjects, fun k hk hk' => ?_⟩
    rcases Nat.lt_succ_iff_lt_or_eq.mp hk' with hk' | rfl
    · exact hlast k hk hk'
    · exact hother

/-- Whether what a factory has settled is what the statements before a position say. -/
structure FactoryScope.Settles (steps : List FactoryStep) (s : Substitution)
    (position : Nat) (scope : FactoryScope) : Prop where
  /-- The types of variables are those that they were last injected with. -/
  injected : ∀ v t, scope.injected.lookup v = some t ↔ InjectedLast steps s position v t
  /-- The types that are answered are those that overrides supply. -/
  overrides : ∀ t, t ∈ scope.overrides ↔ SuppliedBefore steps s (·.substitute s) position t

theorem FactoryScope.settles_empty : FactoryScope.Settles steps s 0 ⟨[], []⟩ :=
  ⟨fun _ _ => iff_of_false (by simp) fun ⟨_, hi, _⟩ => absurd hi (Nat.not_lt_zero _),
    fun _ => iff_of_false (by simp) fun ⟨_, hj, _⟩ => absurd hj (Nat.not_lt_zero _)⟩

/-- An injection settles its variable, and no type that overrides supply. -/
theorem FactoryScope.Settles.inject (h : scope.Settles steps s position)
    {declared : Option TypeExpr} {tag : Option TagSpec} {location : Location} {type : TypeExpr}
    (hstep : steps[position]? = some (.inject v declared tag location))
    (htype : injectedType? steps (steps.drop (position + 1)) v declared = some type) :
    FactoryScope.Settles steps s (position + 1)
      { scope with injected := (v, type.substitute s) :: scope.injected } := by
  refine ⟨fun w t => ?_, fun t => ?_⟩
  · by_cases heq : w = v
    · subst heq
      rw [injectedLast_succ_self hstep htype, List.lookup_cons_self, Option.some_inj, eq_comm]
    · have hother : ∀ declared tag location,
          steps[position]? ≠ some (.inject w declared tag location) := by
        intro declared tag location hstep'
        cases hstep.symm.trans hstep'
        exact heq rfl
      rw [injectedLast_succ_of_ne hother, ← h.injected, List.lookup_cons,
        beq_eq_false_iff_ne.mpr heq]
  · rw [suppliedBefore_succ, ← h.overrides]
    refine (or_iff_left fun hsupplies => ?_).symm
    cases hsupplies with
    | explicit step => cases hstep.symm.trans step
    | inferred step _ => cases hstep.symm.trans step

/-- An override supplies the type that it has or that of its variable, and settles no variable. -/
theorem FactoryScope.Settles.override (h : scope.Settles steps s position)
    {declared : Option TypeExpr} {location : Location} {type : TypeExpr}
    (hstep : steps[position]? = some (.override v declared location))
    (htype : (declared <|> scope.injected.lookup v) = some type) :
    FactoryScope.Settles steps s (position + 1)
      { scope with overrides := scope.overrides ++ [type.substitute s] } := by
  refine ⟨fun w t => ?_, fun t => ?_⟩
  · have hother : ∀ declared tag location,
        steps[position]? ≠ some (.inject w declared tag location) := by
      intro declared tag location hstep'
      cases hstep.symm.trans hstep'
    rw [injectedLast_succ_of_ne hother, ← h.injected]
  · rw [suppliedBefore_succ, ← h.overrides, List.mem_append, List.mem_singleton]
    refine or_congr_right ⟨?_, fun hsupplies => ?_⟩
    · rintro rfl
      cases declared with
      | some declared =>
        cases htype
        exact .explicit hstep
      | none => exact .inferred hstep ((h.injected v type).mp htype)
    · cases hsupplies with
      | explicit step =>
        cases hstep.symm.trans step
        cases htype
        rfl
      | @inferred _ t _ step last =>
        cases hstep.symm.trans step
        have hlast := (h.injected v t).mpr last
        cases hlast.symm.trans htype
        rfl

/-- An injection that is carried out without complaint has a type, and a job unless an earlier
override supplies it. -/
private theorem stepJobs_inject {r : Registration} {declared : Option TypeExpr}
    {tag : Option TagSpec} {location : Location}
    (hquiet : ∀ issue, .complain issue ∉
      stepJobs r s steps position scope (.inject v declared tag location :: later)) :
    ∃ type, injectedType? steps later v declared = some type ∧
      ∃ jobs, jobs = stepJobs r s steps (position + 1)
          { scope with injected := (v, type.substitute s) :: scope.injected } later ∧
        (∀ issue, .complain issue ∉ jobs) ∧
        ((tag = none ∧ type.substitute s ∈ scope.overrides) ∧
            stepJobs r s steps position scope (.inject v declared tag location :: later) = jobs ∨
          ¬(tag = none ∧ type.substitute s ∈ scope.overrides) ∧
            jobPlaces (stepJobs r s steps position scope
              (.inject v declared tag location :: later)) =
                ⟨position, v, .eager⟩ :: jobPlaces jobs) := by
  rw [stepJobs] at hquiet ⊢
  cases htype : injectedType? steps later v declared with
  | none =>
    simp only [htype] at hquiet
    exact absurd List.mem_cons_self (hquiet _)
  | some type =>
    simp only [htype] at hquiet ⊢
    refine ⟨type, rfl, _, rfl, ?_⟩
    split at hquiet
    · next hanswered =>
      have hboth : tag = none ∧ type.substitute s ∈ scope.overrides := by simpa using hanswered
      exact ⟨hquiet, .inl ⟨hboth, if_pos hanswered⟩⟩
    · next hasked =>
      have hnot : ¬(tag = none ∧ type.substitute s ∈ scope.overrides) := by simpa using hasked
      refine ⟨fun issue hin => hquiet issue (List.mem_cons_of_mem _ hin), .inr ⟨hnot, ?_⟩⟩
      rw [if_neg hasked]
      rfl

/-- An override that is carried out without complaint has a type. -/
private theorem stepJobs_override {r : Registration} {declared : Option TypeExpr}
    {location : Location} (hquiet : ∀ issue, .complain issue ∉
      stepJobs r s steps position scope (.override v declared location :: later)) :
    ∃ type, (declared <|> scope.injected.lookup v) = some type ∧
      stepJobs r s steps position scope (.override v declared location :: later) =
        stepJobs r s steps (position + 1)
          { scope with overrides := scope.overrides ++ [type.substitute s] } later := by
  rw [stepJobs] at hquiet ⊢
  cases htype : declared <|> scope.injected.lookup v with
  | none =>
    simp only [htype] at hquiet
    exact absurd List.mem_cons_self (hquiet _)
  | some type => exact ⟨type, rfl, rfl⟩

/-- The jobs from a position on are for places from there on. -/
private theorem le_position_of_mem_stepJobs {r : Registration} {p : Place}
    (hp : p ∈ jobPlaces (stepJobs r s steps position scope later)) : position ≤ p.position := by
  have hin := (jobPlaces_stepJobs r s steps position scope later).mem hp
  obtain ⟨⟨step, i⟩, hstep, hplace⟩ := List.mem_filterMap.mp hin
  rw [FactoryStep.position_of_place? hplace]
  exact (List.mem_zipIdx hstep).1

/-- Where all statements are carried out without complaint, each injection has a type, and no job
just if it has no tag and an earlier override supplies its type. What comes after a statement has
jobs for later places. -/
theorem no_job_iff_of_drop {r : Registration} (hlater : steps.drop position = later)
    (hscope : scope.Settles steps s position)
    (hquiet : ∀ issue, .complain issue ∉ stepJobs r s steps position scope later) {i : Nat}
    (hi : position ≤ i) {declared : Option TypeExpr} {tag : Option TagSpec} {location : Location}
    (hstep : steps[i]? = some (.inject v declared tag location)) :
    ∃ type, injectedType? steps (steps.drop (i + 1)) v declared = some type ∧
      ((∀ p ∈ jobPlaces (stepJobs r s steps position scope later), p.position ≠ i) ↔
        tag = none ∧ SuppliedBefore steps s (·.substitute s) i (type.substitute s)) := by
  induction later generalizing position scope with
  | nil =>
    have hlength := List.drop_eq_nil_iff.mp hlater
    have hlt := (List.getElem?_eq_some_iff.mp hstep).1
    omega
  | cons step later ih =>
    have hhere : steps[position]? = some step := by
      rw [← Nat.add_zero position, ← List.getElem?_drop, hlater, List.getElem?_cons_zero]
    have hrest : steps.drop (position + 1) = later := by
      rw [← List.drop_drop, hlater, List.drop_succ_cons, List.drop_zero]
    cases step with
    | inject w declared' tag' location' =>
      obtain ⟨type, htype, jobs, hjobs, hquiet', hcases⟩ := stepJobs_inject hquiet
      rw [← hrest] at htype
      rcases hi.eq_or_lt with rfl | hlt
      · cases hhere.symm.trans hstep
        refine ⟨type, htype, ?_⟩
        rw [← hscope.overrides]
        rcases hcases with ⟨hanswered, heq⟩ | ⟨hasked, heq⟩
        · refine iff_of_true (fun p hp => ?_) hanswered
          rw [heq, hjobs] at hp
          have hle := le_position_of_mem_stepJobs hp
          omega
        · refine iff_of_false (fun hall => ?_) hasked
          exact hall ⟨position, v, .eager⟩ (heq ▸ List.mem_cons_self) rfl
      · subst hjobs
        obtain ⟨type', htype', hiff⟩ := ih hrest (hscope.inject hhere htype) hquiet' hlt
        refine ⟨type', htype', Iff.trans ?_ hiff⟩
        rcases hcases with ⟨-, heq⟩ | ⟨-, heq⟩
        · rw [heq]
        · rw [heq, List.forall_mem_cons]
          exact and_iff_right (by simp only; omega)
    | override w declared' location' =>
      obtain ⟨type, htype, heq⟩ := stepJobs_override hquiet
      have hlt : position + 1 ≤ i := by
        refine lt_of_le_of_ne hi fun heq => ?_
        subst heq
        cases hhere.symm.trans hstep
      rw [heq] at hquiet ⊢
      exact ih hrest (hscope.override hhere htype) hquiet hlt

end Steps

end Injector.Wiring

import Injector.Proofs.Graph.Places
import Injector.Proofs.Wiring.Outgoing
import Injector.Proofs.Wiring.Rejection

/-!
# What a value is connected by

The jobs for a value are for the places of what it is made by: all parameters of a constructor, all
parts of a shape, and those injections of a factory that are not overridden. The main statement is
that a value which was made on the way to an answer fits in the end: it has an edge for each job
that was carried out last, and none of an attempt that failed.
-/

namespace Injector

namespace Wiring

/-- The place that a wire takes. -/
def Wire.place (w : Wire) : Place := ⟨w.position, w.site, w.timing⟩

/-- The places that jobs are for. -/
def jobPlaces (jobs : List Job) : List Place :=
  (jobs.filterMap Job.link?).map fun l => l.wire.place

/-- There is a job for each parameter of a constructor. -/
theorem jobPlaces_wireJobs (name : String) (s : Substitution) (fallback : Location)
    (c : Constructor) : jobPlaces (wireJobs name (wiresOf s fallback c)) = c.places := by
  have hwires := filterMap_link?_wireJobs name (wiresOf s fallback c)
  calc jobPlaces (wireJobs name (wiresOf s fallback c))
      = (((wireJobs name (wiresOf s fallback c)).filterMap Job.link?).map Link.wire).map
          Wire.place := by rw [jobPlaces, List.map_map]; rfl
    _ = (wiresOf s fallback c).map Wire.place := by rw [hwires]
    _ = c.places := by rw [wiresOf, List.map_map]; rfl

/-- There is a job for each part of a shape. -/
theorem jobPlaces_partJobs (providerArgs : List TypeExpr) (site : Site) (position : Nat)
    (parts : List Dependency) :
    jobPlaces (partJobs providerArgs site position parts) = partPlaces position parts := by
  induction parts generalizing position with
  | nil => rfl
  | cons d rest ih => exact congrArg (_ :: ·) (ih (position + 1))

/-- The jobs for the statements of a factory are for injections, one after the other. -/
theorem jobPlaces_stepJobs (r : Registration) (s : Substitution) (steps : List FactoryStep)
    (position : Nat) (scope : FactoryScope) (later : List FactoryStep) :
    (jobPlaces (stepJobs r s steps position scope later)).Sublist
      (injectionPlaces position later) := by
  induction later generalizing position scope with
  | nil => exact .refl _
  | cons step later ih =>
    cases step with
    | inject variableName declared tag location =>
      have hplaces : injectionPlaces position (.inject variableName declared tag location :: later)
          = ⟨position, variableName, .eager⟩ :: injectionPlaces (position + 1) later := rfl
      rw [hplaces, stepJobs]
      cases injectedType? steps later variableName declared with
      | none => exact (ih _ _).cons _
      | some type =>
        simp only
        split
        · exact (ih _ _).cons _
        · exact (ih _ _).cons_cons _
    | override variableName declared location =>
      rw [stepJobs]
      cases declared <|> scope.injected.lookup variableName <;> exact ih _ _

section Work

variable {r : Registration} {s : Substitution} {jobs : List Job}

/-- A recipe that leaves one way to make a value has places for the jobs of this way. -/
theorem jobPlaces_of_once (h : workOf r s = .once jobs) :
    (∃ implementation implements, r.recipe = .construct implementation implements [] ∧
      jobs = []) ∨
    (∃ name source, r.recipe = .argument name source ∧ jobs = []) ∨
    ∃ expression steps isAsync, r.recipe = .factory expression steps isAsync ∧
      (jobPlaces jobs).Sublist (injectionPlaces 0 steps) := by
  unfold workOf at h
  split at h
  · next implementation implements hrecipe =>
    cases h
    exact .inl ⟨implementation, implements, hrecipe, rfl⟩
  · cases h
  · next expression steps isAsync hrecipe =>
    refine .inr (.inr ⟨expression, steps, isAsync, hrecipe, ?_⟩)
    split at h
    · cases h
      exact List.nil_sublist _
    · cases h
      exact jobPlaces_stepJobs r s steps 0 ⟨[], []⟩ steps
  · next name source hrecipe =>
    cases h
    exact .inr (.inl ⟨name, source, hrecipe, rfl⟩)

/-- A recipe that leaves a choice has the places of the constructor that is chosen. -/
theorem jobPlaces_of_choice {alternatives : List (List Job × Nat)} {index : Nat}
    (h : workOf r s = .choice alternatives) (hmem : (jobs, index) ∈ alternatives) :
    ∃ implementation implements constructors c,
      r.recipe = .construct implementation implements constructors ∧
      constructors[index]? = some c ∧ jobPlaces jobs = c.places := by
  unfold workOf at h
  split at h
  · cases h
  · next implementation implements c cs hrecipe =>
    cases h
    obtain ⟨⟨chosen, number⟩, hcandidate, heq⟩ := List.mem_map.mp hmem
    cases heq
    exact ⟨implementation, implements, c :: cs, chosen, hrecipe,
      List.mem_zipIdx_iff_getElem?.mp (mem_sortBy.mp hcandidate), jobPlaces_wireJobs _ _ _ _⟩
  · split at h <;> cases h
  · cases h

end Work

namespace Query

variable {resolver : Resolver} {q d : Query} {m : Making}

/-- What is complete with links fits, if its edges take the places of the links. -/
theorem fits_of_completed (hm : q.verdict resolver = .ok (.make m)) {node : Node}
    {links : List Link} (hcompleted : m.Completed node links) {es : List Edge}
    (hes : es.map Edge.place = links.map fun l => l.wire.place) :
    node.contract = q.request.contract ∧ ∃ places, Fits resolver q.request node es places := by
  cases verdict_grounds hm with
  | makeBinding resolves registered =>
    cases hcompleted with
    | once work content _ =>
      subst content
      refine ⟨rfl, ?_⟩
      rcases jobPlaces_of_once work with ⟨implementation, implements, hrecipe, rfl⟩ |
        ⟨name, source, hrecipe, rfl⟩ | ⟨expression, steps, isAsync, hrecipe, hsub⟩
      · exact ⟨_, .bare rfl registered hrecipe (List.map_eq_nil_iff.mp hes)⟩
      · exact ⟨_, .given rfl registered hrecipe (List.map_eq_nil_iff.mp hes)⟩
      · exact ⟨_, .factory rfl registered hrecipe (hes ▸ hsub)⟩
    | choice work candidate content _ =>
      subst content
      obtain ⟨implementation, implements, constructors, c, hrecipe, hchosen, hplaces⟩ :=
        jobPlaces_of_choice work candidate
      exact ⟨rfl, _, .constructed rfl registered hrecipe hchosen (hes.trans hplaces)⟩
  | makeShape resolves =>
    cases hcompleted with
    | once work content _ =>
      subst content
      cases work
      exact ⟨rfl, _, .synthesized rfl resolves (hes.trans (jobPlaces_partJobs _ _ _ _))⟩
    | choice work => cases work

/-- A value that was made on the way to an answer is complete in the end, with links whose places
its edges take. -/
theorem completed_of_retains (hq : q.Proper resolver) {n : NodeId} {s' : State}
    (h : q.outcome resolver = .ok (some n, s')) (hd : q.Retains resolver d)
    (hm : d.verdict resolver = .ok (.make m)) :
    s'.graph.Has d.nodeNumber fun node => ∃ links, m.Completed node links ∧
      (s'.graph.dependencies d.nodeNumber).map Edge.place = links.map fun l => l.wire.place := by
  have hproper := (hq.of_retains hd).1
  obtain ⟨t, hout, hnode, houtgoing⟩ := stays_of_retains hq h hd hm
  obtain ⟨-, s₀, s₁, hmade⟩ := exists_made hproper hm hout
  obtain ⟨es, hes, hedges⟩ := hmade.outgoing hproper
  have hplaces : es.map Edge.place =
      ((d.lastCalls resolver).map Call.link).map fun l => l.wire.place := by
    have hsame : List.Forall₂ (· = ·)
        (((d.lastCalls resolver).map Call.link).map fun l => l.wire.place)
        (es.map Edge.place) := by
      simp only [List.forall₂_map_left_iff, List.forall₂_map_right_iff]
      refine hes.imp fun c e => ?_
      rintro ⟨n, t, -, rfl⟩
      rfl
    rw [List.forall₂_eq_eq_eq] at hsame
    exact hsame.symm
  refine hnode _ (hmade.completed.mono fun node hcompleted => ?_)
  obtain ⟨-, places, hfits⟩ := fits_of_completed hm hcompleted hplaces
  have hdependencies : s'.graph.dependencies d.nodeNumber = es := by
    refine Graph.dependencies_eq ?_ (hfits.pairwise.sublist hfits.sublist)
    rw [houtgoing, hedges]
    exact List.reverse_perm es
  exact ⟨_, hcompleted, hdependencies ▸ hplaces⟩

/-- A value that was made on the way to an answer fits in the end. -/
theorem fits_of_retains (hq : q.Proper resolver) {n : NodeId} {s' : State}
    (h : q.outcome resolver = .ok (some n, s')) (hd : q.Retains resolver d)
    (hm : d.verdict resolver = .ok (.make m)) :
    s'.graph.Has d.nodeNumber fun node => node.contract = d.request.contract ∧
      ∃ places, Fits resolver d.request node (s'.graph.dependencies d.nodeNumber) places :=
  (completed_of_retains hq h hd hm).mono fun _ ⟨_, hcompleted, hplaces⟩ =>
    fits_of_completed hm hcompleted hplaces

end Query

end Wiring

end Injector

import Injector.Proofs.Graph.Places
import Injector.Proofs.Plan.Depiction

/-!
# The operands of a step

A step passes what the edges of its node supply and the variables that its factory supplies itself,
put in the order of their positions. The main statement is that for a node which fits these are one
operand for each place of what it is made by, in the order of the places.
-/

namespace Injector

namespace Plan

/-- Whether an operand is the one for a place: it stands for what the edge at the place supplies, or
there is none and the factory supplies the variable itself. -/
def Operand.Fills (g : Graph) (l : Legend) (es : List Edge) (p : Place) (o : Operand) : Prop :=
  (∃ e ∈ es, e.place = p ∧ o.StandsFor g l e) ∨
    (∀ e ∈ es, e.position ≠ p.position) ∧ o = .inline p.site

/-- The variables of places, with their positions, at which nothing is supplied. -/
def inlineAt (supplied : List (Nat × Operand)) (places : List Place) : List (Nat × Operand) :=
  places.filterMap fun p =>
    if supplied.any fun o => o.1 == p.position then none else some (p.position, .inline p.site)

theorem inlineOperands_eq (steps : List FactoryStep) (supplied : List (Nat × Operand)) :
    inlineOperands steps supplied = inlineAt supplied (injectionPlaces 0 steps) := by
  rw [inlineOperands, inlineAt, injectionPlaces, List.filterMap_filterMap]
  refine List.filterMap_congr fun s _ => ?_
  obtain ⟨step, position⟩ := s
  cases step <;> rfl

variable {g : Graph} {l : Legend} {es : List Edge} {supplied : List (Nat × Operand)}
  {places : List Place} {p : Place}

/-- Whether something is supplied at a position depends on whether an edge is there. -/
private theorem any_position_iff
    (h : List.Forall₂ (fun e o => o.1 = e.position ∧ o.2.StandsFor g l e) es supplied) :
    (supplied.any fun o => o.1 == p.position) = true ↔ ∃ e ∈ es, e.position = p.position := by
  rw [List.any_eq_true]
  constructor
  · rintro ⟨o, ho, hp⟩
    obtain ⟨e, he, hposition, -⟩ := exists_of_forall₂ h.flip ho
    exact ⟨e, he, hposition.symm.trans (eq_of_beq hp)⟩
  · rintro ⟨e, he, hp⟩
    obtain ⟨o, ho, hposition, -⟩ := exists_of_forall₂ h he
    exact ⟨o, ho, beq_of_eq (hposition.trans hp)⟩

/-- Where each place has its edge, there are no variables to be supplied. -/
theorem inlineAt_eq_nil
    (h : List.Forall₂ (fun e o => o.1 = e.position ∧ o.2.StandsFor g l e) es supplied)
    (hall : es.map Edge.place = places) : inlineAt supplied places = [] := by
  refine List.filterMap_eq_nil_iff.mpr fun p hp => if_pos ((any_position_iff h).mpr ?_)
  obtain ⟨e, he, rfl⟩ := List.mem_map.mp (hall ▸ hp)
  exact ⟨e, he, rfl⟩

/-- What is supplied and the variables that are not fill ascending places, one each. The first place
is filled by the first edge, if that is its edge, and all others come later. -/
theorem exists_fills (hes : (es.map Edge.place).Sublist places)
    (hplaces : places.Pairwise fun p q => p.position < q.position)
    (h : List.Forall₂ (fun e o => o.1 = e.position ∧ o.2.StandsFor g l e) es supplied) :
    ∃ os, List.Perm (supplied ++ inlineAt supplied places) os ∧
      List.Forall₂ (fun p o => o.1 = p.position ∧ o.2.Fills g l es p) places os := by
  induction places generalizing es supplied with
  | nil =>
    obtain rfl := List.map_eq_nil_iff.mp (List.sublist_nil.mp hes)
    cases h
    exact ⟨[], .refl _, .nil⟩
  | cons p places ih =>
    obtain ⟨hp, hrest⟩ := List.pairwise_cons.mp hplaces
    rcases List.sublist_cons_iff.mp hes with hes | ⟨rest, heq, hes⟩
    · have hnone : ∀ e ∈ es, e.position ≠ p.position := fun e he =>
        Nat.ne_of_gt (hp _ (hes.subset (List.mem_map_of_mem he)))
      have hadd : inlineAt supplied (p :: places) =
          (p.position, .inline p.site) :: inlineAt supplied places := by
        refine List.filterMap_cons_some (if_neg fun hany => ?_)
        obtain ⟨e, he, heq⟩ := (any_position_iff h).mp hany
        exact hnone e he heq
      obtain ⟨os, hperm, hfills⟩ := ih hes hrest h
      refine ⟨(p.position, .inline p.site) :: os, ?_, .cons ⟨rfl, .inr ⟨hnone, rfl⟩⟩ hfills⟩
      rw [hadd]
      exact List.perm_middle.trans (hperm.cons _)
    · obtain ⟨e, es, rfl, rfl, rfl⟩ := List.map_eq_cons_iff.mp heq
      obtain ⟨o, supplied, ⟨ho, hstands⟩, hothers, rfl⟩ := List.forall₂_cons_left_iff.mp h
      have hskip : inlineAt (o :: supplied) (e.place :: places) = inlineAt supplied places := by
        have hany : (o :: supplied).any (fun o => o.1 == e.place.position) = true :=
          List.any_eq_true.mpr ⟨o, List.mem_cons_self, beq_of_eq ho⟩
        have hfirst : inlineAt (o :: supplied) (e.place :: places) =
            inlineAt (o :: supplied) places := List.filterMap_cons_none (if_pos hany)
        refine hfirst.trans (List.filterMap_congr fun q hq => ?_)
        have hother : (o.1 == q.position) = false :=
          beq_false_of_ne (ho ▸ Nat.ne_of_lt (hp q hq))
        rw [List.any_cons, hother, Bool.false_or]
      obtain ⟨os, hperm, hfills⟩ := ih hes hrest hothers
      refine ⟨o :: os, ?_, .cons ⟨ho, .inl ⟨e, List.mem_cons_self, rfl, hstands⟩⟩ ?_⟩
      · rw [hskip]
        exact hperm.cons o
      · refine ((List.forall₂_and_left ..).mpr ⟨hp, hfills⟩).imp fun q o' => ?_
        rintro ⟨hlt, hposition, ⟨e', he', hplace, hstands'⟩ | ⟨hnone, hinline⟩⟩
        · exact ⟨hposition, .inl ⟨e', List.mem_cons_of_mem _ he', hplace, hstands'⟩⟩
        · exact ⟨hposition, .inr ⟨List.forall_mem_cons.mpr ⟨Nat.ne_of_lt hlt, hnone⟩, hinline⟩⟩

/-- The variables that a node which fits supplies itself are those of the places without an edge. -/
theorem inlineOf_eq {resolver : Resolver} {request : Request} {node : Node}
    (hfits : Fits resolver request node es places)
    (h : List.Forall₂ (fun e o => o.1 = e.position ∧ o.2.StandsFor g l e) es supplied) :
    inlineOf resolver.table node supplied = inlineAt supplied places := by
  cases hfits with
  | constructed origin registered recipe _ edges =>
    rw [inlineAt_eq_nil h edges]
    simp [inlineOf, origin, registered, recipe]
  | bare origin registered recipe => simp [inlineOf, inlineAt, origin, registered, recipe]
  | given origin registered recipe => simp [inlineOf, inlineAt, origin, registered, recipe]
  | factory origin registered recipe =>
    simp [inlineOf, origin, registered, recipe, inlineOperands_eq]
  | synthesized origin _ edges =>
    rw [inlineAt_eq_nil h edges]
    simp [inlineOf, origin]
  | argument origin => simp [inlineOf, inlineAt, origin]

/-- The step for a node that fits has one operand for each place, in the order of the places. -/
theorem Step.Passes.fills {resolver : Resolver} {request : Request} {node : Node} {n : NodeId}
    {st : Step} (hst : st.Passes g resolver.table l n) (hnode : g.nodes.get? n = some node)
    (hfits : Fits resolver request node (g.dependencies n) places) :
    List.Forall₂ (fun p o => o.Fills g l (g.dependencies n) p) places st.operands := by
  obtain ⟨node', supplied, hnode', -, -, hsupplied, hoperands⟩ := hst.passed
  cases hnode.symm.trans hnode'
  obtain ⟨os, hperm, hfills⟩ := exists_fills hfits.sublist hfits.pairwise hsupplied
  have hpositions : os.map Prod.fst = places.map Place.position := by
    have hsame : List.Forall₂ (· = ·) (places.map Place.position) (os.map Prod.fst) := by
      rw [List.forall₂_map_left_iff, List.forall₂_map_right_iff]
      exact hfills.imp fun _ _ h => h.1.symm
    rw [List.forall₂_eq_eq_eq] at hsame
    exact hsame.symm
  have hascend : os.Pairwise fun a b => a.1 < b.1 := by
    have hlt : (os.map Prod.fst).Pairwise (· < ·) := by
      rw [hpositions]
      exact hfits.pairwise.map _ fun _ _ h => h
    exact hlt.of_map Prod.fst fun _ _ h => h
  rw [hoperands, inlineOf_eq hfits hsupplied, sortOn_eq_of_perm hperm hascend,
    List.forall₂_map_right_iff]
  exact hfills.imp fun _ _ h => h.2

end Plan

end Injector

import Injector.Proofs.Report.Completion
import Injector.Proofs.Wiring.Cycles

/-!
# Loops that are no loops

A loop is to be reported only where bindings need each other at once, since whatever is deferred can
be made later. But building makes a transient binding anew in each provider call, and it does not
tell one that is made anew from a generic one that keeps growing; nor does it tell values of one
contract that are pinned to different bindings. The main statement is that, over a table without
choices in which no binding needs itself at once, these two are the only reasons for which a loop is
reported, and with the shapes known from the start the first is the only one.
-/

namespace Injector.Wiring

variable {resolver : Resolver} {root : Table.Root} {b : RootBuild}

/-- Over a table without choices, an issue is about a loop exactly when a query on the way from the
root closes one. -/
theorem exists_isCycle_iff (ht : resolver.table.Rigid)
    (h : buildRoot resolver root .empty = .ok b) :
    (∃ issue ∈ b.issues, issue.message.isCycle = true) ↔
      ∃ q, (Query.ofRoot root .empty).Reaches resolver q ∧ q.Loops resolver := by
  obtain ⟨a, s, hout, rfl⟩ := buildRoot_eq_ok h
  have hfaithful : (Query.ofRoot root .empty).state.Faithful :=
    ⟨fun f hf => (nomatch hf), fun hlog => absurd rfl hlog⟩
  obtain ⟨-, htells⟩ :=
    Query.outcome_tells ht (Query.ofRoot_proper resolver root .empty) hfaithful hout
  have hnone : ¬ (Query.ofRoot root .empty).state.Cyclic := by
    rintro ⟨issue, hissue, -⟩
    cases hissue
  exact htells.trans (or_iff_right hnone)

/-- Over a table without choices in which no binding needs itself at once, no loop is reported
exactly when no query on the way from the root asks at once for a binding that is under construction
as often as is allowed, or is taken for one that was asked before under another pin. -/
theorem isCycle_eq_false_iff (ht : resolver.table.Rigid) (hacyclic : resolver.Acyclic)
    (h : buildRoot resolver root .empty = .ok b) :
    (∀ issue ∈ b.issues, issue.message.isCycle = false) ↔
      ∀ q, (Query.ofRoot root .empty).Reaches resolver q →
        ¬ q.Overruns resolver ∧
          ∀ p, (Query.ofRoot root .empty).Reaches resolver p →
            Relation.TransGen (Query.Asks resolver) p q → ¬ q.TakenFor resolver p := by
  have hissues : (∀ issue ∈ b.issues, issue.message.isCycle = false) ↔
      ∀ q, (Query.ofRoot root .empty).Reaches resolver q → ¬ q.Loops resolver := by
    have hiff := not_congr (exists_isCycle_iff ht h)
    simpa using hiff
  rw [hissues]
  constructor
  · intro hnone q hq
    exact ⟨fun hover => hnone q hq (hover.loops ht hq),
      fun p _ _ htaken => hnone q hq htaken.1⟩
  · intro hnone q hq hloops
    obtain ⟨hover, htaken⟩ := hnone q hq
    rcases hloops.cases ht hacyclic hq with hoverruns | ⟨p, hp, hasks, hp'⟩
    · exact hover hoverruns
    · exact htaken p hp hasks hp'

/-- A transient service with providers of four parts, each of which needs the service at once and is
kept for the resolution. -/
def rebuiltService : Setup :=
  let parts := ["B", "C", "D", "E"]
  let setup := Setup.sample
    (("IA", "A", [parts.map fun part => .named "Func" [.named ("I" ++ part) []]]) ::
      parts.map fun part => ("I" ++ part, part, [[.named "IA" []]])) ["IA"]
  { setup with
    bindings := setup.bindings.modifyHead fun binding =>
      { binding with lifetime := some .transient }
    defaultLifetime := some .perResolve }

/-- The parts need the service at once, and the service nothing. -/
theorem rebuiltService_acyclic :
    (Resolver.ofSetup rebuiltService).table.Rigid ∧
      (Resolver.ofSetup rebuiltService).Acyclic :=
  ⟨⟨by decide +kernel, by decide +kernel⟩, Resolver.acyclic_of_needs_lt (by decide +kernel)⟩

/-- In the provider call of the last part the service would be made for the fifth time on one path,
which is reported as a loop. -/
theorem rebuiltService_isCycle :
    ∃ b, buildRoot (.ofSetup rebuiltService) rebuiltService.firstRoot .empty = .ok b ∧
      ∃ issue ∈ b.issues, issue.message.isCycle = true := by
  have hbuilt : ((buildRoot (.ofSetup rebuiltService) rebuiltService.firstRoot
      .empty).toOption.any fun b => b.issues.any fun issue => issue.message.isCycle) = true := by
    decide +kernel
  obtain ⟨b, hb, hissues⟩ := any_toOption.mp hbuilt
  obtain ⟨issue, hissue, hcycle⟩ := List.any_eq_true.mp hissues
  exact ⟨b, hb, issue, hissue, hcycle⟩

/-- A query on the way from the service asks at once for it while it is under construction as often
as is allowed. -/
theorem isCycle_eq_false_iff_rebuiltService :
    ∃ b, buildRoot (.ofSetup rebuiltService) rebuiltService.firstRoot .empty = .ok b ∧
      ∃ q, (Query.ofRoot rebuiltService.firstRoot .empty).Reaches (.ofSetup rebuiltService) q ∧
        q.Overruns (.ofSetup rebuiltService) := by
  obtain ⟨ht, hacyclic⟩ := rebuiltService_acyclic
  obtain ⟨b, hb, issue, hissue, hcycle⟩ := rebuiltService_isCycle
  refine ⟨b, hb, Classical.byContradiction fun hnone => ?_⟩
  have hfree := (isCycle_eq_false_iff ht hacyclic hb).mpr fun q hq =>
    ⟨fun hover => hnone ⟨q, hq, hover⟩,
      fun _ hp hasks => Query.not_takenFor ht Shapes.unary_builtin hacyclic hp hasks⟩
  cases (hfree issue hissue).symm.trans hcycle

/-- A loop can be reported over a table without choices in which no binding needs itself at once. -/
theorem rebuiltService_reported :
    ¬ ((Resolver.ofSetup rebuiltService).table.Rigid →
      (Resolver.ofSetup rebuiltService).Acyclic →
      ∀ b, buildRoot (.ofSetup rebuiltService) rebuiltService.firstRoot .empty = .ok b →
        ∀ issue ∈ b.issues, issue.message.isCycle = false) := by
  intro hall
  obtain ⟨ht, hacyclic⟩ := rebuiltService_acyclic
  obtain ⟨b, hb, issue, hissue, hcycle⟩ := rebuiltService_isCycle
  cases (hall ht hacyclic b hb issue hissue).symm.trans hcycle

end Injector.Wiring

import Injector.Proofs.Report.Completion
import Injector.Proofs.Wiring.Rejection
import Injector.Proofs.Wiring.Termination

/-!
# Issues of rejected constructors

The main statement is about every request that is made while a root is built, those for the
parameters of rejected constructors included: what was found before it stays in front, a binding
with constructors that fails adds each message once that was found while they were tried, and one
that is made adds nothing.
-/

namespace Injector.Wiring

variable {resolver : Resolver} {root : Table.Root} {cycles : CycleLog} {q : Query}

/-- Every request on the way from a root that is built has an outcome, which leaves the issues found
before unchanged in front of those it adds. Where a value of a binding with constructors is to be
made, the constructors are all rejected and leave each message of theirs once, or one of them is
accepted and nothing is added. -/
theorem issues_of_reached (hq : (Query.ofRoot root cycles).Reaches resolver q) :
    ((∃ b, buildRoot resolver root cycles = .ok b) → ∃ r, q.outcome resolver = .ok r) ∧
    ∀ a s', q.outcome resolver = .ok (a, s') →
      s'.issues = q.state.issues ++ q.appended resolver ∧
      ∀ id s r implementation implements constructors,
        q.verdict resolver = .ok (.make (q.bindingMaking id s r)) →
        r.recipe = .construct implementation implements constructors → constructors ≠ [] →
        (a = none → q.Rejects resolver ((preferenceOrder constructors).map fun p =>
          wiresOf s r.location p.1)) ∧
        ∀ n, a = some n → q.appended resolver = [] := by
  have hproper := (Query.Proper.of_reaches (Query.ofRoot_proper resolver root cycles) hq).1
  refine ⟨fun hbuilt => ?_, fun a s' hout => ⟨hproper.issues_eq hout, ?_⟩⟩
  · have hlive : ∀ d, q.Reaches resolver d → ¬ d.Stale :=
      fun d hd => buildRoot_ok_iff.mp hbuilt d (hq.trans hd)
    obtain ⟨a, s', hout, -⟩ := (Query.completes_iff hproper).mpr hlive
    exact ⟨(a, s'), hout⟩
  · rintro id s r implementation implements constructors hm hr hne
    refine ⟨?_, ?_⟩
    · rintro rfl
      exact Query.rejects_of_construct hproper hm hr hne hout
    · rintro n rfl
      have hsame := hproper.issues_eq hout
      rw [Query.issues_eq_of_answer hproper hout] at hsame
      exact List.self_eq_append_right.mp hsame

/-- A service that is made by one of some constructors, with parameters that nothing provides. -/
def needyService (constructors : List (List String)) : Setup :=
  .sample [("IService", "Service", constructors.map fun types => types.map (.named · []))]
    ["IService"]

/-- A service whose constructors share a missing parameter. -/
def failingService : Setup := needyService [["IMissing"], ["IMissing", "int"]]

/-- A service with a second constructor that needs nothing. -/
def fallbackService : Setup := needyService [["IMissing"], []]

/-- A root of a table in which every binding has constructors is made by one of them, if a value of
a binding is made for it. -/
private theorem exists_construct (resolver : Resolver) (root : Table.Root)
    (hmakes : (match (Query.ofRoot root .empty).verdict resolver with
      | .ok (.make m) => m.content.origin.isBinding
      | _ => false) = true)
    (hall : (resolver.table.bindings.all fun r => match r.recipe with
      | .construct _ _ constructors => !constructors.isEmpty
      | _ => false) = true) :
    ∃ id s r implementation implements constructors,
      (Query.ofRoot root .empty).verdict resolver =
        .ok (.make ((Query.ofRoot root .empty).bindingMaking id s r)) ∧
      r.recipe = .construct implementation implements constructors ∧ constructors ≠ [] := by
  split at hmakes
  · next m hm =>
    cases Query.verdict_grounds hm with
    | @makeBinding id s r hres hr =>
      have hrecipe := List.all_eq_true.mp hall r (List.mem_of_getElem? hr)
      split at hrecipe
      · next implementation implements constructors heq =>
        exact ⟨id, s, r, implementation, implements, constructors, hm, heq, by simpa using hrecipe⟩
      · cases hrecipe
    | makeShape => cases hmakes
  · cases hmakes

/-- Two constructors that share a missing parameter leave two messages, the shared one once; with a
second constructor that needs nothing, none is left. -/
theorem issues_of_reached_needyService :
    (∃ s' choices,
      let q := Query.ofRoot failingService.firstRoot .empty
      q.outcome (.ofSetup failingService) = .ok (none, s') ∧
        q.Rejects (.ofSetup failingService) choices ∧
        s'.issues.map (·.message) = [.unableToResolve "IMissing" "Service as IService",
          .unableToResolve "int" "Service as IService"]) ∧
    ∃ n s',
      let q := Query.ofRoot fallbackService.firstRoot .empty
      q.outcome (.ofSetup fallbackService) = .ok (some n, s') ∧
        q.appended (.ofSetup fallbackService) = [] := by
  constructor
  · have hbuilt : ((buildRoot (.ofSetup failingService) failingService.firstRoot
        .empty).toOption.any fun b =>
        b.graph.root.isNone && b.issues.map (·.message) ==
          [.unableToResolve "IMissing" "Service as IService",
            .unableToResolve "int" "Service as IService"]) = true := by decide +kernel
    obtain ⟨b, hb, hfacts⟩ := (Option.any_eq_true _ _).mp hbuilt
    obtain ⟨hroot, hmessages⟩ := Bool.and_eq_true_iff.mp hfacts
    obtain ⟨s', hout, -, -, hissues, -⟩ := buildRoot_root (toOption_eq_some.mp hb)
    rw [Option.isNone_iff_eq_none.mp hroot] at hout
    obtain ⟨id, s, r, implementation, implements, constructors, hm, hr, hne⟩ :=
      exists_construct (.ofSetup failingService) failingService.firstRoot (by decide +kernel)
        (by decide +kernel)
    exact ⟨s', _, hout, (((issues_of_reached .refl).2 none s' hout).2 id s r implementation
      implements constructors hm hr hne).1 rfl, hissues ▸ beq_iff_eq.mp hmessages⟩
  · have hbuilt : ((buildRoot (.ofSetup fallbackService) fallbackService.firstRoot
        .empty).toOption.any fun b =>
        b.graph.root.isSome) = true := by decide +kernel
    obtain ⟨b, hb, hfacts⟩ := (Option.any_eq_true _ _).mp hbuilt
    obtain ⟨n, hroot⟩ := Option.isSome_iff_exists.mp hfacts
    obtain ⟨s', hout, -⟩ := buildRoot_root (toOption_eq_some.mp hb)
    rw [hroot] at hout
    obtain ⟨id, s, r, implementation, implements, constructors, hm, hr, hne⟩ :=
      exists_construct (.ofSetup fallbackService) fallbackService.firstRoot (by decide +kernel)
        (by decide +kernel)
    exact ⟨n, s', hout, (((issues_of_reached .refl).2 (some n) s' hout).2 id s r implementation
      implements constructors hm hr hne).2 n rfl⟩

end Injector.Wiring

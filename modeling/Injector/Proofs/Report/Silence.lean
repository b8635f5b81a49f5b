import Injector.Proofs.Report.Roots
import Injector.Proofs.Wiring.Silence

/-!
# Roots without a plan

What is found while a root is built, and what is wrong with its graph, is an error whatever the
hints say. A composition that is reported without errors therefore has a plan for each of its roots
but those that stall. The main statement is that a run without errors has a plan for every root
exactly when no root stalls.
-/

namespace Injector

open Wiring

/-- Where there is no error, no issue is one whatever the hints say. -/
theorem Sink.not_grave {sink : Sink} {hints : Hints} (h : sink.hasErrors hints = false)
    {issue : Issue} (hi : issue ∈ sink.issues) : ¬ issue.message.Grave := by
  intro hgrave
  exact Bool.false_ne_true (h.symm.trans (hasErrors_of_grave hi hgrave hints))

namespace Graph

variable {g : Graph} {table : Table} {root : Table.Root} {issues : List Issue}

theorem grave_lifetimeDefect (consumer dependency : Node) :
    (lifetimeDefect consumer dependency).message.Grave := rfl

theorem grave_crossScopeCapture (consumer dependency : Node) :
    (crossScopeCapture consumer dependency).message.Grave := rfl

private theorem defectsAt_grave {node : Node} {c : Capture}
    (h : g.defectsAt table root node c = .ok issues) :
    ∀ issue ∈ issues, issue.message.Grave := by
  have hstatic : ∀ name dependency requirement,
      (Message.staticRootDefect name dependency requirement).Grave := fun _ _ _ => rfl
  unfold defectsAt at h
  simp only [bind, Except.bind, pure, Except.pure] at h
  repeat' split at h
  all_goals cases h
  all_goals simp [grave_lifetimeDefect, grave_crossScopeCapture, hstatic]

private theorem walkDefects_grave {fuel : Nat} {seen waiting : List (NodeId × Capture)}
    (h : g.walkDefects table root fuel seen waiting = .ok issues) :
    ∀ issue ∈ issues, issue.message.Grave := by
  induction fuel generalizing seen waiting issues with
  | zero =>
    cases waiting with
    | nil =>
      cases h
      exact fun issue hi => (nomatch hi)
    | cons p rest => cases h
  | succ fuel ih =>
    cases waiting with
    | nil =>
      cases h
      exact fun issue hi => (nomatch hi)
    | cons p rest =>
      obtain ⟨n, c⟩ := p
      rw [walkDefects] at h
      split at h
      · exact ih h
      · obtain ⟨node, -, h⟩ := bind_eq_ok.mp h
        obtain ⟨here, hhere, h⟩ := bind_eq_ok.mp h
        obtain ⟨later, hlater, h⟩ := bind_eq_ok.mp h
        cases h
        exact List.forall_mem_append.mpr ⟨defectsAt_grave hhere, ih hlater⟩

private theorem loopDefect_grave {component : List NodeId}
    (h : g.loopDefect component = .ok issues) : ∀ issue ∈ issues, issue.message.Grave := by
  obtain ⟨nodes, -, h⟩ := bind_eq_ok.mp h
  split at h
  · cases h
    exact List.forall_mem_singleton.mpr rfl
  · cases h
    exact fun issue hi => (nomatch hi)

/-- What is wrong with a graph is an error whatever the hints say. -/
theorem defects_grave (h : g.defects table root = .ok issues) :
    ∀ issue ∈ issues, issue.message.Grave := by
  unfold defects at h
  split at h
  · cases h
    exact fun issue hi => (nomatch hi)
  · obtain ⟨found, hfound, h⟩ := bind_eq_ok.mp h
    split at h
    · exact loopDefect_grave h
    · cases h
      exact walkDefects_grave hfound

end Graph

variable {resolver : Resolver} {root : Table.Root} {cycles : CycleLog}

namespace Wiring

/-- What is found while a root is built are errors whatever the hints say, and nothing is found
exactly when the root has a graph or its query stalls. -/
theorem buildRoot_finds {b : RootBuild} (h : buildRoot resolver root cycles = .ok b) :
    (∀ issue ∈ b.issues, issue.message.Grave) ∧
      (b.issues = [] → (b.isResolved = true ↔ ¬ (Query.ofRoot root cycles).Stalls resolver)) := by
  obtain ⟨s, hout, -, -, hissues, -⟩ := buildRoot_root h
  have hproper := Query.ofRoot_proper resolver root cycles
  have hstart : (Query.ofRoot root cycles).state.Grave := fun f hf => (nomatch hf)
  obtain ⟨-, new, heq, hgrave, hnil⟩ := Query.outcome_finds hproper hstart hout
  have hnew : b.issues = new := hissues.trans heq
  refine ⟨hnew ▸ hgrave, fun hnone => ⟨fun hresolved hstalls => ?_, fun hnot => ?_⟩⟩
  · rw [RootBuild.isResolved, hstalls.answer_eq_none hproper hstart hout] at hresolved
    cases hresolved
  · rw [RootBuild.isResolved, Option.isSome_iff_ne_none]
    intro hroot
    rw [hroot] at hout
    exact hnot (hnil.mp (hnew.symm.trans hnone) ⟨s, hout⟩)

end Wiring

/-- Whether no root stalls when roots are built one after the other. -/
def Resolver.Unstalled (resolver : Resolver) : CycleLog → List Table.Root → Prop
  | _, [] => True
  | cycles, root :: roots => ¬ (Query.ofRoot root cycles).Stalls resolver ∧
      ∀ b, buildRoot resolver root cycles = .ok b → resolver.Unstalled b.cycles roots

/-- Whether no root of a composition stalls. -/
def Configuration.Unstalled (config : Configuration) (setups : List Setup) (name : String) : Prop :=
  ∀ table, (Table.merge setups name config.hints .empty).2 = some table →
    Resolver.Unstalled ⟨table, .ofRegistrations config.shapes⟩ .empty table.roots

/-- Where nothing is found, a root has a plan exactly when its query does not stall. -/
theorem RootReport.Tells.plan_isSome_iff {sink : Sink} {hints : Hints} {b : RootBuild}
    {r : RootReport} (h : r.Tells resolver false sink root cycles b)
    (hnone : sink.hasErrors hints = false) :
    r.plan.isSome ↔ ¬ (Query.ofRoot root cycles).Stalls resolver := by
  have hempty : ∀ issues : List Issue, (∀ issue ∈ issues, issue.message.Grave) →
      (∀ issue ∈ issues, issue ∈ sink.issues) → issues = [] := fun issues hgrave hreported =>
    List.eq_nil_iff_forall_not_mem.mpr fun issue hi =>
      Sink.not_grave hnone (hreported issue hi) (hgrave issue hi)
  obtain ⟨defects, hdefects, hreported, hplan⟩ := h.planned
  obtain ⟨hgrave, hresolved⟩ := buildRoot_finds h.built
  rw [← hresolved (hempty _ hgrave h.reported)]
  obtain rfl := hempty _ (Graph.defects_grave hdefects) hreported
  obtain ⟨hconsistent, hknows⟩ := buildRoot_consistent h.built
  obtain ⟨plan, hok, hsome, -⟩ :=
    Plan.derive?_ok hconsistent hknows (buildRoot_made h.built) root
  cases hb : b.isResolved with
  | false =>
    rw [hb] at hplan
    rw [← Except.ok.inj hplan]
    simp
  | true =>
    rw [hb] at hplan
    rw [← Except.ok.inj (hok.symm.trans hplan), hsome]
    exact iff_of_true hb rfl

/-- Where nothing is found, all roots have plans exactly when none stalls. -/
theorem Reports.plans_iff {sink : Sink} {hints : Hints} {roots : List Table.Root}
    {rs : List RootReport} (h : Reports resolver false sink cycles roots rs)
    (hnone : sink.hasErrors hints = false) :
    (∀ r ∈ rs, r.plan.isSome) ↔ resolver.Unstalled cycles roots := by
  induction roots generalizing cycles rs with
  | nil =>
    cases rs with
    | nil => simp [Resolver.Unstalled]
    | cons r rs => exact h.elim
  | cons root roots ih =>
    cases rs with
    | nil => exact h.elim
    | cons r rs =>
      obtain ⟨b, htells, hrest⟩ := h
      rw [List.forall_mem_cons, htells.plan_isSome_iff hnone, ih hrest,
        Resolver.Unstalled]
      refine and_congr_right fun _ => ⟨fun hunstalled b' hb' => ?_, fun hall => hall b htells.built⟩
      cases htells.built.symm.trans hb'
      exact hunstalled

/-- A composition without errors has plans for all its roots exactly when none of them stalls. -/
theorem CompositionReport.plans_iff {config : Configuration} {setups : List Setup} {name : String}
    {c : CompositionReport} (h : ofSetups config setups name = .ok c)
    (hnone : c.hasErrors = false) :
    (∀ r ∈ c.roots, r.plan.isSome) ↔ config.Unstalled setups name := by
  obtain ⟨-, ⟨hmerge, hroots⟩ | ⟨merged, table, sink, culture, hmerge, hsub, hshown, hreports⟩⟩ :=
    ofSetups_eq_ok h
  · simp [hroots, Configuration.Unstalled, hmerge]
  · rw [hasErrors, hshown, Sink.any_isError_finish] at hnone
    have hmerged : merged.hasErrors table.hints = false := by
      refine List.any_eq_false.mpr fun issue hi => ?_
      exact List.any_eq_false.mp hnone issue (hsub issue hi)
    rw [hmerged] at hreports
    simp [hreports.plans_iff hnone, Configuration.Unstalled, hmerge]

/-- Two parts that need each other, and a root that tries to use one of them but can do without. -/
def forgottenLoop : Setup :=
  .sample [("IR", "R", [[.named "IX" []], []]), ("IX", "X", [[.named "IW" []]]),
    ("IW", "W", [[.named "IX" []]])] ["IR", "IX"]

/-- The loop is reported while the first root tries its first constructor, and what was found is
forgotten with it; the second root has no plan, and nothing says why. -/
theorem forgottenLoop_report :
    ∃ report, Report.ofSetups .default [forgottenLoop] = .ok report ∧ report.hasErrors = false ∧
      ∃ c ∈ report.compositions, ∃ r ∈ c.roots, r.plan.isSome = false := by
  have hsilent : ((Report.ofSetups .default [forgottenLoop]).toOption.any fun report =>
      !report.hasErrors && report.compositions.any fun c =>
        c.roots.any fun r => !r.plan.isSome) = true := by decide +kernel
  obtain ⟨report, hreport, hfacts⟩ := any_toOption.mp hsilent
  obtain ⟨hnone, hany⟩ := Bool.and_eq_true_iff.mp hfacts
  obtain ⟨c, hc, hroots⟩ := List.any_eq_true.mp hany
  obtain ⟨r, hr, hplan⟩ := List.any_eq_true.mp hroots
  exact ⟨report, hreport, by simpa using hnone, c, hc, r, hr, by simpa using hplan⟩

namespace Report

/-- In a report, every root of what is reported without errors has a plan exactly when no root of it
stalls; this goes for the whole run as for each of its compositions. -/
theorem plans_iff_unstalled {config : Configuration} {setups : List Setup} {report : Report}
    (h : ofSetups config setups = .ok report) :
    ((report.hasErrors = false → ∀ c ∈ report.compositions, ∀ r ∈ c.roots, r.plan.isSome) ↔
      (report.hasErrors = false →
        ∀ c ∈ report.compositions, config.Unstalled setups c.name)) ∧
    ∀ c ∈ report.compositions, (c.hasErrors = false → ∀ r ∈ c.roots, r.plan.isSome) ↔
      (c.hasErrors = false → config.Unstalled setups c.name) := by
  have hiff : ∀ c ∈ report.compositions, c.hasErrors = false →
      ((∀ r ∈ c.roots, r.plan.isSome) ↔ config.Unstalled setups c.name) := by
    intro c hc hnone
    obtain ⟨name, -, hcomposition⟩ := mem_compositions h hc
    obtain ⟨rfl, -⟩ := CompositionReport.ofSetups_eq_ok hcomposition
    exact CompositionReport.plans_iff hcomposition hnone
  refine ⟨forall_congr' fun hnone => ?_, fun c hc => forall_congr' (hiff c hc)⟩
  refine forall₂_congr fun c hc => hiff c hc ?_
  simpa using List.any_eq_false.mp hnone c hc

/-- The second root of two parts that need each other stalls. -/
theorem plans_iff_unstalled_forgottenLoop :
    ∃ report, ofSetups .default [forgottenLoop] = .ok report ∧
      ∃ c ∈ report.compositions, c.hasErrors = false ∧
        ¬ Configuration.default.Unstalled [forgottenLoop] c.name := by
  obtain ⟨report, hreport, hnone, c, hc, r, hr, hplan⟩ := forgottenLoop_report
  have hquiet : c.hasErrors = false := by simpa using List.any_eq_false.mp hnone c hc
  refine ⟨report, hreport, c, hc, hquiet, fun hunstalled => ?_⟩
  have hsome := ((plans_iff_unstalled hreport).2 c hc).mpr (fun _ => hunstalled) hquiet r hr
  exact Bool.false_ne_true (hplan.symm.trans hsome)

/-- A root can be left without a plan although nothing is reported. -/
theorem forgottenLoop_unplanned :
    ¬ ∀ report, ofSetups .default [forgottenLoop] = .ok report → report.hasErrors = false →
      ∀ c ∈ report.compositions, ∀ r ∈ c.roots, r.plan.isSome := by
  intro hall
  obtain ⟨report, hreport, hnone, c, hc, r, hr, hplan⟩ := forgottenLoop_report
  exact Bool.false_ne_true (hplan.symm.trans (hall report hreport hnone c hc r hr))

end Report

end Injector

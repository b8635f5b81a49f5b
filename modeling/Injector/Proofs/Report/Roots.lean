import Injector.Proofs.Diagnostic.Sink
import Injector.Proofs.Report.Completion

/-!
# Reports of roots that are built one after the other

Each root of a composition is built after the loops that were reported for the roots before it, and
its report says what was built, examined and planned. The main statement is that every plan in the
report of a run can be carried out.
-/

namespace Injector

open Wiring

/-- Whether a report of a root says what was built of it after some loops were reported, where
`sink` has all that was found. -/
structure RootReport.Tells (resolver : Resolver) (mergeFailed : Bool) (sink : Sink)
    (root : Table.Root) (cycles : CycleLog) (b : RootBuild) (r : RootReport) : Prop where
  /-- The root was built. -/
  built : buildRoot resolver root cycles = .ok b
  /-- What was found building it is reported. -/
  reported : ∀ issue ∈ b.issues, issue ∈ sink.issues
  /-- Its graph was examined, and it was planned where nothing is wrong. -/
  planned : ∃ defects, b.graph.defects resolver.table root = .ok defects ∧
    (∀ issue ∈ defects, issue ∈ sink.issues) ∧
    (if mergeFailed || !b.isResolved || !defects.isEmpty then pure none
      else Plan.derive? b.graph root resolver.table) = .ok r.plan

/-- Whether reports are those of roots that were built one after the other. -/
def Reports (resolver : Resolver) (mergeFailed : Bool) (sink : Sink) :
    CycleLog → List Table.Root → List RootReport → Prop
  | _, [], [] => True
  | cycles, root :: roots, r :: rs =>
      ∃ b, r.Tells resolver mergeFailed sink root cycles b ∧
        Reports resolver mergeFailed sink b.cycles roots rs
  | _, _, _ => False

variable {resolver : Resolver} {mergeFailed : Bool} {sink sink' : Sink}

theorem RootReport.Tells.mono {root : Table.Root} {cycles : CycleLog} {b : RootBuild}
    {r : RootReport} (h : r.Tells resolver mergeFailed sink root cycles b)
    (hsink : ∀ issue ∈ sink.issues, issue ∈ sink'.issues) :
    r.Tells resolver mergeFailed sink' root cycles b := by
  obtain ⟨defects, hdefects, hreported, hplan⟩ := h.planned
  exact ⟨h.built, fun issue hi => hsink issue (h.reported issue hi), defects, hdefects,
    fun issue hi => hsink issue (hreported issue hi), hplan⟩

theorem Reports.mono {cycles : CycleLog} {roots : List Table.Root} {rs : List RootReport}
    (h : Reports resolver mergeFailed sink cycles roots rs)
    (hsink : ∀ issue ∈ sink.issues, issue ∈ sink'.issues) :
    Reports resolver mergeFailed sink' cycles roots rs := by
  induction roots generalizing cycles rs with
  | nil =>
    cases rs with
    | nil => trivial
    | cons r rs => exact h.elim
  | cons root roots ih =>
    cases rs with
    | nil => exact h.elim
    | cons r rs =>
      obtain ⟨b, htells, hrest⟩ := h
      exact ⟨b, htells.mono hsink, ih hrest⟩

namespace RootsProgress

/-- One root adds its report and what was found. -/
theorem add_eq_ok {p p' : RootsProgress} {root : Table.Root}
    (h : add resolver mergeFailed p root = .ok p') :
    ∃ b r, r.Tells resolver mergeFailed p'.sink root p.cycles b ∧ p'.cycles = b.cycles ∧
      p'.roots = p.roots ++ [r] ∧ ∀ issue ∈ p.sink.issues, issue ∈ p'.sink.issues := by
  obtain ⟨b, hbuilt, h⟩ := bind_eq_ok.mp h
  obtain ⟨defects, hdefects, h⟩ := bind_eq_ok.mp h
  have hadded : ∀ plan, (if mergeFailed || !b.isResolved || !defects.isEmpty then pure none
      else Plan.derive? b.graph root resolver.table) = .ok plan →
      ∃ b' r, RootReport.Tells resolver mergeFailed ((p.sink.reportAll b.issues).reportAll
          defects) root p.cycles b' r ∧ b.cycles = b'.cycles ∧
        p.roots ++ [⟨root.describe, b.graph, plan⟩] = p.roots ++ [r] ∧
        ∀ issue ∈ p.sink.issues,
          issue ∈ ((p.sink.reportAll b.issues).reportAll defects).issues := by
    intro plan hplan
    refine ⟨b, ⟨root.describe, b.graph, plan⟩, ⟨hbuilt, fun issue hi => ?_, defects, hdefects,
      fun issue hi => ?_, hplan⟩, rfl, rfl, fun issue hi => ?_⟩ <;> simp [hi]
  simp only at h
  split at h
  · next hfailed =>
    cases h
    exact hadded none (if_pos hfailed)
  · next hgood =>
    obtain ⟨plan, hplan, h⟩ := bind_eq_ok.mp h
    cases h
    exact hadded plan ((if_neg hgood).trans hplan)

/-- Several roots add their reports one after the other. -/
theorem foldlM_add_eq_ok {roots : List Table.Root} {p p' : RootsProgress}
    (h : roots.foldlM (add resolver mergeFailed) p = .ok p') :
    (∀ issue ∈ p.sink.issues, issue ∈ p'.sink.issues) ∧
      ∃ rs, p'.roots = p.roots ++ rs ∧
        Reports resolver mergeFailed p'.sink p.cycles roots rs := by
  induction roots generalizing p with
  | nil =>
    cases h
    exact ⟨fun issue hi => hi, [], by simp, trivial⟩
  | cons root roots ih =>
    rw [List.foldlM_cons] at h
    obtain ⟨p₁, hadd, h⟩ := bind_eq_ok.mp h
    obtain ⟨b, r, htells, hcycles, hroots, hsink⟩ := add_eq_ok hadd
    obtain ⟨hsink', rs, hroots', hreports⟩ := ih h
    refine ⟨fun issue hi => hsink' issue (hsink issue hi), r :: rs, ?_, b, htells.mono hsink',
      hcycles ▸ hreports⟩
    rw [hroots', hroots, List.append_assoc, List.singleton_append]

end RootsProgress

/-- What the report of a composition says: nothing of roots where there is no table, and otherwise
what became of the roots of the table and all that was found. -/
theorem CompositionReport.ofSetups_eq_ok {config : Configuration} {setups : List Setup}
    {name : String} {c : CompositionReport} (h : ofSetups config setups name = .ok c) :
    c.name = name ∧ ((Table.merge setups name config.hints .empty).2 = none ∧ c.roots = [] ∨
      ∃ merged table sink culture,
      Table.merge setups name config.hints .empty = (merged, some table) ∧
      (∀ issue ∈ merged.issues, issue ∈ sink.issues) ∧
      c.diagnostics = sink.finish table.hints culture ∧
      Reports ⟨table, .ofRegistrations config.shapes⟩ (merged.hasErrors table.hints) sink .empty
        table.roots c.roots) := by
  unfold ofSetups at h
  split at h
  · next merged hmerge =>
    cases h
    exact ⟨rfl, .inl ⟨congrArg Prod.snd hmerge, rfl⟩⟩
  · next merged table hmerge =>
    obtain ⟨p, hroots, h⟩ := bind_eq_ok.mp h
    cases h
    obtain ⟨hsink, rs, heq, hreports⟩ := RootsProgress.foldlM_add_eq_ok hroots
    refine ⟨rfl, .inr ⟨merged, table, _, _, hmerge, fun issue hi => ?_, rfl, ?_⟩⟩
    · exact Sink.mem_reportAll.mpr (.inl (hsink issue hi))
    · rw [List.nil_append] at heq
      rw [heq]
      exact hreports.mono fun issue hi => Sink.mem_reportAll.mpr (.inl hi)

/-- The plan of a root that was reported can be carried out. -/
theorem RootReport.Tells.executable {root : Table.Root} {cycles : CycleLog} {b : RootBuild}
    {r : RootReport} {plan : Plan} (h : r.Tells resolver mergeFailed sink root cycles b)
    (hplan : r.plan = some plan) : plan.Executable := by
  obtain ⟨defects, hdefects, -, hderive⟩ := h.planned
  rw [hplan] at hderive
  split at hderive
  · cases hderive
  · next hgood =>
    simp only [Bool.or_eq_true, Bool.not_eq_true', not_or, Bool.not_eq_false,
      List.isEmpty_iff] at hgood
    obtain ⟨⟨-, hresolved⟩, rfl⟩ := hgood
    obtain ⟨hconsistent, hknows⟩ := buildRoot_consistent h.built
    obtain ⟨plan', hplan', -, hexecutable⟩ :=
      Plan.derive?_ok hconsistent hknows (buildRoot_made h.built) root
    cases hplan'.symm.trans hderive
    exact hexecutable plan rfl (acyclic_of_defects_nil h.built hresolved hdefects)

theorem Reports.executable {cycles : CycleLog} {roots : List Table.Root} {rs : List RootReport}
    (h : Reports resolver mergeFailed sink cycles roots rs) {r : RootReport} (hr : r ∈ rs)
    {plan : Plan} (hplan : r.plan = some plan) : plan.Executable := by
  induction roots generalizing cycles rs with
  | nil =>
    cases rs with
    | nil => cases hr
    | cons r' rs => exact h.elim
  | cons root roots ih =>
    cases rs with
    | nil => cases hr
    | cons r' rs =>
      obtain ⟨b, htells, hrest⟩ := h
      rcases List.mem_cons.mp hr with rfl | hr
      · exact htells.executable hplan
      · exact ih hrest hr

/-- The compositions of a run are reported one by one. -/
theorem Report.mem_compositions {config : Configuration} {setups : List Setup} {report : Report}
    (h : Report.ofSetups config setups = .ok report) {c : CompositionReport}
    (hc : c ∈ report.compositions) :
    ∃ name ∈ Setup.compositions setups, CompositionReport.ofSetups config setups name = .ok c := by
  obtain ⟨cs, hall, h⟩ := bind_eq_ok.mp h
  cases h
  exact mem_of_mapM_eq_ok hall hc

/-- Every plan in the report of a run can be carried out. -/
theorem Report.plan_executable {config : Configuration} {setups : List Setup} {report : Report}
    (h : Report.ofSetups config setups = .ok report) {c : CompositionReport}
    (hc : c ∈ report.compositions) {r : RootReport} (hr : r ∈ c.roots) {plan : Plan}
    (hplan : r.plan = some plan) : plan.Executable := by
  obtain ⟨name, -, hcomposition⟩ := Report.mem_compositions h hc
  obtain ⟨-, ⟨-, hnone⟩ | ⟨merged, table, final, culture, -, -, -, hreports⟩⟩ :=
    CompositionReport.ofSetups_eq_ok hcomposition
  · rw [hnone] at hr
    cases hr
  · exact hreports.executable hr hplan

/-- A service that makes its parts by a provider and shares what they need. -/
def providedParts : Setup :=
  .sample [("IS", "Sv", [[.named "ILog" [], .named "Func" [.named "int" [], .named "IT" []]]]),
    ("IT", "T", [[.named "int" [], .named "ILog" []]]), ("ILog", "Log", [[]])] ["IS"]

/-- The plan of such a service has a routine behind a provider, and can be carried out. -/
theorem Report.providedParts_executable :
    ∃ report, Report.ofSetups .default [providedParts] = .ok report ∧
      ∃ c ∈ report.compositions, ∃ r ∈ c.roots, ∃ plan,
        r.plan = some plan ∧ plan.providers.length = 1 ∧ plan.Executable := by
  have hplanned : ((Report.ofSetups .default [providedParts]).toOption.any fun report =>
      report.compositions.any fun c => c.roots.any fun r =>
        r.plan.any fun plan => plan.providers.length == 1) = true := by decide +kernel
  cases hreport : Report.ofSetups .default [providedParts] with
  | error e =>
    rw [hreport] at hplanned
    cases hplanned
  | ok report =>
    rw [hreport] at hplanned
    obtain ⟨c, hc, hroots⟩ := List.any_eq_true.mp hplanned
    obtain ⟨r, hr, hany⟩ := List.any_eq_true.mp hroots
    obtain ⟨plan, hplan, hlength⟩ := (Option.any_eq_true _ _).mp hany
    exact ⟨report, rfl, c, hc, r, hr, plan, hplan, eq_of_beq hlength,
      Report.plan_executable hreport hc hr hplan⟩

end Injector

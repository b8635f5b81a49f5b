import Injector.Proofs.Report.Silence
import Injector.Proofs.Table.Warnings
import Injector.Proofs.Wiring.Touched

/-!
# Warnings of a run

What a run reports about overriding and use comes from the merge of the setups and from what was
reached by the builds of the roots, one after the other; what is found while roots are built and
examined is an error and no such warning. The main statement is that a run warns of each binding
exactly as it overrides, is replaced and is reached, unless a root is answered by the number of an
argument whose node was taken back, in which case there is no report.
-/

namespace Injector

open Wiring

/-! ### Roots that are built one after the other -/

/-- Whether builds are those of roots that were built one after the other. -/
def Built (resolver : Resolver) : CycleLog → List Table.Root → List RootBuild → Prop
  | _, [], [] => True
  | cycles, root :: roots, b :: bs =>
      buildRoot resolver root cycles = .ok b ∧ Built resolver b.cycles roots bs
  | _, _, _ => False

/-- Whether no query on the way from roots that are built one after the other is answered by the
number of an argument whose node was taken back. -/
def Resolver.Unspent (resolver : Resolver) : CycleLog → List Table.Root → Prop
  | _, [] => True
  | cycles, root :: roots => (∀ d, Query.Reaches resolver (.ofRoot root cycles) d → ¬ d.Stale) ∧
      ∀ b, buildRoot resolver root cycles = .ok b → resolver.Unspent b.cycles roots

variable {resolver : Resolver} {mergeFailed : Bool} {cycles : CycleLog}

/-- All roots are built exactly when no query is answered by such a number. -/
theorem exists_built_iff {roots : List Table.Root} :
    (∃ bs, Built resolver cycles roots bs) ↔ resolver.Unspent cycles roots := by
  induction roots generalizing cycles with
  | nil => exact iff_of_true ⟨[], trivial⟩ trivial
  | cons root roots ih =>
    rw [Resolver.Unspent, ← buildRoot_ok_iff]
    constructor
    · rintro ⟨bs, hbuilt⟩
      cases bs with
      | nil => exact hbuilt.elim
      | cons b bs =>
        obtain ⟨hb, hrest⟩ := hbuilt
        refine ⟨⟨b, hb⟩, fun b' hb' => ?_⟩
        cases hb.symm.trans hb'
        exact ih.mp ⟨bs, hrest⟩
    · rintro ⟨⟨b, hb⟩, hrest⟩
      obtain ⟨bs, hbs⟩ := ih.mpr (hrest b hb)
      exact ⟨b :: bs, hb, hbs⟩

theorem Built.exists_root {roots : List Table.Root} {bs : List RootBuild}
    (h : Built resolver cycles roots bs) {b : RootBuild} (hb : b ∈ bs) :
    ∃ root cycles, buildRoot resolver root cycles = .ok b := by
  induction roots generalizing cycles bs with
  | nil =>
    cases bs with
    | nil => cases hb
    | cons b' bs => exact h.elim
  | cons root roots ih =>
    cases bs with
    | nil => exact h.elim
    | cons b' bs =>
      obtain ⟨hb', hrest⟩ := h
      rcases List.mem_cons.mp hb with rfl | hb
      · exact ⟨root, cycles, hb'⟩
      · exact ih hrest hb

/-! ### What is found -/

namespace Sink

/-- Whether a sink has all that another has, each once, and besides only errors. -/
structure Adds (sink sink' : Sink) : Prop where
  /-- Nothing is lost. -/
  mem : ∀ x ∈ sink.issues, x ∈ sink'.issues
  /-- Errors are added. -/
  grave : ∀ x ∈ sink'.issues, x ∈ sink.issues ∨ x.message.Grave
  /-- Nothing is found twice. -/
  nodup : sink.issues.Nodup → sink'.issues.Nodup

theorem Adds.refl (sink : Sink) : sink.Adds sink := ⟨fun _ => id, fun _ => .inl, id⟩

theorem Adds.trans {sink sink' sink'' : Sink} (h : sink.Adds sink') (h' : sink'.Adds sink'') :
    sink.Adds sink'' :=
  ⟨fun x hx => h'.mem x (h.mem x hx), fun x hx => (h'.grave x hx).elim (h.grave x) .inr,
    fun hs => h'.nodup (h.nodup hs)⟩

theorem Adds.reportAll (sink : Sink) {issues : List Issue}
    (h : ∀ issue ∈ issues, issue.message.Grave) : sink.Adds (sink.reportAll issues) :=
  ⟨fun _ hx => mem_reportAll.mpr (.inl hx), fun x hx => (mem_reportAll.mp hx).imp_right (h x),
    fun hs => nodup_reportAll hs issues⟩

end Sink

/-- An error is no warning about overriding or use. -/
theorem Message.Grave.not_mem_usageKinds {m : Message} (h : m.Grave) :
    m.kind ∉ Table.usageKinds := by
  intro hkind
  have hall : ∀ k ∈ Table.usageKinds, k.isReclassifiable = true := by decide
  exact Bool.false_ne_true (h.symm.trans (hall m.kind hkind))

namespace RootsProgress

/-- A root that was built is examined and planned. -/
theorem add_ok (mergeFailed : Bool) {p : RootsProgress} {root : Table.Root} {b : RootBuild}
    (h : buildRoot resolver root p.cycles = .ok b) :
    ∃ p', add resolver mergeFailed p root = .ok p' ∧ p'.cycles = b.cycles ∧
      p'.touched = p.touched ++ b.touched ∧ p.sink.Adds p'.sink := by
  obtain ⟨hconsistent, hknows⟩ := buildRoot_consistent h
  obtain ⟨defects, hdefects⟩ := hconsistent.defects_ok hknows root
  obtain ⟨plan, hplan, -⟩ := Plan.derive?_ok hconsistent hknows (buildRoot_made h) root
  have hadds : p.sink.Adds ((p.sink.reportAll b.issues).reportAll defects) :=
    (Sink.Adds.reportAll p.sink (buildRoot_finds h).1).trans
      (.reportAll _ (Graph.defects_grave hdefects))
  have hderived : ∃ plan', (if mergeFailed || !b.isResolved || !defects.isEmpty then pure none
      else Plan.derive? b.graph root resolver.table) = .ok plan' := by
    split
    · exact ⟨none, rfl⟩
    · exact ⟨plan, hplan⟩
  obtain ⟨plan', hplan'⟩ := hderived
  refine ⟨⟨(p.sink.reportAll b.issues).reportAll defects, b.cycles, p.touched ++ b.touched,
    p.roots ++ [⟨root.describe, b.graph, plan'⟩]⟩, ?_, rfl, rfl, hadds⟩
  refine bind_eq_ok.mpr ⟨b, h, bind_eq_ok.mpr ⟨defects, hdefects, ?_⟩⟩
  simp only
  split
  · next hfailed =>
    rw [if_pos hfailed] at hplan'
    cases hplan'
    rfl
  · next hgood =>
    rw [if_neg hgood] at hplan'
    exact bind_eq_ok.mpr ⟨plan', hplan', rfl⟩

/-- The roots of a table are processed exactly when they are built one after the other. -/
theorem foldlM_add_iff {roots : List Table.Root} {p : RootsProgress} :
    (∃ p', roots.foldlM (add resolver mergeFailed) p = .ok p') ↔
      ∃ bs, Built resolver p.cycles roots bs := by
  induction roots generalizing p with
  | nil => exact iff_of_true ⟨p, rfl⟩ ⟨[], trivial⟩
  | cons root roots ih =>
    simp only [List.foldlM_cons, bind_eq_ok]
    constructor
    · rintro ⟨p', p₁, hadd, hrest⟩
      obtain ⟨b, r, htells, hcycles, -⟩ := add_eq_ok hadd
      obtain ⟨bs, hbs⟩ := ih.mp ⟨p', hrest⟩
      exact ⟨b :: bs, htells.built, hcycles ▸ hbs⟩
    · rintro ⟨bs, hbuilt⟩
      cases bs with
      | nil => exact hbuilt.elim
      | cons b bs =>
        obtain ⟨hb, hrest⟩ := hbuilt
        obtain ⟨p₁, hadd, hcycles, -⟩ := add_ok mergeFailed hb
        obtain ⟨p', hp'⟩ := ih.mpr ⟨bs, hcycles ▸ hrest⟩
        exact ⟨p', p₁, hadd, hp'⟩

/-- Roots that are built one after the other add what they reach, and errors. -/
theorem foldlM_add_built {roots : List Table.Root} {p p' : RootsProgress} {bs : List RootBuild}
    (hbuilt : Built resolver p.cycles roots bs)
    (h : roots.foldlM (add resolver mergeFailed) p = .ok p') :
    p'.touched = p.touched ++ bs.flatMap RootBuild.touched ∧ p.sink.Adds p'.sink := by
  induction roots generalizing p bs with
  | nil =>
    cases bs with
    | nil =>
      cases h
      exact ⟨by simp, .refl _⟩
    | cons b bs => exact hbuilt.elim
  | cons root roots ih =>
    cases bs with
    | nil => exact hbuilt.elim
    | cons b bs =>
      obtain ⟨hb, hrest⟩ := hbuilt
      obtain ⟨p₁, hadd, hcycles, htouched, hadds⟩ := add_ok mergeFailed hb
      rw [List.foldlM_cons] at h
      obtain ⟨p₂, hadd', h⟩ := bind_eq_ok.mp h
      cases hadd.symm.trans hadd'
      obtain ⟨htouched', hadds'⟩ := ih (hcycles ▸ hrest) h
      refine ⟨?_, hadds.trans hadds'⟩
      rw [htouched', htouched, List.flatMap_cons, List.append_assoc]

end RootsProgress

/-! ### Warnings of a composition -/

/-- Whether what was found about overriding and use is what the bindings of a table warrant after
some roots were built. -/
structure Sink.Warns (sink : Sink) (t : Table) (builds : List RootBuild) : Prop where
  /-- Nothing is found twice. -/
  once : sink.issues.Nodup
  /-- What is found is what is reported for a binding. -/
  mem_iff : ∀ x, x.message.kind ∈ Table.usageKinds →
    (x ∈ sink.issues ↔ ∃ id, x ∈ t.warnings (builds.flatMap RootBuild.touched) id)
  /-- For each binding, one issue names the contracts for which it overrides others, if any; if no
  root reached it, it is reported as not used where it is replaced and overrides nothing, and as
  not reached where it is not replaced and there are roots. -/
  warned : ∀ id r, t.bindings[id]? = some r → ∃ contracts : List Contract, contracts.Nodup ∧
    (∀ c, c ∈ contracts ↔ t.Overrides id c) ∧
    ∀ x, x ∈ t.warnings (builds.flatMap RootBuild.touched) id ↔
      (contracts ≠ [] ∧ x = ⟨r.location,
        .overriddenBinding (", ".intercalate (contracts.map Contract.text)) r.describe⟩) ∨
      ((∀ b ∈ builds, id ∉ b.touched) ∧ (∃ c, t.Replaced id c) ∧ contracts = [] ∧
        x = ⟨r.location, .bindingNotUsed r.describe⟩) ∨
      ((∀ b ∈ builds, id ∉ b.touched) ∧ (¬ ∃ c, t.Replaced id c) ∧ t.roots ≠ [] ∧
        x = ⟨r.location, .metadataDefect r.describe⟩)
  /-- A binding for which there is a node is at most reported to override others. -/
  present : ∀ b ∈ builds, ∀ n node, b.graph.nodes.get? n = some node →
    ∀ id s k, node.origin = .binding id s k →
      ∀ x ∈ t.warnings (builds.flatMap RootBuild.touched) id,
        x.message.kind = .overriddenBinding

/-- What is found once the roots were built and unused bindings are reported is what the bindings
warrant. -/
theorem Sink.Warns.of_built {setups : List Setup} {name : String} {hints : Hints}
    {merged sink : Sink} {t : Table} {roots : List Table.Root} {bs : List RootBuild}
    (hmerge : Table.merge setups name hints .empty = (merged, some t))
    (hbuilt : Built resolver cycles roots bs) (hadds : merged.Adds sink) :
    (sink.reportAll (t.unusedBindings (bs.flatMap RootBuild.touched))).Warns t bs := by
  obtain ⟨-, -, -, -, herrors, hmerged⟩ := Table.merge_eq_some hmerge
  rw [herrors] at hmerged
  have hunreached : ∀ id, id ∉ bs.flatMap RootBuild.touched ↔ ∀ b ∈ bs, id ∉ b.touched := by
    simp
  refine ⟨?_, fun x hx => ?_, fun id r hr => ?_, ?_⟩
  · refine nodup_reportAll (hadds.nodup ?_) _
    rw [hmerged]
    exact nodup_reportAll (nodup_reportAll (nodup_reportAll List.nodup_nil _) _) _
  · have hfound : x ∈ sink.issues ↔ x ∈ t.overridingBindings := by
      have hmem : x ∈ sink.issues ↔ x ∈ merged.issues :=
        ⟨fun h => (hadds.grave x h).resolve_right fun hgrave => hgrave.not_mem_usageKinds hx,
          hadds.mem x⟩
      have hother : x ∉ t.findings := fun h => Table.kind_of_mem_findings h hx
      simp [hmem, hmerged, hother, empty]
    rw [mem_reportAll, hfound, Table.exists_mem_warnings_iff]
  · refine ⟨t.overriddenBy id, t.nodup_overriddenBy id, fun c => Table.mem_overriddenBy,
      fun x => ?_⟩
    have hsome : (∃ c, t.Overrides id c) ↔ t.overriddenBy id ≠ [] := by
      simp only [← Table.mem_overriddenBy]
      exact ⟨fun ⟨_, hc⟩ => List.ne_nil_of_mem hc, List.exists_mem_of_ne_nil _⟩
    rw [Table.mem_warnings_iff hr, hsome, not_not, hunreached]
  · intro b hb n node hn id s k ho x hx
    have htouched : id ∈ bs.flatMap RootBuild.touched := by
      obtain ⟨root, cycles', hroot⟩ := hbuilt.exists_root hb
      exact List.mem_flatMap.mpr ⟨b, hb, mem_touched_of_node hroot hn ho⟩
    cases hr : t.bindings[id]? with
    | none => simp [Table.warnings, hr] at hx
    | some r =>
      rcases (Table.mem_warnings_iff hr).mp hx with ⟨-, rfl⟩ | ⟨hnot, -⟩ | ⟨hnot, -⟩
      · rfl
      · exact absurd htouched hnot
      · exact absurd htouched hnot

/-- Whether a report shows the warnings that the bindings of its composition warrant, if its setups
are merged. -/
def Configuration.Warns (config : Configuration) (setups : List Setup) (c : CompositionReport) :
    Prop :=
  ∀ t, (Table.merge setups c.name config.hints .empty).2 = some t → ∃ builds sink,
    Built ⟨t, .ofRegistrations config.shapes⟩ .empty t.roots builds ∧ Sink.Warns sink t builds ∧
      c.diagnostics = sink.finish t.hints (config.cultureUnder t.hints)

/-- Whether no query on the way from a root of a composition is answered by the number of an
argument whose node was taken back. -/
def Configuration.Unspent (config : Configuration) (setups : List Setup) (name : String) : Prop :=
  ∀ t, (Table.merge setups name config.hints .empty).2 = some t →
    Resolver.Unspent ⟨t, .ofRegistrations config.shapes⟩ .empty t.roots

/-- A composition is reported exactly when no query is answered by such a number. -/
theorem CompositionReport.ofSetups_ok_iff {config : Configuration} {setups : List Setup}
    {name : String} :
    (∃ c, ofSetups config setups name = .ok c) ↔ config.Unspent setups name := by
  unfold ofSetups Configuration.Unspent
  cases hmerge : Table.merge setups name config.hints .empty with | mk merged found
  cases found with
  | none => exact iff_of_true ⟨_, rfl⟩ fun t ht => nomatch ht
  | some t =>
    have hroots : (∃ p, RootsProgress.ofTable ⟨t, .ofRegistrations config.shapes⟩ merged = .ok p) ↔
        Resolver.Unspent ⟨t, .ofRegistrations config.shapes⟩ .empty t.roots :=
      RootsProgress.foldlM_add_iff.trans exists_built_iff
    simp only [Option.some.injEq, forall_eq', ← hroots]
    constructor
    · rintro ⟨c, hc⟩
      obtain ⟨p, hp, -⟩ := bind_eq_ok.mp hc
      exact ⟨p, hp⟩
    · rintro ⟨p, hp⟩
      exact ⟨_, bind_eq_ok.mpr ⟨p, hp, rfl⟩⟩

/-- A composition that is reported is reported with the warnings that its bindings warrant. -/
theorem CompositionReport.warns {config : Configuration} {setups : List Setup} {name : String}
    {c : CompositionReport} (h : ofSetups config setups name = .ok c) : config.Warns setups c := by
  intro t ht
  obtain ⟨hname, -⟩ := ofSetups_eq_ok h
  rw [hname] at ht
  unfold ofSetups at h
  split at h
  · next merged hmerge =>
    rw [hmerge] at ht
    cases ht
  · next merged table hmerge =>
    rw [hmerge] at ht
    cases ht
    obtain ⟨p, hroots, h⟩ := bind_eq_ok.mp h
    cases h
    obtain ⟨bs, hbuilt⟩ := RootsProgress.foldlM_add_iff.mp ⟨p, hroots⟩
    obtain ⟨htouched, hadds⟩ := RootsProgress.foldlM_add_built hbuilt hroots
    rw [List.nil_append] at htouched
    refine ⟨bs, p.sink.reportAll (t.unusedBindings p.touched), hbuilt, ?_, rfl⟩
    rw [htouched]
    exact Sink.Warns.of_built hmerge hbuilt hadds

/-- A run reports all compositions, with the warnings that the bindings of each warrant, exactly
when no root of a composition is answered by the number of an argument whose node was taken back;
otherwise nothing is reported. -/
theorem Report.warns_iff (config : Configuration) (setups : List Setup) :
    (∃ report, Report.ofSetups config setups = .ok report ∧
      report.compositions.map CompositionReport.name = Setup.compositions setups ∧
      ∀ c ∈ report.compositions, config.Warns setups c) ↔
    ∀ name ∈ Setup.compositions setups, config.Unspent setups name := by
  simp only [← CompositionReport.ofSetups_ok_iff, ← mapM_ok_iff]
  constructor
  · rintro ⟨report, h, -⟩
    obtain ⟨cs, hall, -⟩ := bind_eq_ok.mp h
    exact ⟨cs, hall⟩
  · rintro ⟨cs, hall⟩
    refine ⟨⟨cs⟩, bind_eq_ok.mpr ⟨cs, hall, rfl⟩, ?_, fun c hc => ?_⟩
    · have hnames := (mapM_eq_ok.mp hall).imp fun name c hc =>
        (CompositionReport.ofSetups_eq_ok hc).1.symm
      exact (List.forall₂_eq_eq_eq ▸ List.forall₂_map_right_iff.mpr hnames).symm
    · obtain ⟨name, -, hname⟩ := mem_of_mapM_eq_ok hall hc
      exact CompositionReport.warns hname

/-- A service whose parts take an argument of the provider call and replace a simpler one; the
constructor tried first needs something else that nothing answers. -/
def replacedPart : Setup :=
  .sample [("IS", "Sv", [[.named "Func" [.named "int" [], .named "IT" []]]]), ("IT", "Old", [[]]),
    ("IT", "T", [[.named "int" [], .named "IMissing" []], [.named "int" []]])] ["IS"]

/-- The last binding is active for a contract that the one before it declares, but nothing is
reported for it. -/
theorem Report.replacedPart_unreported :
    ∃ t, (Table.merge [replacedPart] "Composition" Configuration.default.hints .empty).2 = some t ∧
      t.Overrides 2 ⟨.named "IT" [], none⟩ ∧
      ∀ report, Report.ofSetups .default [replacedPart] ≠ .ok report := by
  refine ⟨.ofSetups "Composition" Configuration.default.hints [replacedPart], by decide +kernel,
    ⟨by decide +kernel, 1, by decide +kernel, by decide⟩, fun report h => ?_⟩
  have hnone : (Report.ofSetups .default [replacedPart]).toOption.isNone = true := by
    decide +kernel
  rw [h] at hnone
  cases hnone

end Injector

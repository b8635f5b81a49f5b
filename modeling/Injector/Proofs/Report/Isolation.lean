import Injector.Proofs.Report.Usage
import Injector.Proofs.Setup.Restriction

/-!
# Compositions of one run

A composition is merged from the setups that it reaches, and its report is made from these alone,
whatever other setups are broken, depend on each other or are in conflict. The main statement is
that the run of all setups has the same report, unless another composition ends the run: where a
root of one that is not reached is answered by the number of an argument whose node was taken back,
the reports of all compositions are lost.
-/

namespace Injector

/-- The report of a composition in the run of some setups. -/
def Configuration.reportOf? (config : Configuration) (setups : List Setup) (name : String) :
    Option CompositionReport :=
  (Report.ofSetups config setups).toOption.bind fun report => report.composition? name

variable {config : Configuration} {setups : List Setup} {composition name : String}

namespace Setup.Agree

variable {kept : List Setup} {among : String → Prop} (h : Agree kept setups among)

include h

/-- A composition is reported alike. -/
theorem ofSetups_eq (config : Configuration) (hname : among name) :
    CompositionReport.ofSetups config kept name =
      CompositionReport.ofSetups config setups name := by
  rw [CompositionReport.ofSetups, CompositionReport.ofSetups, h.merge_eq hname]

theorem unspent_iff (hname : among name) :
    config.Unspent kept name ↔ config.Unspent setups name := by
  rw [Configuration.Unspent, Configuration.Unspent, h.merge_eq hname]

end Setup.Agree

/-- A run ends with a report exactly when no root of a composition is answered by the number of an
argument whose node was taken back. -/
theorem Report.ofSetups_ok_iff : (∃ report, Report.ofSetups config setups = .ok report) ↔
    ∀ name ∈ Setup.compositions setups, config.Unspent setups name := by
  simp only [← CompositionReport.ofSetups_ok_iff, ← mapM_ok_iff]
  constructor
  · rintro ⟨report, h⟩
    obtain ⟨cs, hall, -⟩ := bind_eq_ok.mp h
    exact ⟨cs, hall⟩
  · rintro ⟨cs, hall⟩
    exact ⟨⟨cs⟩, bind_eq_ok.mpr ⟨cs, hall, rfl⟩⟩

/-- Where a run ends, the report of each composition is found in it. -/
theorem Configuration.reportOf?_eq {report : Report}
    (h : Report.ofSetups config setups = .ok report) (hname : name ∈ Setup.compositions setups) :
    ∃ c, config.reportOf? setups name = some c ∧
      CompositionReport.ofSetups config setups name = .ok c := by
  have hreport : config.reportOf? setups name = report.composition? name := by
    rw [reportOf?, h]
    rfl
  have hfound : (report.composition? name).isSome = true := by
    obtain ⟨cs, hall, hcs⟩ := bind_eq_ok.mp h
    cases hcs
    obtain ⟨c, hc, hname⟩ := exists_mem_of_mapM_eq_ok hall hname
    exact List.find?_isSome.mpr ⟨c, hc, by simp [(CompositionReport.ofSetups_eq_ok hname).1]⟩
  obtain ⟨c, hc⟩ := Option.isSome_iff_exists.mp hfound
  obtain ⟨name', -, hname'⟩ := Report.mem_compositions h (List.mem_of_find?_eq_some hc)
  have hsame : c.name = name := by
    have hfits := List.find?_some hc
    exact eq_of_beq hfits
  rw [← (CompositionReport.ofSetups_eq_ok hname').1, hsame] at hname'
  exact ⟨c, hreport.trans hc, hname'⟩

/-- Where a run does not end, there is no report. -/
theorem Configuration.reportOf?_eq_none (h : ¬ ∃ report, Report.ofSetups config setups = .ok report)
    (name : String) : config.reportOf? setups name = none := by
  rw [reportOf?]
  cases hrun : Report.ofSetups config setups with
  | error e => rfl
  | ok report => exact absurd ⟨report, hrun⟩ h

/-- A composition, and every other one that it reaches, is reported by what it reaches alone as by
all setups. The run of all setups has the same report for it as the run of what it reaches exactly
when it ends where that run does: when no composition that is not reached is answered by the number
of an argument whose node was taken back. -/
theorem Report.isolated_iff (config : Configuration)
    (hname : composition ∈ Setup.compositions setups) :
    composition ∈ Setup.compositions (Setup.within setups composition) ∧
    (∀ name ∈ Setup.compositions (Setup.within setups composition),
      CompositionReport.ofSetups config (Setup.within setups composition) name =
        CompositionReport.ofSetups config setups name) ∧
    (config.reportOf? (Setup.within setups composition) composition =
        config.reportOf? setups composition ↔
      ((∀ name ∈ Setup.compositions setups, Setup.Reaches setups composition name →
          config.Unspent setups name) →
        ∀ name ∈ Setup.compositions setups, config.Unspent setups name)) := by
  have hagree := Setup.agree_within (Setup.isGlobal_of_mem_compositions hname)
  have hself : Setup.Reaches setups composition composition := Setup.Starts.reaches (.inl rfl)
  have hmem : composition ∈ Setup.compositions (Setup.within setups composition) :=
    Setup.mem_compositions_within.mpr ⟨hname, hself⟩
  have hends : (∃ report, Report.ofSetups config (Setup.within setups composition) = .ok report) ↔
      ∀ name ∈ Setup.compositions setups, Setup.Reaches setups composition name →
        config.Unspent setups name := by
    rw [Report.ofSetups_ok_iff]
    constructor
    · exact fun h name hin hreached => (hagree.unspent_iff hreached).mp
        (h name (Setup.mem_compositions_within.mpr ⟨hin, hreached⟩))
    · intro h name hin
      obtain ⟨hin, hreached⟩ := Setup.mem_compositions_within.mp hin
      exact (hagree.unspent_iff hreached).mpr (h name hin hreached)
  refine ⟨hmem, fun name hin =>
    hagree.ofSetups_eq config (Setup.mem_compositions_within.mp hin).2, ?_⟩
  rw [← hends, ← Report.ofSetups_ok_iff]
  by_cases hall : ∃ report, Report.ofSetups config setups = .ok report
  · refine iff_of_true ?_ fun _ => hall
    have hkept : ∃ report, Report.ofSetups config (Setup.within setups composition) = .ok report :=
      hends.mpr fun name hin _ => Report.ofSetups_ok_iff.mp hall name hin
    obtain ⟨report, hreport⟩ := hall
    obtain ⟨report', hreport'⟩ := hkept
    obtain ⟨c, hc, hreported⟩ := Configuration.reportOf?_eq hreport hname
    obtain ⟨c', hc', hreported'⟩ := Configuration.reportOf?_eq hreport' hmem
    rw [hagree.ofSetups_eq config hself, hreported] at hreported'
    cases hreported'
    exact hc'.trans hc.symm
  · rw [Configuration.reportOf?_eq_none hall]
    constructor
    · intro hnone hkept
      obtain ⟨report', hreport'⟩ := hkept
      obtain ⟨c', hc', -⟩ := Configuration.reportOf?_eq hreport' hmem
      cases hnone.symm.trans hc'
    · exact fun hkept => Configuration.reportOf?_eq_none (fun h => hall (hkept h)) composition

/-- A composition with a base, beside one that depends on a missing setup and one that depends on
itself. -/
def brokenNeighbours : List Setup :=
  [{ Setup.sample [("IA", "A", [[.named "IB" []]])] ["IA"] with dependsOn := ["Base"] },
    { Setup.sample [("IB", "B", [[]])] [] with name := "Base" },
    { Setup.sample [] ["IA"] with name := "Broken", dependsOn := ["Missing"] },
    { Setup.sample [] ["IA"] with name := "Loop", dependsOn := ["Base", "Loop"] }]

/-- The other two are refused, and the composition is reported as without them. -/
theorem Report.isolated_iff_brokenNeighbours :
    "Composition" ∈ Setup.compositions brokenNeighbours ∧
    (∀ name ∈ ["Broken", "Loop"],
      (Table.merge brokenNeighbours name Configuration.default.hints .empty).2 = none) ∧
    ∃ c, Configuration.default.reportOf? (Setup.within brokenNeighbours "Composition")
        "Composition" = some c ∧
      Configuration.default.reportOf? brokenNeighbours "Composition" = some c ∧
      c.hasErrors = false := by
  have hname : "Composition" ∈ Setup.compositions brokenNeighbours := by decide +kernel
  have hends : (Report.ofSetups .default brokenNeighbours).toOption.isSome = true := by
    decide +kernel
  obtain ⟨report, hreport⟩ := Option.isSome_iff_exists.mp hends
  have hreport := toOption_eq_some.mp hreport
  have hfound : (Configuration.default.reportOf? brokenNeighbours "Composition").any
      (fun c => !c.hasErrors) = true := by decide +kernel
  obtain ⟨c, hc, hclean⟩ := (Option.any_eq_true _ _).mp hfound
  have hsame := (Report.isolated_iff .default hname).2.2.mpr fun _ =>
    Report.ofSetups_ok_iff.mp ⟨report, hreport⟩
  exact ⟨hname, by decide +kernel, c, hsame.trans hc, hc, by simpa using hclean⟩

/-- A composition that needs nothing else, beside one whose argument loses its node. -/
def faultyNeighbour : List Setup :=
  [.sample [("IA", "A", [[]])] ["IA"], { rejectedArgument with name := "Other" }]

/-- The first composition reaches nothing but itself and is reported when it is left to itself, but
in the run of both nothing is reported. -/
theorem Report.faultyNeighbour_unreported :
    "Composition" ∈ Setup.compositions faultyNeighbour ∧
    Setup.within faultyNeighbour "Composition" = [.sample [("IA", "A", [[]])] ["IA"]] ∧
    (Configuration.default.reportOf? [.sample [("IA", "A", [[]])] ["IA"]]
      "Composition").isSome = true ∧
    Configuration.default.reportOf? faultyNeighbour "Composition" = none := by
  refine ⟨by decide +kernel, ?_, by decide +kernel, by decide +kernel⟩
  have horder : Setup.order faultyNeighbour "Composition" = .ok ["Composition"] := rfl
  rw [Setup.within_eq_of_order horder]
  decide +kernel

end Injector

import Injector.Proofs.Report.Roots
import Injector.Proofs.Table.Failure

/-!
# Roots looked up by name

A report calls a root by its member or, where it has none, by the text of its contract, and the
first root of a name is the one that is found. A merge keeps members apart and contracts apart, but
not members from contracts, nor contracts that are only written alike. The main statement is that
each root of a composition is found under its name exactly when no two of its roots are mistaken for
each other in one of these ways.
-/

namespace Injector

/-- Whether each root is the one that is found under its name, at its own place, and its plan the
one that is found. -/
def CompositionReport.FindsRoots (c : CompositionReport) : Prop :=
  ∀ i r, c.roots[i]? = some r →
    c.roots.findIdx? (fun other => other.name == r.name) = some i ∧
      c.root? r.name = some r ∧ c.plan? r.name = r.plan

/-- Each root is found under its name when no name is that of two roots. -/
theorem CompositionReport.findsRoots_iff_nodup {c : CompositionReport} :
    c.FindsRoots ↔ (c.roots.map RootReport.name).Nodup := by
  rw [List.Nodup, List.pairwise_map, List.pairwise_iff_getElem]
  constructor
  · intro h i j hi hj hlt heq
    obtain ⟨hplace, -⟩ := h j c.roots[j] (List.getElem?_eq_getElem hj)
    obtain ⟨_, -, hbefore⟩ := List.findIdx?_eq_some_iff_getElem.mp hplace
    exact hbefore i hlt (beq_iff_eq.mpr heq)
  · intro h i r hr
    obtain ⟨hi, rfl⟩ := List.getElem?_eq_some_iff.mp hr
    have hbefore : ∀ j (hj : j < i), ¬ (c.roots[j].name == c.roots[i].name) = true :=
      fun j hj heq => h j i (hj.trans hi) hi hj (eq_of_beq heq)
    have hfound : c.root? c.roots[i].name = some c.roots[i] :=
      List.find?_eq_some_iff_getElem.mpr ⟨beq_self_eq_true _, i, hi, rfl, fun j hj => by
        simpa using hbefore j hj⟩
    refine ⟨List.findIdx?_eq_some_iff_getElem.mpr ⟨hi, beq_self_eq_true _, hbefore⟩, hfound, ?_⟩
    rw [plan?, hfound, Option.bind_some]

namespace Table

/-- The contract of a declared root, as it enters a table. -/
def requested (root : Setup × Injector.Root) : Contract :=
  .request (root.2.type.withMarkers root.1.markers) root.2.tag

/-- Whether two declared roots that do not collide have one name in reports: the member of one is
written like the contract of the other, which has no member, or neither has a member and their
contracts differ but are written alike. -/
def Mistakable (a b : Setup × Injector.Root) : Prop :=
  (a.2.name ≠ "" ∧ b.2.name = "" ∧ a.2.name = (requested b).text) ∨
    (a.2.name = "" ∧ b.2.name ≠ "" ∧ (requested a).text = b.2.name) ∨
    (a.2.name = "" ∧ b.2.name = "" ∧ requested a ≠ requested b ∧
      (requested a).text = (requested b).text)

theorem mistakable_symm {a b : Setup × Injector.Root} (h : Mistakable a b) : Mistakable b a := by
  obtain ⟨ha, hb, heq⟩ | ⟨ha, hb, heq⟩ | ⟨ha, hb, hne, heq⟩ := h
  · exact .inr (.inl ⟨hb, ha, heq.symm⟩)
  · exact .inl ⟨hb, ha, heq.symm⟩
  · exact .inr (.inr ⟨hb, ha, hne.symm, heq.symm⟩)

/-- Two roots have one name in reports when they collide or are mistaken for each other, for
contracts that are written alike are equal or mistaken for each other. -/
theorem describe_rootOf_eq_iff {a b : Setup × Injector.Root} :
    (rootOf a.1 a.2).describe = (rootOf b.1 b.2).describe ↔ Collide a b ∨ Mistakable a b := by
  have hname : ∀ root : Setup × Injector.Root, (rootOf root.1 root.2).describe =
      if root.2.name = "" then (requested root).text else root.2.name := by
    simp [Root.describe, rootOf, requested]
  rw [hname, hname]
  unfold Collide Mistakable
  by_cases ha : a.2.name = "" <;> by_cases hb : b.2.name = ""
  · have htext : requested a = requested b → (requested a).text = (requested b).text :=
      congrArg Contract.text
    simp only [ha, hb, requested] at htext ⊢
    simp
    tauto
  all_goals simp [ha, hb]

/-- Where no declared roots collide, no two have one name in reports when none are mistaken for each
other. -/
theorem nodup_describe_iff {roots : List (Setup × Injector.Root)}
    (h : roots.Pairwise fun a b => ¬ Collide a b) :
    (roots.map fun e => (rootOf e.1 e.2).describe).Nodup ↔
      roots.Pairwise fun a b => ¬ Mistakable a b := by
  rw [List.Nodup, List.pairwise_map]
  constructor
  · exact fun hnames => hnames.imp fun hname hab =>
      hname (describe_rootOf_eq_iff.mpr (.inr hab))
  · intro hapart
    refine (h.and hapart).imp fun hboth hname => ?_
    obtain hab | hab := describe_rootOf_eq_iff.mp hname
    · exact hboth.1 hab
    · exact hboth.2 hab

end Table

/-- Each root that is added is reported under the name that diagnostics call it. -/
theorem RootsProgress.names_foldlM_add {resolver : Resolver} {mergeFailed : Bool}
    {roots : List Table.Root} {p p' : RootsProgress}
    (h : roots.foldlM (add resolver mergeFailed) p = .ok p') :
    p'.roots.map RootReport.name =
      p.roots.map RootReport.name ++ roots.map Table.Root.describe := by
  induction roots generalizing p with
  | nil =>
    cases h
    simp
  | cons root roots ih =>
    rw [List.foldlM_cons] at h
    obtain ⟨p₁, hadd, h⟩ := bind_eq_ok.mp h
    have hone : p₁.roots.map RootReport.name = p.roots.map RootReport.name ++ [root.describe] := by
      obtain ⟨b, -, hadd⟩ := bind_eq_ok.mp hadd
      obtain ⟨defects, -, hadd⟩ := bind_eq_ok.mp hadd
      simp only at hadd
      split at hadd
      · cases hadd
        simp
      · obtain ⟨plan, -, hadd⟩ := bind_eq_ok.mp hadd
        cases hadd
        simp
    rw [ih h, hone, List.append_assoc]
    rfl

/-- A composition without a table reports no roots, and any other those of its table by the names
that diagnostics call them. -/
theorem CompositionReport.names_ofSetups {config : Configuration} {setups : List Setup}
    {name : String} {c : CompositionReport} (h : ofSetups config setups name = .ok c) :
    c.roots = [] ∨ ∃ merged table,
      Table.merge setups name config.hints .empty = (merged, some table) ∧
      c.roots.map RootReport.name = table.roots.map Table.Root.describe := by
  unfold ofSetups at h
  split at h
  · cases h
    exact .inl rfl
  · next merged table hmerge =>
    obtain ⟨p, hroots, h⟩ := bind_eq_ok.mp h
    cases h
    exact .inr ⟨merged, table, hmerge, RootsProgress.names_foldlM_add hroots⟩

/-- Each root in the report of a composition is found under its name exactly when no two roots that
the composition reaches are mistaken for each other, unless none is reported. -/
theorem Report.findsRoots_iff {config : Configuration} {setups : List Setup} {report : Report}
    (h : Report.ofSetups config setups = .ok report) {c : CompositionReport}
    (hc : c ∈ report.compositions) :
    c.FindsRoots ↔ c.roots = [] ∨ ∀ a b,
      [a, b].Sublist (Table.exposed (Setup.within setups c.name)) → ¬ Table.Mistakable a b := by
  obtain ⟨name, -, hcomposition⟩ := Report.mem_compositions h hc
  obtain ⟨rfl, -⟩ := CompositionReport.ofSetups_eq_ok hcomposition
  rw [CompositionReport.findsRoots_iff_nodup]
  obtain hnone | ⟨merged, table, hmerge, hnames⟩ := CompositionReport.names_ofSetups hcomposition
  · simp [hnone]
  · obtain ⟨-, order, horder, htable, hsound, -⟩ := Table.merge_eq_some hmerge
    obtain ⟨-, hunrepeated⟩ := List.append_eq_nil_iff.mp hsound
    have hroots : table.roots = (Table.exposed (order.flatMap (Setup.parts setups))).map
        fun e => Table.rootOf e.1 e.2 := by
      rw [htable, Table.roots_ofSetups]
    have hapart : (Table.exposed (order.flatMap (Setup.parts setups))).Pairwise
        fun a b => ¬ Table.Collide a b := by
      have hkeys := (Table.repeatedRoots_eq_nil_iff.mp (List.map_eq_nil_iff.mp hunrepeated)).2
      rw [hroots, List.pairwise_map] at hkeys
      exact hkeys.imp fun hkey hab => hkey (Table.key_rootOf_eq_iff.mpr hab)
    have hperm : (Table.exposed (order.flatMap (Setup.parts setups))).Perm
        (Table.exposed (Setup.within setups c.name)) :=
      (Setup.perm_within_of_order horder).flatMap_right _
    have hdistinct : (c.roots.map RootReport.name).Nodup ↔ ∀ a b,
        [a, b].Sublist (Table.exposed (Setup.within setups c.name)) → ¬ Table.Mistakable a b := by
      rw [hnames, hroots, List.map_map, ← List.pairwise_iff_forall_sublist,
        ← hperm.pairwise_iff fun hab hba => hab (Table.mistakable_symm hba)]
      exact Table.nodup_describe_iff hapart
    rw [hdistinct, or_iff_right_of_imp]
    intro hnone
    rw [← hdistinct, hnone]
    exact .nil

/-- A root without a member, and a member called otherwise. -/
def apartRoots : Setup :=
  { Setup.sample [("IA", "A", [[]]), ("IB", "B", [[]])] [] with
    roots := [⟨"", .named "IA" [], none, .property, .unknown⟩,
      ⟨"Other", .named "IB" [], none, .property, .unknown⟩] }

/-- Both are found, and are not mistaken for each other. -/
theorem Report.findsRoots_iff_apartRoots :
    ∃ report, Report.ofSetups .default [apartRoots] = .ok report ∧
      ∃ c ∈ report.compositions, c.roots ≠ [] ∧ c.FindsRoots ∧ ∀ a b,
        [a, b].Sublist (Table.exposed (Setup.within [apartRoots] c.name)) →
          ¬ Table.Mistakable a b := by
  have hnames : ((Report.ofSetups .default [apartRoots]).toOption.any fun report =>
      report.compositions.any fun c => c.roots.map RootReport.name == ["IA", "Other"]) = true := by
    decide +kernel
  obtain ⟨report, hreport, hany⟩ := (Option.any_eq_true _ _).mp hnames
  obtain ⟨c, hc, hnames⟩ := List.any_eq_true.mp hany
  have hreport := toOption_eq_some.mp hreport
  have hroots : c.roots ≠ [] := by
    rintro hnone
    simp [hnone] at hnames
  have hfinds : c.FindsRoots := by
    rw [CompositionReport.findsRoots_iff_nodup, eq_of_beq hnames]
    decide
  exact ⟨report, hreport, c, hc, hroots, hfinds,
    ((Report.findsRoots_iff hreport hc).mp hfinds).resolve_left hroots⟩

/-- A root without a member asks for the contract that is called as the member of the other root. -/
def namesakes : Setup :=
  { Setup.sample [("IA", "A", [[]]), ("IB", "B", [[]])] [] with
    roots := [⟨"", .named "IA" [], none, .property, .unknown⟩,
      ⟨"IA", .named "IB" [], none, .property, .unknown⟩] }

/-- The composition is merged, built and planned without an error, and both roots are reported by
one name, under which one of them and its plan are not found. -/
theorem Report.namesakes_mistaken :
    ∃ report, Report.ofSetups .default [namesakes] = .ok report ∧ report.hasErrors = false ∧
      ∃ c ∈ report.compositions, c.roots.map RootReport.name = ["IA", "IA"] ∧
        (∃ r ∈ c.roots, c.root? r.name ≠ some r ∧ c.plan? r.name ≠ r.plan) ∧ ¬ c.FindsRoots := by
  have hfound : ((Report.ofSetups .default [namesakes]).toOption.any fun report =>
      !report.hasErrors && report.compositions.any fun c =>
        c.roots.map RootReport.name == ["IA", "IA"] &&
          c.roots.any fun r => c.root? r.name != some r && c.plan? r.name != r.plan) = true := by
    decide +kernel
  obtain ⟨report, hreport, hany⟩ := (Option.any_eq_true _ _).mp hfound
  obtain ⟨herrors, hany⟩ := Bool.and_eq_true_iff.mp hany
  obtain ⟨c, hc, hany⟩ := List.any_eq_true.mp hany
  obtain ⟨hnames, hany⟩ := Bool.and_eq_true_iff.mp hany
  obtain ⟨r, hr, hother⟩ := List.any_eq_true.mp hany
  have hnames := eq_of_beq hnames
  have hother : c.root? r.name ≠ some r ∧ c.plan? r.name ≠ r.plan := by simpa using hother
  refine ⟨report, toOption_eq_some.mp hreport, by simpa using herrors, c, hc, hnames,
    ⟨r, hr, hother⟩, fun hfinds => ?_⟩
  rw [CompositionReport.findsRoots_iff_nodup, hnames] at hfinds
  exact absurd hfinds (by decide)

end Injector

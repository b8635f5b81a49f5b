import Injector.Proofs.Diagnostic.Sink
import Mathlib.Data.List.Forall2
import Mathlib.Data.List.Induction

/-!
# What becomes of reports

A sink keeps the first of equal reports. In the end hints rate what was kept, what they hide is left
out and the rest is put into words. The main statement is that diagnostics show, in order, exactly
what was reported first and is not hidden, whatever the hints and the language.
-/

namespace Injector

namespace Hints

variable {hints : Hints} {kind : DiagnosticKind} {severity : Severity}

/-- Whether the hint of a key is a severity. -/
def Names (hints : Hints) (key : String) (severity : Severity) : Prop :=
  ∃ value, hints.get? key = some value ∧ Severity.ofHint? value = some severity

theorem names_iff {key : String} :
    hints.Names key severity ↔ (hints.get? key).bind Severity.ofHint? = some severity :=
  Option.bind_eq_some_iff.symm

/-- Whether hints ask for a severity of a kind. -/
inductive Asks (hints : Hints) : DiagnosticKind → Severity → Prop
  /-- Contracts that are not implemented have a hint of their own. -/
  | own {severity : Severity} (own : hints.Names "SeverityOfNotImplementedContract" severity) :
      Asks hints .notImplementedContract severity
  /-- Where this one says nothing, as for other kinds, there is one by the name of the kind. -/
  | named {kind : DiagnosticKind} {severity : Severity}
      (silent : kind = .notImplementedContract →
        ∀ s, ¬ hints.Names "SeverityOfNotImplementedContract" s)
      (named : hints.Names ("Severity." ++ kind.name) severity) : Asks hints kind severity

theorem asks_iff : hints.Asks kind severity ↔ hints.severityFor kind = some severity := by
  have hown : (∀ s, ¬ hints.Names "SeverityOfNotImplementedContract" s) ↔
      (hints.get? "SeverityOfNotImplementedContract").bind Severity.ofHint? = none := by
    simp only [names_iff, Option.eq_none_iff_forall_ne_some, ne_eq]
  constructor
  · rintro (hs | ⟨hsilent, hs⟩)
    · simp [severityFor, names_iff.mp hs]
    · by_cases hkind : kind = .notImplementedContract
      · simp only [severityFor, if_pos hkind, hown.mp (hsilent hkind), names_iff.mp hs]
        rfl
      · simp only [severityFor, if_neg hkind, names_iff.mp hs]
        rfl
  · intro hs
    by_cases hkind : kind = .notImplementedContract
    · simp only [severityFor, if_pos hkind, Option.orElse_eq_orElse, Option.orElse_eq_or,
        Option.or_eq_some_iff] at hs
      rcases hs with hs | ⟨hnone, hs⟩
      · exact hkind ▸ .own (names_iff.mpr hs)
      · exact .named (fun _ => hown.mpr hnone) (names_iff.mpr hs)
    · simp only [severityFor, if_neg hkind, Option.orElse_eq_orElse, Option.orElse_eq_or,
        Option.none_or] at hs
      exact .named (fun h => absurd h hkind) (names_iff.mpr hs)

/-- Whether a kind has a severity under hints. -/
inductive Rates (hints : Hints) : DiagnosticKind → Severity → Prop
  /-- An error stays one, unless it is about contracts that are not implemented. -/
  | fixed {kind : DiagnosticKind} (error : kind.isError = true)
      (other : kind ≠ .notImplementedContract) : Rates hints kind .error
  /-- Any other kind is what the hints ask for. -/
  | asked {kind : DiagnosticKind} {severity : Severity} (free : kind.isReclassifiable = true)
      (asked : hints.Asks kind severity) : Rates hints kind severity
  /-- Where they ask for nothing, it is what it is by itself. -/
  | unasked {kind : DiagnosticKind} (free : kind.isReclassifiable = true)
      (silent : ∀ s, ¬ hints.Asks kind s) : Rates hints kind kind.severity

/-- Each kind has the one severity under hints that it is shown with. -/
theorem rates_iff : hints.Rates kind severity ↔ hints.effectiveSeverity kind = severity := by
  cases hfree : kind.isReclassifiable with
  | false =>
    obtain ⟨herror, hother⟩ := DiagnosticKind.isReclassifiable_eq_false_iff.mp hfree
    have hsevere : kind.severity = .error := eq_of_beq herror
    simp only [effectiveSeverity, hfree, hsevere]
    constructor
    · intro h
      cases h with
      | fixed _ _ => rfl
      | asked free _ => simp [hfree] at free
      | unasked free _ => simp [hfree] at free
    · rintro rfl
      exact .fixed herror hother
  | true =>
    simp only [effectiveSeverity, hfree, if_true]
    constructor
    · intro h
      cases h with
      | fixed error other =>
        have hfixed := DiagnosticKind.isReclassifiable_eq_false_iff.mpr ⟨error, other⟩
        simp [hfree] at hfixed
      | asked _ asked => rw [asks_iff.mp asked, Option.getD_some]
      | unasked _ silent =>
        simp only [asks_iff] at silent
        rw [Option.eq_none_iff_forall_ne_some.mpr silent, Option.getD_none]
    · rintro rfl
      cases hasked : hints.severityFor kind with
      | some severity => exact .asked hfree (asks_iff.mpr hasked)
      | none => exact .unasked hfree fun s hs => by simp [asks_iff.mp hs] at hasked

end Hints

/-- The reports that equal no earlier one, in their order. -/
def Issue.firstReports (reported : List Issue) : List Issue :=
  (reported.zipIdx.filter fun x => x.1 ∉ reported.take x.2).map Prod.fst

/-- One report more is the first one, or equals an earlier one. -/
theorem Issue.firstReports_concat (reported : List Issue) (issue : Issue) :
    Issue.firstReports (reported ++ [issue]) =
      Issue.firstReports reported ++ if issue ∈ reported then [] else [issue] := by
  have hbefore : ∀ x ∈ reported.zipIdx,
      decide (x.1 ∉ (reported ++ [issue]).take x.2) = decide (x.1 ∉ reported.take x.2) := by
    rintro ⟨x, i⟩ hx
    have hi : i < 0 + reported.length := (List.mem_zipIdx hx).2.1
    rw [List.take_append_of_le_length (by omega)]
  rw [Issue.firstReports, List.zipIdx_append, List.filter_append, List.map_append,
    List.filter_congr hbefore, ← Issue.firstReports]
  by_cases hin : issue ∈ reported <;> simp [hin]

/-- Whether a diagnostic shows an issue under hints, in the words of a language. -/
structure Diagnostic.Shows (hints : Hints) (culture : Culture) (issue : Issue) (d : Diagnostic) :
    Prop where
  /-- It is about the same. -/
  kind : d.kind = issue.message.kind
  /-- It is as serious as the hints say. -/
  severity : hints.Rates issue.message.kind d.severity
  /-- It is the message in words. -/
  message : d.message = issue.message.text culture
  /-- It points to the same place. -/
  location : d.location = issue.location

namespace Sink

variable {hints : Hints} {culture : Culture}

/-- A sink keeps the first of equal reports. -/
theorem issues_reportAll_empty (reported : List Issue) :
    (empty.reportAll reported).issues = Issue.firstReports reported := by
  induction reported using List.reverseRecOn with
  | nil => rfl
  | append_singleton reported issue ih =>
    have hstep : empty.reportAll (reported ++ [issue]) =
        (empty.reportAll reported).report issue := List.foldl_concat ..
    rw [hstep, Issue.firstReports_concat, ← ih, report]
    by_cases hin : issue ∈ reported <;> simp [hin, empty]

/-- What the hints do not hide is shown. -/
theorem exists_shown? {issue : Issue}
    (h : hints.effectiveSeverity issue.message.kind ≠ .hidden) (culture : Culture) :
    ∃ d, shown? hints culture issue = some d ∧ d.Shows hints culture issue :=
  ⟨_, if_neg h, rfl, Hints.rates_iff.mpr rfl, rfl, rfl⟩

/-- What is kept and not hidden is shown, in the same order. -/
theorem forall₂_finish (sink : Sink) (hints : Hints) (culture : Culture) :
    List.Forall₂ (Diagnostic.Shows hints culture)
      (sink.issues.filter fun issue => hints.effectiveSeverity issue.message.kind ≠ .hidden)
      (sink.finish hints culture) := by
  unfold finish
  induction sink.issues with
  | nil => exact .nil
  | cons issue rest ih =>
    by_cases hhidden : hints.effectiveSeverity issue.message.kind = .hidden
    · have hnone : shown? hints culture issue = none := if_pos hhidden
      rwa [List.filter_cons_of_neg (by simpa using hhidden), List.filterMap_cons_none hnone]
    · obtain ⟨d, hsome, hshows⟩ := exists_shown? hhidden culture
      rw [List.filter_cons_of_pos (by simpa using hhidden), List.filterMap_cons_some hsome]
      exact .cons hshows ih

/-- Two diagnostics that show an issue differ in words only. -/
theorem with_message_eq_of_shows {other : Culture} {issue : Issue} {d d' : Diagnostic}
    (h : d.Shows hints culture issue) (h' : d'.Shows hints other issue) :
    { d with message := d'.message } = d' := by
  have hkind := h.kind.trans h'.kind.symm
  have hseverity := (Hints.rates_iff.mp h.severity).symm.trans (Hints.rates_iff.mp h'.severity)
  have hlocation := h.location.trans h'.location.symm
  rw [hkind, hseverity, hlocation]

/-- What two languages show of the same issues differs in words only. -/
theorem forall₂_words {other : Culture} {issues : List Issue}
    {ds ds' : List Diagnostic} (h : List.Forall₂ (Diagnostic.Shows hints culture) issues ds)
    (h' : List.Forall₂ (Diagnostic.Shows hints other) issues ds') :
    List.Forall₂ (fun d d' => { d with message := d'.message } = d') ds ds' := by
  induction h generalizing ds' with
  | nil =>
    cases h'
    exact .nil
  | cons hd _ ih =>
    cases h' with
    | cons hd' hrest => exact .cons (with_message_eq_of_shows hd hd') (ih hrest)

/-- Of all that was reported a sink keeps what equals no earlier report. In the end exactly what is
kept and not hidden is shown, in this order; an error that hints leave alone is shown as one; a sink
has errors when one is shown; and the language changes nothing but the words. -/
theorem finish_reportAll (reported : List Issue) (hints : Hints) (culture other : Culture) :
    (empty.reportAll reported).issues = Issue.firstReports reported ∧
    List.Forall₂ (Diagnostic.Shows hints culture)
      ((Issue.firstReports reported).filter fun issue =>
        hints.effectiveSeverity issue.message.kind ≠ .hidden)
      ((empty.reportAll reported).finish hints culture) ∧
    (∀ issue ∈ reported, issue.message.kind.isError = true →
      issue.message.kind ≠ .notImplementedContract →
        ∃ d ∈ (empty.reportAll reported).finish hints culture,
          d.Shows hints culture issue ∧ d.severity = .error) ∧
    ((empty.reportAll reported).hasErrors hints = true ↔
      ∃ d ∈ (empty.reportAll reported).finish hints culture, d.severity = .error) ∧
    List.Forall₂ (fun d d' => { d with message := d'.message } = d')
      ((empty.reportAll reported).finish hints culture)
      ((empty.reportAll reported).finish hints other) := by
  have hkept := issues_reportAll_empty reported
  have hshown := (empty.reportAll reported).forall₂_finish hints
  refine ⟨hkept, hkept ▸ hshown culture, fun issue hissue herror hother => ?_, ?_,
    forall₂_words (hshown culture) (hshown other)⟩
  · have hgrave : issue.message.Grave :=
      DiagnosticKind.isReclassifiable_eq_false_iff.mpr ⟨herror, hother⟩
    have hsevere := hgrave.severity_eq hints
    obtain ⟨d, hd, hshows⟩ := exists_shown? (by rw [hsevere]; decide) culture
    refine ⟨d, List.mem_filterMap.mpr ⟨issue, mem_reportAll.mpr (.inr hissue), hd⟩, hshows, ?_⟩
    rw [← Hints.rates_iff.mp hshows.severity, hsevere]
  · rw [← any_isError_finish _ hints culture, List.any_eq_true]
    simp only [Diagnostic.isError, beq_iff_eq]

end Sink

end Injector

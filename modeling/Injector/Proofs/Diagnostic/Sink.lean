import Injector.Diagnostic.Sink

/-!
# What a sink has

Hints leave the severity of most errors alone. Once an issue of such a kind was reported, the sink
has errors under all hints.
-/

namespace Injector

/-- Hints leave errors alone, but for contracts that are not implemented. -/
theorem DiagnosticKind.isReclassifiable_eq_false_iff {kind : DiagnosticKind} :
    kind.isReclassifiable = false ↔ kind.isError = true ∧ kind ≠ .notImplementedContract := by
  simp [isReclassifiable]

/-- Whether a message is an error whatever the hints say. -/
def Message.Grave (m : Message) : Prop := m.kind.isReclassifiable = false

theorem Message.Grave.severity_eq {m : Message} (h : m.Grave) (hints : Hints) :
    hints.effectiveSeverity m.kind = .error := by
  have hsevere : m.kind.severity = .error :=
    eq_of_beq (DiagnosticKind.isReclassifiable_eq_false_iff.mp h).1
  rw [Hints.effectiveSeverity, h]
  exact hsevere

namespace Sink

/-- Whether an issue of a kind was found. -/
def Has (sink : Sink) (kind : DiagnosticKind) : Prop := ∃ x ∈ sink.issues, x.message.kind = kind

variable {sink : Sink} {kind : DiagnosticKind}

/-- What was reported together is all that was there before and all that was added. -/
@[simp] theorem mem_reportAll {issues : List Issue} {x : Issue} :
    x ∈ (sink.reportAll issues).issues ↔ x ∈ sink.issues ∨ x ∈ issues := by
  unfold reportAll
  induction issues generalizing sink with
  | nil => simp
  | cons issue rest ih => simp [ih, or_assoc]

/-- An issue that is reported again is not found twice. -/
theorem nodup_report (h : sink.issues.Nodup) (issue : Issue) :
    (sink.report issue).issues.Nodup := by
  unfold report
  split
  · exact h
  · next hnew =>
    refine List.nodup_append.mpr ⟨h, List.pairwise_singleton _ _, fun a ha b hb hab => ?_⟩
    exact hnew (List.mem_singleton.mp hb ▸ hab ▸ ha)

theorem nodup_reportAll (h : sink.issues.Nodup) (issues : List Issue) :
    (sink.reportAll issues).issues.Nodup := by
  unfold reportAll
  induction issues generalizing sink with
  | nil => exact h
  | cons issue rest ih => exact ih (nodup_report h issue)

@[simp] theorem not_has_empty : ¬ empty.Has kind := fun ⟨_, hx, _⟩ => List.not_mem_nil hx

@[simp] theorem has_report {issue : Issue} :
    (sink.report issue).Has kind ↔ sink.Has kind ∨ issue.message.kind = kind := by
  simp [Has, or_and_right, exists_or]

@[simp] theorem has_reportAll {issues : List Issue} : (sink.reportAll issues).Has kind ↔
    sink.Has kind ∨ ∃ x ∈ issues, x.message.kind = kind := by
  simp [Has, or_and_right, exists_or]

/-- An issue whose severity is fixed is an error under all hints. -/
theorem hasErrors_of_grave {issue : Issue} (hi : issue ∈ sink.issues) (h : issue.message.Grave)
    (hints : Hints) : sink.hasErrors hints = true :=
  List.any_eq_true.mpr ⟨issue, hi, beq_iff_eq.mpr (h.severity_eq hints)⟩

/-- Diagnostics show an error exactly when an issue is one. -/
theorem any_isError_finish (sink : Sink) (hints : Hints) (culture : Culture) :
    (sink.finish hints culture).any Diagnostic.isError = sink.hasErrors hints := by
  unfold finish hasErrors
  rw [List.any_filterMap]
  congr 1
  funext issue
  unfold shown?
  by_cases hhidden : hints.effectiveSeverity issue.message.kind = .hidden
  · simp [hhidden]
  · simp [hhidden, Diagnostic.isError]

end Sink

end Injector

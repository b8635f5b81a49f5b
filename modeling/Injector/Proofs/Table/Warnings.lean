import Injector.Proofs.Table.Declarations
import Injector.Report.Basic

/-!
# Warnings about the bindings of a table

A binding overrides another one when it is active for a contract that the other declares before it,
and is replaced when another one declares a contract of it later; with several contracts it can do
both. The main statement is that exactly these relations, and what was reached, decide what is
reported for a binding.
-/

namespace Injector.Table

/-- Whether a binding is active for a contract that an earlier one declares. -/
def Overrides (t : Table) (id : BindingId) (c : Contract) : Prop :=
  t.active? c = some id ∧ ∃ earlier ∈ t.declaring c, earlier < id

/-- Whether a contract of a binding is declared by a later one. -/
def Replaced (t : Table) (id : BindingId) (c : Contract) : Prop :=
  id ∈ t.declaring c ∧ ∃ later ∈ t.declaring c, id < later

/-! ### Neighbours in a list -/

/-- The first of two neighbours in an ascending list is what something greater follows. -/
private theorem exists_mem_zip_tail {ids : List Nat} (h : ids.Pairwise (· < ·)) {a : Nat} :
    (∃ b, (a, b) ∈ ids.zip ids.tail) ↔ a ∈ ids ∧ ∃ b ∈ ids, a < b := by
  induction ids with
  | nil => simp
  | cons x rest ih =>
    obtain ⟨hx, hrest⟩ := List.pairwise_cons.mp h
    cases rest with
    | nil =>
      have hone : ¬ (a ∈ [x] ∧ ∃ b ∈ [x], a < b) := by
        rintro ⟨ha, b, hb, hlt⟩
        rw [List.mem_singleton.mp ha, List.mem_singleton.mp hb] at hlt
        exact Nat.lt_irrefl x hlt
      simpa using hone
    | cons y rest =>
      rw [List.tail_cons, List.zip_cons_cons]
      constructor
      · rintro ⟨b, hb⟩
        rcases List.mem_cons.mp hb with heq | hb
        · cases heq
          exact ⟨List.mem_cons_self, y, by simp, hx y List.mem_cons_self⟩
        · obtain ⟨ha, b, hb, hlt⟩ := (ih hrest).mp ⟨b, hb⟩
          exact ⟨List.mem_cons_of_mem _ ha, b, List.mem_cons_of_mem _ hb, hlt⟩
      · rintro ⟨ha, b, hb, hlt⟩
        by_cases hax : a = x
        · exact ⟨y, hax ▸ List.mem_cons_self⟩
        · have ha := (List.mem_cons.mp ha).resolve_left hax
          have hbx : b ≠ x := by
            have := hx a ha
            omega
          obtain ⟨b, hb⟩ := (ih hrest).mpr ⟨ha, b, (List.mem_cons.mp hb).resolve_left hbx, hlt⟩
          exact ⟨b, List.mem_cons_of_mem _ hb⟩

private theorem nodup_eraseDups {α : Type} [DecidableEq α] (as : List α) :
    as.eraseDups.Nodup := by
  induction hn : as.length using Nat.strongRecOn generalizing as with | _ n ih
  cases as with
  | nil => simp
  | cons a as =>
    rw [List.eraseDups_cons, List.nodup_cons, List.mem_eraseDups]
    have hle : (as.filter fun b => !b == a).length < n := by
      have := List.length_filter_le (fun b => !b == a) as
      rw [List.length_cons] at hn
      omega
    exact ⟨by simp, ih _ hle _ rfl⟩

/-! ### Shadowings -/

variable {t : Table} {id : BindingId} {c : Contract}

/-- A binding is shadowed for a contract exactly when it is replaced for it. -/
theorem exists_shadowing_iff :
    (∃ s ∈ t.shadowings, s.contract = c ∧ s.earlier = id) ↔ t.Replaced id c := by
  have hpairs : (∃ s ∈ t.shadowings, s.contract = c ∧ s.earlier = id) ↔
      ∃ later, (id, later) ∈ (t.declaring c).zip (t.declaring c).tail := by
    rw [← t.shadowings_of_contract c]
    constructor
    · rintro ⟨s, hs, hc, rfl⟩
      exact ⟨s.later, List.mem_map.mpr ⟨s, List.mem_filter.mpr ⟨hs, by simpa using hc⟩, rfl⟩⟩
    · rintro ⟨later, hlater⟩
      obtain ⟨s, hs, heq⟩ := List.mem_map.mp hlater
      cases heq
      obtain ⟨hs, hc⟩ := List.mem_filter.mp hs
      exact ⟨s, hs, by simpa using hc, rfl⟩
  exact hpairs.trans (exists_mem_zip_tail pairwise_declaringFrom)

theorem isShadowed_iff : t.isShadowed id = true ↔ ∃ c, t.Replaced id c := by
  simp only [← exists_shadowing_iff, isShadowed, List.any_eq_true, beq_iff_eq]
  constructor
  · rintro ⟨s, hs, hid⟩
    exact ⟨s.contract, s, hs, rfl, hid⟩
  · rintro ⟨c, s, hs, -, hid⟩
    exact ⟨s, hs, hid⟩

/-- The contracts that a binding is listed with as overriding others are those for which it does. -/
theorem mem_overriddenBy : c ∈ t.overriddenBy id ↔ t.Overrides id c := by
  rw [overriddenBy, List.mem_eraseDups, List.mem_map]
  constructor
  · rintro ⟨s, hs, rfl⟩
    obtain ⟨hs, hactive⟩ := List.mem_filter.mp hs
    have hactive : t.active? s.contract = some id := eq_of_beq hactive
    obtain ⟨hearlier, later, hlater, hlt⟩ := exists_shadowing_iff.mp ⟨s, hs, rfl, rfl⟩
    exact ⟨hactive, s.earlier, hearlier, Nat.lt_of_lt_of_le hlt (le_of_active? hactive hlater)⟩
  · rintro ⟨hactive, earlier, hearlier, hlt⟩
    have hid : id ∈ t.declaring c := List.mem_of_getLast? (active?_eq_getLast? t c ▸ hactive)
    obtain ⟨s, hs, rfl, -⟩ := exists_shadowing_iff.mpr ⟨hearlier, id, hid, hlt⟩
    exact ⟨s, List.mem_filter.mpr ⟨hs, by simpa using hactive⟩, rfl⟩

theorem isOverriding_iff : t.isOverriding id = true ↔ ∃ c, t.Overrides id c := by
  simp only [isOverriding, ← mem_overriddenBy, Bool.not_eq_true', List.isEmpty_eq_false_iff]
  exact ⟨List.exists_mem_of_ne_nil _, fun ⟨_, hc⟩ => List.ne_nil_of_mem hc⟩

theorem nodup_overriddenBy (t : Table) (id : BindingId) : (t.overriddenBy id).Nodup :=
  nodup_eraseDups _

/-! ### What is reported for a binding -/

/-- The kinds of what is reported about overriding and use. -/
def usageKinds : List DiagnosticKind := [.overriddenBinding, .bindingNotUsed, .metadataDefect]

/-- The kinds of what is found in every table, usable or not. -/
def findingKinds : List DiagnosticKind :=
  [.notImplementedContract, .injectionSiteNotUsed, .typeArgInResolveMethod,
    .instanceMemberInDependsOnSetup]

/-- The issue of a binding that is active for contracts that others declare. -/
def overrideIssue? (t : Table) (id : BindingId) (r : Registration) : Option Issue :=
  if (t.overriddenBy id).isEmpty then none
  else some ⟨r.location, .overriddenBinding
    (", ".intercalate ((t.overriddenBy id).map Contract.text)) r.describe⟩

/-- What is reported for a binding where some bindings were reached: first while the setups are
merged, then after the roots were built. -/
def warnings (t : Table) (touched : List BindingId) (id : BindingId) : List Issue :=
  match t.bindings[id]? with
  | none => []
  | some r =>
      (t.overrideIssue? id r).toList ++
        if id ∈ touched then [] else (t.unusedIssue? id r).toList

variable {touched : List BindingId} {x : Issue}

theorem kind_mem_findingKinds (h : x ∈ t.findings) : x.message.kind ∈ findingKinds := by
  simp only [findings, List.mem_append] at h
  rcases h with ((h | h) | h) | h
  · obtain ⟨b, -, h⟩ := List.mem_flatMap.mp h
    split at h
    · obtain ⟨c, -, rfl⟩ := List.mem_map.mp h
      simp [Message.kind, findingKinds]
    · cases h
  · obtain ⟨b, -, h⟩ := List.mem_flatMap.mp h
    split at h
    · obtain ⟨step, -, h⟩ := List.mem_filterMap.mp h
      split at h
      · split at h
        · cases h
        · cases h
          simp [Message.kind, findingKinds]
      · cases h
    · cases h
  · unfold genericRoots at h
    split at h
    · obtain ⟨r, -, rfl⟩ := List.mem_map.mp h
      simp [Message.kind, findingKinds]
    · cases h
  · obtain ⟨m, -, rfl⟩ := List.mem_map.mp h
    simp [Message.kind, findingKinds]

/-- Nothing else that is found in a table is about overriding or use. -/
theorem kind_of_mem_findings (h : x ∈ t.findings) : x.message.kind ∉ usageKinds := by
  have hall : ∀ kind ∈ findingKinds, kind ∉ usageKinds := by decide
  exact hall _ (kind_mem_findingKinds h)

theorem kind_of_mem_overridingBindings (h : x ∈ t.overridingBindings) :
    x.message.kind = .overriddenBinding := by
  obtain ⟨b, -, hb⟩ := List.mem_filterMap.mp h
  dsimp only at hb
  split at hb
  · cases hb
  · cases hb
    rfl

/-- What is reported about overriding and use is what is reported for the bindings. -/
theorem exists_mem_warnings_iff :
    (∃ id, x ∈ t.warnings touched id) ↔
      x ∈ t.overridingBindings ∨ x ∈ t.unusedBindings touched := by
  have hoverriding : x ∈ t.overridingBindings ↔
      ∃ id r, t.bindings[id]? = some r ∧ t.overrideIssue? id r = some x := by
    simp only [overridingBindings, List.mem_filterMap, Prod.exists, List.mem_zipIdx_iff_getElem?]
    rw [exists_comm]
    rfl
  have hunused : x ∈ t.unusedBindings touched ↔ ∃ id r, t.bindings[id]? = some r ∧
      id ∉ touched ∧ t.unusedIssue? id r = some x := by
    simp only [unusedBindings, List.mem_filterMap, Prod.exists, List.mem_zipIdx_iff_getElem?]
    rw [exists_comm]
    refine exists₂_congr fun id r => and_congr_right fun _ => ?_
    split
    · next hin => simp [hin]
    · next hout => simp [hout]
  rw [hoverriding, hunused, ← exists_or]
  refine exists_congr fun id => ?_
  unfold warnings
  cases t.bindings[id]? with
  | none => simp
  | some r =>
    by_cases hin : id ∈ touched
    · simp [hin]
    · simp [hin]

private theorem unusedIssue?_eq_some {r : Registration} :
    t.unusedIssue? id r = some x ↔
      ((∃ c, t.Replaced id c) ∧ (¬ ∃ c, t.Overrides id c) ∧
        x = ⟨r.location, .bindingNotUsed r.describe⟩) ∨
      ((¬ ∃ c, t.Replaced id c) ∧ t.roots ≠ [] ∧ x = ⟨r.location, .metadataDefect r.describe⟩) := by
  unfold unusedIssue?
  rw [← isShadowed_iff, ← isOverriding_iff]
  cases t.isShadowed id <;> cases t.isOverriding id <;> cases t.roots <;> simp [eq_comm]

/-- What is reported for a binding: that it is active for contracts that earlier bindings declare;
if it was not reached, that it is not used where it is replaced and overrides nothing, or that no
root reaches it where it is not replaced and there are roots. -/
theorem mem_warnings_iff {r : Registration} (hr : t.bindings[id]? = some r) :
    x ∈ t.warnings touched id ↔
      ((∃ c, t.Overrides id c) ∧ x = ⟨r.location, .overriddenBinding
        (", ".intercalate ((t.overriddenBy id).map Contract.text)) r.describe⟩) ∨
      (id ∉ touched ∧ (∃ c, t.Replaced id c) ∧ (¬ ∃ c, t.Overrides id c) ∧
        x = ⟨r.location, .bindingNotUsed r.describe⟩) ∨
      (id ∉ touched ∧ (¬ ∃ c, t.Replaced id c) ∧ t.roots ≠ [] ∧
        x = ⟨r.location, .metadataDefect r.describe⟩) := by
  have hoverride : t.overrideIssue? id r = some x ↔ (∃ c, t.Overrides id c) ∧
      x = ⟨r.location, .overriddenBinding
        (", ".intercalate ((t.overriddenBy id).map Contract.text)) r.describe⟩ := by
    rw [overrideIssue?, ← isOverriding_iff, isOverriding]
    cases (t.overriddenBy id).isEmpty <;> simp [eq_comm]
  rw [warnings, hr, List.mem_append, Option.mem_toList, hoverride]
  refine or_congr_right ?_
  by_cases hin : id ∈ touched
  · simp [hin]
  · rw [if_neg hin, Option.mem_toList, unusedIssue?_eq_some]
    simp only [hin, not_false_eq_true, true_and]

end Injector.Table

import Injector.Proofs.Diagnostic.Sink
import Injector.Proofs.Setup.Restriction
import Injector.Proofs.Table.Warnings
import Mathlib.Data.List.Pairwise

/-!
# Merges without a table

A merge stops where setups have no order. Otherwise it goes through all that was declared, and
leaves no table where two roots collide or an argument is generic. The main statement is that this
is reported exactly where it is so, that there is no table exactly when something of it is reported,
and that hints hide none of it.
-/

namespace Injector.Table

/-- The kinds of what leaves no table. -/
def failureKinds : List DiagnosticKind :=
  [.dependsOnCycle, .setupNotFound, .duplicateRoot, .genericArgument]

/-- The roots that setups declare, each with the part that declares it. -/
def exposed (setups : List Setup) : List (Setup × Injector.Root) :=
  setups.flatMap fun s => s.roots.map fun r => (s, r)

/-- Whether two declared roots share a member, or have none and share a contract. -/
def Collide (a b : Setup × Injector.Root) : Prop :=
  (a.2.name ≠ "" ∧ a.2.name = b.2.name) ∨
    (a.2.name = "" ∧ b.2.name = "" ∧
      Contract.request (a.2.type.withMarkers a.1.markers) a.2.tag =
        Contract.request (b.2.type.withMarkers b.1.markers) b.2.tag)

/-- Whether a binding is an argument with a contract whose type holds a built-in or a declared
marker. -/
def TakesMarker (markers : List String) (b : Binding) : Prop :=
  (∃ name source, b.recipe = .argument name source) ∧
    ∃ spec ∈ b.contracts, (spec.type.withMarkers markers).containsMarker = true

/-! ### Duplicate roots -/

/-- No root is repeated when no two share a key, and none has a key that was seen. For the roots
after the first its key counts as seen. -/
theorem repeatedRoots_eq_nil_iff {seen : List RootKey} {roots : List Root} :
    repeatedRoots seen roots = [] ↔
      (∀ r ∈ roots, r.key ∉ seen) ∧ roots.Pairwise fun a b => a.key ≠ b.key := by
  induction roots generalizing seen with
  | nil => simp [repeatedRoots]
  | cons r rest ih =>
    rw [repeatedRoots, List.pairwise_cons, List.forall_mem_cons]
    split
    · next hin => simp [hin]
    · next hout =>
      rw [ih]
      simp only [List.mem_cons, not_or, forall_and, hout, not_false_eq_true, true_and, ne_eq,
        @eq_comm _ r.key]
      tauto

/-- Roots collide when they have the same key in a table. -/
theorem key_rootOf_eq_iff {a b : Setup × Injector.Root} :
    (rootOf a.1 a.2).key = (rootOf b.1 b.2).key ↔ Collide a b := by
  unfold Root.key rootOf Collide
  by_cases ha : a.2.name = "" <;> by_cases hb : b.2.name = "" <;> simp [ha, hb]

theorem collide_symm {a b : Setup × Injector.Root} (h : Collide a b) : Collide b a :=
  key_rootOf_eq_iff.mp (key_rootOf_eq_iff.mpr h).symm

/-- Two of some declared roots collide when not all are apart. -/
theorem exists_collide_iff {roots : List (Setup × Injector.Root)} :
    (∃ a b, [a, b].Sublist roots ∧ Collide a b) ↔ ¬ roots.Pairwise fun a b => ¬ Collide a b := by
  rw [List.pairwise_iff_forall_sublist]
  simp only [not_forall, not_not, exists_prop]

/-- Whether roots collide does not depend on the order of the setups. -/
theorem exists_collide_iff_of_perm {setups setups' : List Setup} (h : setups.Perm setups') :
    (∃ a b, [a, b].Sublist (exposed setups) ∧ Collide a b) ↔
      ∃ a b, [a, b].Sublist (exposed setups') ∧ Collide a b := by
  have hroots : (exposed setups).Perm (exposed setups') := h.flatMap_right _
  rw [exists_collide_iff, exists_collide_iff,
    hroots.pairwise_iff fun hab hba => hab (collide_symm hba)]

variable {composition : String} {hints : Hints} {setups : List Setup}

/-- The roots of a table are those that its setups declare. -/
theorem roots_ofSetups (composition : String) (hints : Hints) (setups : List Setup) :
    (ofSetups composition hints setups).roots =
      (exposed setups).map fun e => rootOf e.1 e.2 := by
  simp [ofSetups, exposed, List.map_flatMap, Function.comp_def]

/-- A root is found to be a duplicate when two declared roots collide. -/
theorem duplicateRoots_ne_nil_iff : (ofSetups composition hints setups).duplicateRoots ≠ [] ↔
    ∃ a b, [a, b].Sublist (exposed setups) ∧ Collide a b := by
  rw [exists_collide_iff, duplicateRoots, ne_eq, List.map_eq_nil_iff, repeatedRoots_eq_nil_iff,
    roots_ofSetups, List.pairwise_map]
  simp [key_rootOf_eq_iff]

/-! ### Generic arguments -/

theorem map_type_tagged (type : TypeExpr) (next : Nat) (tags : List TagSpec) :
    (tagged type next tags).1.map Contract.type = tags.map fun _ => type := by
  induction tags generalizing next with
  | nil => rfl
  | cons tag tags ih => cases tag <;> simp [tagged, ih]

/-- The contracts of a type under tags are of this type. -/
theorem exists_mem_tagged_iff {type : TypeExpr} {next : Nat} {tags : List TagSpec}
    (htags : tags ≠ []) {p : TypeExpr → Prop} :
    (∃ c ∈ (tagged type next tags).1, p c.type) ↔ p type := by
  have htypes : (∃ t ∈ (tagged type next tags).1.map Contract.type, p t) ↔ p type := by
    simp [map_type_tagged, htags]
  simpa using htypes

/-- The types of the contracts of a binding are those that it declares. -/
theorem exists_mem_declared_iff {markers : List String} {next : Nat} {specs : List ContractSpec}
    {p : TypeExpr → Prop} : (∃ c ∈ (declared markers next specs).1, p c.type) ↔
      ∃ spec ∈ specs, p (spec.type.withMarkers markers) := by
  induction specs generalizing next with
  | nil => simp [declared]
  | cons spec specs ih =>
    rw [List.exists_mem_cons_iff, declared]
    simp only [List.mem_append, or_and_right, exists_or, ih]
    refine or_congr_left ?_
    split
    · simp
    · next htags => exact exists_mem_tagged_iff (mt List.isEmpty_iff.mpr htags)

/-- A generic argument enters a table as one. -/
theorem register_generic_iff {setup : Setup} {next : Nat} {b : Binding} :
    ((∃ name source, (register setup next b).1.recipe = .argument name source) ∧
      ∃ c ∈ (register setup next b).1.contracts, c.type.containsMarker = true) ↔
      TakesMarker setup.markers b := by
  unfold TakesMarker register
  cases hrecipe : b.recipe with
  | construct implementation implements constructors => simp [Recipe.withMarkers]
  | factory expression steps isAsync => simp [Recipe.withMarkers]
  | argument name source =>
    simp [Recipe.withMarkers, exists_mem_declared_iff (p := fun t => t.containsMarker = true)]

/-- What holds of a registration whatever its number holds of one of them when it does of one of
the bindings. -/
theorem exists_mem_registerAll_iff {p : Registration → Prop} {q : Setup → Binding → Prop}
    (h : ∀ setup next b, p (register setup next b).1 ↔ q setup b) {next : Nat}
    {entries : List (Setup × Binding)} :
    (∃ r ∈ registerAll next entries, p r) ↔ ∃ e ∈ entries, q e.1 e.2 := by
  induction entries generalizing next with
  | nil => simp [registerAll]
  | cons entry rest ih => simp [registerAll, h, ih]

/-- An argument is found to be generic when it has a contract whose type holds a marker. -/
theorem exists_generic_iff {t : Table} : t.genericArguments ≠ [] ↔ ∃ r ∈ t.bindings,
    (∃ name source, r.recipe = .argument name source) ∧
      ∃ c ∈ r.contracts, c.type.containsMarker = true := by
  constructor
  · intro h
    obtain ⟨issue, hi⟩ := List.exists_mem_of_ne_nil _ h
    obtain ⟨r, hr, hi⟩ := List.mem_flatMap.mp hi
    split at hi
    · next name source hrecipe =>
      obtain ⟨c, hc, -⟩ := List.mem_map.mp hi
      obtain ⟨hc, hmarker⟩ := List.mem_filter.mp hc
      exact ⟨r, hr, ⟨name, source, hrecipe⟩, c, hc, hmarker⟩
    · cases hi
  · rintro ⟨r, hr, ⟨name, source, hrecipe⟩, c, hc, hmarker⟩
    have hissue : ⟨r.location, .genericArgument name c.type.text⟩ ∈ t.genericArguments := by
      refine List.mem_flatMap.mpr ⟨r, hr, ?_⟩
      rw [hrecipe]
      exact List.mem_map.mpr ⟨c, List.mem_filter.mpr ⟨hc, hmarker⟩, rfl⟩
    exact List.ne_nil_of_mem hissue

/-- An argument is found to be generic when a binding is one. -/
theorem genericArguments_ne_nil_iff :
    (ofSetups composition hints setups).genericArguments ≠ [] ↔
      ∃ s ∈ setups, ∃ b ∈ s.bindings, TakesMarker s.markers b := by
  refine exists_generic_iff.trans
    ((exists_mem_registerAll_iff fun _ _ _ => register_generic_iff).trans ?_)
  constructor
  · rintro ⟨e, he, h⟩
    obtain ⟨s, hs, he⟩ := List.mem_flatMap.mp he
    obtain ⟨b, hb, rfl⟩ := List.mem_map.mp he
    exact ⟨s, hs, b, hb, h⟩
  · rintro ⟨s, hs, b, hb, h⟩
    exact ⟨(s, b), List.mem_flatMap.mpr ⟨s, hs, List.mem_map_of_mem hb⟩, h⟩

/-! ### What a merge reports -/

variable {order : List String} {kind : DiagnosticKind} {t : Table}

/-- Issues of one kind have an issue of a kind when it is theirs and there are any. -/
theorem exists_kind_iff {issues : List Issue} {own : DiagnosticKind}
    (h : ∀ x ∈ issues, x.message.kind = own) :
    (∃ x ∈ issues, x.message.kind = kind) ↔ own = kind ∧ issues ≠ [] := by
  constructor
  · rintro ⟨x, hx, rfl⟩
    exact ⟨(h x hx).symm, List.ne_nil_of_mem hx⟩
  · rintro ⟨rfl, hne⟩
    obtain ⟨x, hx⟩ := List.exists_mem_of_ne_nil _ hne
    exact ⟨x, hx, h x hx⟩

/-- A table is unusable for generic arguments and for duplicate roots. -/
theorem exists_mem_configurationErrors_iff :
    (∃ x ∈ t.configurationErrors, x.message.kind = kind) ↔
      (.genericArgument = kind ∧ t.genericArguments ≠ []) ∨
        (.duplicateRoot = kind ∧ t.duplicateRoots ≠ []) := by
  have hgeneric : ∀ x ∈ t.genericArguments, x.message.kind = .genericArgument := by
    intro x hx
    obtain ⟨r, -, hx⟩ := List.mem_flatMap.mp hx
    split at hx
    · obtain ⟨c, -, rfl⟩ := List.mem_map.mp hx
      rfl
    · cases hx
  have hduplicate : ∀ x ∈ t.duplicateRoots, x.message.kind = .duplicateRoot := by
    intro x hx
    obtain ⟨r, -, rfl⟩ := List.mem_map.mp hx
    rfl
  rw [← exists_kind_iff hgeneric, ← exists_kind_iff hduplicate]
  simp only [configurationErrors, List.mem_append, or_and_right, exists_or]

/-- Nothing else that is found in a table leaves none. -/
theorem not_exists_found (hkind : kind ∈ failureKinds) :
    (¬ ∃ x ∈ t.findings, x.message.kind = kind) ∧
      ¬ ∃ x ∈ t.overridingBindings, x.message.kind = kind := by
  have hfindings : ∀ kind ∈ findingKinds, kind ∉ failureKinds := by decide
  refine ⟨?_, ?_⟩
  · rintro ⟨x, hx, rfl⟩
    exact hfindings _ (kind_mem_findingKinds hx) hkind
  · rintro ⟨x, hx, rfl⟩
    rw [kind_of_mem_overridingBindings hx] at hkind
    exact absurd hkind (by decide)

/-- Where setups have no order a merge stops, and reports that alone. -/
theorem merge_of_disorder (hints : Hints) (sink : Sink)
    (h : ¬ ∃ order, Setup.order setups composition = .ok order) :
    ∃ issue : Issue, issue.message.kind ∈ [DiagnosticKind.dependsOnCycle, .setupNotFound] ∧
      merge setups composition hints sink = (sink.report issue, none) := by
  unfold merge
  split
  · exact ⟨_, by simp [Message.kind], rfl⟩
  · cases horder : Setup.order setups composition with
    | ok order => exact absurd ⟨order, horder⟩ h
    | error e =>
      refine ⟨e.issue, ?_, rfl⟩
      cases e <;> simp [Setup.OrderError.issue, Message.kind]

/-- Where setups have an order, which lists the composition itself and nothing that is not declared,
a merge leaves no table when it would be unusable, and of what leaves none reports what makes it so.
-/
theorem merge_of_order (sink : Sink) (horder : Setup.order setups composition = .ok order)
    (ht : t = ofSetups composition hints (order.flatMap (Setup.parts setups))) :
    ∃ merged table, merge setups composition hints sink = (merged, table) ∧
      (table = none ↔ t.configurationErrors ≠ []) ∧
      ∀ kind ∈ failureKinds, merged.Has kind ↔
        sink.Has kind ∨ ∃ x ∈ t.configurationErrors, x.message.kind = kind := by
  have hname : composition ∈ Setup.names setups := by
    have hreached := (Setup.ordered_of_order horder).2 composition
    exact Setup.declared_of_order horder (hreached.mpr (Setup.Starts.reaches (.inl rfl)))
  rw [merge, if_neg (not_not.mpr hname), horder]
  dsimp only
  rw [← ht]
  split
  · next hsound =>
    refine ⟨_, some t, rfl, by simpa using hsound, fun kind hkind => ?_⟩
    simp [not_exists_found hkind]
  · next hunsound =>
    refine ⟨_, none, rfl, by simpa using hunsound, fun kind hkind => ?_⟩
    simp [not_exists_found hkind]

/-- Where setups have an order, a merge into an empty sink reports a duplicate root when two of
those that are reached collide, and a generic argument when one of the bindings that are reached is
one, and leaves no table for these alone. -/
theorem merge_has_of_order (hints : Hints) (horder : Setup.order setups composition = .ok order) :
    ∃ merged table, merge setups composition hints .empty = (merged, table) ∧
      (table = none ↔ merged.Has .duplicateRoot ∨ merged.Has .genericArgument) ∧
      ¬ merged.Has .dependsOnCycle ∧ ¬ merged.Has .setupNotFound ∧
      (merged.Has .duplicateRoot ↔
        ∃ a b, [a, b].Sublist (exposed (Setup.within setups composition)) ∧ Collide a b) ∧
      (merged.Has .genericArgument ↔
        ∃ s ∈ Setup.within setups composition, ∃ b ∈ s.bindings, TakesMarker s.markers b) := by
  obtain ⟨t, ht⟩ : ∃ t, t = ofSetups composition hints (order.flatMap (Setup.parts setups)) :=
    ⟨_, rfl⟩
  obtain ⟨merged, table, hmerge, hnone, hhas⟩ := merge_of_order .empty horder ht
  simp only [Sink.not_has_empty, false_or, exists_mem_configurationErrors_iff] at hhas
  have hduplicate : merged.Has .duplicateRoot ↔ t.duplicateRoots ≠ [] := by
    simp [hhas .duplicateRoot (by decide)]
  have hgeneric : merged.Has .genericArgument ↔ t.genericArguments ≠ [] := by
    simp [hhas .genericArgument (by decide)]
  have hperm := Setup.perm_within_of_order horder
  refine ⟨merged, table, hmerge, ?_, ?_, ?_, ?_, ?_⟩
  · rw [hnone, hduplicate, hgeneric, configurationErrors, ne_eq, List.append_eq_nil_iff, not_and_or,
      or_comm]
  · simp [hhas .dependsOnCycle (by decide)]
  · simp [hhas .setupNotFound (by decide)]
  · rw [hduplicate, ht, duplicateRoots_ne_nil_iff]
    exact exists_collide_iff_of_perm hperm
  · rw [hgeneric, ht, genericArguments_ne_nil_iff]
    simp only [hperm.mem_iff]

/-- A merge leaves no table exactly when it reports a cycle of setups, a missing setup, a duplicate
root or a generic argument, and then has errors under all hints. A cycle or a missing setup is
reported exactly where setups have no order. Where they have one, a duplicate root is reported
exactly when two of the roots that are reached collide, and a generic argument when one of the
bindings that are reached is one; a setup that is reached in several ways counts once. -/
theorem merge_exact (setups : List Setup) (composition : String) (hints : Hints) :
    ∃ merged table, merge setups composition hints .empty = (merged, table) ∧
      (table = none ↔ ∃ kind ∈ failureKinds, merged.Has kind) ∧
      (table = none → ∀ others, merged.hasErrors others = true) ∧
      (merged.Has .dependsOnCycle ∨ merged.Has .setupNotFound ↔
        ¬ ∃ order, Setup.order setups composition = .ok order) ∧
      (merged.Has .duplicateRoot ↔ (∃ order, Setup.order setups composition = .ok order) ∧
        ∃ a b, [a, b].Sublist (exposed (Setup.within setups composition)) ∧ Collide a b) ∧
      (merged.Has .genericArgument ↔ (∃ order, Setup.order setups composition = .ok order) ∧
        ∃ s ∈ Setup.within setups composition, ∃ b ∈ s.bindings, TakesMarker s.markers b) := by
  have hgrave : ∀ {merged : Sink}, (∃ kind ∈ failureKinds, merged.Has kind) →
      ∀ others, merged.hasErrors others = true := by
    rintro merged ⟨kind, hkind, x, hx, rfl⟩ others
    have hall : ∀ kind ∈ failureKinds, kind.isReclassifiable = false := by decide
    exact Sink.hasErrors_of_grave hx (hall _ hkind) others
  by_cases horder : ∃ order, Setup.order setups composition = .ok order
  · obtain ⟨order, hok⟩ := horder
    obtain ⟨merged, table, hmerge, hnone, hcycle, hmissing, hduplicate, hgeneric⟩ :=
      merge_has_of_order hints hok
    have hfails : table = none ↔ ∃ kind ∈ failureKinds, merged.Has kind := by
      simp [failureKinds, hnone, hcycle, hmissing]
    refine ⟨merged, table, hmerge, hfails, fun h => hgrave (hfails.mp h), ?_, ?_, ?_⟩
    · exact iff_of_false (not_or.mpr ⟨hcycle, hmissing⟩) (not_not_intro ⟨order, hok⟩)
    · exact hduplicate.trans (and_iff_right ⟨order, hok⟩).symm
    · exact hgeneric.trans (and_iff_right ⟨order, hok⟩).symm
  · obtain ⟨issue, hissue, hmerge⟩ := merge_of_disorder hints .empty horder
    have hhas : ∀ kind, (Sink.empty.report issue).Has kind ↔ issue.message.kind = kind := by simp
    have hcases : issue.message.kind = .dependsOnCycle ∨ issue.message.kind = .setupNotFound := by
      simpa using hissue
    have hfails : ∃ kind ∈ failureKinds, (Sink.empty.report issue).Has kind := by
      simp only [hhas]
      rcases hcases with hkind | hkind <;> exact ⟨_, by rw [hkind]; decide, rfl⟩
    refine ⟨_, none, hmerge, iff_of_true rfl hfails, fun _ => hgrave hfails, ?_, ?_, ?_⟩
    · exact iff_of_true (hcases.imp (hhas _).mpr (hhas _).mpr) horder
    · exact iff_of_false (fun h => by simp [(hhas _).mp h] at hcases) fun h => horder h.1
    · exact iff_of_false (fun h => by simp [(hhas _).mp h] at hcases) fun h => horder h.1

end Injector.Table

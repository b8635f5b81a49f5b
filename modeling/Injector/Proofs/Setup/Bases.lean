import Injector.Proofs.Resolution
import Injector.Proofs.Setup.Order

/-!
# A composition and its bases

A composition is merged after what it depends on, and after the global setups, which are bases of
every composition. The main statement is that it comes last, and thereby overrides all its bases,
exactly when no global setup depends on it; where one does, the walk enters the composition first,
for the dependency on what is global is not among those that it follows.
-/

namespace Injector

open Relation

namespace Table

variable {setups : List Setup} {composition : String} {order : List String} {hints : Hints}
  {sink merged : Sink} {t : Table}

/-- A binding of a merged table is declared by the setup at its place. -/
theorem exists_entry_of_merge (horder : Setup.order setups composition = .ok order)
    (h : merge setups composition hints sink = (merged, some t)) {id : BindingId} {r : Registration}
    (hr : t.bindings[id]? = some r) :
    ∃ entry, (entries setups order)[id]? = some entry ∧ r.setup = entry.1.name := by
  obtain ⟨-, order', horder', rfl, -⟩ := merge_eq_some h
  cases horder.symm.trans horder'
  have hentry : (registerAll 0 (entries setups order))[id]? = some r := hr
  rw [getElem?_registerAll, Option.map_eq_some_iff] at hentry
  obtain ⟨entry, hentry, rfl⟩ := hentry
  exact ⟨entry, hentry, rfl⟩

theorem entries_append (setups : List Setup) (before after : List String) :
    entries setups (before ++ after) = entries setups before ++ entries setups after := by
  simp [entries]

theorem name_mem_of_mem_entries {entry : Setup × Binding}
    (h : entry ∈ entries setups order) : entry.1.name ∈ order := by
  obtain ⟨s, hs, hentry⟩ := List.mem_flatMap.mp h
  obtain ⟨name, hname, hs⟩ := List.mem_flatMap.mp hs
  obtain ⟨b, -, rfl⟩ := List.mem_map.mp hentry
  rwa [eq_of_beq (List.mem_filter.mp hs).2]

end Table

namespace Setup

variable {setups : List Setup} {composition : String} {listed : List String}

/-- Whether a composition overrides its bases in an order: it is the last, what is global stands
before it, and in every table that is merged its bindings are declared last and have the active one
of each contract that they declare. -/
structure OverridesBases (setups : List Setup) (composition : String) (listed : List String) :
    Prop where
  /-- The composition is the last. -/
  last : listed.getLast? = some composition
  /-- What is global stands before it. -/
  globals : ∀ name, isGlobal setups name = true → name ∈ listed.dropLast
  /-- Its bindings are declared after all others. -/
  later : ∀ hints sink merged t, Table.merge setups composition hints sink = (merged, some t) →
    ∀ (id other : BindingId) (r r' : Registration), t.bindings[id]? = some r →
      t.bindings[other]? = some r' → r.setup = composition → r'.setup ≠ composition → other < id
  /-- One of its bindings is active for each contract that they declare. -/
  active : ∀ hints sink merged t, Table.merge setups composition hints sink = (merged, some t) →
    ∀ (id : BindingId) (r : Registration), t.bindings[id]? = some r → r.setup = composition →
      ∀ c ∈ r.contracts, ∃ id' r', t.active? c = some id' ∧ t.bindings[id']? = some r' ∧
        r'.setup = composition

/-- The bindings of the last setup of an order are declared after all others. -/
private theorem lt_of_setup_ne {before : List String}
    (horder : order setups composition = .ok (before ++ [composition])) {hints : Hints}
    {sink merged : Sink} {t : Table}
    (h : Table.merge setups composition hints sink = (merged, some t)) {id other : BindingId}
    {r r' : Registration} (hr : t.bindings[id]? = some r) (hr' : t.bindings[other]? = some r')
    (hown : r.setup = composition) (hother : r'.setup ≠ composition) : other < id := by
  have hnodup := (ordered_of_order horder).1.nodup
  have hnew : composition ∉ before := fun hin =>
    List.disjoint_of_nodup_append hnodup hin (List.mem_singleton_self composition)
  obtain ⟨entry, hentry, hname⟩ := Table.exists_entry_of_merge horder h hr
  obtain ⟨entry', hentry', hname'⟩ := Table.exists_entry_of_merge horder h hr'
  rw [Table.entries_append] at hentry hentry'
  have hlow : other < (Table.entries setups before).length := by
    refine Nat.lt_of_not_le fun hle => hother ?_
    rw [List.getElem?_append_right hle] at hentry'
    rw [hname']
    exact List.mem_singleton.mp (Table.name_mem_of_mem_entries (List.mem_of_getElem? hentry'))
  have hhigh : (Table.entries setups before).length ≤ id := by
    refine Nat.le_of_not_lt fun hlt => hnew ?_
    rw [List.getElem?_append_left hlt] at hentry
    rw [← hown, hname]
    exact Table.name_mem_of_mem_entries (List.mem_of_getElem? hentry)
  exact Nat.lt_of_lt_of_le hlow hhigh

/-- A composition that is listed last overrides its bases. -/
private theorem overridesBases_of_last {before : List String}
    (hname : composition ∈ compositions setups)
    (horder : order setups composition = .ok (before ++ [composition])) :
    OverridesBases setups composition (before ++ [composition]) := by
  have hself := isGlobal_of_mem_compositions hname
  refine ⟨List.getLast?_concat .., fun name hglobal => ?_,
    fun hints sink merged t h id other r r' hr hr' hown hother =>
      lt_of_setup_ne horder h hr hr' hown hother, fun hints sink merged t h id r hr hown c hc => ?_⟩
  · have hin : name ∈ before ++ [composition] :=
      ((ordered_of_order horder).2 name).mpr (Starts.reaches (.inr ⟨hself, hglobal⟩))
    rw [List.dropLast_concat]
    refine (List.mem_append.mp hin).resolve_right fun hin => ?_
    rw [List.mem_singleton.mp hin, hself] at hglobal
    cases hglobal
  · have hdeclares : id ∈ t.declaring c := Table.mem_declaring.mpr ⟨r, hr, hc⟩
    obtain ⟨id', hactive⟩ := Table.exists_active? hdeclares
    obtain ⟨r', hr', -⟩ := Table.exists_of_active? hactive
    refine ⟨id', r', hactive, hr', Decidable.byContradiction fun hother => ?_⟩
    have hlt : id' < id := lt_of_setup_ne horder h hr hr' hown hother
    exact Nat.not_lt.mpr (Table.le_of_active? hactive hdeclares) hlt

/-- A setup that is visited while it is not listed is listed last. -/
private theorem exists_concat_of_visit {fuel : Nat} {stack listed' : List String}
    {name dependent : String} {location : Location} (hname : name ∉ listed)
    (h : visit setups fuel stack listed name dependent location = .ok listed') :
    ∃ before, listed' = before ++ [name] := by
  cases fuel with
  | zero => cases h
  | succ fuel =>
    rw [visit, if_neg hname] at h
    split at h
    · cases h
    · split at h
      · cases h
      · obtain ⟨before, -, h⟩ := bind_eq_ok.mp h
        cases h
        exact ⟨before, rfl⟩

/-- A composition on which nothing global depends is listed last. If it was entered before, then for
a global setup that depends on it. -/
private theorem exists_concat_of_order (hself : isGlobal setups composition = false)
    (hfree : ∀ name, isGlobal setups name = true →
      ¬ TransGen (DependsOn setups) name composition)
    (h : order setups composition = .ok listed) : ∃ before, listed = before ++ [composition] := by
  unfold order origins at h
  rw [hself, if_neg Bool.false_ne_true, List.foldlM_append] at h
  obtain ⟨between, hglobals, h⟩ := bind_eq_ok.mp h
  rw [List.foldlM_cons] at h
  obtain ⟨last, hvisit, h⟩ := bind_eq_ok.mp h
  cases h
  refine exists_concat_of_visit (fun hin => ?_) hvisit
  have hlists := Lists.foldlM id (fun _ _ _ hvisit => visit_lists hvisit) hglobals
  obtain ⟨-, -, start, hstart, hreach⟩ := hlists.added composition hin List.not_mem_nil
  rw [List.map_id] at hstart
  have hglobal : isGlobal setups start = true := (List.mem_filter.mp hstart).2
  rcases reflTransGen_iff_eq_or_transGen.mp hreach with rfl | hdepends
  · cases hself.symm.trans hglobal
  · exact hfree start hglobal hdepends

/-- A composition that has an order overrides its bases exactly when no global setup depends on
it. -/
theorem overridesBases_iff (hname : composition ∈ compositions setups)
    (h : order setups composition = .ok listed) :
    OverridesBases setups composition listed ↔
      ∀ name, isGlobal setups name = true → ¬ TransGen (DependsOn setups) name composition := by
  have hself := isGlobal_of_mem_compositions hname
  obtain ⟨hordered, hmem⟩ := ordered_of_order h
  constructor
  · intro hoverrides name hglobal hdepends
    obtain ⟨before, rfl⟩ := List.getLast?_eq_some_iff.mp hoverrides.last
    have hin := hoverrides.globals name hglobal
    rw [List.dropLast_concat] at hin
    obtain ⟨first, second, rfl⟩ := List.append_of_mem hin
    have hsplit : first ++ name :: second ++ [composition] =
        first ++ name :: (second ++ [composition]) := List.append_assoc ..
    have hfirst := hordered.mem_before hsplit hdepends
    exact List.disjoint_of_nodup_append hordered.nodup (List.mem_append_left _ hfirst)
      (List.mem_singleton_self composition)
  · intro hfree
    obtain ⟨before, rfl⟩ := exists_concat_of_order hself hfree h
    exact overridesBases_of_last hname h

/-- A setup that answers one contract by an implementation of its own. -/
def answering (name : String) (kind : SetupKind) (dependsOn : List String) : Setup where
  name
  kind
  bindings :=
    [{ contracts := [⟨.named "IA" [], []⟩], lifetime := none
       recipe := .construct (.named name []) none [⟨[], none⟩]
       scope := none, disposable := false, location := .unknown }]
  roots := []
  dependsOn
  defaultLifetime := none
  hints := .empty
  markers := []
  members := []
  location := .unknown

/-- A composition with a base, and a global setup with another. -/
def layered : List Setup :=
  [answering "Composition" .exposed ["Extra"], answering "Extra" .internal [],
    answering "Defaults" .global ["Core"], answering "Core" .exposed []]

/-- What is global, and what it depends on, comes first, and then the other base. -/
theorem overridesBases_iff_layered : "Composition" ∈ compositions layered ∧
    order layered "Composition" = .ok ["Core", "Defaults", "Extra", "Composition"] ∧
    OverridesBases layered "Composition" ["Core", "Defaults", "Extra", "Composition"] := by
  have hname : "Composition" ∈ compositions layered := by decide +kernel
  have horder : order layered "Composition" = .ok ["Core", "Defaults", "Extra", "Composition"] := by
    rfl
  refine ⟨hname, horder, (overridesBases_iff hname horder).mpr fun name hglobal hdepends => ?_⟩
  have hdefaults : name = "Defaults" := by
    have hin : name ∈ globals layered :=
      List.mem_filter.mpr ⟨mem_names_of_isGlobal hglobal, hglobal⟩
    rw [show globals layered = ["Defaults"] by decide +kernel] at hin
    exact List.mem_singleton.mp hin
  subst hdefaults
  have hbefore : "Composition" ∈ ["Core"] :=
    (ordered_of_order horder).1.mem_before rfl hdepends
  exact absurd hbefore (by decide)

/-- A global setup that depends on the composition of which it is a base. -/
def dependentBase : List Setup :=
  [answering "Composition" .exposed [], answering "Defaults" .global ["Composition"]]

/-- The global setup is not refused: it is merged after the composition, and its binding is active
in place of that of the composition. -/
theorem dependentBase_overrides :
    "Composition" ∈ compositions dependentBase ∧ isGlobal dependentBase "Defaults" = true ∧
    DependsOn dependentBase "Defaults" "Composition" ∧
    order dependentBase "Composition" = .ok ["Composition", "Defaults"] ∧
    ¬ OverridesBases dependentBase "Composition" ["Composition", "Defaults"] ∧
    ∃ t, (Table.merge dependentBase "Composition" .empty .empty).2 = some t ∧
      t.active? ⟨.named "IA" [], none⟩ = some 1 ∧
      t.bindings[1]?.map Registration.setup = some "Defaults" := by
  refine ⟨by decide +kernel, by decide +kernel, dependsOn_iff.mpr (by decide +kernel), rfl,
    fun hoverrides => absurd hoverrides.last (by decide),
    .ofSetups "Composition" .empty dependentBase, by decide +kernel, by decide +kernel,
    by decide +kernel⟩

end Setup

end Injector

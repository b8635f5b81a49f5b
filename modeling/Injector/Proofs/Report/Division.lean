import Injector.Proofs.Dictionary
import Injector.Proofs.Report.Isolation

/-!
# Setups in parts

Setups of one name are parts of one, so it does not matter in how many parts a setup is declared.
The relation `Setup.Divided` lets any setups of a list be declared in two parts, one right after the
other. It is kept by all that a merge takes from a list of setups, and everything that a merge reads
off the result is the same on both sides (`Setup.Divided.merge_eq`). The main statement is that a
run has the same report when a setup is divided.
-/

namespace Injector

namespace Setup

/-- Whether all that a setup says of itself as a whole is said by another too. -/
structure IsPartOf (part s : Setup) : Prop where
  /-- The names are the same. -/
  name : part.name = s.name
  /-- The kinds are the same. -/
  kind : part.kind = s.kind
  /-- The same markers are declared. -/
  markers : part.markers = s.markers
  /-- The lifetime of bindings that declare none is the same. -/
  defaultLifetime : part.defaultLifetime = s.defaultLifetime
  /-- The places are the same. -/
  location : part.location = s.location

/-- Whether two parts declare, one after the other, what a setup declares. -/
structure SplitsInto (s first second : Setup) : Prop where
  /-- The first is a part. -/
  isFirst : first.IsPartOf s
  /-- The second is a part. -/
  isSecond : second.IsPartOf s
  /-- The bindings of the first come first. -/
  bindings : s.bindings = first.bindings ++ second.bindings
  /-- The roots of the first come first. -/
  roots : s.roots = first.roots ++ second.roots
  /-- What the first depends on comes first. -/
  dependsOn : s.dependsOn = first.dependsOn ++ second.dependsOn
  /-- The members of the first come first. -/
  members : s.members = first.members ++ second.members
  /-- The hints of the second are laid over those of the first. -/
  hints : s.hints = first.hints.overlay second.hints

/-- Whether a list of setups comes from another when some are declared in two parts. -/
inductive Divided : List Setup → List Setup → Prop where
  | nil : Divided [] []
  | keep (s : Setup) {setups divided : List Setup} (h : Divided setups divided) :
      Divided (s :: setups) (s :: divided)
  | split {s first second : Setup} {setups divided : List Setup} (hs : s.SplitsInto first second)
      (h : Divided setups divided) : Divided (s :: setups) (first :: second :: divided)

/-! ### What a part has in common with the whole -/

namespace IsPartOf

variable {part s : Setup} (h : part.IsPartOf s)

include h

/-- Bindings enter a table from a part as they do from the whole. -/
theorem register_eq : Table.register part = Table.register s := by
  funext next b
  rw [Table.register, Table.register, h.name, h.markers, h.defaultLifetime]

/-- Roots enter a table from a part as they do from the whole. -/
theorem rootOf_eq : Table.rootOf part = Table.rootOf s := by
  funext r
  rw [Table.rootOf, Table.rootOf, h.name, h.markers]

/-- Members enter a table from a part as they do from the whole. -/
theorem memberOf_eq : Table.memberOf part = Table.memberOf s := by
  funext m
  rw [Table.memberOf, Table.memberOf, h.name]

end IsPartOf

/-! ### Lists of setups -/

namespace Divided

theorem refl (setups : List Setup) : Divided setups setups := by
  induction setups with
  | nil => exact .nil
  | cons s setups ih => exact .keep s ih

/-- Lists of setups are divided one after the other. -/
theorem append {setups divided setups' divided' : List Setup} (h : Divided setups divided)
    (h' : Divided setups' divided') : Divided (setups ++ setups') (divided ++ divided') := by
  induction h with
  | nil => exact h'
  | keep s _ ih => exact .keep s ih
  | split hs _ ih => exact .split hs ih

/-- What is read off each setup, and off a whole setup as off its parts, is read off all alike. -/
theorem flatMap_eq {α : Type} {f : Setup → List α} {setups divided : List Setup}
    (h : Divided setups divided)
    (hf : ∀ s first second, s.SplitsInto first second → f s = f first ++ f second) :
    setups.flatMap f = divided.flatMap f := by
  induction h with
  | nil => rfl
  | keep s _ ih => rw [List.flatMap_cons, List.flatMap_cons, ih]
  | split hs _ ih =>
    rw [List.flatMap_cons, List.flatMap_cons, List.flatMap_cons, ih, hf _ _ _ hs,
      List.append_assoc]

/-- Hints are laid over each other alike. -/
theorem hints_eq {setups divided : List Setup} (h : Divided setups divided) (hints : Hints) :
    setups.foldl (fun hints s => hints.overlay s.hints) hints =
      divided.foldl (fun hints s => hints.overlay s.hints) hints := by
  induction h generalizing hints with
  | nil => rfl
  | keep s _ ih => exact ih _
  | split hs _ ih =>
    rw [List.foldl_cons, List.foldl_cons, List.foldl_cons, ih, hs.hints, Dictionary.overlay_assoc]

variable {setups divided : List Setup} (h : Divided setups divided)

include h

/-- The parts of one name are divided as all setups are. -/
theorem parts (name : String) :
    Divided (Setup.parts setups name) (Setup.parts divided name) := by
  induction h with
  | nil => exact .nil
  | keep s _ ih =>
    rw [Setup.parts, Setup.parts, List.filter_cons, List.filter_cons]
    split
    · exact .keep s ih
    · exact ih
  | split hs _ ih =>
    rw [Setup.parts, Setup.parts, List.filter_cons, List.filter_cons, List.filter_cons,
      hs.isFirst.name, hs.isSecond.name]
    split
    · exact .split hs ih
    · exact ih

/-- Setups that are laid out by their names are divided as all are. -/
theorem flatMap_parts (listed : List String) :
    Divided (listed.flatMap (Setup.parts setups)) (listed.flatMap (Setup.parts divided)) := by
  induction listed with
  | nil => exact .nil
  | cons name listed ih => exact (h.parts name).append ih

/-- Divided setups declare the same names. -/
theorem names_eq : names setups = names divided := by
  simp only [names]
  induction h with
  | nil => rfl
  | keep s _ ih =>
    rw [List.map_cons, List.map_cons, List.eraseDups_cons, List.eraseDups_cons, eraseDups_filter,
      eraseDups_filter, ih]
  | split hs _ ih =>
    rw [List.map_cons, List.map_cons, List.map_cons, hs.isFirst.name, hs.isSecond.name,
      List.eraseDups_cons, List.eraseDups_cons, List.filter_cons_of_neg (by simp),
      eraseDups_filter, eraseDups_filter, ih]

theorem isEmpty_eq : setups.isEmpty = divided.isEmpty := by
  cases h <;> rfl

theorem head?_location_eq :
    setups.head?.map Setup.location = divided.head?.map Setup.location := by
  cases h with
  | nil => rfl
  | keep s _ => rfl
  | split hs _ => exact congrArg some hs.isFirst.location.symm

/-- Division leaves a setup global or not. -/
theorem any_global_eq :
    (setups.any fun s => s.kind == .global) = divided.any fun s => s.kind == .global := by
  induction h with
  | nil => rfl
  | keep s _ ih => rw [List.any_cons, List.any_cons, ih]
  | split hs _ ih =>
    rw [List.any_cons, List.any_cons, List.any_cons, hs.isFirst.kind, hs.isSecond.kind, ih,
      ← Bool.or_assoc, Bool.or_self]

/-! ### Orders -/

/-- The same names belong to global setups. -/
theorem isGlobal_eq (name : String) : isGlobal setups name = isGlobal divided name :=
  (h.parts name).any_global_eq

/-- The same names are those of compositions. -/
theorem compositions_eq : compositions setups = compositions divided := by
  rw [compositions, compositions, h.names_eq]
  exact List.filter_congr fun name _ => by rw [h.isGlobal_eq]

/-- The global setups are listed alike. -/
theorem globals_eq : globals setups = globals divided := by
  rw [globals, globals, h.names_eq]
  exact List.filter_congr fun name _ => h.isGlobal_eq name

/-- An order starts from the same names. -/
theorem origins_eq (composition : String) :
    origins setups composition = origins divided composition := by
  rw [origins, origins, h.isGlobal_eq, h.globals_eq]

/-- The parts of a setup depend together on what the setup depends on. -/
theorem needs_eq (name : String) : needs setups name = needs divided name := by
  refine (h.parts name).flatMap_eq fun s first second hs => ?_
  rw [hs.dependsOn, List.map_append, hs.isFirst.location, hs.isSecond.location]

/-- A visit lists the same setups or reports the same defect. -/
theorem visit_eq (fuel : Nat) (stack listed : List String) (name dependent : String)
    (location : Location) : visit setups fuel stack listed name dependent location =
      visit divided fuel stack listed name dependent location := by
  induction fuel generalizing stack listed name dependent location with
  | zero => rfl
  | succ fuel ih =>
    rw [visit, visit, (h.parts name).isEmpty_eq, h.needs_eq]
    simp only [ih]

/-- The setups of a composition are put in the same order. -/
theorem order_eq (composition : String) : order setups composition = order divided composition := by
  unfold order
  rw [(h.parts composition).head?_location_eq, h.origins_eq, h.names_eq]
  simp only [h.visit_eq]

/-! ### Tables -/

omit h in
/-- A setup counts only for how it registers its bindings. -/
private theorem registerAll_congr {entries entries' : List (Setup × Binding)}
    (heq : entries.map (fun e => (Table.register e.1, e.2)) =
      entries'.map fun e => (Table.register e.1, e.2)) (next : Nat) :
    Table.registerAll next entries = Table.registerAll next entries' := by
  induction entries generalizing entries' next with
  | nil => rw [List.map_eq_nil_iff.mp heq.symm]
  | cons e entries ih =>
    obtain ⟨e', others, rfl, hfirst, hrest⟩ := List.map_eq_cons_iff.mp heq.symm
    obtain ⟨hregister, hbinding⟩ := Prod.mk.inj hfirst
    rw [Table.registerAll, Table.registerAll, hregister, hbinding, ih hrest.symm]

/-- The bindings of the setups enter a table alike. -/
theorem registerAll_eq (next : Nat) :
    Table.registerAll next (setups.flatMap fun s => s.bindings.map fun b => (s, b)) =
      Table.registerAll next (divided.flatMap fun s => s.bindings.map fun b => (s, b)) := by
  refine registerAll_congr ?_ next
  simp only [List.map_flatMap, List.map_map]
  refine h.flatMap_eq fun s first second hs => ?_
  rw [hs.bindings, List.map_append]
  simp only [Function.comp_def, hs.isFirst.register_eq, hs.isSecond.register_eq]

/-- The table of setups in order is that of their parts. -/
theorem table_eq (composition : String) (hints : Hints) :
    Table.ofSetups composition hints setups = Table.ofSetups composition hints divided := by
  have hroots : setups.flatMap (fun s => s.roots.map (Table.rootOf s)) =
      divided.flatMap fun s => s.roots.map (Table.rootOf s) :=
    h.flatMap_eq fun s first second hs => by
      rw [hs.roots, List.map_append, hs.isFirst.rootOf_eq, hs.isSecond.rootOf_eq]
  have hmembers : setups.flatMap (fun s => s.members.map (Table.memberOf s)) =
      divided.flatMap fun s => s.members.map (Table.memberOf s) :=
    h.flatMap_eq fun s first second hs => by
      rw [hs.members, List.map_append, hs.isFirst.memberOf_eq, hs.isSecond.memberOf_eq]
  rw [Table.ofSetups, Table.ofSetups, h.registerAll_eq, hroots, hmembers, h.hints_eq]

/-- A composition is merged into the same table, and with the same issues. -/
theorem merge_eq (composition : String) (hints : Hints) (sink : Sink) :
    Table.merge setups composition hints sink = Table.merge divided composition hints sink := by
  unfold Table.merge
  rw [h.names_eq, h.order_eq]
  cases order divided composition with
  | error e => rfl
  | ok listed => simp only [(h.flatMap_parts listed).table_eq]

end Divided

end Setup

variable {setups divided : List Setup}

/-- A run has the same report when any setups are declared in two parts. -/
theorem Setup.Divided.ofSetups_eq (h : Setup.Divided setups divided) (config : Configuration) :
    Report.ofSetups config setups = Report.ofSetups config divided := by
  have hcomposition : CompositionReport.ofSetups config setups =
      CompositionReport.ofSetups config divided := by
    funext name
    rw [CompositionReport.ofSetups, CompositionReport.ofSetups, h.merge_eq]
  rw [Report.ofSetups, Report.ofSetups, h.compositions_eq, hcomposition]

/-- A setup may be declared in two parts: the report of the run is the same. -/
theorem Report.ofSetups_split (config : Configuration) {s first second : Setup}
    (hs : s.SplitsInto first second) (before after : List Setup) :
    Report.ofSetups config (before ++ s :: after) =
      Report.ofSetups config (before ++ first :: second :: after) :=
  ((Setup.Divided.refl before).append (.split hs (.refl after))).ofSetups_eq config

/-- A binding of one of the values that a list collects. -/
def listedValue (implementation : String) : Binding where
  contracts := [⟨.named "IV" [], [.unique]⟩]
  lifetime := some .singleton
  recipe := .construct (.named implementation []) none [⟨[], none⟩]
  scope := none
  disposable := false
  location := .unknown

/-- A setup that is a base of all compositions. -/
def defaultsOfAll : Setup :=
  { Setup.sample [("IB", "Default", [[]])] [] with name := "Defaults", kind := .global }

/-- A setup that a composition depends on. -/
def ownBase : Setup := { Setup.sample [("IB", "B", [[]])] [] with name := "Base" }

/-- The first part of the composition, which lists a value and asks for what its base provides. -/
def formerPart : Setup :=
  { Setup.sample [] ["IA"] with
    bindings := listedValue "V" :: (Setup.sample [("IA", "A", [[.named "IB" []]])] []).bindings
    hints := .ofList [("Resolve", "on"), ("ThreadSafe", "off")]
    members := [⟨"shared", true, .unknown⟩] }

/-- The second part, which depends on the base, lists another value, asks for all of them and has
the last word on a contract and on a hint. -/
def latterPart : Setup :=
  { Setup.sample [] [] with
    bindings := listedValue "W" :: (Setup.sample [("IA", "Other", [[.named "IB" []]])] []).bindings
    roots := [⟨"All", .named "IEnumerable" [.named "IV" []], none, .property, .unknown⟩]
    dependsOn := ["Base"]
    hints := .ofList [("Resolve", "off")]
    members := [⟨"own", false, .unknown⟩] }

/-- The composition in one part. -/
def undivided : Setup :=
  { formerPart with
    bindings := formerPart.bindings ++ latterPart.bindings
    roots := formerPart.roots ++ latterPart.roots
    dependsOn := ["Base"]
    hints := .ofList [("Resolve", "off"), ("ThreadSafe", "off")]
    members := formerPart.members ++ latterPart.members }

/-- The composition has the same report in one part as in two: four warnings about what is
overridden and not used, and both roots made. -/
theorem Report.ofSetups_split_undivided :
    undivided.SplitsInto formerPart latterPart ∧
    Report.ofSetups .default ([defaultsOfAll] ++ undivided :: [ownBase]) =
      Report.ofSetups .default ([defaultsOfAll] ++ formerPart :: latterPart :: [ownBase]) ∧
    ((Configuration.default.reportOf? [defaultsOfAll, undivided, ownBase] "Composition").map
      fun c => (c.countOf .warning, c.roots.map fun r => (r.name, r.plan.isSome))) =
      some (4, [("IA", true), ("All", true)]) := by
  have hs : undivided.SplitsInto formerPart latterPart :=
    ⟨⟨rfl, rfl, rfl, rfl, rfl⟩, ⟨rfl, rfl, rfl, rfl, rfl⟩, rfl, rfl, rfl, rfl, by decide +kernel⟩
  exact ⟨hs, Report.ofSetups_split .default hs [defaultsOfAll] [ownBase], by decide +kernel⟩

end Injector

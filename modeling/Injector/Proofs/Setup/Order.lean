import Injector.Proofs.Computation
import Injector.Proofs.NeedsFirst
import Injector.Table.Merge
import Mathlib.Data.List.Chain
import Mathlib.Data.List.Nodup
import Mathlib.Data.List.Perm.Subperm
import Mathlib.Logic.Relation

/-!
# The order of setups

An order is made by a walk that enters each setup once, lists it when all that it depends on is
listed, and stops at a setup that waits for itself or that is not declared. The main statement is
that the walk ends with an order exactly when there is one, that the order lists what is reached and
nothing else, and that otherwise one defect is reported, which is real.
-/

namespace Injector.Setup

open Relation

/-- Whether a part of one setup, declared at a place, names another. -/
def NamesAt (setups : List Setup) (name need : String) (location : Location) : Prop :=
  ∃ s ∈ setups, s.name = name ∧ s.location = location ∧ need ∈ s.dependsOn

/-- Whether one setup names another. -/
def DependsOn (setups : List Setup) (name need : String) : Prop :=
  ∃ location, NamesAt setups name need location

/-- Whether a composition starts from a setup: from itself and, unless it is global, from every
global one. -/
def Starts (setups : List Setup) (composition name : String) : Prop :=
  name = composition ∨ isGlobal setups composition = false ∧ isGlobal setups name = true

/-- Whether a composition starts from a setup, or from one that depends on it. -/
def Reaches (setups : List Setup) (composition name : String) : Prop :=
  ∃ start, Starts setups composition start ∧ ReflTransGen (DependsOn setups) start name

/-- Whether setups are listed once, and each after all that it depends on. -/
structure Ordered (setups : List Setup) (listed : List String) : Prop where
  /-- No setup is listed twice. -/
  nodup : listed.Nodup
  /-- What a setup depends on stands before it. -/
  after : ∀ before name rest, listed = before ++ name :: rest →
    ∀ need, DependsOn setups name need → need ∈ before

/-- Whether the defect for which there is no order is real. -/
def OrderError.Holds (setups : List Setup) (composition : String) : OrderError → Prop
  | .cycle path location => ∃ loop first last, path = loop ++ [first] ∧
      loop.head? = some first ∧ loop.getLast? = some last ∧ loop.Nodup ∧
      loop.IsChain (DependsOn setups) ∧ NamesAt setups last first location ∧
      ∀ name ∈ loop, Reaches setups composition name
  | .missing setup dependent location => setup ∉ names setups ∧ Reaches setups composition setup ∧
      (NamesAt setups dependent setup location ∨ setup = composition ∧ dependent = composition)

variable {setups : List Setup} {composition name need dependent : String} {location : Location}
  {stack listed listed' : List String}

/-! ### Names -/

/-- A name is declared when a setup has it. -/
theorem mem_names : name ∈ names setups ↔ ∃ s ∈ setups, s.name = name := by
  rw [names, List.mem_eraseDups, List.mem_map]

/-- What is needed by a name is what one of its setups says it depends on. -/
theorem mem_needs : (need, location) ∈ needs setups name ↔ NamesAt setups name need location := by
  simp only [needs, parts, NamesAt, List.mem_flatMap, List.mem_filter, List.mem_map, beq_iff_eq,
    Prod.mk.injEq]
  constructor
  · rintro ⟨s, ⟨hs, hname⟩, need, hneed, rfl, hlocation⟩
    exact ⟨s, hs, hname, hlocation, hneed⟩
  · rintro ⟨s, hs, hname, hlocation, hneed⟩
    exact ⟨s, ⟨hs, hname⟩, need, hneed, rfl, hlocation⟩

/-- A name depends on another one that is among those it needs. -/
theorem dependsOn_iff : DependsOn setups name need ↔ need ∈ (needs setups name).map Prod.fst := by
  simp [DependsOn, mem_needs]

/-- A name that is not declared has no parts. -/
theorem parts_isEmpty_iff : (parts setups name).isEmpty = true ↔ name ∉ names setups := by
  simp [parts, mem_names]

/-- A global name is declared. -/
theorem mem_names_of_isGlobal (h : isGlobal setups name = true) : name ∈ names setups := by
  obtain ⟨s, hs, -⟩ := List.any_eq_true.mp h
  obtain ⟨hs, hname⟩ := List.mem_filter.mp hs
  exact mem_names.mpr ⟨s, hs, eq_of_beq hname⟩

/-- The name of a composition is not global. -/
theorem isGlobal_of_mem_compositions (h : composition ∈ compositions setups) :
    isGlobal setups composition = false := by
  simpa using (List.mem_filter.mp h).2

/-- An order starts from the composition and from what is global. -/
theorem mem_origins : name ∈ origins setups composition ↔ Starts setups composition name := by
  have hglobals : name ∈ globals setups ↔ isGlobal setups name = true := by
    rw [globals, List.mem_filter]
    exact ⟨And.right, fun h => ⟨mem_names_of_isGlobal h, h⟩⟩
  rw [origins, List.mem_append, List.mem_singleton, Starts, or_comm]
  cases isGlobal setups composition <;> simp [hglobals]

/-- Where an order starts is reached. -/
theorem Starts.reaches (h : Starts setups composition name) : Reaches setups composition name :=
  ⟨name, h, .refl⟩

/-- What something reached depends on is reached. -/
theorem Reaches.tail (h : Reaches setups composition name) (hneed : DependsOn setups name need) :
    Reaches setups composition need := by
  obtain ⟨start, hstart, hreach⟩ := h
  exact ⟨start, hstart, hreach.tail hneed⟩

/-! ### Lists in order -/

theorem ordered_nil (setups : List Setup) : Ordered setups [] :=
  ⟨List.nodup_nil, fun before name rest h => by simp at h⟩

/-- In an order each setup comes after those that it depends on. -/
theorem Ordered.needsFirst (h : Ordered setups listed) : NeedsFirst (DependsOn setups) listed :=
  ⟨h.nodup, h.after⟩

/-- A setup may be listed when all that it depends on is. -/
theorem Ordered.concat (h : Ordered setups listed) (hname : name ∉ listed)
    (hneeds : ∀ need, DependsOn setups name need → need ∈ listed) :
    Ordered setups (listed ++ [name]) := by
  have hfirst := h.needsFirst.concat hname hneeds
  exact ⟨hfirst.nodup, hfirst.after⟩

/-- What is listed is listed with all that it depends on. -/
theorem Ordered.mem_of_dependsOn (h : Ordered setups listed) (hname : name ∈ listed)
    (hneed : DependsOn setups name need) : need ∈ listed := by
  obtain ⟨before, rest, rfl⟩ := List.append_of_mem hname
  exact List.mem_append_left _ (h.after before name rest rfl need hneed)

/-- What is listed is listed with all that it depends on in any number of steps. -/
theorem Ordered.mem_of_reflTransGen (h : Ordered setups listed) (hname : name ∈ listed)
    (hneed : ReflTransGen (DependsOn setups) name need) : need ∈ listed := by
  induction hneed with
  | refl => exact hname
  | tail _ hneed ih => exact h.mem_of_dependsOn ih hneed

/-- All that a listed setup depends on, at once or by others, stands before it. -/
theorem Ordered.mem_before (h : Ordered setups listed) {before rest : List String}
    (heq : listed = before ++ name :: rest) (hneed : TransGen (DependsOn setups) name need) :
    need ∈ before :=
  h.needsFirst.mem_before heq hneed

/-- A listed setup does not depend on itself. -/
theorem Ordered.acyclic (h : Ordered setups listed) (hname : name ∈ listed) :
    ¬ TransGen (DependsOn setups) name name := by
  intro hcycle
  obtain ⟨before, rest, rfl⟩ := List.append_of_mem hname
  have hbefore := h.mem_before rfl hcycle
  exact List.disjoint_of_nodup_append h.nodup hbefore List.mem_cons_self

/-! ### What a visit lists -/

/-- Whether setups were added to a list so that it holds some that were asked for, while those of a
stack wait. -/
structure Lists (setups : List Setup) (stack listed listed' wanted : List String) : Prop where
  /-- What was listed stays in its place. -/
  kept : listed <+: listed'
  /-- What was asked for is listed. -/
  found : ∀ name ∈ wanted, name ∈ listed'
  /-- Order is kept. -/
  ordered : Ordered setups listed → Ordered setups listed'
  /-- What is added is declared, does not wait, and is needed for what was asked for. -/
  added : ∀ name ∈ listed', name ∉ listed → name ∈ names setups ∧ name ∉ stack ∧
    ∃ start ∈ wanted, ReflTransGen (DependsOn setups) start name

namespace Lists

/-- A name that is listed already adds nothing. -/
theorem of_mem (h : name ∈ listed) : Lists setups stack listed listed [name] :=
  ⟨List.prefix_rfl, fun _ hname => List.mem_singleton.mp hname ▸ h, id,
    fun _ hin hout => absurd hin hout⟩

theorem nil (setups : List Setup) (stack listed : List String) :
    Lists setups stack listed listed [] :=
  ⟨List.prefix_rfl, fun _ hname => (List.not_mem_nil hname).elim, id,
    fun _ hin hout => absurd hin hout⟩

/-- What is asked for one after the other is added in turn. -/
theorem append {listed'' wanted wanted' : List String}
    (h : Lists setups stack listed listed' wanted)
    (h' : Lists setups stack listed' listed'' wanted') :
    Lists setups stack listed listed'' (wanted ++ wanted') := by
  refine ⟨h.kept.trans h'.kept, fun name hname => ?_, h'.ordered ∘ h.ordered,
    fun name hin hout => ?_⟩
  · rcases List.mem_append.mp hname with hname | hname
    · exact h'.kept.subset (h.found name hname)
    · exact h'.found name hname
  · by_cases hbetween : name ∈ listed'
    · obtain ⟨hdeclared, hstack, start, hstart, hreach⟩ := h.added name hbetween hout
      exact ⟨hdeclared, hstack, start, List.mem_append_left _ hstart, hreach⟩
    · obtain ⟨hdeclared, hstack, start, hstart, hreach⟩ := h'.added name hin hbetween
      exact ⟨hdeclared, hstack, start, List.mem_append_right _ hstart, hreach⟩

/-- A list of steps that each add one setup add all of them. -/
theorem foldlM {α : Type} (key : α → String) {f : List String → α → Except OrderError (List String)}
    {as : List α} {listed : List String} (hf : ∀ a listed listed', f listed a = .ok listed' →
      Lists setups stack listed listed' [key a]) (h : as.foldlM f listed = .ok listed') :
    Lists setups stack listed listed' (as.map key) := by
  induction as generalizing listed with
  | nil =>
    cases h
    exact .nil setups stack _
  | cons a rest ih =>
    rw [List.foldlM_cons] at h
    obtain ⟨between, ha, hrest⟩ := bind_eq_ok.mp h
    exact (hf a listed between ha).append (ih hrest)

/-- A setup that does not wait is added after what it depends on, which is added while it waits. -/
theorem concat (hstack : name ∉ stack) (hlisted : name ∉ listed) (hdeclared : name ∈ names setups)
    (h : Lists setups (stack ++ [name]) listed listed' ((needs setups name).map Prod.fst)) :
    Lists setups stack listed (listed' ++ [name]) [name] := by
  have hnew : name ∉ listed' := fun hin => (h.added name hin hlisted).2.1 (by simp)
  refine ⟨h.kept.trans (List.prefix_append _ _), fun other hother => ?_, fun hordered => ?_,
    fun other hin hout => ?_⟩
  · rw [List.mem_singleton.mp hother]
    exact List.mem_append_right _ (List.mem_singleton_self name)
  · exact (h.ordered hordered).concat hnew fun need hneed => h.found need (dependsOn_iff.mp hneed)
  · rcases List.mem_append.mp hin with hin | hin
    · obtain ⟨hother, hwaits, start, hstart, hreach⟩ := h.added other hin hout
      exact ⟨hother, fun hin => hwaits (List.mem_append_left _ hin), name,
        List.mem_singleton_self name, .head (dependsOn_iff.mpr hstart) hreach⟩
    · obtain rfl := List.mem_singleton.mp hin
      exact ⟨hdeclared, hstack, other, List.mem_singleton_self other, .refl⟩

end Lists

/-- A visit adds what was asked for. -/
theorem visit_lists {fuel : Nat}
    (h : visit setups fuel stack listed name dependent location = .ok listed') :
    Lists setups stack listed listed' [name] := by
  induction fuel generalizing stack listed listed' name dependent location with
  | zero => cases h
  | succ fuel ih =>
    rw [visit] at h
    split at h
    · next hin =>
      cases h
      exact .of_mem hin
    · next hout =>
      split at h
      · cases h
      · next hstack =>
        split at h
        · cases h
        · next hparts =>
          have hdeclared : name ∈ names setups :=
            Decidable.not_not.mp fun hname => hparts (parts_isEmpty_iff.mpr hname)
          obtain ⟨between, hneeds, h⟩ := bind_eq_ok.mp h
          cases h
          exact .concat hstack hout hdeclared
            (.foldlM Prod.fst (fun _ _ _ hneed => ih hneed) hneeds)

/-! ### What a visit reports -/

/-- Whether the setups of a stack wait for each other, and the last of them for a setup that is to
be visited. -/
structure Waits (setups : List Setup) (composition : String) (stack : List String)
    (name dependent : String) (location : Location) : Prop where
  /-- No setup waits twice. -/
  nodup : stack.Nodup
  /-- What waits is declared. -/
  declared : ∀ other ∈ stack, other ∈ names setups
  /-- Each waits for the one that was entered next. -/
  chain : (stack ++ [name]).IsChain (DependsOn setups)
  /-- All are reached. -/
  reached : ∀ other ∈ stack ++ [name], Reaches setups composition other
  /-- The last names the setup, unless the composition starts from it. -/
  asked : stack.getLast? = some dependent ∧ NamesAt setups dependent name location ∨
    stack = [] ∧ (name ∈ names setups ∨ name = composition ∧ dependent = composition)

namespace Waits

variable (h : Waits setups composition stack name dependent location)

include h

/-- No more setups wait than there are names. -/
theorem length_le : stack.length ≤ (names setups).length :=
  (List.Nodup.subperm h.nodup fun other hother => h.declared other hother).length_le

/-- A setup that is entered waits for what it depends on. -/
theorem push (hstack : name ∉ stack) (hdeclared : name ∈ names setups)
    (hneed : NamesAt setups name need location') :
    Waits setups composition (stack ++ [name]) need name location' := by
  refine ⟨?_, fun other hother => ?_, ?_, fun other hother => ?_, .inl ⟨by simp, hneed⟩⟩
  · exact List.concat_eq_append ▸ h.nodup.concat hstack
  · rcases List.mem_append.mp hother with hother | hother
    · exact h.declared other hother
    · exact List.mem_singleton.mp hother ▸ hdeclared
  · refine List.isChain_append.mpr ⟨h.chain, List.isChain_singleton need, fun a ha b hb => ?_⟩
    cases Option.some.inj ((List.getLast?_concat ..).symm.trans ha)
    cases hb
    exact ⟨location', hneed⟩
  · rcases List.mem_append.mp hother with hother | hother
    · exact h.reached other hother
    · rw [List.mem_singleton.mp hother]
      exact (h.reached name (by simp)).tail ⟨location', hneed⟩

/-- A setup that is visited while it waits closes a cycle, which the stack holds from its entry
on. -/
theorem cycle (hstack : name ∈ stack) :
    (OrderError.cycle (stack.dropWhile (· ≠ name) ++ [name]) location).Holds setups
      composition := by
  have hlast : stack.getLast? = some dependent ∧ NamesAt setups dependent name location := by
    refine h.asked.resolve_right fun ⟨hempty, _⟩ => ?_
    rw [hempty] at hstack
    cases hstack
  obtain ⟨before, rest, rfl⟩ := List.append_of_mem hstack
  have hbefore : ∀ other ∈ before, decide (other ≠ name) = true := by
    intro other hother
    refine decide_eq_true fun heq => ?_
    exact List.disjoint_of_nodup_append h.nodup hother (heq ▸ List.mem_cons_self)
  have hloop : (before ++ name :: rest).dropWhile (· ≠ name) = name :: rest := by
    rw [List.dropWhile_append_of_pos hbefore, List.dropWhile_cons_of_neg (by simp)]
  have hsuffix : name :: rest <:+ before ++ name :: rest := List.suffix_append _ _
  refine ⟨name :: rest, name, dependent, by rw [hloop], rfl, ?_, ?_, ?_, hlast.2,
    fun other hother => ?_⟩
  · rw [← hlast.1, List.getLast?_append_cons]
  · exact h.nodup.sublist hsuffix.sublist
  · exact h.chain.left_of_append.suffix hsuffix
  · exact h.reached other (List.mem_append_left _ (hsuffix.subset hother))

/-- A setup that is not declared is named by the last of the stack, or is the composition. -/
theorem missing (hname : name ∉ names setups) :
    (OrderError.missing name dependent location).Holds setups composition := by
  refine ⟨hname, h.reached name (by simp), ?_⟩
  rcases h.asked with ⟨-, hnamed⟩ | ⟨-, hdeclared | hself⟩
  · exact .inl hnamed
  · exact absurd hdeclared hname
  · exact .inr hself

end Waits

/-- A visit that fails has found a real defect. The fuel does not run out, for it lasts until every
name waits. -/
theorem visit_holds {fuel : Nat} {e : OrderError}
    (hwaits : Waits setups composition stack name dependent location)
    (hfuel : (names setups).length < fuel + stack.length)
    (h : visit setups fuel stack listed name dependent location = .error e) :
    e.Holds setups composition := by
  induction fuel generalizing stack listed name dependent location with
  | zero =>
    have hle := hwaits.length_le
    omega
  | succ fuel ih =>
    rw [visit] at h
    split at h
    · cases h
    · split at h
      · next hstack =>
        cases h
        exact hwaits.cycle hstack
      · next hstack =>
        split at h
        · next hparts =>
          cases h
          exact hwaits.missing (parts_isEmpty_iff.mp hparts)
        · next hparts =>
          have hdeclared : name ∈ names setups :=
            Decidable.not_not.mp fun hname => hparts (parts_isEmpty_iff.mpr hname)
          rcases bind_eq_error.mp h with h | ⟨_, -, h⟩
          · obtain ⟨⟨need, place⟩, hneed, listed', h⟩ := exists_of_foldlM_eq_error h
            refine ih (hwaits.push hstack hdeclared (mem_needs.mp hneed)) ?_ h
            rw [List.length_append, List.length_singleton]
            omega
          · cases h

/-! ### The order of a composition -/

/-- What a composition starts from waits for nothing. -/
theorem Starts.waits (h : Starts setups composition name) (location : Location) :
    Waits setups composition [] name composition location := by
  refine ⟨List.nodup_nil, fun _ hother => (List.not_mem_nil hother).elim,
    List.isChain_singleton name, fun other hother => ?_, .inr ⟨rfl, ?_⟩⟩
  · rw [List.mem_singleton.mp hother]
    exact h.reaches
  · exact h.symm.imp (fun hglobal => mem_names_of_isGlobal hglobal.2) fun hself => ⟨hself, rfl⟩

/-- An order lists what the composition starts from, and what is needed for it. -/
theorem lists_of_order (h : order setups composition = .ok listed) :
    Lists setups [] [] listed (origins setups composition) := by
  have hlists := Lists.foldlM id (fun _ _ _ hvisit => visit_lists hvisit) h
  rwa [List.map_id] at hlists

/-- An order is one, and lists exactly what is reached. -/
theorem ordered_of_order (h : order setups composition = .ok listed) :
    Ordered setups listed ∧ ∀ name, name ∈ listed ↔ Reaches setups composition name := by
  have hlists := lists_of_order h
  have hordered := hlists.ordered (ordered_nil setups)
  refine ⟨hordered, fun name => ⟨fun hin => ?_, fun ⟨start, hstart, hreach⟩ => ?_⟩⟩
  · obtain ⟨-, -, start, hstart, hreach⟩ := hlists.added name hin List.not_mem_nil
    exact ⟨start, mem_origins.mp hstart, hreach⟩
  · exact hordered.mem_of_reflTransGen (hlists.found start (mem_origins.mpr hstart)) hreach

/-- Only declared names are listed. -/
theorem declared_of_order (h : order setups composition = .ok listed) (hin : name ∈ listed) :
    name ∈ names setups :=
  ((lists_of_order h).added name hin List.not_mem_nil).1

/-- Where there is no order a real defect was found. -/
theorem holds_of_order {e : OrderError} (h : order setups composition = .error e) :
    e.Holds setups composition := by
  obtain ⟨start, hstart, listed, h⟩ := exists_of_foldlM_eq_error h
  refine visit_holds ((mem_origins.mp hstart).waits _) ?_ h
  rw [List.length_nil]
  omega

/-- A real defect leaves no order: something that is reached is not declared or depends on
itself. -/
theorem OrderError.Holds.defect {e : OrderError} (h : e.Holds setups composition) :
    ∃ name, Reaches setups composition name ∧
      (name ∉ names setups ∨ TransGen (DependsOn setups) name name) := by
  cases e with
  | missing setup dependent location => exact ⟨setup, h.2.1, .inl h.1⟩
  | cycle path location =>
    obtain ⟨loop, first, last, -, hfirst, hlast, -, hchain, hcloses, hreached⟩ := h
    obtain ⟨rest, rfl⟩ : ∃ rest, loop = first :: rest := List.head?_eq_some_iff.mp hfirst
    have hlast : last ∈ first :: rest := List.mem_of_getLast? hlast
    refine ⟨first, hreached first List.mem_cons_self, .inr ?_⟩
    rcases List.mem_cons.mp hlast with rfl | hlast
    · exact .single ⟨location, hcloses⟩
    · have hleads : TransGen (DependsOn setups) first last :=
        (hchain.imp fun _ _ => TransGen.single).rel_cons hlast
      exact hleads.tail ⟨location, hcloses⟩

/-- A composition has an order exactly when all that it reaches is declared and nothing of it
depends on itself. The order then lists what is reached, each setup once and after all that it
depends on; otherwise one issue is reported, about a cycle of dependencies or a missing setup. -/
theorem order_exact (setups : List Setup) (composition : String) :
    ((∃ listed, order setups composition = .ok listed) ↔
      ∀ name, Reaches setups composition name →
        name ∈ names setups ∧ ¬ TransGen (DependsOn setups) name name) ∧
    (∀ listed, order setups composition = .ok listed →
      Ordered setups listed ∧ ∀ name, name ∈ listed ↔ Reaches setups composition name) ∧
    ∀ e, order setups composition = .error e → e.Holds setups composition ∧
      ∀ hints sink, composition ∈ names setups →
        Table.merge setups composition hints sink = (sink.report e.issue, none) := by
  refine ⟨⟨fun ⟨listed, h⟩ name hreaches => ?_, fun hsound => ?_⟩,
    fun listed h => ordered_of_order h,
    fun e h => ⟨holds_of_order h, fun hints sink hdeclared => ?_⟩⟩
  · obtain ⟨hordered, hmem⟩ := ordered_of_order h
    have hin := (hmem name).mpr hreaches
    exact ⟨declared_of_order h hin, hordered.acyclic hin⟩
  · cases h : order setups composition with
    | ok listed => exact ⟨listed, rfl⟩
    | error e =>
      obtain ⟨name, hreaches, hdefect⟩ := (holds_of_order h).defect
      obtain ⟨hdeclared, hacyclic⟩ := hsound name hreaches
      exact (hdefect.elim (fun hmissing => hmissing hdeclared) hacyclic).elim
  · rw [Table.merge, if_neg (not_not.mpr hdeclared), h]

end Injector.Setup

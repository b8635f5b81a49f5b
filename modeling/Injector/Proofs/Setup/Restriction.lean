import Injector.Proofs.Setup.Order

/-!
# Setups that a composition reaches

An order is made of the setups that are reached, each of which is looked up by its name. The main
statement is that the setups that a composition reaches are all that it takes to merge it: alone
they have the same order and lead to the same table and the same issues. This holds for every
composition among them.
-/

namespace Injector.Setup

open Relation

/-- Whether two lists of setups have the same parts under names that are closed under dependencies,
among them those of all global setups. -/
structure Agree (kept setups : List Setup) (among : String → Prop) : Prop where
  /-- A name has the same parts in both. -/
  parts : ∀ name, among name → parts kept name = parts setups name
  /-- What is named is among the names. -/
  closed : ∀ name need, among name → DependsOn setups name need → among need
  /-- The same setups are global, in the same order. -/
  globals : globals kept = globals setups
  /-- What is global is among the names. -/
  global : ∀ name, isGlobal setups name = true → among name

namespace Agree

variable {kept setups : List Setup} {among : String → Prop} (h : Agree kept setups among)
  {name composition : String}

include h

theorem mem_names_iff (hname : among name) : name ∈ names kept ↔ name ∈ names setups := by
  rw [← not_iff_not, ← parts_isEmpty_iff, ← parts_isEmpty_iff, h.parts name hname]

theorem isGlobal_eq (hname : among name) : isGlobal kept name = isGlobal setups name := by
  rw [isGlobal, isGlobal, h.parts name hname]

theorem needs_eq (hname : among name) : needs kept name = needs setups name := by
  rw [needs, needs, h.parts name hname]

/-- A visit lists the same setups or reports the same defect, whatever the fuel, if it lasts. -/
theorem visit_eq {fuel fuel' : Nat} {stack listed : List String} {dependent : String}
    {location : Location} (hname : among name) (hnodup : stack.Nodup)
    (hstack : ∀ other ∈ stack, other ∈ names kept ∧ other ∈ names setups)
    (hfuel : (names kept).length < fuel + stack.length)
    (hfuel' : (names setups).length < fuel' + stack.length) :
    visit kept fuel stack listed name dependent location =
      visit setups fuel' stack listed name dependent location := by
  induction fuel generalizing fuel' stack listed name dependent location with
  | zero =>
    have hle := (List.Nodup.subperm hnodup fun other hin => (hstack other hin).1).length_le
    omega
  | succ fuel ih =>
    cases fuel' with
    | zero =>
      have hle := (List.Nodup.subperm hnodup fun other hin => (hstack other hin).2).length_le
      omega
    | succ fuel' =>
      rw [visit, visit, h.parts name hname, h.needs_eq hname]
      by_cases hlisted : name ∈ listed
      · rw [if_pos hlisted, if_pos hlisted]
      rw [if_neg hlisted, if_neg hlisted]
      by_cases hwaits : name ∈ stack
      · rw [if_pos hwaits, if_pos hwaits]
      rw [if_neg hwaits, if_neg hwaits]
      by_cases hparts : (Setup.parts setups name).isEmpty = true
      · rw [if_pos hparts, if_pos hparts]
      rw [if_neg hparts, if_neg hparts]
      have hdeclared : name ∈ names setups :=
        Decidable.not_not.mp fun hmissing => hparts (parts_isEmpty_iff.mpr hmissing)
      have hpushed : (stack ++ [name]).Nodup := List.concat_eq_append ▸ hnodup.concat hwaits
      have hstack' : ∀ other ∈ stack ++ [name], other ∈ names kept ∧ other ∈ names setups := by
        intro other hother
        rcases List.mem_append.mp hother with hother | hother
        · exact hstack other hother
        · obtain rfl := List.mem_singleton.mp hother
          exact ⟨(h.mem_names_iff hname).mpr hdeclared, hdeclared⟩
      have hlength : (stack ++ [name]).length = stack.length + 1 := by simp
      refine congrArg (· >>= _) (foldlM_congr fun need hneed between => ?_)
      have hneed := h.closed name need.1 hname ⟨need.2, mem_needs.mp hneed⟩
      exact ih hneed hpushed hstack' (by omega) (by omega)

theorem origins_eq (hname : among composition) :
    origins kept composition = origins setups composition := by
  rw [origins, origins, h.isGlobal_eq hname, h.globals]

/-- The order of a composition is the same. -/
theorem order_eq (hname : among composition) :
    order kept composition = order setups composition := by
  unfold order
  rw [h.parts composition hname, h.origins_eq hname]
  refine foldlM_congr fun start hstart listed => ?_
  have hstart : among start := by
    rcases mem_origins.mp hstart with rfl | ⟨-, hglobal⟩
    · exact hname
    · exact h.global start hglobal
  exact h.visit_eq hstart List.nodup_nil (fun _ hother => (List.not_mem_nil hother).elim)
    (Nat.lt_succ_self _) (Nat.lt_succ_self _)

theorem among_of_reaches (hname : among composition) (hreaches : Reaches setups composition name) :
    among name := by
  obtain ⟨start, hstart, hreach⟩ := hreaches
  induction hreach with
  | refl =>
    rcases hstart with rfl | ⟨-, hglobal⟩
    · exact hname
    · exact h.global start hglobal
  | tail _ hneed ih => exact h.closed _ _ ih hneed

/-- A composition is merged into the same table, and with the same issues. -/
theorem merge_eq (hname : among composition) (hints : Hints) (sink : Sink) :
    Table.merge kept composition hints sink = Table.merge setups composition hints sink := by
  unfold Table.merge
  rw [h.order_eq hname]
  by_cases hdeclared : composition ∈ names setups
  · rw [if_neg (not_not.mpr ((h.mem_names_iff hname).mpr hdeclared)),
      if_neg (not_not.mpr hdeclared)]
    cases horder : order setups composition with
    | error e => rfl
    | ok listed =>
      have hparts : listed.flatMap (Setup.parts kept) = listed.flatMap (Setup.parts setups) := by
        refine List.flatMap_congr fun other hother => h.parts other ?_
        exact h.among_of_reaches hname (((ordered_of_order horder).2 other).mp hother)
      simp only [hparts]
  · rw [if_pos (mt (h.mem_names_iff hname).mp hdeclared), if_pos hdeclared]

end Agree

/-! ### The setups that are reached -/

open Classical in
/-- The setups that a composition reaches. -/
noncomputable def within (setups : List Setup) (composition : String) : List Setup :=
  setups.filter fun s => Reaches setups composition s.name

variable {setups : List Setup} {composition name : String}

/-- Repeated members may be dropped before or after some are chosen. -/
theorem eraseDups_filter {α : Type} [DecidableEq α] (p : α → Bool) (as : List α) :
    (as.filter p).eraseDups = as.eraseDups.filter p := by
  induction hn : as.length using Nat.strongRecOn generalizing as with | _ n ih
  cases as with
  | nil => simp
  | cons a as =>
    have hlt : (as.filter fun b => !b == a).length < n := by
      have hle := List.length_filter_le (fun b => !b == a) as
      rw [List.length_cons] at hn
      omega
    have hrest := ih _ hlt _ rfl
    rw [List.eraseDups_cons]
    by_cases ha : p a = true
    · rw [List.filter_cons_of_pos ha, List.filter_cons_of_pos ha, List.eraseDups_cons, ← hrest,
        List.filter_comm]
    · rw [List.filter_cons_of_neg ha, List.filter_cons_of_neg ha, ← hrest, List.filter_filter]
      refine congrArg List.eraseDups (List.filter_congr fun b _ => ?_)
      by_cases hb : b = a
      · simp [hb, ha]
      · simp [hb]

open Classical in
theorem names_within : names (within setups composition) =
    (names setups).filter fun name => Reaches setups composition name := by
  rw [names, names, within, ← eraseDups_filter, List.filter_map]
  rfl

theorem parts_within (h : Reaches setups composition name) :
    parts (within setups composition) name = parts setups name := by
  rw [parts, parts, within, List.filter_filter]
  refine List.filter_congr fun s _ => ?_
  by_cases hs : s.name = name
  · simp [hs, h]
  · simp [hs]

/-- Where there is an order, it tells what is reached. -/
theorem within_eq_of_order {listed : List String} (h : order setups composition = .ok listed) :
    within setups composition = setups.filter fun s => s.name ∈ listed :=
  List.filter_congr fun s _ => by simp [(ordered_of_order h).2]

/-- The parts of setups that are listed once are those whose name is listed. -/
private theorem perm_flatMap_parts {listed : List String} (h : listed.Nodup) :
    (listed.flatMap (parts setups)).Perm (setups.filter fun s => s.name ∈ listed) := by
  induction listed with
  | nil => simp
  | cons name rest ih =>
    obtain ⟨hname, hrest⟩ := List.nodup_cons.mp h
    have hfirst : (setups.filter fun s => s.name ∈ name :: rest).filter (fun s => s.name == name) =
        parts setups name := by
      rw [List.filter_filter]
      refine List.filter_congr fun s _ => ?_
      by_cases hs : s.name = name <;> simp [hs]
    have hothers : (setups.filter fun s => s.name ∈ name :: rest).filter
        (fun s => !(s.name == name)) = setups.filter fun s => s.name ∈ rest := by
      rw [List.filter_filter]
      refine List.filter_congr fun s _ => ?_
      by_cases hs : s.name = name
      · simp [hs, hname]
      · simp [hs]
    have hsplit := List.filter_append_perm (fun s => s.name == name)
      (setups.filter fun s => s.name ∈ name :: rest)
    rw [hfirst, hothers] at hsplit
    exact ((ih hrest).append_left _).trans hsplit

/-- An order lays out what is reached, each part once. -/
theorem perm_within_of_order {listed : List String} (h : order setups composition = .ok listed) :
    (listed.flatMap (parts setups)).Perm (within setups composition) := by
  rw [within_eq_of_order h]
  exact perm_flatMap_parts (ordered_of_order h).1.nodup

/-- What a composition reaches is all that the compositions among it refer to. -/
theorem agree_within (hself : isGlobal setups composition = false) :
    Agree (within setups composition) setups (Reaches setups composition) := by
  have hglobal : ∀ name, isGlobal setups name = true → Reaches setups composition name :=
    fun name h => Starts.reaches (.inr ⟨hself, h⟩)
  refine ⟨fun name => parts_within, fun name need => Reaches.tail, ?_, hglobal⟩
  rw [globals, globals, names_within, List.filter_filter]
  refine List.filter_congr fun name _ => ?_
  by_cases h : Reaches setups composition name
  · simp [h, isGlobal, parts_within h]
  · have hlocal : isGlobal setups name = false := Bool.eq_false_iff.mpr (mt (hglobal name) h)
    simp [h, hlocal]

/-- The compositions among what is reached are those that are reached. -/
theorem mem_compositions_within : name ∈ compositions (within setups composition) ↔
    name ∈ compositions setups ∧ Reaches setups composition name := by
  have hparts : Reaches setups composition name →
      isGlobal (within setups composition) name = isGlobal setups name := by
    intro h
    rw [isGlobal, isGlobal, parts_within h]
  rw [compositions, compositions, names_within, List.mem_filter, List.mem_filter, List.mem_filter]
  by_cases h : Reaches setups composition name
  · simp [h, hparts h]
  · simp [h]

end Injector.Setup

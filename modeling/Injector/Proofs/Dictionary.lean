import Injector.Dictionary
import Mathlib.Data.List.Sort

/-!
# Dictionaries laid over each other

A dictionary has the entries that its lookups tell, in the one order that its keys allow, so
lookups settle it (`Dictionary.ext_get?`). A lookup in a dictionary that is laid over another asks
the upper one first, and therefore it does not matter which of several is laid over which first.
-/

namespace Injector.Dictionary

variable {α : Type}

private theorem key_ne_of_lt {key key' : String} (h : key < key') : key ≠ key' :=
  fun heq => String.lt_irrefl key (heq ▸ h)

theorem mem_entries_iff {d : Dictionary α} {key : String} {value : α} :
    (key, value) ∈ d.entries ↔ d.get? key = some value := by
  obtain ⟨entries, hascending⟩ := d
  rw [get?]
  induction entries with
  | nil => simp
  | cons e rest ih =>
    obtain ⟨hfirst, hrest⟩ := List.pairwise_cons.mp hascending
    rw [List.mem_cons, lookup_cons_eq_ite]
    by_cases hkey : key = e.1
    · have hlater : (key, value) ∉ rest := fun hin =>
        key_ne_of_lt (hfirst (key, value) hin) hkey.symm
      rw [if_pos hkey, or_iff_left hlater, Option.some.injEq, Prod.ext_iff]
      exact ⟨fun h => h.2.symm, fun h => ⟨hkey, h.symm⟩⟩
    · rw [if_neg hkey, ← ih hrest, or_iff_right fun h => hkey (congrArg Prod.fst h)]

/-- Dictionaries with the same lookups are the same. -/
theorem ext_get? {d d' : Dictionary α} (h : ∀ key, d.get? key = d'.get? key) : d = d' := by
  have hnodup : ∀ d : Dictionary α, d.entries.Nodup := fun d =>
    d.ascending.imp fun {_ _} hlt heq => key_ne_of_lt hlt (congrArg Prod.fst heq)
  have hperm : d.entries.Perm d'.entries :=
    (List.perm_ext_iff_of_nodup (hnodup d) (hnodup d')).mpr fun e => by
      rw [mem_entries_iff, mem_entries_iff, h]
  have hentries : d.entries = d'.entries :=
    hperm.eq_of_pairwise (fun _ _ _ _ hlt hgt => absurd hgt (String.lt_asymm hlt)) d.ascending
      d'.ascending
  cases d
  cases d'
  cases hentries
  rfl

/-- What was set last is looked up first: where the keys ascend, nothing after an entry sets its key
again. -/
theorem get?_insertAll (d : Dictionary α) {entries : List (String × α)}
    (h : entries.Pairwise fun a b => a.1 < b.1) (key : String) :
    (d.insertAll entries).get? key = (entries.lookup key).or (d.get? key) := by
  induction entries generalizing d with
  | nil => rfl
  | cons e rest ih =>
    obtain ⟨hfirst, hrest⟩ := List.pairwise_cons.mp h
    have hstep : (d.insertAll (e :: rest)).get? key =
        ((d.insert e.1 e.2).insertAll rest).get? key := rfl
    rw [hstep, ih _ hrest, get?_insert, lookup_cons_eq_ite]
    by_cases hkey : key = e.1
    · have hlater : rest.lookup key = none := List.lookup_eq_none_iff.mpr fun e' he' =>
        bne_iff_ne.mpr fun heq => key_ne_of_lt (hfirst e' he') (hkey.symm.trans heq)
      rw [hlater, if_pos hkey, if_pos hkey, Option.none_or, Option.some_or]
    · rw [if_neg hkey, if_neg hkey]

/-- A lookup asks the upper dictionary first. -/
theorem get?_overlay (lower upper : Dictionary α) (key : String) :
    (lower.overlay upper).get? key = (upper.get? key).or (lower.get? key) :=
  get?_insertAll lower upper.ascending key

/-- Of three dictionaries laid over each other, the upper two may be joined first. -/
theorem overlay_assoc (lower middle upper : Dictionary α) :
    (lower.overlay middle).overlay upper = lower.overlay (middle.overlay upper) :=
  ext_get? fun key => by simp only [get?_overlay, Option.or_assoc]

end Injector.Dictionary

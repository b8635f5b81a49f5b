/-!
# Dictionaries with text keys in ascending order

Hints and marker substitutions are finite maps whose listing shows the keys in ascending order of
code points. The order is part of the type, so two dictionaries with the same lookups have the
same entries.
-/

namespace Injector

/-- Sets the value of one key in a list of entries kept in ascending order of keys. -/
def insertEntry {α : Type} (key : String) (value : α) : List (String × α) → List (String × α)
  | [] => [(key, value)]
  | (k, v) :: rest =>
      if key < k then (key, value) :: (k, v) :: rest
      else if key = k then (key, value) :: rest
      else (k, v) :: insertEntry key value rest

theorem mem_insertEntry {α : Type} {key : String} {value : α} {entries : List (String × α)}
    {e : String × α} (h : e ∈ insertEntry key value entries) :
    e = (key, value) ∨ e ∈ entries := by
  induction entries with
  | nil => simpa [insertEntry] using h
  | cons kv rest ih =>
      obtain ⟨k, v⟩ := kv
      rw [insertEntry] at h
      split at h
      · simpa using h
      · split at h
        · rcases List.mem_cons.mp h with h | h
          · exact .inl h
          · exact .inr (List.mem_cons_of_mem _ h)
        · rcases List.mem_cons.mp h with h | h
          · exact .inr (h ▸ List.mem_cons_self)
          · rcases ih h with h | h
            · exact .inl h
            · exact .inr (List.mem_cons_of_mem _ h)

theorem pairwise_insertEntry {α : Type} (key : String) (value : α)
    {entries : List (String × α)} (h : entries.Pairwise fun a b => a.1 < b.1) :
    (insertEntry key value entries).Pairwise fun a b => a.1 < b.1 := by
  induction entries with
  | nil => simp [insertEntry]
  | cons kv rest ih =>
      obtain ⟨k, v⟩ := kv
      obtain ⟨hk, hrest⟩ := List.pairwise_cons.mp h
      rw [insertEntry]
      split
      · next hlt =>
        refine List.pairwise_cons.mpr ⟨fun e he => ?_, h⟩
        rcases List.mem_cons.mp he with he | he
        · exact he ▸ hlt
        · exact String.lt_trans hlt (hk e he)
      · next hlt =>
        split
        · next heq => exact List.pairwise_cons.mpr ⟨fun e he => heq ▸ hk e he, hrest⟩
        · next hne =>
          refine List.pairwise_cons.mpr ⟨fun e he => ?_, ih hrest⟩
          rcases mem_insertEntry he with he | he
          · subst he
            have hle : k ≤ key := String.not_lt.mp hlt
            rcases Std.le_iff_lt_or_eq.mp hle with hlt' | heq
            · exact hlt'
            · exact absurd heq.symm hne
          · exact hk e he

/-- A finite map from text to values, listed in ascending order of keys. -/
structure Dictionary (α : Type) where
  /-- The entries, each key once. -/
  entries : List (String × α)
  /-- Keys ascend strictly. -/
  ascending : entries.Pairwise fun a b => a.1 < b.1
  deriving Repr

namespace Dictionary

variable {α : Type}

instance [DecidableEq α] : DecidableEq (Dictionary α) := fun a b =>
  decidable_of_iff (a.entries = b.entries)
    ⟨fun h => by cases a; cases b; cases h; rfl, fun h => h ▸ rfl⟩

/-- The dictionary without entries. -/
def empty : Dictionary α := ⟨[], List.Pairwise.nil⟩

instance : Inhabited (Dictionary α) := ⟨empty⟩

/-- The value of a key. -/
def get? (d : Dictionary α) (key : String) : Option α := d.entries.lookup key

/-- Sets one key, replacing its value. -/
def insert (d : Dictionary α) (key : String) (value : α) : Dictionary α :=
  ⟨insertEntry key value d.entries, pairwise_insertEntry key value d.ascending⟩

/-- Sets every key of `entries` in turn, so that the last value of a key stands. -/
def insertAll (d : Dictionary α) (entries : List (String × α)) : Dictionary α :=
  entries.foldl (fun d e => d.insert e.1 e.2) d

/-- The entries of `upper` over those of `lower`. -/
def overlay (lower upper : Dictionary α) : Dictionary α := lower.insertAll upper.entries

/-- The dictionary of a list of entries, of which the last of each key stands. -/
def ofList (entries : List (String × α)) : Dictionary α := empty.insertAll entries

/-- Whether nothing is set. -/
def isEmpty (d : Dictionary α) : Bool := d.entries.isEmpty

theorem lookup_cons_eq_ite (key k : String) (v : α) (rest : List (String × α)) :
    ((k, v) :: rest).lookup key = if key = k then some v else rest.lookup key := by
  by_cases h : key = k
  · subst h
    simp
  · simp [List.lookup_cons, beq_false_of_ne h, h]

/-- A key just set has the value it was set to, and every other key its former value. -/
theorem get?_insert (d : Dictionary α) (key key' : String) (value : α) :
    (d.insert key value).get? key' = if key' = key then some value else d.get? key' := by
  obtain ⟨entries, h⟩ := d
  simp only [get?, insert]
  clear h
  induction entries with
  | nil => simp [insertEntry, lookup_cons_eq_ite]
  | cons kv rest ih =>
      obtain ⟨k, v⟩ := kv
      rw [insertEntry]
      split
      · rw [lookup_cons_eq_ite]
      · split
        · next heq =>
          subst heq
          rw [lookup_cons_eq_ite, lookup_cons_eq_ite]
          split <;> rfl
        · next hne =>
          rw [lookup_cons_eq_ite, lookup_cons_eq_ite, ih]
          by_cases hk : key' = k
          · have hkey : key' ≠ key := fun h => hne (h.symm.trans hk)
            rw [if_pos hk, if_neg hkey, if_pos hk]
          · rw [if_neg hk, if_neg hk]

/-- A key above all others is listed last. -/
theorem insertEntry_of_last {key : String} {entries : List (String × α)}
    (h : ∀ e ∈ entries, e.1 < key) (value : α) :
    insertEntry key value entries = entries ++ [(key, value)] := by
  induction entries with
  | nil => rfl
  | cons e entries ih =>
      obtain ⟨hfirst, hothers⟩ := List.forall_mem_cons.mp h
      have hne : key ≠ e.1 := fun heq => String.lt_irrefl key (heq ▸ hfirst)
      rw [insertEntry, if_neg (String.lt_asymm hfirst), if_neg hne, ih hothers, List.cons_append]

/-- Entries in ascending order, each above those that are set, are listed after them. -/
theorem entries_insertAll (d : Dictionary α) {entries : List (String × α)}
    (h : (d.entries ++ entries).Pairwise fun a b => a.1 < b.1) :
    (d.insertAll entries).entries = d.entries ++ entries := by
  induction entries generalizing d with
  | nil => exact (List.append_nil _).symm
  | cons e entries ih =>
      have hlast : ∀ e' ∈ d.entries, e'.1 < e.1 := fun e' he' =>
        (List.pairwise_append.mp h).2.2 e' he' e List.mem_cons_self
      have hinsert : (d.insert e.1 e.2).entries = d.entries ++ [e] := insertEntry_of_last hlast e.2
      have hrest := ih (d.insert e.1 e.2) (by rw [hinsert]; simpa using h)
      rw [hinsert, List.append_assoc] at hrest
      exact hrest

/-- A dictionary is that of its entries. -/
theorem ofList_entries (d : Dictionary α) : ofList d.entries = d := by
  have h : (ofList d.entries).entries = d.entries := entries_insertAll empty d.ascending
  obtain ⟨entries, hascending⟩ := d
  cases hd : ofList entries with
  | mk entries' hascending' =>
      rw [hd] at h
      cases h
      rfl

end Dictionary

end Injector

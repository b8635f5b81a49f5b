import Injector.Datum.Record
import Injector.Proofs.Json.Values

/-!
# Things that are read as they were printed

A thing is restored when what is printed for it is plain and is read as the same thing. Scalars,
lists and dictionaries are restored when their parts are; a record, whose fields are looked up by
name, is read from the object of its members. The other way round, `required_sound`,
`withDefault_sound` and `optional_sound` say what a field that was read can be, from what its reader
returns at all.
-/

namespace Injector

/-- A plain value is plain for any greater height. -/
theorem Json.Plain.mono {height height' : Nat} {j : Json} (hj : j.Plain height)
    (h : height ≤ height') : j.Plain height' := by
  induction hj generalizing height' with
  | null => exact .null
  | bool b => exact .bool b
  | integer hn => exact .integer hn
  | string s => exact .string s
  | array _ ih =>
      obtain ⟨height', rfl⟩ := Nat.exists_eq_add_one_of_ne_zero (Nat.ne_zero_of_lt h)
      exact .array fun item hitem => ih item hitem (Nat.le_of_succ_le_succ h)
  | object _ ih =>
      obtain ⟨height', rfl⟩ := Nat.exists_eq_add_one_of_ne_zero (Nat.ne_zero_of_lt h)
      exact .object fun m hm => ih m hm (Nat.le_of_succ_le_succ h)

/-- A member that may be left out is plain when what is written for it is. -/
theorem Json.plain_optional {α : Type} {toJson : α → Json} {height : Nat} {key : String}
    {o : Option α} (h : ∀ a ∈ o, (toJson a).Plain height) :
    ∀ m ∈ Json.optional key toJson o, m.2.Plain height := by
  cases o with
  | none => simp [Json.optional]
  | some a => simpa [Json.optional] using h

@[simp] theorem Json.lookup_member (key key' : String) (j : Json) (members : List (String × Json)) :
    ((key', j) :: members).lookup key = if key = key' then some j else members.lookup key :=
  Dictionary.lookup_cons_eq_ite key key' j members

@[simp] theorem Json.lookup_optional {α : Type} (key key' : String) (toJson : α → Json)
    (o : Option α) (members : List (String × Json)) :
    (Json.optional key' toJson o ++ members).lookup key =
      if key = key' then (o.map toJson).or (members.lookup key) else members.lookup key := by
  cases o with
  | none => simp [Json.optional]
  | some a => simp [Json.optional]

/-- Keys of which some may be left out stay in their order. -/
@[simp] theorem Json.keys_optional_sublist {α : Type} (key : String) (toJson : α → Json)
    (o : Option α) {keys names : List String} (h : keys.Sublist names) :
    ((Json.optional key toJson o).map Prod.fst ++ keys).Sublist (key :: names) := by
  cases o with
  | none => exact h.cons key
  | some a => exact h.cons_cons key

@[simp] theorem Json.lookup_optional_last {α : Type} (key key' : String) (toJson : α → Json)
    (o : Option α) : (Json.optional key' toJson o).lookup key =
      if key = key' then o.map toJson else none := by
  simpa using Json.lookup_optional key key' toJson o []

@[simp] theorem Json.keys_optional_last {α : Type} (key : String) (toJson : α → Json)
    (o : Option α) : ((Json.optional key toJson o).map Prod.fst).Sublist [key] := by
  simpa using Json.keys_optional_sublist key toJson o (List.Sublist.refl [])

/-- Whether what is printed for a thing is plain and is read as the same thing. -/
structure Restored {α : Type} (toJson : α → Json) (ofDatum? : Datum → Option α) (height : Nat)
    (a : α) : Prop where
  /-- What is printed has no fraction and does not nest too deeply. -/
  plain : (toJson a).Plain height
  /-- What is printed is read as it was. -/
  read : ofDatum? (.ofJson (toJson a)) = some a

namespace Restored

variable {α : Type} {toJson : α → Json} {ofDatum? : Datum → Option α} {height : Nat}

/-- A list is restored when its items are. -/
theorem list {as : List α} (h : ∀ a ∈ as, Restored toJson ofDatum? height a) :
    Restored (Json.list toJson) (Datum.listOf? ofDatum?) (height + 1) as where
  plain := by
    refine .array fun item hitem => ?_
    obtain ⟨a, ha, rfl⟩ := List.mem_map.mp hitem
    exact (h a ha).plain
  read := by
    simp only [Json.list, Datum.ofJson, Datum.listOf?]
    induction as with
    | nil => rfl
    | cons a as ih =>
        obtain ⟨hfirst, hothers⟩ := List.forall_mem_cons.mp h
        simp [Datum.ofItems, hfirst.read, ih hothers]

/-- Every text is restored. -/
theorem text (s : String) : Restored Json.string Datum.text? 0 s := ⟨.string s, rfl⟩

/-- Every truth value is restored. -/
theorem bool (b : Bool) : Restored Json.bool Datum.bool? 0 b := ⟨.bool b, rfl⟩

/-- An integer within the bounds it is read with, which are those of a word, is restored. -/
theorem integer {least greatest n : Int} (hleast : -Json.signBound ≤ least)
    (hgreatest : greatest ≤ Json.maxWord) (h : least ≤ n ∧ n ≤ greatest) :
    Restored Json.integer (Datum.integer? least greatest) 0 n where
  plain := .integer ⟨Int.le_trans hleast h.1, Int.le_trans h.2 hgreatest⟩
  read := by
    cases n with
    | ofNat n => simpa [Datum.ofJson, Datum.ofInteger, Datum.integer?] using h
    | negSucc n => simpa [Datum.ofJson, Datum.ofInteger, Datum.integer?, Int.negSucc_eq] using h

/-- A natural up to the bound it is read with is restored. -/
theorem count {greatest n : Nat} (hgreatest : greatest ≤ Json.maxWord) (h : n ≤ greatest) :
    Restored Json.count (Datum.natural? greatest) 0 n where
  plain := by
    refine .integer ⟨?_, Int.ofNat_le.mpr (Nat.le_trans h hgreatest)⟩
    have := Int.natCast_nonneg n
    simp only [Json.signBound]
    omega
  read := by
    have hle : (n : Int) ≤ greatest := Int.ofNat_le.mpr h
    simp [Json.count, Datum.ofJson, Datum.ofInteger, Datum.natural?, Datum.integer?, hle]

/-- What is printed for a restored thing is no `null` that its reader refuses. -/
theorem ne_null {a : α} (h : Restored toJson ofDatum? height a) (hnull : ofDatum? .null = none) :
    Datum.ofJson (toJson a) ≠ .null := by
  intro heq
  have hread := h.read
  rw [heq, hnull] at hread
  cases hread

end Restored

/-- A reader goes on with what was read. -/
theorem bind_eq_some_of {α β : Type} {x : Option α} {f : α → Option β} {a : α} {b : β}
    (hx : x = some a) (hf : f a = some b) : x >>= f = some b := by
  rw [hx]
  exact hf

/-! ## Records -/

namespace Datum

theorem ofMembers_eq_map (members : List (String × Json)) :
    ofMembers members = members.map fun m => (.text m.1, ofJson m.2) := by
  induction members with
  | nil => rfl
  | cons m members ih => simp [ofMembers, ih]

/-- A text that is a name means that name. -/
theorem named?_text (names : List String) (s : String) :
    named? names id (.text s) = if names.contains s then some s else none := by
  induction names with
  | nil => rfl
  | cons name names ih =>
      by_cases h : name = s
      · simp [named?, h]
      · have h' : ¬ s = name := fun heq => h heq.symm
        simpa [named?, h, h'] using ih

/-- The members of an object as a reader of records finds them. -/
def fieldsOf (members : List (String × Json)) : Fields Datum :=
  members.map fun m => (m.1, ofJson m.2)

/-- A record is read from an object by its known keys, none of which is repeated. -/
theorem record?_ofJson {names : List String} {members : List (String × Json)}
    (h : ((members.filter fun m => names.contains m.1).map Prod.fst).Nodup) :
    (ofJson (.object members)).record? names =
      some (fieldsOf (members.filter fun m => names.contains m.1)) := by
  have hknown : ((members.map fun m => (Datum.text m.1, ofJson m.2)).filterMap fun e =>
        (named? names id e.1).map (·, e.2)) =
      fieldsOf (members.filter fun m => names.contains m.1) := by
    rw [fieldsOf, List.filterMap_map, ← List.filterMap_eq_map, List.filterMap_filter]
    congr 1
    funext m
    simp only [Function.comp_apply, named?_text]
    split <;> rfl
  have hnodup : ((fieldsOf (members.filter fun m => names.contains m.1)).map Prod.fst).Nodup := by
    simpa [fieldsOf, Function.comp_def] using h
  simp only [ofJson, ofMembers_eq_map, record?, hknown]
  rw [if_pos ⟨by simp [isKey], hnodup⟩]

/-- A record is read from an object whose keys are some of its names in their order. -/
theorem record?_ofJson_of_sublist {names : List String} {members : List (String × Json)}
    (h : (members.map Prod.fst).Sublist names) (hnames : names.Nodup) :
    (ofJson (.object members)).record? names = some (fieldsOf members) := by
  have hall : (members.filter fun m => names.contains m.1) = members :=
    List.filter_eq_self.mpr fun m hm =>
      List.contains_iff_mem.mpr (h.mem (List.mem_map_of_mem hm))
  have hnodup : ((members.filter fun m => names.contains m.1).map Prod.fst).Nodup := by
    rw [hall]
    exact h.nodup hnames
  have hread := record?_ofJson hnodup
  rwa [hall] at hread

/-- An object without any of the names is read as a record without fields. -/
theorem record?_ofJson_of_missing {names : List String} {members : List (String × Json)}
    (h : ∀ m ∈ members, m.1 ∉ names) : (ofJson (.object members)).record? names = some [] := by
  have hnone : (members.filter fun m => names.contains m.1) = [] :=
    List.filter_eq_nil_iff.mpr fun m hm => by simpa using h m hm
  have hnodup : ((members.filter fun m => names.contains m.1).map Prod.fst).Nodup := by
    rw [hnone]
    exact .nil
  have hread := record?_ofJson hnodup
  rwa [hnone] at hread

/-- A choice with content is read from an object with its name as the only key. -/
theorem variant?_ofJson {names : List String} {name : String} (body : Json)
    (h : names.contains name = true) :
    (ofJson (.object [(name, body)])).variant? names = some (name, ofJson body) := by
  simp only [ofJson, ofMembers, variant?, named?_text, h, if_true, Option.map_some]

/-- The items of a list that was read are what the reader of items returns. -/
theorem listOf?_sound {α : Type} {decode : Datum → Option α} {P : α → Prop} {d : Datum}
    {as : List α} (h : d.listOf? decode = some as) (hP : ∀ d a, decode d = some a → P a) :
    ∀ a ∈ as, P a := by
  unfold listOf? at h
  split at h
  · next items =>
    induction items generalizing as with
    | nil =>
        cases h
        simp
    | cons item items ih =>
        simp only [List.mapM_cons, Option.bind_eq_bind, Option.bind_eq_some_iff] at h
        obtain ⟨a, ha, others, hothers, hcons⟩ := h
        cases hcons
        exact List.forall_mem_cons.mpr ⟨hP item a ha, ih hothers⟩
  · cases h

end Datum

/-! ## Fields -/

namespace Fields

section Printed

variable {α : Type} {toJson : α → Json} {decode : Datum → Option α} {height : Nat}
  {members : List (String × Json)} {key : String}

theorem lookup_fieldsOf : (Datum.fieldsOf members).lookup key =
    (members.lookup key).map Datum.ofJson := by
  induction members with
  | nil => rfl
  | cons m members ih =>
      have htail : (Datum.fieldsOf (m :: members)).lookup key =
          ((m.1, Datum.ofJson m.2) :: Datum.fieldsOf members).lookup key := rfl
      rw [htail, Dictionary.lookup_cons_eq_ite, Dictionary.lookup_cons_eq_ite, ih]
      split <;> rfl

/-- A field that has to be there is read from the member that was printed for it. -/
theorem required_fieldsOf {a : α} (h : members.lookup key = some (toJson a))
    (ha : Restored toJson decode height a) :
    required (Datum.fieldsOf members) key decode = some a := by
  rw [required, lookup_fieldsOf, h]
  exact ha.read

/-- A field with a default is read from the member that was printed for it. -/
theorem withDefault_fieldsOf {a default : α} (h : members.lookup key = some (toJson a))
    (ha : Restored toJson decode height a) :
    withDefault (Datum.fieldsOf members) key decode default = some a := by
  rw [withDefault, lookup_fieldsOf, h]
  exact ha.read

/-- A field for which nothing was printed is read as its default. -/
theorem withDefault_fieldsOf_none {default : α} (h : members.lookup key = none) :
    withDefault (Datum.fieldsOf members) key decode default = some default := by
  rw [withDefault, lookup_fieldsOf, h]
  rfl

/-- A field that may be missing is read from the member that was printed for it, if there is one. -/
theorem optional_fieldsOf {o : Option α} (h : members.lookup key = o.map toJson)
    (ho : ∀ a ∈ o, Restored toJson decode height a) (hnull : decode .null = none) :
    optional (Datum.fieldsOf members) key decode = some o := by
  cases o with
  | none =>
      rw [optional, lookup_fieldsOf, h]
      rfl
  | some a =>
      have ha := ho a rfl
      rw [optional, lookup_fieldsOf, h]
      simp only [Option.map_some]
      split
      · next heq => exact absurd (Option.some.inj heq) (ha.ne_null hnull)
      · next heq => rw [← Option.some.inj heq, ha.read, Option.map_some]
      · next heq => cases heq

end Printed

section Found

variable {α β : Type} {fields : Fields β} {key : String} {decode : β → Option α} {P : α → Prop}

/-- A field that has to be there is what its reader returns. -/
theorem required_sound {a : α} (h : fields.required key decode = some a)
    (hP : ∀ d a, decode d = some a → P a) : P a := by
  obtain ⟨d, -, hd⟩ := Option.bind_eq_some_iff.mp h
  exact hP d a hd

/-- A field that may be missing is its default or what its reader returns. -/
theorem withDefault_sound {a default : α} (h : fields.withDefault key decode default = some a)
    (hdefault : P default) (hP : ∀ d a, decode d = some a → P a) : P a := by
  unfold withDefault at h
  split at h
  · exact hP _ a h
  · cases h
    exact hdefault

/-- The items of a field that may be missing are what their reader returns. -/
theorem list_sound {fields : Fields Datum} {decode : Datum → Option α} {as : List α}
    (h : fields.withDefault key (Datum.listOf? decode) [] = some as)
    (hP : ∀ d a, decode d = some a → P a) : ∀ a ∈ as, P a :=
  withDefault_sound h (List.forall_mem_nil _) fun _ _ hd => Datum.listOf?_sound hd hP

/-- A field that may be null is nothing or what its reader returns. -/
theorem optional_sound {fields : Fields Datum} {decode : Datum → Option α} {o : Option α}
    (h : fields.optional key decode = some o) (hP : ∀ d a, decode d = some a → P a) :
    ∀ a ∈ o, P a := by
  unfold optional at h
  split at h
  · cases h
    simp
  · obtain ⟨b, hb, rfl⟩ := Option.map_eq_some_iff.mp h
    simpa using hP _ b hb
  · cases h
    simp

end Found

end Fields

/-- An integer that was read is within the bounds it was read with. -/
theorem Datum.within_of_integer? {d : Datum} {least greatest n : Int}
    (h : d.integer? least greatest = some n) : least ≤ n ∧ n ≤ greatest := by
  unfold integer? at h
  cases d <;> grind

/-- A natural that was read is within the bound it was read with. -/
theorem Datum.le_of_natural? {d : Datum} {greatest n : Nat} (h : d.natural? greatest = some n) :
    n ≤ greatest := by
  obtain ⟨k, hk, rfl⟩ := Option.map_eq_some_iff.mp h
  obtain ⟨-, hle⟩ := within_of_integer? hk
  omega

end Injector

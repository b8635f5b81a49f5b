import Injector.Proofs.Datum.Restored
import Injector.Proofs.TypeExpr.RoundTrip
import Injector.Setup.Printer
import Injector.Setup.Reader

/-!
# Setups are read as they were printed

A part of a setup is restored when its own parts are: a type, because its text is read as the same
type; a tag, because a word declares it; a place and a rank, because their numbers have 32 bits.
What was read is always made of such parts, so it is restored (`Setup.restored_of_ofDatum?`).
-/

namespace Injector

/-! ## Tags, types, places and names -/

/-- Whether a tag can be declared by a word. -/
def TagSpec.IsWord (t : TagSpec) : Prop := ∃ word, TagSpec.ofText word = t

/-- Whether a tag is read as it was printed. -/
abbrev TagSpec.IsRestored (t : TagSpec) : Prop := Restored TagSpec.toJson TagSpec.ofDatum? 0 t

/-- Whether a type is read as it was printed. -/
abbrev TypeExpr.IsRestored (t : TypeExpr) : Prop := Restored TypeExpr.toJson TypeExpr.ofDatum? 0 t

/-- Whether a place is read as it was printed. -/
abbrev Location.IsRestored (l : Location) : Prop := Restored Location.toJson Location.ofDatum? 1 l

/-- A tag that a word declares is restored. -/
theorem TagSpec.restored {t : TagSpec} (h : t.IsWord) :
    t.IsRestored where
  plain := .string _
  read := by
    obtain ⟨word, rfl⟩ := h
    have htext : TagSpec.ofText (TagSpec.ofText word).text = TagSpec.ofText word := by
      unfold ofText
      split
      · rfl
      · split
        · rfl
        · next hunique hany => simp [text, hunique, hany]
    simp [TagSpec.toJson, Datum.ofJson, ofDatum?, scalarText?, htext]

/-- A tag that was read is restored. -/
theorem TagSpec.restored_of_ofDatum? {d : Datum} {t : TagSpec} (h : TagSpec.ofDatum? d = some t) :
    t.IsRestored := by
  obtain ⟨word, -, hword⟩ := Option.map_eq_some_iff.mp h
  exact restored ⟨word, hword⟩

/-- A type that was read from text is restored. -/
theorem TypeExpr.restored {s : String} {t : TypeExpr} (h : TypeExpr.parse s = .ok t) :
    t.IsRestored where
  plain := .string _
  read := by
    simp [TypeExpr.toJson, Datum.ofJson, ofDatum?, Datum.text?, parse_text_of_parse h,
      Except.toOption]

/-- A type that was read is restored. -/
theorem TypeExpr.restored_of_ofDatum? {d : Datum} {t : TypeExpr}
    (h : TypeExpr.ofDatum? d = some t) : t.IsRestored := by
  obtain ⟨s, -, hs⟩ := Option.bind_eq_some_iff.mp h
  cases hparse : TypeExpr.parse s with
  | ok t' =>
      rw [hparse] at hs
      cases hs
      exact restored hparse
  | error e =>
      rw [hparse] at hs
      cases hs

/-- A place whose line and column have at most 32 bits is restored. -/
theorem Location.restored {l : Location} (hline : l.line ≤ maxLine) (hcolumn : l.column ≤ maxLine) :
    l.IsRestored := by
  have hfile := Restored.text l.file
  have hline := Restored.count (by decide) hline
  have hcolumn := Restored.count (by decide) hcolumn
  constructor
  · refine .object ?_
    simp only [List.forall_mem_cons]
    exact ⟨hfile.plain, hline.plain, hcolumn.plain, by simp⟩
  · exact bind_eq_some_of (Datum.record?_ofJson_of_sublist (by simp) (by simp))
      (bind_eq_some_of (Fields.withDefault_fieldsOf (by simp) hfile)
      (bind_eq_some_of (Fields.withDefault_fieldsOf (by simp) hline)
      (bind_eq_some_of (Fields.withDefault_fieldsOf (by simp) hcolumn) rfl)))

/-- A place that was read is restored. -/
theorem Location.restored_of_ofDatum? {d : Datum} {l : Location}
    (h : Location.ofDatum? d = some l) : l.IsRestored := by
  simp only [Location.ofDatum?, Option.bind_eq_bind, Option.bind_eq_some_iff] at h
  obtain ⟨fields, -, file, -, line, hline, column, hcolumn, hl⟩ := h
  have hbound : ∀ {key : String} {n : Nat},
      fields.withDefault key (Datum.natural? maxLine) 0 = some n → n ≤ maxLine := fun h =>
    Fields.withDefault_sound (P := (· ≤ maxLine)) h (Nat.zero_le _) fun _ _ => Datum.le_of_natural?
  have hline := hbound hline
  have hcolumn := hbound hcolumn
  cases hl
  exact restored hline hcolumn

/-- The unknown place is restored. -/
theorem Location.restored_unknown : Location.IsRestored .unknown :=
  restored (Nat.zero_le _) (Nat.zero_le _)

/-- The place in a record that was read, which is unknown where it is missing, is restored. -/
theorem Location.restored_of_field {fields : Fields Datum} {key : String} {l : Location}
    (h : fields.withDefault key Location.ofDatum? .unknown = some l) : l.IsRestored :=
  Fields.withDefault_sound h restored_unknown fun _ _ => restored_of_ofDatum?

/-- Every lifetime is restored. -/
theorem Lifetime.restored (l : Lifetime) : Restored Lifetime.toJson Lifetime.ofDatum? 0 l :=
  ⟨.string _, by cases l <;> rfl⟩

/-- Every argument source is restored. -/
theorem ArgumentSource.restored (s : ArgumentSource) :
    Restored (fun s => .string s.name) ArgumentSource.ofDatum? 0 s :=
  ⟨.string _, by cases s <;> rfl⟩

/-- Every kind of setup is restored. -/
theorem SetupKind.restored (k : SetupKind) :
    Restored (fun k => .string k.name) SetupKind.ofDatum? 0 k :=
  ⟨.string _, by cases k <;> rfl⟩

/-- Every kind of root is restored. -/
theorem RootKind.restored (k : RootKind) :
    Restored (fun k => .string k.name) RootKind.ofDatum? 0 k :=
  ⟨.string _, by cases k <;> rfl⟩

/-- Every dictionary is restored. -/
theorem Dictionary.restored (d : Dictionary String) :
    Restored Dictionary.toJson Datum.textMap? 1 d where
  plain := by
    refine .object fun m hm => ?_
    obtain ⟨e, -, rfl⟩ := List.mem_map.mp hm
    exact .string e.2
  read := by
    have hread : ∀ entries : List (String × String),
        (Datum.ofMembers (entries.map fun e => (e.1, .string e.2))).mapM (fun e => do
          return (← e.1.text?, ← e.2.text?)) = some entries := by
      intro entries
      induction entries with
      | nil => rfl
      | cons e entries ih =>
          simp only [List.map_cons, Datum.ofMembers, Datum.ofJson, List.mapM_cons, ih]
          rfl
    simp only [Dictionary.toJson, Datum.ofJson, Datum.textMap?]
    rw [hread, Option.map_some, Dictionary.ofList_entries]

/-! ## Contracts, parameters and constructors -/

/-- Whether a declared contract is read as it was printed. -/
abbrev ContractSpec.IsRestored (c : ContractSpec) : Prop :=
  Restored ContractSpec.toJson ContractSpec.ofDatum? 2 c

/-- A declared contract is restored when its type and its tags are. -/
theorem ContractSpec.restored {c : ContractSpec} (htype : c.type.IsRestored)
    (htags : ∀ t ∈ c.tags, t.IsRestored) : c.IsRestored := by
  have htags := Restored.list htags
  obtain ⟨type, tags⟩ := c
  cases tags with
  | nil =>
      constructor
      · refine .object ?_
        simpa [ContractSpec.toJson] using htype.plain.mono (by decide)
      · exact bind_eq_some_of (Datum.record?_ofJson_of_sublist (by simp) (by simp))
          (bind_eq_some_of (Fields.required_fieldsOf (by simp) htype)
          (bind_eq_some_of (Fields.withDefault_fieldsOf_none (by simp)) rfl))
  | cons tag tags =>
      constructor
      · refine .object ?_
        simp only [List.forall_mem_append, List.forall_mem_cons]
        exact ⟨⟨htype.plain.mono (by decide), by simp⟩, by simpa using htags.plain⟩
      · exact bind_eq_some_of (Datum.record?_ofJson_of_sublist (by simp) (by simp))
          (bind_eq_some_of (Fields.required_fieldsOf (by simp) htype)
          (bind_eq_some_of (Fields.withDefault_fieldsOf (by simp) htags) rfl))

/-- A declared contract that was read is restored. -/
theorem ContractSpec.restored_of_ofDatum? {d : Datum} {c : ContractSpec}
    (h : ContractSpec.ofDatum? d = some c) : c.IsRestored := by
  simp only [ContractSpec.ofDatum?, Option.bind_eq_bind, Option.bind_eq_some_iff] at h
  obtain ⟨fields, -, type, htype, tags, htags, hc⟩ := h
  cases hc
  exact restored (Fields.required_sound htype fun _ _ => TypeExpr.restored_of_ofDatum?)
    (Fields.list_sound htags fun _ _ => TagSpec.restored_of_ofDatum?)

/-- Whether a parameter is read as it was printed. -/
abbrev Injection.IsRestored (i : Injection) : Prop :=
  Restored Injection.toJson Injection.ofDatum? 2 i

/-- A parameter is restored when its type, its tag and its place are. -/
theorem Injection.restored {i : Injection} (htype : i.type.IsRestored)
    (htag : ∀ t ∈ i.tag, t.IsRestored) (hlocation : i.location.IsRestored) : i.IsRestored := by
  have hname := Restored.text i.name
  constructor
  · refine .object ?_
    simp only [List.forall_mem_append, List.forall_mem_cons]
    exact ⟨⟨⟨hname.plain.mono (by decide), htype.plain.mono (by decide), by simp⟩,
      Json.plain_optional fun t ht => (htag t ht).plain.mono (by decide)⟩,
      hlocation.plain, by simp⟩
  · exact bind_eq_some_of (Datum.record?_ofJson_of_sublist (by simp) (by simp))
      (bind_eq_some_of (Fields.required_fieldsOf (by simp) hname)
      (bind_eq_some_of (Fields.required_fieldsOf (by simp) htype)
      (bind_eq_some_of (Fields.optional_fieldsOf (by simp) htag rfl)
      (bind_eq_some_of (Fields.withDefault_fieldsOf (by simp) hlocation) rfl))))

/-- A parameter that was read is restored. -/
theorem Injection.restored_of_ofDatum? {d : Datum} {i : Injection}
    (h : Injection.ofDatum? d = some i) : i.IsRestored := by
  simp only [Injection.ofDatum?, Option.bind_eq_bind, Option.bind_eq_some_iff] at h
  obtain ⟨fields, -, name, -, type, htype, tag, htag, location, hlocation, hi⟩ := h
  cases hi
  exact restored (Fields.required_sound htype fun _ _ => TypeExpr.restored_of_ofDatum?)
    (Fields.optional_sound htag fun _ _ => TagSpec.restored_of_ofDatum?)
    (Location.restored_of_field hlocation)

/-- Whether a number can be the rank of a constructor. -/
def Constructor.IsOrdinal (n : Int) : Prop := -2147483648 ≤ n ∧ n ≤ 2147483647

/-- Whether a constructor is read as it was printed. -/
abbrev Constructor.IsRestored (c : Constructor) : Prop :=
  Restored Constructor.toJson Constructor.ofDatum? 4 c

/-- A constructor is restored when its parameters are and its rank has 32 bits. -/
theorem Constructor.restored {c : Constructor} (hparameters : ∀ p ∈ c.parameters, p.IsRestored)
    (hordinal : ∀ n ∈ c.ordinal, Constructor.IsOrdinal n) : c.IsRestored := by
  have hparameters := Restored.list hparameters
  have hordinal : ∀ n ∈ c.ordinal,
      Restored Json.integer (Datum.integer? (-2147483648) 2147483647) 0 n := fun n hn =>
    Restored.integer (by decide) (by decide) (hordinal n hn)
  constructor
  · refine .object ?_
    simp only [List.forall_mem_append, List.forall_mem_cons]
    exact ⟨⟨hparameters.plain, by simp⟩,
      Json.plain_optional fun n hn => (hordinal n hn).plain.mono (by decide)⟩
  · have hkeys := (Json.keys_optional_last "ordinal" Json.integer c.ordinal).cons_cons "parameters"
    exact bind_eq_some_of (Datum.record?_ofJson_of_sublist hkeys (by simp))
      (bind_eq_some_of (Fields.withDefault_fieldsOf (by simp) hparameters)
      (bind_eq_some_of (Fields.optional_fieldsOf (by simp) hordinal rfl) rfl))

/-- A constructor that was read is restored. -/
theorem Constructor.restored_of_ofDatum? {d : Datum} {c : Constructor}
    (h : Constructor.ofDatum? d = some c) : c.IsRestored := by
  simp only [Constructor.ofDatum?, Option.bind_eq_bind, Option.bind_eq_some_iff] at h
  obtain ⟨fields, -, parameters, hparameters, ordinal, hordinal, hc⟩ := h
  cases hc
  exact restored
    (Fields.list_sound hparameters fun _ _ => Injection.restored_of_ofDatum?)
    (Fields.optional_sound hordinal fun _ _ => Datum.within_of_integer?)

/-! ## Recipes -/

/-- Whether a statement is read as it was printed. -/
abbrev FactoryStep.IsRestored (s : FactoryStep) : Prop :=
  Restored FactoryStep.toJson FactoryStep.ofDatum? 3 s

/-- A statement that injects is restored when its type, its tag and its place are. -/
theorem FactoryStep.restored_inject (variableName : String) {type : Option TypeExpr}
    {tag : Option TagSpec} {location : Location} (htype : ∀ t ∈ type, t.IsRestored)
    (htag : ∀ t ∈ tag, t.IsRestored) (hlocation : location.IsRestored) :
    (FactoryStep.inject variableName type tag location).IsRestored := by
  have hname := Restored.text variableName
  constructor
  · refine .object ?_
    simp only [List.forall_mem_singleton]
    refine .object ?_
    simp only [List.forall_mem_append, List.forall_mem_cons]
    exact ⟨⟨⟨⟨hname.plain.mono (by decide), by simp⟩,
      Json.plain_optional fun t ht => (htype t ht).plain.mono (by decide)⟩,
      Json.plain_optional fun t ht => (htag t ht).plain.mono (by decide)⟩,
      hlocation.plain, by simp⟩
  · exact bind_eq_some_of (Datum.variant?_ofJson _ (by simp))
      (bind_eq_some_of (Datum.record?_ofJson_of_sublist (by simp) (by simp))
      (bind_eq_some_of (Fields.required_fieldsOf (by simp) hname)
      (bind_eq_some_of (Fields.optional_fieldsOf (by simp) htype rfl)
      (bind_eq_some_of (Fields.optional_fieldsOf (by simp) htag rfl)
      (bind_eq_some_of (Fields.withDefault_fieldsOf (by simp) hlocation) rfl)))))

/-- A statement that overrides is restored when its type and its place are. -/
theorem FactoryStep.restored_override (variableName : String) {type : Option TypeExpr}
    {location : Location} (htype : ∀ t ∈ type, t.IsRestored) (hlocation : location.IsRestored) :
    (FactoryStep.override variableName type location).IsRestored := by
  have hname := Restored.text variableName
  constructor
  · refine .object ?_
    simp only [List.forall_mem_singleton]
    refine .object ?_
    simp only [List.forall_mem_append, List.forall_mem_cons]
    exact ⟨⟨⟨hname.plain.mono (by decide), by simp⟩,
      Json.plain_optional fun t ht => (htype t ht).plain.mono (by decide)⟩,
      hlocation.plain, by simp⟩
  · exact bind_eq_some_of (Datum.variant?_ofJson _ (by simp))
      (bind_eq_some_of (Datum.record?_ofJson_of_sublist (by simp) (by simp))
      (bind_eq_some_of (Fields.required_fieldsOf (by simp) hname)
      (bind_eq_some_of (Fields.optional_fieldsOf (by simp) htype rfl)
      (bind_eq_some_of (Fields.withDefault_fieldsOf (by simp) hlocation) rfl))))

/-- A statement that was read is restored. -/
theorem FactoryStep.restored_of_ofDatum? {d : Datum} {s : FactoryStep}
    (h : FactoryStep.ofDatum? d = some s) : s.IsRestored := by
  simp only [FactoryStep.ofDatum?, Option.bind_eq_bind, Option.bind_eq_some_iff] at h
  obtain ⟨⟨variant, body⟩, -, h⟩ := h
  split at h
  · simp only [Option.bind_eq_some_iff] at h
    obtain ⟨fields, -, name, -, type, htype, tag, htag, location, hlocation, hs⟩ := h
    cases hs
    exact restored_inject name
      (Fields.optional_sound htype fun _ _ => TypeExpr.restored_of_ofDatum?)
      (Fields.optional_sound htag fun _ _ => TagSpec.restored_of_ofDatum?)
      (Location.restored_of_field hlocation)
  · simp only [Option.bind_eq_some_iff] at h
    obtain ⟨fields, -, name, -, type, htype, location, hlocation, hs⟩ := h
    cases hs
    exact restored_override name
      (Fields.optional_sound htype fun _ _ => TypeExpr.restored_of_ofDatum?)
      (Location.restored_of_field hlocation)

/-- Whether a recipe is read as it was printed. -/
abbrev Recipe.IsRestored (r : Recipe) : Prop := Restored Recipe.toJson Recipe.ofDatum? 7 r

/-- A recipe that constructs is restored when its types and its constructors are. -/
theorem Recipe.restored_construct {implementation : TypeExpr} {implements : Option (List TypeExpr)}
    {constructors : List Constructor} (himplementation : implementation.IsRestored)
    (himplements : ∀ ts ∈ implements, ∀ t ∈ ts, t.IsRestored)
    (hconstructors : ∀ c ∈ constructors, c.IsRestored) :
    (Recipe.construct implementation implements constructors).IsRestored := by
  have himplements := fun ts hts => Restored.list (himplements ts hts)
  have hconstructors := Restored.list hconstructors
  constructor
  · refine .object ?_
    simp only [List.forall_mem_singleton]
    refine .object ?_
    simp only [List.forall_mem_append, List.forall_mem_cons]
    exact ⟨⟨⟨himplementation.plain.mono (by decide), by simp⟩,
      Json.plain_optional fun ts hts => (himplements ts hts).plain.mono (by decide)⟩,
      hconstructors.plain, by simp⟩
  · exact bind_eq_some_of (Datum.variant?_ofJson _ (by simp))
      (bind_eq_some_of (Datum.record?_ofJson_of_sublist (by simp) (by simp))
      (bind_eq_some_of (Fields.required_fieldsOf (by simp) himplementation)
      (bind_eq_some_of (Fields.optional_fieldsOf (by simp) himplements rfl)
      (bind_eq_some_of (Fields.withDefault_fieldsOf (by simp) hconstructors) rfl))))

/-- A recipe that evaluates an expression is restored when its statements are. -/
theorem Recipe.restored_factory (expression : String) {steps : List FactoryStep} (isAsync : Bool)
    (hsteps : ∀ s ∈ steps, s.IsRestored) :
    (Recipe.factory expression steps isAsync).IsRestored := by
  have hexpression := Restored.text expression
  have hsteps := Restored.list hsteps
  have hasync := Restored.bool isAsync
  constructor
  · refine .object ?_
    simp only [List.forall_mem_singleton]
    refine .object ?_
    simp only [List.forall_mem_cons]
    exact ⟨hexpression.plain.mono (by decide), hsteps.plain.mono (by decide),
      hasync.plain.mono (by decide), by simp⟩
  · exact bind_eq_some_of (Datum.variant?_ofJson _ (by simp))
      (bind_eq_some_of (Datum.record?_ofJson_of_sublist (by simp) (by simp))
      (bind_eq_some_of (Fields.required_fieldsOf (by simp) hexpression)
      (bind_eq_some_of (Fields.withDefault_fieldsOf (by simp) hsteps)
      (bind_eq_some_of (Fields.withDefault_fieldsOf (by simp) hasync) rfl))))

/-- A recipe that takes what is given from outside is restored. -/
theorem Recipe.restored_argument (name : String) (source : ArgumentSource) :
    (Recipe.argument name source).IsRestored := by
  have hname := Restored.text name
  have hsource := source.restored
  constructor
  · refine .object ?_
    simp only [List.forall_mem_singleton]
    refine .object ?_
    simp only [List.forall_mem_cons]
    exact ⟨hname.plain.mono (by decide), hsource.plain.mono (by decide), by simp⟩
  · exact bind_eq_some_of (Datum.variant?_ofJson _ (by simp))
      (bind_eq_some_of (Datum.record?_ofJson_of_sublist (by simp) (by simp))
      (bind_eq_some_of (Fields.required_fieldsOf (by simp) hname)
      (bind_eq_some_of (Fields.withDefault_fieldsOf (by simp) hsource) rfl)))

/-- A recipe that was read is restored. -/
theorem Recipe.restored_of_ofDatum? {d : Datum} {r : Recipe} (h : Recipe.ofDatum? d = some r) :
    r.IsRestored := by
  simp only [Recipe.ofDatum?, Option.bind_eq_bind, Option.bind_eq_some_iff] at h
  obtain ⟨⟨variant, body⟩, -, h⟩ := h
  split at h
  · simp only [Option.bind_eq_some_iff] at h
    obtain ⟨fields, -, implementation, himplementation, implements, himplements, constructors,
      hconstructors, hr⟩ := h
    cases hr
    exact restored_construct
      (Fields.required_sound himplementation fun _ _ => TypeExpr.restored_of_ofDatum?)
      (Fields.optional_sound himplements fun _ _ h =>
        Datum.listOf?_sound h fun _ _ => TypeExpr.restored_of_ofDatum?)
      (Fields.list_sound hconstructors fun _ _ => Constructor.restored_of_ofDatum?)
  · split at h
    · simp only [Option.bind_eq_some_iff] at h
      obtain ⟨fields, -, expression, -, steps, hsteps, isAsync, -, hr⟩ := h
      cases hr
      exact restored_factory expression isAsync
        (Fields.list_sound hsteps fun _ _ => FactoryStep.restored_of_ofDatum?)
    · simp only [Option.bind_eq_some_iff] at h
      obtain ⟨fields, -, name, -, source, -, hr⟩ := h
      cases hr
      exact restored_argument name source

/-! ## Bindings, roots, members and setups -/

/-- Whether a binding is read as it was printed. -/
abbrev Binding.IsRestored (b : Binding) : Prop := Restored Binding.toJson Binding.ofDatum? 8 b

/-- A binding is restored when its contracts, its recipe and its place are. -/
theorem Binding.restored {b : Binding} (hcontracts : ∀ c ∈ b.contracts, c.IsRestored)
    (hrecipe : b.recipe.IsRestored) (hlocation : b.location.IsRestored) : b.IsRestored := by
  have hcontracts := Restored.list hcontracts
  have hlifetime : ∀ l ∈ b.lifetime, Restored Lifetime.toJson Lifetime.ofDatum? 0 l :=
    fun l _ => l.restored
  have hscope : ∀ s ∈ b.scope, Restored Json.string Datum.text? 0 s := fun s _ => Restored.text s
  have hdisposable := Restored.bool b.disposable
  constructor
  · refine .object ?_
    simp only [List.forall_mem_append, List.forall_mem_cons]
    exact ⟨⟨⟨⟨⟨hcontracts.plain.mono (by decide), by simp⟩,
      Json.plain_optional fun l hl => (hlifetime l hl).plain.mono (by decide)⟩,
      hrecipe.plain, by simp⟩,
      Json.plain_optional fun s hs => (hscope s hs).plain.mono (by decide)⟩,
      hdisposable.plain.mono (by decide), hlocation.plain.mono (by decide), by simp⟩
  · exact bind_eq_some_of (Datum.record?_ofJson_of_sublist (by simp) (by simp))
      (bind_eq_some_of (Fields.withDefault_fieldsOf (by simp) hcontracts)
      (bind_eq_some_of (Fields.optional_fieldsOf (by simp) hlifetime rfl)
      (bind_eq_some_of (Fields.required_fieldsOf (by simp) hrecipe)
      (bind_eq_some_of (Fields.optional_fieldsOf (by simp) hscope rfl)
      (bind_eq_some_of (Fields.withDefault_fieldsOf (by simp) hdisposable)
      (bind_eq_some_of (Fields.withDefault_fieldsOf (by simp) hlocation) rfl))))))

/-- A binding that was read is restored. -/
theorem Binding.restored_of_ofDatum? {d : Datum} {b : Binding} (h : Binding.ofDatum? d = some b) :
    b.IsRestored := by
  simp only [Binding.ofDatum?, Option.bind_eq_bind, Option.bind_eq_some_iff] at h
  obtain ⟨fields, -, contracts, hcontracts, lifetime, -, recipe, hrecipe, scope, -, disposable, -,
    location, hlocation, hb⟩ := h
  cases hb
  exact restored
    (Fields.list_sound hcontracts fun _ _ => ContractSpec.restored_of_ofDatum?)
    (Fields.required_sound hrecipe fun _ _ => Recipe.restored_of_ofDatum?)
    (Location.restored_of_field hlocation)

/-- Whether a root is read as it was printed. -/
abbrev Root.IsRestored (r : Root) : Prop := Restored Root.toJson Root.ofDatum? 2 r

/-- A root is restored when its type, its tag and its place are. -/
theorem Root.restored {r : Root} (htype : r.type.IsRestored) (htag : ∀ t ∈ r.tag, t.IsRestored)
    (hlocation : r.location.IsRestored) : r.IsRestored := by
  have hname := Restored.text r.name
  have hkind := r.kind.restored
  constructor
  · refine .object ?_
    simp only [List.forall_mem_append, List.forall_mem_cons]
    exact ⟨⟨⟨hname.plain.mono (by decide), htype.plain.mono (by decide), by simp⟩,
      Json.plain_optional fun t ht => (htag t ht).plain.mono (by decide)⟩,
      hkind.plain.mono (by decide), hlocation.plain, by simp⟩
  · exact bind_eq_some_of (Datum.record?_ofJson_of_sublist (by simp) (by simp))
      (bind_eq_some_of (Fields.withDefault_fieldsOf (by simp) hname)
      (bind_eq_some_of (Fields.required_fieldsOf (by simp) htype)
      (bind_eq_some_of (Fields.optional_fieldsOf (by simp) htag rfl)
      (bind_eq_some_of (Fields.withDefault_fieldsOf (by simp) hkind)
      (bind_eq_some_of (Fields.withDefault_fieldsOf (by simp) hlocation) rfl)))))

/-- A root that was read is restored. -/
theorem Root.restored_of_ofDatum? {d : Datum} {r : Root} (h : Root.ofDatum? d = some r) :
    r.IsRestored := by
  simp only [Root.ofDatum?, Option.bind_eq_bind, Option.bind_eq_some_iff] at h
  obtain ⟨fields, -, name, -, type, htype, tag, htag, kind, -, location, hlocation, hr⟩ := h
  cases hr
  exact restored (Fields.required_sound htype fun _ _ => TypeExpr.restored_of_ofDatum?)
    (Fields.optional_sound htag fun _ _ => TagSpec.restored_of_ofDatum?)
    (Location.restored_of_field hlocation)

/-- Whether a member is read as it was printed. -/
abbrev Member.IsRestored (m : Member) : Prop := Restored Member.toJson Member.ofDatum? 2 m

/-- A member is restored when its place is. -/
theorem Member.restored {m : Member} (hlocation : m.location.IsRestored) : m.IsRestored := by
  have hname := Restored.text m.name
  have hstatic := Restored.bool m.isStatic
  constructor
  · refine .object ?_
    simp only [List.forall_mem_cons]
    exact ⟨hname.plain.mono (by decide), hstatic.plain.mono (by decide), hlocation.plain, by simp⟩
  · exact bind_eq_some_of (Datum.record?_ofJson_of_sublist (by simp) (by simp))
      (bind_eq_some_of (Fields.required_fieldsOf (by simp) hname)
      (bind_eq_some_of (Fields.withDefault_fieldsOf (by simp) hstatic)
      (bind_eq_some_of (Fields.withDefault_fieldsOf (by simp) hlocation) rfl)))

/-- A member that was read is restored. -/
theorem Member.restored_of_ofDatum? {d : Datum} {m : Member} (h : Member.ofDatum? d = some m) :
    m.IsRestored := by
  simp only [Member.ofDatum?, Option.bind_eq_bind, Option.bind_eq_some_iff] at h
  obtain ⟨fields, -, name, -, isStatic, -, location, hlocation, hm⟩ := h
  cases hm
  exact restored (Location.restored_of_field hlocation)

/-- Whether a setup is read as it was printed. -/
abbrev Setup.IsRestored (s : Setup) : Prop := Restored Setup.toJson Setup.ofDatum? 10 s

/-- A setup is restored when its bindings, its roots, its members and its place are. -/
theorem Setup.restored {s : Setup} (hbindings : ∀ b ∈ s.bindings, b.IsRestored)
    (hroots : ∀ r ∈ s.roots, r.IsRestored) (hmembers : ∀ m ∈ s.members, m.IsRestored)
    (hlocation : s.location.IsRestored) : s.IsRestored := by
  have hname := Restored.text s.name
  have hkind := s.kind.restored
  have hbindings := Restored.list hbindings
  have hroots := Restored.list hroots
  have hdependsOn := Restored.list fun a (_ : a ∈ s.dependsOn) => Restored.text a
  have hlifetime : ∀ l ∈ s.defaultLifetime, Restored Lifetime.toJson Lifetime.ofDatum? 0 l :=
    fun l _ => l.restored
  have hhints := s.hints.restored
  have hmarkers := Restored.list fun a (_ : a ∈ s.markers) => Restored.text a
  have hmembers := Restored.list hmembers
  constructor
  · refine .object ?_
    simp only [List.forall_mem_append, List.forall_mem_cons]
    exact ⟨⟨⟨hname.plain.mono (by decide), hkind.plain.mono (by decide), hbindings.plain,
      hroots.plain.mono (by decide), hdependsOn.plain.mono (by decide), by simp⟩,
      Json.plain_optional fun l hl => (hlifetime l hl).plain.mono (by decide)⟩,
      hhints.plain.mono (by decide), hmarkers.plain.mono (by decide),
      hmembers.plain.mono (by decide), hlocation.plain.mono (by decide), by simp⟩
  · exact bind_eq_some_of (Datum.record?_ofJson_of_sublist (by simp) (by simp))
      (bind_eq_some_of (Fields.required_fieldsOf (by simp) hname)
      (bind_eq_some_of (Fields.withDefault_fieldsOf (by simp) hkind)
      (bind_eq_some_of (Fields.withDefault_fieldsOf (by simp) hbindings)
      (bind_eq_some_of (Fields.withDefault_fieldsOf (by simp) hroots)
      (bind_eq_some_of (Fields.withDefault_fieldsOf (by simp) hdependsOn)
      (bind_eq_some_of (Fields.optional_fieldsOf (by simp) hlifetime rfl)
      (bind_eq_some_of (Fields.withDefault_fieldsOf (by simp) hhints)
      (bind_eq_some_of (Fields.withDefault_fieldsOf (by simp) hmarkers)
      (bind_eq_some_of (Fields.withDefault_fieldsOf (by simp) hmembers)
      (bind_eq_some_of (Fields.withDefault_fieldsOf (by simp) hlocation) rfl))))))))))

/-- A setup that was read is restored. -/
theorem Setup.restored_of_ofDatum? {d : Datum} {s : Setup} (h : Setup.ofDatum? d = some s) :
    s.IsRestored := by
  simp only [Setup.ofDatum?, Option.bind_eq_bind, Option.bind_eq_some_iff] at h
  obtain ⟨fields, -, name, -, kind, -, bindings, hbindings, roots, hroots, dependsOn, -, lifetime,
    -, hints, -, markers, -, members, hmembers, location, hlocation, hs⟩ := h
  cases hs
  exact restored
    (Fields.list_sound hbindings fun _ _ => Binding.restored_of_ofDatum?)
    (Fields.list_sound hroots fun _ _ => Root.restored_of_ofDatum?)
    (Fields.list_sound hmembers fun _ _ => Member.restored_of_ofDatum?)
    (Location.restored_of_field hlocation)

end Injector

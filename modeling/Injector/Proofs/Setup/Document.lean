import Injector.Document
import Injector.Draft.Setup
import Injector.Proofs.Computation
import Injector.Proofs.Setup.Restored

/-!
# Documents of printed setups

A setup comes from a document or from a finished draft. Either way every part of it is read as it
was printed, so that a document of the printed setup holds that setup and nothing else
(`Setup.listOfDocument_printed`). A draft can hold a tag that no word declares; such drafts are left
out.
-/

namespace Injector

/-! ## Drafts -/

namespace Draft

/-- Whether the tag of a parameter was given as a word. -/
def Parameter.IsWorded (p : Parameter) : Prop := ∀ t ∈ p.tag, t.IsWord

/-- Whether the tag of a statement was given as a word. -/
def Statement.IsWorded : Statement → Prop
  | .inject _ _ tag => ∀ t ∈ tag, t.IsWord
  | .override _ _ => True

/-- Whether the tags of a recipe were given as words, and its ranks have 32 bits. -/
def Making.IsWorded : Making → Prop
  | .construct _ _ constructors =>
      ∀ c ∈ constructors, (∀ p ∈ c.1, p.IsWorded) ∧ ∀ n ∈ c.2, Constructor.IsOrdinal n
  | .factory _ statements _ => ∀ s ∈ statements, s.IsWorded
  | .argument _ _ => True

/-- Whether the tags of a binding were given as words, and its numbers have 32 bits. -/
structure Binding.IsWorded (b : Binding) : Prop where
  /-- The tags of the contracts are words. -/
  contracts : ∀ c ∈ b.contracts, ∀ t ∈ c.2, t.IsWord
  /-- The tags of the recipe are words. -/
  making : ∀ m ∈ b.making, m.IsWorded
  /-- The line has 32 bits. -/
  line : ∀ n ∈ b.line, n ≤ maxLine

/-- Whether the tags of a setup were given as words, and its numbers have 32 bits. -/
structure Setup.IsWorded (s : Setup) : Prop where
  /-- The tags of the bindings are words. -/
  bindings : ∀ b ∈ s.bindings, b.IsWorded
  /-- The tags of the roots are words. -/
  roots : ∀ r ∈ s.roots, ∀ t ∈ r.tag, t.IsWord

/-- A type of a finished draft is restored. -/
theorem restored_of_typeOf {text : String} {t : TypeExpr} (h : typeOf text = .ok t) :
    t.IsRestored := by
  unfold typeOf at h
  cases hparse : TypeExpr.parse text with
  | ok t' =>
      rw [hparse] at h
      cases h
      exact TypeExpr.restored hparse
  | error e =>
      rw [hparse] at h
      cases h

/-- A type that may be missing from a finished draft is restored. -/
theorem restored_of_typeOf? {text : Option String} {type : Option TypeExpr}
    (h : typeOf? text = .ok type) : ∀ t ∈ type, t.IsRestored := by
  cases text with
  | none =>
      cases h
      simp
  | some text =>
      obtain ⟨t, ht, hsome⟩ := bind_eq_ok.mp h
      cases hsome
      simpa using restored_of_typeOf ht

/-- A finished parameter is restored. -/
theorem Parameter.restored {p : Parameter} {location : Location} {i : Injection}
    (hp : p.IsWorded) (hlocation : location.IsRestored) (h : p.finish location = .ok i) :
    i.IsRestored := by
  obtain ⟨type, htype, hi⟩ := bind_eq_ok.mp h
  cases hi
  exact Injection.restored (restored_of_typeOf htype) (fun t ht => TagSpec.restored (hp t ht))
    hlocation

/-- A finished statement is restored. -/
theorem Statement.restored {s : Statement} {location : Location} {step : FactoryStep}
    (hs : s.IsWorded) (hlocation : location.IsRestored) (h : s.finish location = .ok step) :
    step.IsRestored := by
  cases s with
  | inject variableName type tag =>
      obtain ⟨type', htype, hstep⟩ := bind_eq_ok.mp h
      cases hstep
      exact FactoryStep.restored_inject variableName (restored_of_typeOf? htype)
        (fun t ht => TagSpec.restored (hs t ht)) hlocation
  | override variableName type =>
      obtain ⟨type', htype, hstep⟩ := bind_eq_ok.mp h
      cases hstep
      exact FactoryStep.restored_override variableName (restored_of_typeOf? htype) hlocation

/-- The finished constructors of an implementation are restored. -/
theorem restored_constructors {location : Location} (hlocation : location.IsRestored)
    {drafted : List (List Parameter × Option Int)}
    (hdrafted : ∀ c ∈ drafted, (∀ p ∈ c.1, p.IsWorded) ∧ ∀ n ∈ c.2, Constructor.IsOrdinal n)
    {constructors : List Constructor}
    (h : drafted.mapM (fun c => do
      return (⟨← c.1.mapM (Parameter.finish location), c.2⟩ : Constructor)) = .ok constructors) :
    ∀ c ∈ constructors, c.IsRestored := by
  refine forall_mem_of_mapM_eq_ok h fun c hc finished hfinish => ?_
  obtain ⟨parameters, hparameters, hfinished⟩ := bind_eq_ok.mp hfinish
  cases hfinished
  obtain ⟨hworded, hordinal⟩ := hdrafted c hc
  exact Constructor.restored
    (forall_mem_of_mapM_eq_ok hparameters fun p hp _ => Parameter.restored (hworded p hp) hlocation)
    hordinal

/-- A finished recipe is restored. -/
theorem Making.restored {m : Making} {location : Location} {r : Recipe} (hm : m.IsWorded)
    (hlocation : location.IsRestored) (h : m.finish location = .ok r) : r.IsRestored := by
  cases m with
  | construct implementation implements constructors =>
      obtain ⟨type, htype, h⟩ := bind_eq_ok.mp h
      cases implements with
      | none =>
          obtain ⟨_, himplements, h⟩ := bind_eq_ok.mp h
          obtain ⟨finished, hfinished, hr⟩ := bind_eq_ok.mp h
          cases himplements
          cases hr
          exact Recipe.restored_construct (restored_of_typeOf htype) (by simp)
            (restored_constructors hlocation hm hfinished)
      | some types =>
          obtain ⟨implemented, hmapM, h⟩ := bind_eq_ok.mp h
          obtain ⟨_, himplements, h⟩ := bind_eq_ok.mp h
          obtain ⟨finished, hfinished, hr⟩ := bind_eq_ok.mp h
          cases himplements
          cases hr
          have hrestored : ∀ t ∈ implemented, t.IsRestored :=
            forall_mem_of_mapM_eq_ok hmapM fun _ _ _ => restored_of_typeOf
          exact Recipe.restored_construct (restored_of_typeOf htype) (by simpa using hrestored)
            (restored_constructors hlocation hm hfinished)
  | factory expression statements isAsync =>
      obtain ⟨steps, hsteps, hr⟩ := bind_eq_ok.mp h
      cases hr
      exact Recipe.restored_factory expression isAsync
        (forall_mem_of_mapM_eq_ok hsteps fun s hs _ => Statement.restored (hm s hs) hlocation)
  | argument name source =>
      cases h
      exact Recipe.restored_argument name source

/-- The recipe of a finished binding is restored. -/
theorem Binding.restored_recipe {b : Binding} {location : Location} {contracts : List ContractSpec}
    {r : Recipe} (hb : b.IsWorded) (hlocation : location.IsRestored)
    (hcontracts : ∀ c ∈ contracts, c.type.IsRestored) (h : b.recipe location contracts = .ok r) :
    r.IsRestored := by
  unfold Binding.recipe at h
  cases hmaking : b.making with
  | some making =>
      rw [hmaking] at h
      exact Making.restored (hb.making making hmaking) hlocation h
  | none =>
      rw [hmaking] at h
      cases contracts with
      | nil => cases h
      | cons c others =>
          cases h
          exact Recipe.restored_construct (hcontracts c List.mem_cons_self) (by simp) (by simp)

/-- A finished binding is restored. -/
theorem Binding.restored {b : Binding} {file : String} {finished : Injector.Binding}
    (hb : b.IsWorded) (h : b.finish file = .ok finished) : finished.IsRestored := by
  unfold Binding.finish at h
  extract_lets location at h
  have hlocation : location.IsRestored := by
    unfold location
    split
    · next line hline => exact Location.restored (hb.line line hline) (show 1 ≤ maxLine by decide)
    · exact Location.restored_unknown
  obtain ⟨contracts, hcontracts, h⟩ := bind_eq_ok.mp h
  obtain ⟨recipe, hrecipe, hfinished⟩ := bind_eq_ok.mp h
  have hparts : ∀ c ∈ contracts, c.type.IsRestored ∧ c.IsRestored := by
    refine forall_mem_of_mapM_eq_ok hcontracts fun c hc contract hcontract => ?_
    obtain ⟨type, htype, hcontract⟩ := bind_eq_ok.mp hcontract
    cases hcontract
    have htype := restored_of_typeOf htype
    exact ⟨htype, ContractSpec.restored htype fun t ht =>
      TagSpec.restored (hb.contracts c hc t ht)⟩
  have hrecipe := restored_recipe hb hlocation (fun c hc => (hparts c hc).1) hrecipe
  cases hfinished
  exact Injector.Binding.restored (fun c hc => (hparts c hc).2) hrecipe hlocation

/-- A finished root is restored. -/
theorem Root.restored {r : Root} {finished : Injector.Root} (hr : ∀ t ∈ r.tag, t.IsWord)
    (h : r.finish = .ok finished) : finished.IsRestored := by
  obtain ⟨type, htype, hfinished⟩ := bind_eq_ok.mp h
  cases hfinished
  exact Injector.Root.restored (restored_of_typeOf htype) (fun t ht => TagSpec.restored (hr t ht))
    Location.restored_unknown

/-- A finished setup is restored. -/
theorem Setup.restored {s : Setup} {finished : Injector.Setup} (hs : s.IsWorded)
    (h : s.finish = .ok finished) : finished.IsRestored := by
  obtain ⟨bindings, hbindings, h⟩ := bind_eq_ok.mp h
  obtain ⟨roots, hroots, hfinished⟩ := bind_eq_ok.mp h
  cases hfinished
  refine Injector.Setup.restored
    (forall_mem_of_mapM_eq_ok hbindings fun b hb _ => Binding.restored (hs.bindings b hb))
    (forall_mem_of_mapM_eq_ok hroots fun r hr _ => Root.restored (hs.roots r hr)) ?_
    (Location.restored (Nat.zero_le _) (Nat.zero_le _))
  intro m hm
  obtain ⟨drafted, -, rfl⟩ := List.mem_map.mp hm
  exact Member.restored Location.restored_unknown

end Draft

/-! ## Documents -/

/-- Whether a setup was read from a document, or is a finished draft whose tags were given as
words. -/
inductive Setup.IsDeclared : Setup → Prop where
  /-- It is one of the setups of a document. -/
  | read {format : Format} {text : String} {setups : List Setup} {s : Setup}
      (h : Setup.listOfDocument format text = .ok setups) (hs : s ∈ setups) : IsDeclared s
  /-- It is a finished draft. -/
  | drafted {d : Draft.Setup} {s : Setup} (hd : d.IsWorded) (h : d.finish = .ok s) : IsDeclared s

/-- The setups of a document are restored. -/
theorem Setup.restored_of_listOfDatum? {d : Datum} {setups : List Setup}
    (h : Setup.listOfDatum? d = some setups) : ∀ s ∈ setups, s.IsRestored := by
  have hlist : ∀ {d : Datum} {setups : List Setup},
      d.listOf? Setup.ofDatum? = some setups → ∀ s ∈ setups, s.IsRestored := fun h =>
    Datum.listOf?_sound h fun _ _ => Setup.restored_of_ofDatum?
  simp only [listOfDatum?, Option.orElse_eq_orElse, Option.orElse_eq_or, Option.or_eq_some_iff] at h
  rcases h with htable | ⟨-, hitems | ⟨-, hone⟩⟩
  · cases d with
    | map entries =>
        obtain ⟨fields, -, hfield⟩ := Option.bind_eq_some_iff.mp htable
        exact Fields.required_sound hfield fun _ _ => hlist
    | _ => cases htable
  · exact hlist hitems
  · obtain ⟨s, hs, rfl⟩ := Option.map_eq_some_iff.mp hone
    simpa using restored_of_ofDatum? hs

/-- A setup is restored however it was declared. -/
theorem Setup.IsDeclared.restored {s : Setup} (h : s.IsDeclared) : s.IsRestored := by
  cases h with
  | read h hs =>
      unfold Setup.listOfDocument at h
      split at h
      · next setups hread =>
        cases h
        obtain ⟨d, -, hd⟩ := Option.bind_eq_some_iff.mp hread
        exact restored_of_listOfDatum? hd s hs
      · cases h
  | drafted hd h => exact Draft.Setup.restored hd h

/-- The object of a restored setup is read as one setup, since it is no table and no list. -/
theorem Setup.listOfDatum?_toJson {s : Setup} (h : s.IsRestored) :
    Setup.listOfDatum? (Datum.ofJson s.toJson) = some [s] := by
  have hfields : (Datum.ofJson s.toJson).record? ["setups"] = some [] := by
    refine Datum.record?_ofJson_of_missing ?_
    simp only [List.forall_mem_append, List.forall_mem_cons]
    refine ⟨⟨by simp, ?_⟩, by simp⟩
    cases s.defaultLifetime <;> simp [Json.optional]
  have hmap : ∃ entries, Datum.ofJson s.toJson = .map entries := ⟨_, rfl⟩
  obtain ⟨entries, hentries⟩ := hmap
  have hread := h.read
  rw [hentries] at hfields hread ⊢
  simp [listOfDatum?, hfields, Fields.required, Datum.listOf?, hread]

/-- A document that writes a restored setup holds that setup and nothing else. -/
theorem Setup.listOfDocument_of_writes {s : Setup} (h : s.IsRestored) {text : String}
    (hw : s.toJson.Writes text.toList) : Setup.listOfDocument .json text = .ok [s] := by
  have hjson : Json.read? text = some (Datum.ofJson s.toJson) :=
    Json.read?_of_writes hw h.plain (by decide)
  have hread : Format.json.read? text = some (Datum.ofJson s.toJson) := by
    rw [Format.read?, hjson]
    exact Option.filter_eq_some_iff.mpr ⟨rfl, h.plain.isReadable⟩
  rw [listOfDocument, hread, Option.bind_some, listOfDatum?_toJson h]

/-- The document of a printed setup, on one line or on several, holds that setup and nothing
else. -/
theorem Setup.listOfDocument_printed {s : Setup} (h : s.IsDeclared) :
    Setup.listOfDocument .json s.toJson.compact = .ok [s] ∧
      Setup.listOfDocument .json s.toJson.pretty = .ok [s] := by
  have hrestored := h.restored
  exact ⟨listOfDocument_of_writes hrestored (Json.writes_compact hrestored.plain),
    listOfDocument_of_writes hrestored (Json.writes_pretty hrestored.plain)⟩

/-- A setup with a root whose tag is a number. -/
def Setup.tagged : Setup where
  name := "C"
  kind := .exposed
  bindings := []
  roots := [⟨"", .named "A" [], some (.value "1"), .property, .unknown⟩]
  dependsOn := []
  defaultLifetime := none
  hints := .empty
  markers := []
  members := []
  location := .unknown

/-- A document of that setup, in a list and without the fields that have defaults. -/
def Setup.taggedDocument : String :=
  "[\x7b\"name\": \"C\", \"roots\": [\x7b\"type\": \" A\", \"tag\": 1\x7d]\x7d]"

/-- A draft of a binding with a reserved word for a tag, a rank below zero and a line. -/
def Setup.taggedDraft : Draft.Setup :=
  (Draft.Setup.named "Composition").bind
    (((Draft.Binding.forContract "IA").construct "A").addConstructor
      [⟨"b", "Func< IB >", some (.ofText "Any")⟩] (some (-1)) |>.atLine 3)

/-- The draft has its tag from a word, and its rank and its line have 32 bits. -/
theorem Setup.isWorded_taggedDraft : taggedDraft.IsWorded := by
  refine ⟨fun b hb => ?_, by simp [taggedDraft, Draft.Setup.named, Draft.Setup.bind]⟩
  cases List.mem_singleton.mp hb
  constructor
  · intro c hc t ht
    cases List.mem_singleton.mp hc
    cases ht
  · rintro m ⟨⟩ c hc
    cases List.mem_singleton.mp hc
    refine ⟨fun p hp t ht => ?_, ?_⟩
    · cases List.mem_singleton.mp hp
      cases ht
      exact ⟨"Any", rfl⟩
    · rintro n ⟨⟩
      exact ⟨by decide, by decide⟩
  · rintro n ⟨⟩
    decide

/-- Neither the document nor the text of the types comes back, but the setups do, that of the draft
included. -/
theorem Setup.listOfDocument_printed_tagged :
    (listOfDocument .json taggedDocument = .ok [tagged] ∧
      listOfDocument .json tagged.toJson.compact = .ok [tagged] ∧
      listOfDocument .json tagged.toJson.pretty = .ok [tagged]) ∧
    ∃ s, taggedDraft.finish = .ok s ∧
      listOfDocument .json s.toJson.compact = .ok [s] ∧
      listOfDocument .json s.toJson.pretty = .ok [s] := by
  have hread : listOfDocument .json taggedDocument = .ok [tagged] := by decide +kernel
  have hfinishes : taggedDraft.finish.isOk = true := by decide +kernel
  obtain ⟨s, hs⟩ : ∃ s, taggedDraft.finish = .ok s := by
    cases hs : taggedDraft.finish with
    | ok s => exact ⟨s, rfl⟩
    | error e =>
        rw [hs] at hfinishes
        cases hfinishes
  exact ⟨⟨hread, listOfDocument_printed (.read hread (by simp))⟩,
    s, hs, listOfDocument_printed (.drafted isWorded_taggedDraft hs)⟩

end Injector

import Injector.TypeExpr.Unification

/-!
# Patterns and the types they match

Matching goes through pattern and type in step and only adds choices, so that what one part of the
pattern became stays as it is while the parts after it are matched. The main statements are that the
choices found make the pattern the type, that choices are found whenever there are any, and that
those found are for the markers of the pattern alone and leave nothing open: whatever makes the
pattern the type makes the same of its markers.
-/

namespace Injector

namespace Substitution

/-- Whether all choices of one substitution are made in another. -/
def Extends (s s' : Substitution) : Prop :=
  ∀ name type, s.get? name = some type → s'.get? name = some type

theorem Extends.refl (s : Substitution) : s.Extends s := fun _ _ h => h

/-- What extends an extension of a substitution extends the substitution. -/
theorem Extends.trans {s s' s'' : Substitution} (h : s.Extends s') (h' : s'.Extends s'') :
    s.Extends s'' :=
  fun name type hs => h' name type (h name type hs)

/-- A marker that has no type yet may be given one. -/
theorem Extends.insert {s : Substitution} {name : String} (h : s.get? name = none)
    (type : TypeExpr) : s.Extends (s.insert name type) := by
  intro name' type' hs
  rw [Dictionary.get?_insert]
  split
  · next heq =>
    subst heq
    cases h.symm.trans hs
  · exact hs

/-- Whether every marker with a choice becomes the type that another substitution makes of it. -/
def Agrees (s choices : Substitution) : Prop :=
  ∀ name type, s.get? name = some type → (TypeExpr.marker name).substitute choices = type

/-- The empty substitution agrees with all choices. -/
theorem agrees_empty (choices : Substitution) : Agrees .empty choices := by
  intro name type h
  cases h

/-- Whether a marker has a choice. -/
def Chooses (s : Substitution) (name : String) : Prop := ∃ type, s.get? name = some type

/-- The empty substitution chooses nothing. -/
theorem not_chooses_empty (name : String) : ¬ Chooses .empty name := by
  rintro ⟨type, h⟩
  cases h

/-- A choice that is made is one for its marker. -/
theorem chooses_insert {s : Substitution} {name name' : String} {type : TypeExpr} :
    Chooses (s.insert name type) name' ↔ name' = name ∨ s.Chooses name' := by
  unfold Chooses
  rw [Dictionary.get?_insert]
  by_cases h : name' = name
  · simp [h]
  · simp [h]

end Substitution

namespace TypeExpr

open Substitution

/-! ### Types without choices -/

mutual

/-- Where nothing is chosen a type stays as it is. -/
theorem substitute_empty : (t : TypeExpr) → t.substitute .empty = t
  | .named name args => by rw [substitute, substituteAll_empty args]
  | .marker name => rfl
  | .array element => by rw [substitute, substitute_empty element]
  | .tuple items => by rw [substitute, substituteAll_empty items]

private theorem substituteAll_empty : (ts : List TypeExpr) → substituteAll .empty ts = ts
  | [] => rfl
  | t :: ts => by rw [substituteAll, substitute_empty t, substituteAll_empty ts]

end

mutual

/-- A type without markers stays as it is. -/
theorem substitute_of_not_containsMarker {choices : Substitution} :
    (t : TypeExpr) → t.containsMarker = false → t.substitute choices = t
  | .named name args, h => by rw [substitute, substituteAll_of_not_anyContainsMarker args h]
  | .marker name, h => by cases h
  | .array element, h => by rw [substitute, substitute_of_not_containsMarker element h]
  | .tuple items, h => by rw [substitute, substituteAll_of_not_anyContainsMarker items h]

/-- Types without markers stay as they are. -/
private theorem substituteAll_of_not_anyContainsMarker {choices : Substitution} :
    (ts : List TypeExpr) → anyContainsMarker ts = false → substituteAll choices ts = ts
  | [], _ => rfl
  | t :: ts, h => by
      obtain ⟨ht, hts⟩ := Bool.or_eq_false_iff.mp h
      rw [substituteAll, substitute_of_not_containsMarker t ht,
        substituteAll_of_not_anyContainsMarker ts hts]

end

mutual

/-- Where what is chosen stays as it is, so does what the choices are put into. -/
theorem substitute_substitute {s : Substitution}
    (h : ∀ name t, s.get? name = some t → t.substitute s = t) :
    (t : TypeExpr) → (t.substitute s).substitute s = t.substitute s
  | .named name args => by rw [substitute, substitute, substituteAll_substituteAll h args]
  | .marker name => by
      rw [substitute]
      cases hname : s.get? name with
      | some t => exact h name t hname
      | none => rw [Option.getD_none, substitute, hname, Option.getD_none]
  | .array element => by rw [substitute, substitute, substitute_substitute h element]
  | .tuple items => by rw [substitute, substitute, substituteAll_substituteAll h items]

/-- To substitute twice is to substitute once, if what is put in stays as it is. -/
private theorem substituteAll_substituteAll {s : Substitution}
    (h : ∀ name t, s.get? name = some t → t.substitute s = t) :
    (ts : List TypeExpr) → substituteAll s (substituteAll s ts) = substituteAll s ts
  | [] => rfl
  | t :: ts => by
      rw [substituteAll, substituteAll, substitute_substitute h t,
        substituteAll_substituteAll h ts]

end

/-! ### Choices that are found -/

mutual

/-- Matching adds choices, and under these and any further ones the pattern becomes the type. -/
theorem matchFrom_sound {s s' : Substitution} : {pattern concrete : TypeExpr} →
    matchFrom s pattern concrete = some s' →
      s.Extends s' ∧ ∀ choices, s'.Extends choices → pattern.substitute choices = concrete
  | .marker name, concrete, h => by
      rw [matchFrom] at h
      split at h
      · next chosen hchosen =>
        split at h
        · next heq =>
          cases h
          subst heq
          refine ⟨.refl s, fun choices hext => ?_⟩
          rw [substitute, hext name chosen hchosen, Option.getD_some]
        · cases h
      · next hfree =>
        cases h
        refine ⟨.insert hfree concrete, fun choices hext => ?_⟩
        have hchosen : (s.insert name concrete).get? name = some concrete := by
          rw [Dictionary.get?_insert, if_pos rfl]
        rw [substitute, hext name concrete hchosen, Option.getD_some]
  | .named p ps, .named c cs, h => by
      rw [matchFrom] at h
      split at h
      · next heq =>
        obtain ⟨hext, hall⟩ := matchAllFrom_sound h
        exact ⟨hext, fun choices hchoices => by rw [substitute, hall choices hchoices, heq]⟩
      · cases h
  | .array p, .array c, h => by
      have h : matchFrom s p c = some s' := h
      obtain ⟨hext, hsub⟩ := matchFrom_sound h
      exact ⟨hext, fun choices hchoices => by rw [substitute, hsub choices hchoices]⟩
  | .tuple ps, .tuple cs, h => by
      have h : matchAllFrom s ps cs = some s' := h
      obtain ⟨hext, hall⟩ := matchAllFrom_sound h
      exact ⟨hext, fun choices hchoices => by rw [substitute, hall choices hchoices]⟩
  | .named _ _, .marker _, h | .named _ _, .array _, h | .named _ _, .tuple _, h
  | .array _, .named _ _, h | .array _, .marker _, h | .array _, .tuple _, h
  | .tuple _, .named _ _, h | .tuple _, .marker _, h | .tuple _, .array _, h => by
      cases h

/-- Where patterns match types, what was chosen makes the types of the patterns. -/
private theorem matchAllFrom_sound {s s' : Substitution} : {patterns concretes : List TypeExpr} →
    matchAllFrom s patterns concretes = some s' →
      s.Extends s' ∧ ∀ choices, s'.Extends choices → substituteAll choices patterns = concretes
  | [], [], h => by
      cases h
      exact ⟨.refl s, fun _ _ => rfl⟩
  | p :: ps, c :: cs, h => by
      obtain ⟨between, hp, hps⟩ := Option.bind_eq_some_iff.mp h
      obtain ⟨hfirst, hsub⟩ := matchFrom_sound hp
      obtain ⟨hrest, hall⟩ := matchAllFrom_sound hps
      refine ⟨hfirst.trans hrest, fun choices hchoices => ?_⟩
      rw [substituteAll, hsub choices (hrest.trans hchoices), hall choices hchoices]
  | [], _ :: _, h | _ :: _, [], h => by
      cases h

end

mutual

/-- Choices that make the pattern the type, and agree with those already made, are found. What they
are for is what there were choices for before, and the markers of the pattern. -/
theorem matchFrom_complete {choices : Substitution} : {s : Substitution} →
    (pattern : TypeExpr) → s.Agrees choices →
      ∃ s', matchFrom s pattern (pattern.substitute choices) = some s' ∧ s'.Agrees choices ∧
        ∀ name, s'.Chooses name ↔ s.Chooses name ∨ name ∈ pattern.markerOccurrences
  | s, .marker name, h => by
      rw [matchFrom]
      split
      · next chosen hchosen =>
        refine ⟨s, if_pos (h name chosen hchosen).symm, h, fun name' => ?_⟩
        refine ⟨.inl, fun hname => hname.elim id fun hname => ?_⟩
        exact List.mem_singleton.mp hname ▸ ⟨chosen, hchosen⟩
      · refine ⟨_, rfl, fun name' type hs => ?_, fun name' => ?_⟩
        · rw [Dictionary.get?_insert] at hs
          split at hs
          · next heq =>
            cases hs
            rw [heq]
          · exact h name' type hs
        · rw [chooses_insert, markerOccurrences, List.mem_singleton, or_comm]
  | s, .named name args, h => by
      rw [substitute, matchFrom, if_pos rfl]
      exact matchAllFrom_complete args h
  | s, .array element, h => matchFrom_complete element h
  | s, .tuple items, h => matchAllFrom_complete items h

/-- Patterns match what choices make of them, and nothing else is chosen than they ask for. -/
private theorem matchAllFrom_complete {choices : Substitution} : {s : Substitution} →
    (patterns : List TypeExpr) → s.Agrees choices →
      ∃ s', matchAllFrom s patterns (substituteAll choices patterns) = some s' ∧
        s'.Agrees choices ∧
        ∀ name, s'.Chooses name ↔ s.Chooses name ∨ name ∈ allMarkerOccurrences patterns
  | s, [], h => ⟨s, rfl, h, fun _ => ⟨.inl, fun hname => hname.elim id (fun h => nomatch h)⟩⟩
  | s, p :: ps, h => by
      obtain ⟨between, hp, hagrees, hfirst⟩ := matchFrom_complete p h
      obtain ⟨s', hps, hagrees', hrest⟩ := matchAllFrom_complete ps hagrees
      refine ⟨s', by rw [substituteAll, matchAllFrom, hp, Option.bind_some, hps], hagrees',
        fun name => ?_⟩
      rw [hrest, hfirst, allMarkerOccurrences, List.mem_append, or_assoc]

end

variable {pattern concrete : TypeExpr}

/-- The choices that are found make the pattern the type. -/
theorem substitute_of_unify {s : Substitution} (h : pattern.unify concrete = some s) :
    pattern.substitute s = concrete :=
  (matchFrom_sound h).2 s (.refl s)

/-- The markers of a type are those that occur in it. -/
theorem mem_markers {t : TypeExpr} {name : String} :
    name ∈ t.markers ↔ name ∈ t.markerOccurrences := by
  rw [markers]
  induction t.markerOccurrences with
  | nil => rfl
  | cons first rest ih => rw [List.foldr_cons, mem_insertDistinct, ih, List.mem_cons]

/-- Whatever makes the pattern the type makes of each marker what was found for it. -/
theorem unify_of_substitute {choices : Substitution} (h : pattern.substitute choices = concrete) :
    ∃ s, pattern.unify concrete = some s ∧ (∀ name, s.Chooses name ↔ name ∈ pattern.markers) ∧
      ∀ name ∈ pattern.markers, s.get? name = some ((marker name).substitute choices) := by
  subst h
  obtain ⟨s, hs, hagrees, hchooses⟩ := matchFrom_complete pattern (agrees_empty choices)
  have hmarkers : ∀ name, s.Chooses name ↔ name ∈ pattern.markers := by
    intro name
    rw [hchooses, mem_markers, or_iff_right (not_chooses_empty name)]
  refine ⟨s, hs, hmarkers, fun name hname => ?_⟩
  obtain ⟨type, htype⟩ := (hmarkers name).mpr hname
  rw [htype, hagrees name type htype]

/-- Choices are found exactly when there are some that make the pattern the type. -/
theorem unify_isSome_iff :
    (pattern.unify concrete).isSome = true ↔ ∃ s, pattern.substitute s = concrete := by
  constructor
  · intro h
    obtain ⟨s, hs⟩ := Option.isSome_iff_exists.mp h
    exact ⟨s, substitute_of_unify hs⟩
  · rintro ⟨s, h⟩
    obtain ⟨s', hs', -⟩ := unify_of_substitute h
    exact Option.isSome_iff_exists.mpr ⟨s', hs'⟩

/-- Matching is exact. The choices that are found make the pattern the type and are for the markers
of the pattern, no more and no fewer; where none are found, none make the pattern the type; and
choices that do make the same of each marker as those found: what they choose is what was found, and
where they choose nothing the marker itself was found. -/
theorem unify_exact (pattern concrete : TypeExpr) :
    (∀ s, pattern.unify concrete = some s →
      pattern.substitute s = concrete ∧ ∀ name, s.Chooses name ↔ name ∈ pattern.markers) ∧
    (pattern.unify concrete = none → ∀ choices, pattern.substitute choices ≠ concrete) ∧
    ∀ choices, pattern.substitute choices = concrete → ∃ s, pattern.unify concrete = some s ∧
      ∀ name ∈ pattern.markers,
        (∀ type, choices.get? name = some type → s.get? name = some type) ∧
        (choices.get? name = none → s.get? name = some (.marker name)) := by
  refine ⟨fun s hs => ?_, fun hnone choices h => ?_, fun choices h => ?_⟩
  · have hsound := substitute_of_unify hs
    obtain ⟨s', hs', hchooses, -⟩ := unify_of_substitute hsound
    cases hs.symm.trans hs'
    exact ⟨hsound, hchooses⟩
  · obtain ⟨s, hs, -⟩ := unify_of_substitute h
    cases hnone.symm.trans hs
  · obtain ⟨s, hs, -, hfound⟩ := unify_of_substitute h
    refine ⟨s, hs, fun name hname => ⟨fun type htype => ?_, fun hfree => ?_⟩⟩
    · rw [hfound name hname, substitute, htype, Option.getD_some]
    · rw [hfound name hname, substitute, hfree, Option.getD_none]

/-- A marker of the pattern takes a marker of its own name, which then stays as it is. -/
example : (named "IPair" [marker "TT", marker "T"]).unify
    (named "IPair" [marker "TT", marker "TT"]) =
      some (.ofList [("T", marker "TT"), ("TT", marker "TT")]) := by decide

end TypeExpr

end Injector

import Injector.Proofs.TypeExpr.Grammar
import Mathlib.Control.Monad.Basic

/-!
# The text of a type

The text of a type is one of the texts that denote it: with a blank after each comma and nowhere
else, and without question marks. The main statement is that a type that was read is read from its
text again, so that texts of types tell apart exactly the types that differ.
-/

namespace Injector.TypeExpr

variable {w v : List Token} {t u : TypeExpr} {cs ds : List Char}

/-! ### Spelling -/

theorem Spells.append (h : Spells cs w) (h' : Spells ds v) : Spells (cs ++ ds) (w ++ v) := by
  induction h with
  | nil => exact h'
  | blank hc _ ih => exact .blank hc ih
  | @name text cs w hname _ ih =>
    rw [List.append_assoc]
    exact .name hname ih
  | symbol _ ih => exact .symbol ih

/-- Names that are spelled are names. -/
theorem Spells.isName (h : Spells cs w) {text : String} (hmem : .name text ∈ w) :
    IsName text.toList := by
  induction h with
  | nil => cases hmem
  | blank _ _ ih => exact ih hmem
  | name hname _ ih =>
    rcases List.mem_cons.mp hmem with heq | hmem
    · cases heq
      exact hname
    · exact ih hmem
  | symbol _ ih => exact ih (List.mem_of_ne_of_mem (by simp) hmem)

theorem Suffixes.append {t u u' : TypeExpr} {w v : List Token} (h : Suffixes t w u)
    (h' : Suffixes u v u') : Suffixes t (w ++ v) u' := by
  induction h with
  | nil => exact h'
  | array _ ih => exact .array (ih h')
  | nullable _ ih => exact .nullable (ih h')

/-- Brackets after a type make an array of it. -/
theorem IsType.array (h : IsType w t) : IsType (w ++ [.symbol '[', .symbol ']']) (.array t) := by
  cases h with
  | suffixed h hv =>
    rw [List.append_assoc]
    exact .suffixed h (hv.append (.array .nil))

/-! ### The text denotes the type -/

/-- Whether the text of a type spells tokens that derive it. -/
def IsWritten (t : TypeExpr) : Prop := ∃ w, Spells t.text.toList w ∧ IsType w t

/-- Whether the text of the types after the first of a list spells tokens that derive them. -/
def AreWritten (ts : List TypeExpr) : Prop := ∃ w, Spells (restText ts).toList w ∧ AreMore w ts

/-- What suffixes make of a type is written if the type is. -/
theorem Suffixes.isWritten (h : Suffixes t v u) (ht : t.IsWritten) : u.IsWritten := by
  induction h with
  | nil => exact ht
  | array _ ih =>
    obtain ⟨w, hs, hw⟩ := ht
    refine ih ⟨_, ?_, hw.array⟩
    rw [text, String.toList_append]
    exact hs.append (.symbol (.symbol .nil))
  | nullable _ ih => exact ih ht

/-- Types divided by commas and closed by a symbol are spelled by their texts. -/
theorem spells_list {t : TypeExpr} {ts : List TypeExpr} {w v : List Token}
    (h : Spells t.text.toList w) (hv : Spells (restText ts).toList v) (c : Char) :
    Spells (t.text.toList ++ (restText ts).toList ++ [c]) (w ++ v ++ [.symbol c]) :=
  (h.append hv).append (.symbol .nil)

mutual

/-- A type that is derived from names is written by its text. -/
theorem IsType.isWritten {w : List Token} {t : TypeExpr} :
    IsType w t → (∀ name, .name name ∈ w → IsName name.toList) → t.IsWritten
  | .suffixed h hv, hnames => by
      obtain ⟨w', hs, hw⟩ := h.isWritten fun name hmem =>
        hnames name (List.mem_append_left _ hmem)
      refine hv.isWritten ⟨w', hs, ?_⟩
      have hsuffixed := IsType.suffixed hw .nil
      rwa [List.append_nil] at hsuffixed

theorem IsBase.isWritten {w : List Token} {t : TypeExpr} :
    IsBase w t → (∀ name, .name name ∈ w → IsName name.toList) →
      ∃ w', Spells t.text.toList w' ∧ IsBase w' t
  | .tuple h hv, hnames => by
      obtain ⟨w', hs, hw⟩ := h.isWritten fun name hmem => hnames name (by simp [hmem])
      obtain ⟨v', hs', hv'⟩ := hv.areWritten fun name hmem => hnames name (by simp [hmem])
      refine ⟨_, ?_, .tuple hw hv'⟩
      simpa [text] using Spells.symbol (spells_list hs hs' ')')
  | .generic h hv, hnames => by
      obtain ⟨w', hs, hw⟩ := h.isWritten fun name hmem => hnames name (by simp [hmem])
      obtain ⟨v', hs', hv'⟩ := hv.areWritten fun name hmem => hnames name (by simp [hmem])
      refine ⟨_, ?_, .generic hw hv'⟩
      simpa [text] using Spells.name (hnames _ (by simp)) (.symbol (spells_list hs hs' '>'))
  | .marker h, hnames => by
      refine ⟨_, ?_, .marker h⟩
      simpa [text] using Spells.name (hnames _ (by simp)) .nil
  | .plain h, hnames => by
      refine ⟨_, ?_, .plain h⟩
      simpa [text] using Spells.name (hnames _ (by simp)) .nil

theorem AreMore.areWritten {w : List Token} {ts : List TypeExpr} :
    AreMore w ts → (∀ name, .name name ∈ w → IsName name.toList) → AreWritten ts
  | .nil, _ => ⟨[], .nil, .nil⟩
  | .cons h hv, hnames => by
      obtain ⟨w', hs, hw⟩ := h.isWritten fun name hmem => hnames name (by simp [hmem])
      obtain ⟨v', hs', hv'⟩ := hv.areWritten fun name hmem => hnames name (by simp [hmem])
      refine ⟨_, ?_, .cons hw hv'⟩
      simpa [restText] using Spells.symbol (.blank (c := ' ') rfl (hs.append hs'))

end

/-- A type that was read is read from its text. -/
theorem parse_text_of_parse {s : String} {t : TypeExpr} (h : parse s = .ok t) :
    parse t.text = .ok t := by
  obtain ⟨w, hs, hw⟩ := denotes_of_parse h
  exact parse_of_denotes (hw.isWritten fun _ => hs.isName)

/-- A type that was read is read from its text again, and no other type has this text: two texts
denote the same type exactly when the types they denote have the same text. -/
theorem parse_text {s : String} {t : TypeExpr} (h : parse s = .ok t) :
    parse t.text = .ok t ∧
      ∀ s' t', parse s' = .ok t' → (t'.text = t.text ↔ t' = t) := by
  have htext := parse_text_of_parse h
  refine ⟨htext, fun s' t' h' => ⟨fun heq => ?_, congrArg text⟩⟩
  have htext' := parse_text_of_parse h'
  rw [heq, htext] at htext'
  exact (Except.ok.inj htext').symm

/-- A type of arguments of each kind. -/
def spacedFunction : TypeExpr :=
  .named "Func" [.named "int" [],
    .array (.tuple [.named "IBox" [.marker "TT"], .named "A.B" []])]

/-- Blanks and question marks of the text that was read are no part of the text of the type. -/
theorem parse_text_spacedFunction :
    parse " Func< int? ,( IBox<TT>,A.B)[ ] > " = .ok spacedFunction ∧
      spacedFunction.text = "Func<int, (IBox<TT>, A.B)[]>" ∧
      parse spacedFunction.text = .ok spacedFunction ∧
      ∀ s' t', parse s' = .ok t' → (t'.text = spacedFunction.text ↔ t' = spacedFunction) := by
  have hread : parse " Func< int? ,( IBox<TT>,A.B)[ ] > " = .ok spacedFunction := by decide +kernel
  exact ⟨hread, by decide +kernel, parse_text hread⟩

end Injector.TypeExpr

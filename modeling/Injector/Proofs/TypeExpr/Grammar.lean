import Injector.TypeExpr.Parser

/-!
# The grammar of type expressions

The grammar has two levels. A text spells tokens, with blanks wherever no name is broken by them;
tokens derive a type by the rules of types, bases and suffixes. The main statement is that a text is
read as a type exactly when it spells tokens that derive this type. The reader finds the tokens
again because names are divided by symbols in all that is derived.
-/

namespace Injector.TypeExpr

/-! ### The rules -/

/-- Whether characters form an identifier. -/
def IsIdentifier : List Char → Prop
  | [] => False
  | c :: rest => isNameStart c = true ∧ ∀ d ∈ rest, isNameRest d = true

/-- Whether characters form a dotted name: identifiers joined by dots. -/
inductive IsName : List Char → Prop
  /-- One identifier. -/
  | identifier {cs : List Char} (h : IsIdentifier cs) : IsName cs
  /-- An identifier, a dot, and a dotted name. -/
  | dotted {cs more : List Char} (h : IsIdentifier cs) (hmore : IsName more) :
      IsName (cs ++ '.' :: more)

/-- Whether a text consists of tokens, with blanks before, between and after them. -/
inductive Spells : List Char → List Token → Prop
  /-- No token is left. -/
  | nil : Spells [] []
  /-- A blank stands before a token or at the end. -/
  | blank {c : Char} {cs : List Char} {w : List Token} (hc : isBlank c = true) (h : Spells cs w) :
      Spells (c :: cs) w
  /-- A name is one token. -/
  | name {text : String} {cs : List Char} {w : List Token} (hname : IsName text.toList)
      (h : Spells cs w) : Spells (text.toList ++ cs) (.name text :: w)
  /-- A character is one token. -/
  | symbol {c : Char} {cs : List Char} {w : List Token} (h : Spells cs w) :
      Spells (c :: cs) (.symbol c :: w)

/-- Whether suffixes, applied from the left, make one type of another. -/
inductive Suffixes : TypeExpr → List Token → TypeExpr → Prop
  /-- No suffix is left. -/
  | nil {t : TypeExpr} : Suffixes t [] t
  /-- Brackets make an array. -/
  | array {t u : TypeExpr} {w : List Token} (h : Suffixes (.array t) w u) :
      Suffixes t (.symbol '[' :: .symbol ']' :: w) u
  /-- A question mark changes nothing. -/
  | nullable {t u : TypeExpr} {w : List Token} (h : Suffixes t w u) :
      Suffixes t (.symbol '?' :: w) u

mutual

/-- Whether tokens derive a type: a base with suffixes. -/
inductive IsType : List Token → TypeExpr → Prop
  /-- The suffixes apply to the base. -/
  | suffixed {w v : List Token} {t u : TypeExpr} (h : IsBase w t) (hv : Suffixes t v u) :
      IsType (w ++ v) u

/-- Whether tokens derive a type without suffixes. -/
inductive IsBase : List Token → TypeExpr → Prop
  /-- A tuple has two items or more. -/
  | tuple {w v : List Token} {t u : TypeExpr} {ts : List TypeExpr} (h : IsType w t)
      (hv : AreMore v (u :: ts)) :
      IsBase (.symbol '(' :: (w ++ v ++ [.symbol ')'])) (.tuple (t :: u :: ts))
  /-- A name with arguments is no marker. -/
  | generic {name : String} {w v : List Token} {t : TypeExpr} {ts : List TypeExpr}
      (h : IsType w t) (hv : AreMore v ts) :
      IsBase (.name name :: .symbol '<' :: (w ++ v ++ [.symbol '>'])) (.named name (t :: ts))
  /-- A name alone that is a built-in marker. -/
  | marker {name : String} (h : isBuiltinMarker name = true) : IsBase [.name name] (.marker name)
  /-- Any other name alone. -/
  | plain {name : String} (h : isBuiltinMarker name = false) :
      IsBase [.name name] (.named name [])

/-- Whether tokens derive the further types of a list, each after a comma. -/
inductive AreMore : List Token → List TypeExpr → Prop
  /-- No type is left. -/
  | nil : AreMore [] []
  /-- One more type. -/
  | cons {w v : List Token} {t : TypeExpr} {ts : List TypeExpr} (h : IsType w t)
      (hv : AreMore v ts) : AreMore (.symbol ',' :: (w ++ v)) (t :: ts)

end

/-- Whether a text is derived by the grammar and denotes a type. -/
def Denotes (s : String) (t : TypeExpr) : Prop := ∃ w, Spells s.toList w ∧ IsType w t

variable {w v : List Token} {t u : TypeExpr} {ts : List TypeExpr} {cs : List Char}

/-! ### Names -/

theorem not_isNameRest_dot : isNameRest '.' = false := by decide

/-- What follows a name does not go on with it. -/
def EndsName (cs : List Char) : Prop := ∀ c ∈ cs.head?, isNameRest c = false ∧ c ≠ '.'

/-- No name is split off where none can go on. -/
theorem splitName_of_endsName (h : EndsName cs) : splitName cs = ([], cs) := by
  cases cs with
  | nil => rfl
  | cons c rest =>
    obtain ⟨hrest, hdot⟩ := h c rfl
    simp [splitName, hrest, hdot]

/-- The rest of an identifier is taken, and then as much as goes on with the name. -/
theorem splitName_identifier {rest : List Char} (h : ∀ d ∈ rest, isNameRest d = true)
    (cs : List Char) :
    splitName (rest ++ cs) = (rest ++ (splitName cs).1, (splitName cs).2) := by
  induction rest with
  | nil => rfl
  | cons d rest ih =>
    obtain ⟨hd, hrest⟩ := List.forall_mem_cons.mp h
    have hdot : d ≠ '.' := by
      rintro rfl
      exact absurd hd (by simp [not_isNameRest_dot])
    rw [List.cons_append, splitName]
    · simp [hd, ih hrest]
    · exact fun hd => absurd hd hdot
    · exact fun _ _ hd => absurd hd hdot

/-- A name is taken, and then as much as goes on with it. -/
theorem IsName.splitName_append (h : IsName cs) :
    ∃ c rest, cs = c :: rest ∧ isNameStart c = true ∧ ∀ more, TypeExpr.splitName (rest ++ more) =
      (rest ++ (TypeExpr.splitName more).1, (TypeExpr.splitName more).2) := by
  induction h with
  | @identifier cs h =>
    cases cs with
    | nil => cases h
    | cons c rest => exact ⟨c, rest, rfl, h.1, splitName_identifier h.2⟩
  | @dotted cs after h _ ih =>
    cases cs with
    | nil => cases h
    | cons c rest =>
      obtain ⟨d, tail, rfl, hd, htail⟩ := ih
      refine ⟨c, rest ++ '.' :: d :: tail, rfl, h.1, fun more => ?_⟩
      rw [List.append_assoc, splitName_identifier h.2, List.cons_append, List.cons_append,
        TypeExpr.splitName, if_pos hd, htail more]
      simp

/-- A name is split off where it ends. -/
theorem IsName.splitName (h : IsName cs) :
    ∃ c rest, cs = c :: rest ∧ isNameStart c = true ∧
      ∀ more, EndsName more → TypeExpr.splitName (rest ++ more) = (rest, more) := by
  obtain ⟨c, rest, rfl, hc, hsplit⟩ := h.splitName_append
  refine ⟨c, rest, rfl, hc, fun more hmore => ?_⟩
  rw [hsplit, splitName_of_endsName hmore, List.append_nil]

/-- What is split off together with the characters before it is a name. -/
theorem isName_splitName {c : Char} {rest : List Char} (hc : isNameStart c = true)
    (hrest : ∀ d ∈ rest, isNameRest d = true) (cs : List Char) :
    IsName (c :: (rest ++ (splitName cs).1)) := by
  have hstop : IsName (c :: (rest ++ [])) := .identifier ⟨hc, by simpa using hrest⟩
  fun_induction splitName cs generalizing c rest
  case case1 | case2 | case4 | case6 => exact hstop
  case case3 d tail hd _ ih =>
    have hmore : IsName (d :: (splitName tail).1) :=
      @ih d [] hd (by simp) (.identifier ⟨hd, by simp⟩)
    exact @IsName.dotted (c :: rest) _ ⟨hc, hrest⟩ hmore
  case case5 d tail _ _ hd _ ih =>
    have hlonger : ∀ a ∈ rest ++ [d], isNameRest a = true := by
      simpa [or_imp, forall_and] using ⟨hrest, hd⟩
    simpa using ih hc hlonger (.identifier ⟨hc, by simpa using hlonger⟩)

/-! ### Tokens -/

/-- The characters that the grammar uses for more than names. -/
def isPunctuation (c : Char) : Bool := c ∈ ['(', ')', ',', '<', '>', '[', ']', '?']

/-- A punctuation mark is no blank, no part of a name and no dot. -/
theorem isPunctuation_cases {c : Char} (h : isPunctuation c = true) :
    isBlank c = false ∧ isNameStart c = false ∧ isNameRest c = false ∧ c ≠ '.' := by
  have hall : (['(', ')', ',', '<', '>', '[', ']', '?'].all fun c =>
      !isBlank c && !isNameStart c && !isNameRest c && c != '.') = true := by decide
  simpa [and_assoc] using List.all_eq_true.mp hall c (by simpa [isPunctuation] using h)

/-- A blank is no part of a name and no dot. -/
theorem isBlank_cases {c : Char} (h : isBlank c = true) :
    isNameStart c = false ∧ isNameRest c = false ∧ c ≠ '.' := by
  have hall : ([' ', '\t', '\r', '\n'].all fun c =>
      !isNameStart c && !isNameRest c && c != '.') = true := by decide
  simpa [and_assoc] using List.all_eq_true.mp hall c (by simpa [isBlank, or_assoc] using h)

theorem not_isBlank_of_isNameStart {c : Char} (h : isNameStart c = true) : isBlank c = false := by
  refine eq_false_of_ne_true fun hblank => ?_
  exact absurd (h.symm.trans (isBlank_cases hblank).1) (by decide)

/-- Whether symbols are punctuation and no name follows a name. -/
inductive Divided : List Token → Prop
  /-- No token is left. -/
  | nil : Divided []
  /-- After a symbol anything may stand. -/
  | symbol {c : Char} {w : List Token} (hc : isPunctuation c = true) (h : Divided w) :
      Divided (.symbol c :: w)
  /-- After a name stands a symbol. -/
  | name {text : String} {w : List Token} (h : Divided w)
      (hnext : ∀ a ∈ w.head?, ∃ c, a = .symbol c) : Divided (.name text :: w)

/-- Divided tokens may be followed by others that begin with a symbol. -/
theorem Divided.append (hw : Divided w) (hv : Divided v)
    (hnext : ∀ a ∈ v.head?, ∃ c, a = .symbol c) : Divided (w ++ v) := by
  induction hw with
  | nil => exact hv
  | symbol hc _ ih => exact .symbol hc ih
  | @name text w _ hfirst ih =>
    refine .name ih ?_
    cases w with
    | nil => exact hnext
    | cons a w => exact hfirst

/-- The tokens that are found are spelled by the text. -/
theorem spells_scan (offset : Nat) (cs : List Char) :
    Spells cs ((scan offset cs).map Lexeme.token) := by
  fun_induction scan offset cs with
  | case1 => exact .nil
  | case2 offset c rest hc ih => exact .blank hc ih
  | case3 offset c rest _ hc r ih =>
    have hname : IsName (String.ofList (c :: r.1)).toList := by
      simpa using @isName_splitName c [] hc (by simp) rest
    have hspelled := Spells.name hname ih
    rw [String.toList_ofList, List.cons_append, splitName_append] at hspelled
    exact hspelled
  | case4 offset c rest _ _ ih => exact .symbol ih

/-- Nothing spells no token. -/
theorem Spells.eq_nil (h : Spells [] w) : w = [] := by
  generalize hcs : ([] : List Char) = cs at h
  cases h with
  | nil => rfl
  | blank => cases hcs
  | name hname =>
    obtain ⟨c, rest, htext, -⟩ := hname.splitName
    simp [htext] at hcs
  | symbol => cases hcs

/-- Where a symbol or nothing comes next, a name ends. -/
theorem Spells.endsName (h : Spells cs w) (hw : Divided w)
    (hnext : ∀ a ∈ w.head?, ∃ c, a = .symbol c) : EndsName cs := by
  cases h with
  | nil => exact fun c hc => by cases hc
  | blank hc h =>
    rintro c ⟨⟩
    exact (isBlank_cases hc).2
  | name hname h =>
    obtain ⟨c, hc⟩ := hnext _ rfl
    cases hc
  | symbol h =>
    rintro c ⟨⟩
    cases hw with
    | symbol hc hw => exact (isPunctuation_cases hc).2.2

/-- A name ends before what follows some characters if it ends before these. -/
theorem EndsName.append {more : List Char} (h : EndsName cs) (hmore : cs = [] → EndsName more) :
    EndsName (cs ++ more) := by
  cases cs with
  | nil => exact hmore rfl
  | cons c cs => exact h

/-- Divided tokens are found in every text that spells them, whatever follows, unless it goes on
with the last one, which only a name can do. -/
theorem scan_append (h : Spells cs w) (hw : Divided w) {more : List Char}
    (hlast : ∀ a ∈ w.getLast?, (∃ c, a = .symbol c) ∨ EndsName more) (offset : Nat) :
    ∃ ls, ls.map Lexeme.token = w ∧
      scan offset (cs ++ more) = ls ++ scan (offset + byteLength cs) more := by
  induction h generalizing offset with
  | nil => exact ⟨[], rfl, rfl⟩
  | @blank c cs w hc _ ih =>
    obtain ⟨ls, hls, hscan⟩ := ih hw hlast (offset + c.utf8Size)
    refine ⟨ls, hls, ?_⟩
    rw [List.cons_append, scan, if_pos hc, hscan, byteLength_cons, Nat.add_assoc]
  | @name text cs w hname h ih =>
    cases hw with
    | name hw hnext =>
      obtain ⟨c, rest, htext, hc, hsplit⟩ := hname.splitName
      have hofList : String.ofList (c :: rest) = text := by rw [← htext, String.ofList_toList]
      have hends : EndsName (cs ++ more) := by
        refine (h.endsName hw hnext).append ?_
        rintro rfl
        obtain rfl := h.eq_nil
        obtain ⟨_, hsymbol⟩ | hmore := hlast _ rfl
        · cases hsymbol
        · exact hmore
      have hrest : ∀ a ∈ w.getLast?, (∃ c, a = .symbol c) ∨ EndsName more := by
        intro a ha
        exact hlast a (by simp [List.getLast?_cons, Option.mem_def.mp ha])
      obtain ⟨ls, hls, hscan⟩ := ih hw hrest (offset + byteLength (c :: rest))
      refine ⟨⟨offset, .name text⟩ :: ls, by simp [hls], ?_⟩
      rw [htext, byteLength_append, ← Nat.add_assoc, List.append_assoc, List.cons_append, scan,
        if_neg (by simp [not_isBlank_of_isNameStart hc]), if_pos hc]
      simp only [hsplit _ hends, hofList, hscan, List.cons_append]
  | @symbol c cs w h ih =>
    cases hw with
    | symbol hc hw =>
      obtain ⟨hblank, hstart, -⟩ := isPunctuation_cases hc
      have hrest : ∀ a ∈ w.getLast?, (∃ c, a = .symbol c) ∨ EndsName more := by
        intro a ha
        exact hlast a (by simp [List.getLast?_cons, Option.mem_def.mp ha])
      obtain ⟨ls, hls, hscan⟩ := ih hw hrest (offset + c.utf8Size)
      refine ⟨⟨offset, .symbol c⟩ :: ls, by simp [hls], ?_⟩
      rw [List.cons_append, scan, if_neg (by simp [hblank]), if_neg (by simp [hstart]), hscan,
        byteLength_cons, Nat.add_assoc, List.cons_append]

/-- Divided tokens are found in every text that spells them. -/
theorem map_token_scan (h : Spells cs w) (hw : Divided w) (offset : Nat) :
    (scan offset cs).map Lexeme.token = w := by
  have hends : EndsName [] := fun c hc => by cases hc
  obtain ⟨ls, hls, hscan⟩ := scan_append h hw (fun _ _ => .inr hends) offset
  rw [← hls, ← List.append_nil cs, hscan, scan, List.append_nil]

/-- The tokens of suffixes are divided, and begin with a symbol. -/
theorem Suffixes.divided (h : Suffixes t w u) :
    Divided w ∧ ∀ a ∈ w.head?, ∃ c, a = .symbol c := by
  induction h with
  | nil => exact ⟨.nil, by simp⟩
  | array _ ih => exact ⟨.symbol rfl (.symbol rfl ih.1), by simp⟩
  | nullable _ ih => exact ⟨.symbol rfl ih.1, by simp⟩

mutual

/-- In what derives a type, names are divided. -/
theorem IsType.divided {w : List Token} {t : TypeExpr} : IsType w t → Divided w
  | .suffixed h hv => h.divided.append hv.divided.1 hv.divided.2

/-- The tokens of a type without suffixes are divided. -/
theorem IsBase.divided {w : List Token} {t : TypeExpr} : IsBase w t → Divided w
  | .tuple h hv => by
      have hitems := h.divided.append hv.divided.1 hv.divided.2
      exact .symbol rfl (hitems.append (.symbol rfl .nil) (by simp))
  | .generic h hv => by
      have hargs := h.divided.append hv.divided.1 hv.divided.2
      exact .name (.symbol rfl (hargs.append (.symbol rfl .nil) (by simp))) (by simp)
  | .marker _ => .name .nil (by simp)
  | .plain _ => .name .nil (by simp)

/-- The tokens of further items are divided, and begin with a symbol. -/
theorem AreMore.divided {w : List Token} {ts : List TypeExpr} :
    AreMore w ts → Divided w ∧ ∀ a ∈ w.head?, ∃ c, a = .symbol c
  | .nil => ⟨.nil, by simp⟩
  | .cons h hv => ⟨.symbol rfl (h.divided.append hv.divided.1 hv.divided.2), by simp⟩

end

/-! ### What is read is derived -/

/-- Suffixes are only read where the grammar has them. -/
theorem suffixesAt_sound {t u : TypeExpr} {ls rest : List Lexeme}
    (h : suffixesAt t ls = (u, rest)) :
    ∃ w, ls = w ++ rest ∧ Suffixes t (w.map Lexeme.token) u := by
  fun_induction suffixesAt t ls with
  | case1 t o o' more ih =>
    obtain ⟨w, rfl, hw⟩ := ih h
    exact ⟨⟨o, .symbol '['⟩ :: ⟨o', .symbol ']'⟩ :: w, rfl, .array hw⟩
  | case2 t o more ih =>
    obtain ⟨w, rfl, hw⟩ := ih h
    exact ⟨⟨o, .symbol '?'⟩ :: w, rfl, .nullable hw⟩
  | case3 =>
    cases h
    exact ⟨[], rfl, .nil⟩

/-- A name is a type without suffixes. -/
theorem isBase_ofName (name : String) : IsBase [.name name] (ofName name) := by
  unfold ofName
  split
  · next h => exact .marker h
  · next h => exact .plain (eq_false_of_ne_true h)

mutual

/-- A type that is read is derived by the tokens that were taken. -/
theorem typeAt_sound : ∀ {fuel : Nat} {ls rest : List Lexeme} {t : TypeExpr},
    typeAt fuel ls = some (t, rest) → ∃ w, ls = w ++ rest ∧ IsType (w.map Lexeme.token) t
  | 0, _, _, _, h => by cases h
  | fuel + 1, ls, rest, t, h => by
      rw [typeAt] at h
      obtain ⟨⟨u, more⟩, hbase, hsuffixes⟩ := Option.map_eq_some_iff.mp h
      obtain ⟨w, rfl, hw⟩ := baseAt_sound hbase
      obtain ⟨v, rfl, hv⟩ := suffixesAt_sound hsuffixes
      exact ⟨w ++ v, (List.append_assoc w v rest).symm, List.map_append ▸ .suffixed hw hv⟩

/-- A type without suffixes is only read where the grammar has one. -/
theorem baseAt_sound : ∀ {fuel : Nat} {ls rest : List Lexeme} {t : TypeExpr},
    baseAt fuel ls = some (t, rest) → ∃ w, ls = w ++ rest ∧ IsBase (w.map Lexeme.token) t
  | 0, _, _, _, h => by simp [baseAt] at h
  | fuel + 1, ls, rest, t, h => by
      unfold baseAt at h
      split at h
      · next fuel' o more heq =>
        cases heq
        split at h
        · next items o' after hlist =>
          split at h
          · next hlength =>
            obtain ⟨w, v, u, us, rfl, rfl, hw, hv⟩ := listAt_sound hlist
            cases h
            cases us with
            | nil => exact absurd hlength (by simp)
            | cons u' us =>
              refine ⟨⟨o, .symbol '('⟩ :: (w ++ v ++ [⟨o', .symbol ')'⟩]), by simp, ?_⟩
              simpa using IsBase.tuple hw hv
          · cases h
        · cases h
      · next fuel' o name o' more heq =>
        cases heq
        split at h
        · next args o'' after hlist =>
          obtain ⟨w, v, u, us, rfl, rfl, hw, hv⟩ := listAt_sound hlist
          cases h
          refine ⟨⟨o, .name name⟩ :: ⟨o', .symbol '<'⟩ :: (w ++ v ++ [⟨o'', .symbol '>'⟩]),
            by simp, ?_⟩
          simpa using IsBase.generic hw hv
        · cases h
          exact ⟨[⟨o, .name name⟩], rfl, isBase_ofName name⟩
      · next fuel' o name more _ heq =>
        cases heq
        cases h
        exact ⟨[⟨o, .name name⟩], rfl, isBase_ofName name⟩
      · cases h

/-- A list of types is only read where the grammar has one. -/
theorem listAt_sound : ∀ {fuel : Nat} {ls rest : List Lexeme} {ts : List TypeExpr},
    listAt fuel ls = some (ts, rest) → ∃ w v t us, ls = w ++ v ++ rest ∧ ts = t :: us ∧
      IsType (w.map Lexeme.token) t ∧ AreMore (v.map Lexeme.token) us
  | 0, _, _, _, h => by cases h
  | fuel + 1, ls, rest, ts, h => by
      rw [listAt] at h
      split at h
      · next t more htype =>
        obtain ⟨w, rfl, hw⟩ := typeAt_sound htype
        cases h
        obtain ⟨v, hmore, hv⟩ := @moreAt_sound fuel more _ _ rfl
        exact ⟨w, v, t, _, by rw [List.append_assoc, ← hmore], rfl, hw, hv⟩
      · cases h

/-- Further items are only read where the grammar has them. -/
theorem moreAt_sound : ∀ {fuel : Nat} {ls rest : List Lexeme} {ts : List TypeExpr},
    moreAt fuel ls = (ts, rest) → ∃ w, ls = w ++ rest ∧ AreMore (w.map Lexeme.token) ts
  | 0, _, _, _, h => by
      cases h
      exact ⟨[], rfl, .nil⟩
  | fuel + 1, ls, rest, ts, h => by
      unfold moreAt at h
      split at h
      · next fuel' o more heq =>
        cases heq
        split at h
        · next t after htype =>
          obtain ⟨w, rfl, hw⟩ := typeAt_sound htype
          cases h
          obtain ⟨v, hafter, hv⟩ := @moreAt_sound fuel after _ _ rfl
          refine ⟨⟨o, .symbol ','⟩ :: (w ++ v), ?_, by simpa using .cons hw hv⟩
          rw [List.cons_append, List.append_assoc, ← hafter]
        · cases h
          exact ⟨[], rfl, .nil⟩
      · cases h
        exact ⟨[], rfl, .nil⟩

end

/-! ### What is derived is read -/

/-- Whether a type ends before some tokens. -/
def EndsType (rest : List Lexeme) : Prop :=
  ∀ l ∈ rest.head?, l.token ∈ [Token.symbol ',', .symbol '>', .symbol ')']

/-- Whether a list of types ends before some tokens. -/
def EndsList (rest : List Lexeme) : Prop :=
  ∀ l ∈ rest.head?, l.token ∈ [Token.symbol '>', .symbol ')']

/-- Whether no arguments begin with some tokens. -/
def EndsBase (rest : List Lexeme) : Prop := ∀ l ∈ rest.head?, l.token ≠ .symbol '<'

/-- Where a list ends its last type does. -/
theorem EndsList.endsType {rest : List Lexeme} (h : EndsList rest) : EndsType rest :=
  fun l hl => List.mem_cons_of_mem _ (h l hl)

/-- No suffix is read where a type ends. -/
theorem suffixesAt_of_endsType {t : TypeExpr} {rest : List Lexeme} (h : EndsType rest) :
    suffixesAt t rest = (t, rest) := by
  unfold suffixesAt
  split
  · simpa using h _ rfl
  · simpa using h _ rfl
  · rfl

/-- The first of some lexemes has the first of their tokens. -/
theorem exists_of_map_token {ls : List Lexeme} {a : Token} {w : List Token}
    (h : ls.map Lexeme.token = a :: w) :
    ∃ offset more, ls = ⟨offset, a⟩ :: more ∧ more.map Lexeme.token = w := by
  obtain ⟨⟨offset, b⟩, more, rfl, rfl, hmore⟩ := List.map_eq_cons_iff.mp h
  exact ⟨offset, more, rfl, hmore⟩

/-- Suffixes are applied, and then those that follow them. -/
theorem Suffixes.suffixesAt_append {t u : TypeExpr} {w : List Token} (h : Suffixes t w u)
    {ls : List Lexeme} (hls : ls.map Lexeme.token = w) (rest : List Lexeme) :
    suffixesAt t (ls ++ rest) = suffixesAt u rest := by
  induction h generalizing ls with
  | nil =>
    obtain rfl := List.map_eq_nil_iff.mp hls
    rfl
  | array _ ih =>
    obtain ⟨o, tail, rfl, htail⟩ := exists_of_map_token hls
    obtain ⟨o', more, rfl, hmore⟩ := exists_of_map_token htail
    exact ih hmore
  | nullable _ ih =>
    obtain ⟨o, more, rfl, hmore⟩ := exists_of_map_token hls
    exact @ih more hmore

/-- Suffixes are applied as far as they go. -/
theorem Suffixes.suffixesAt {t u : TypeExpr} {w : List Token} (h : Suffixes t w u)
    {ls rest : List Lexeme} (hls : ls.map Lexeme.token = w) (hrest : EndsType rest) :
    TypeExpr.suffixesAt t (ls ++ rest) = (u, rest) := by
  rw [h.suffixesAt_append hls, suffixesAt_of_endsType hrest]

/-- Where a type ends no arguments follow. -/
theorem EndsType.endsBase {rest : List Lexeme} (h : EndsType rest) : EndsBase rest := by
  intro l hl hopen
  simpa [hopen] using h l hl

/-- After a base stand suffixes or what follows them. -/
theorem Suffixes.endsBase {t u : TypeExpr} {w : List Token} (h : Suffixes t w u)
    {ls rest : List Lexeme} (hls : ls.map Lexeme.token = w) (hrest : w = [] → EndsBase rest) :
    EndsBase (ls ++ rest) := by
  cases h with
  | nil =>
    obtain rfl := List.map_eq_nil_iff.mp hls
    exact hrest rfl
  | array h =>
    obtain ⟨o, more, rfl, -⟩ := exists_of_map_token hls
    rintro l ⟨⟩
    simp
  | nullable h =>
    obtain ⟨o, more, rfl, -⟩ := exists_of_map_token hls
    rintro l ⟨⟩
    simp

/-- After a type in a list stand further types or what ends the list. -/
theorem AreMore.endsType {w : List Token} {ts : List TypeExpr} (h : AreMore w ts)
    {ls rest : List Lexeme} (hls : ls.map Lexeme.token = w) (hrest : EndsList rest) :
    EndsType (ls ++ rest) := by
  cases h with
  | nil =>
    obtain rfl := List.map_eq_nil_iff.mp hls
    exact hrest.endsType
  | cons h hv =>
    obtain ⟨o, more, rfl, -⟩ := exists_of_map_token hls
    rintro l ⟨⟩
    simp

/-- A name that no arguments follow is read as a type of its own. -/
theorem baseAt_name {fuel offset : Nat} {name : String} {rest : List Lexeme}
    (h : EndsBase rest) :
    baseAt (fuel + 1) (⟨offset, .name name⟩ :: rest) = some (ofName name, rest) := by
  unfold baseAt
  split
  · next heq => cases heq
  · next heq =>
    cases heq
    exact absurd rfl (h _ rfl)
  · next heq =>
    cases heq
    rfl
  · next hname => exact absurd rfl (hname fuel offset name rest rfl)

/-- A type and further types are read as a list. -/
theorem listAt_of {fuel : Nat} {ls lv rest : List Lexeme} {t : TypeExpr} {ts : List TypeExpr}
    (h : TypeExpr.typeAt fuel (ls ++ (lv ++ rest)) = some (t, lv ++ rest))
    (hv : TypeExpr.moreAt fuel (lv ++ rest) = (ts, rest)) :
    listAt (fuel + 1) (ls ++ lv ++ rest) = some (t :: ts, rest) := by
  rw [List.append_assoc, listAt, h]
  simp only [hv]

/-- A type has a token. -/
theorem IsBase.length_pos {w : List Token} {t : TypeExpr} (h : IsBase w t) : 0 < w.length := by
  cases h <;> simp

/-- The lexemes of two types lists and of what closes them. -/
theorem exists_of_map_closed {ls : List Lexeme} {w v : List Token} {a : Token}
    (h : ls.map Lexeme.token = w ++ v ++ [a]) :
    ∃ lw lv offset, ls = lw ++ lv ++ [⟨offset, a⟩] ∧ lw.map Lexeme.token = w ∧
      lv.map Lexeme.token = v := by
  obtain ⟨lwv, la, rfl, hlwv, hla⟩ := List.map_eq_append_iff.mp h
  obtain ⟨lw, lv, rfl, hlw, hlv⟩ := List.map_eq_append_iff.mp hlwv
  obtain ⟨offset, none, rfl, hnone⟩ := exists_of_map_token hla
  obtain rfl := List.map_eq_nil_iff.mp hnone
  exact ⟨lw, lv, offset, rfl, hlw, hlv⟩

mutual

/-- Tokens that derive a type are read as this type. -/
theorem IsType.typeAt : ∀ {w : List Token} {t : TypeExpr}, IsType w t →
    ∀ {fuel : Nat} {ls rest : List Lexeme}, ls.map Lexeme.token = w → EndsType rest →
      3 * w.length ≤ fuel → TypeExpr.typeAt fuel (ls ++ rest) = some (t, rest)
  | _, _, .suffixed (w := w) (v := v) h hv, fuel, ls, rest, hls, hrest, hfuel => by
      obtain ⟨lw, lv, rfl, hlw, hlv⟩ := List.map_eq_append_iff.mp hls
      have hpos := h.length_pos
      rw [List.length_append] at hfuel
      obtain ⟨fuel, rfl⟩ : ∃ n, fuel = n + 1 := ⟨fuel - 1, by omega⟩
      have hfit : 3 * w.length ≤ fuel + 1 := by omega
      have hbase := h.baseAt hlw (fun _ => hv.endsBase hlv fun _ => hrest.endsBase) hfit
      rw [TypeExpr.typeAt, List.append_assoc, hbase, Option.map_some, hv.suffixesAt hlv hrest]

/-- A type without suffixes is read from its tokens, with three steps for each of them. -/
theorem IsBase.baseAt : ∀ {w : List Token} {t : TypeExpr}, IsBase w t →
    ∀ {fuel : Nat} {ls rest : List Lexeme}, ls.map Lexeme.token = w →
      (w.length = 1 → EndsBase rest) → 3 * w.length ≤ fuel + 1 →
        TypeExpr.baseAt fuel (ls ++ rest) = some (t, rest)
  | _, _, .tuple (w := w) (v := v) h hv, fuel, ls, rest, hls, hrest, hfuel => by
      obtain ⟨o, tail, rfl, htail⟩ := exists_of_map_token hls
      obtain ⟨lw, lv, o', rfl, hlw, hlv⟩ := exists_of_map_closed htail
      have hends : EndsList (⟨o', .symbol ')'⟩ :: rest) := by
        rintro l ⟨⟩
        simp
      simp only [List.length_cons, List.length_append, List.length_nil] at hfuel
      obtain ⟨fuel, rfl⟩ : ∃ n, fuel = n + 2 := ⟨fuel - 2, by omega⟩
      have hfit : 3 * w.length ≤ fuel := by omega
      have hlist := listAt_of (h.typeAt hlw (hv.endsType hlv hends) hfit)
        (hv.moreAt hlv hends (by omega))
      rw [List.cons_append, List.append_assoc, List.singleton_append, TypeExpr.baseAt, hlist]
      simp
  | _, _, .generic (w := w) (v := v) h hv, fuel, ls, rest, hls, hrest, hfuel => by
      obtain ⟨o, tail, rfl, htail⟩ := exists_of_map_token hls
      obtain ⟨o', tail, rfl, htail'⟩ := exists_of_map_token htail
      obtain ⟨lw, lv, o'', rfl, hlw, hlv⟩ := exists_of_map_closed htail'
      have hends : EndsList (⟨o'', .symbol '>'⟩ :: rest) := by
        rintro l ⟨⟩
        simp
      simp only [List.length_cons, List.length_append, List.length_nil] at hfuel
      obtain ⟨fuel, rfl⟩ : ∃ n, fuel = n + 2 := ⟨fuel - 2, by omega⟩
      have hfit : 3 * w.length ≤ fuel := by omega
      have hlist := listAt_of (h.typeAt hlw (hv.endsType hlv hends) hfit)
        (hv.moreAt hlv hends (by omega))
      rw [List.cons_append, List.cons_append, List.append_assoc, List.singleton_append,
        TypeExpr.baseAt, hlist]
      rfl
  | _, _, .marker h, fuel, ls, rest, hls, hrest, hfuel => by
      obtain ⟨o, tail, rfl, htail⟩ := exists_of_map_token hls
      obtain rfl := List.map_eq_nil_iff.mp htail
      obtain ⟨fuel, rfl⟩ : ∃ n, fuel = n + 1 := ⟨fuel - 1, by simp at hfuel; omega⟩
      rw [List.singleton_append, baseAt_name (hrest rfl), ofName, if_pos h]
  | _, _, .plain h, fuel, ls, rest, hls, hrest, hfuel => by
      obtain ⟨o, tail, rfl, htail⟩ := exists_of_map_token hls
      obtain rfl := List.map_eq_nil_iff.mp htail
      obtain ⟨fuel, rfl⟩ : ∃ n, fuel = n + 1 := ⟨fuel - 1, by simp at hfuel; omega⟩
      rw [List.singleton_append, baseAt_name (hrest rfl), ofName, if_neg (by simp [h])]

/-- Further items are read from their tokens, with three steps for each of them. -/
theorem AreMore.moreAt : ∀ {w : List Token} {ts : List TypeExpr}, AreMore w ts →
    ∀ {fuel : Nat} {ls rest : List Lexeme}, ls.map Lexeme.token = w → EndsList rest →
      3 * w.length ≤ fuel → TypeExpr.moreAt fuel (ls ++ rest) = (ts, rest)
  | _, _, .nil, fuel, ls, rest, hls, hrest, hfuel => by
      obtain rfl := List.map_eq_nil_iff.mp hls
      rw [List.nil_append]
      unfold TypeExpr.moreAt
      split
      · simpa using hrest _ rfl
      · rfl
  | _, _, .cons (w := w) (v := v) h hv, fuel, ls, rest, hls, hrest, hfuel => by
      obtain ⟨o, tail, rfl, htail⟩ := exists_of_map_token hls
      obtain ⟨lw, lv, rfl, hlw, hlv⟩ := List.map_eq_append_iff.mp htail
      simp only [List.length_cons, List.length_append] at hfuel
      obtain ⟨fuel, rfl⟩ : ∃ n, fuel = n + 1 := ⟨fuel - 1, by omega⟩
      have hfit : 3 * w.length ≤ fuel := by omega
      have hfit' : 3 * v.length ≤ fuel := by omega
      have htype := h.typeAt hlw (hv.endsType hlv hrest) hfit
      rw [List.cons_append, List.append_assoc, TypeExpr.moreAt, htype]
      simp only [hv.moreAt hlv hrest hfit']

end

/-! ### The reader and the grammar -/

/-- A text is read only as a type that it denotes. -/
theorem denotes_of_parse {s : String} {t : TypeExpr} (h : parse s = .ok t) : Denotes s t := by
  unfold parse ofTokens at h
  split at h
  · next t' htype =>
    cases h
    obtain ⟨w, hscan, hw⟩ := typeAt_sound htype
    rw [List.append_nil] at hscan
    exact ⟨_, spells_scan 0 s.toList, hscan ▸ hw⟩
  · cases h
  · cases h

/-- A text that denotes a type is read as that type. -/
theorem parse_of_denotes {s : String} {t : TypeExpr} (h : Denotes s t) : parse s = .ok t := by
  obtain ⟨w, hs, hw⟩ := h
  have hscan := map_token_scan hs hw.divided 0
  have hfuel : 3 * w.length ≤ 3 * (scan 0 s.toList).length + 3 := by
    rw [← hscan, List.length_map]
    omega
  have hends : EndsType [] := by simp [EndsType]
  have htype := hw.typeAt hscan hends hfuel
  rw [List.append_nil] at htype
  rw [parse, ofTokens, htype]

/-- A text is read as a type exactly when the grammar derives it and it denotes this type. -/
theorem parse_eq_ok_iff (s : String) (t : TypeExpr) : parse s = .ok t ↔ Denotes s t :=
  ⟨denotes_of_parse, parse_of_denotes⟩

end Injector.TypeExpr

import Injector.Proofs.TypeExpr.Grammar
import Mathlib.Data.List.Basic
import Mathlib.Data.List.TakeWhile
import Mathlib.Tactic.ByContra

/-!
# Where a text stops being a type

A text that is not a type is refused at a place that the grammar tells: behind the longest of its
beginnings that are a type, and behind the blanks there, or in front of everything but blanks if it
has no such beginning. The reader never looks back, so two things are shown of it: what it takes is
such a beginning, and no beginning that is a type gets further.
-/

namespace Injector.TypeExpr

variable {cs more : List Char} {w : List Token} {t u : TypeExpr} {offset : Nat}

/-! ### Beginnings of a text -/

/-- Whether characters are a type, without blanks around it. -/
structure IsTypeText (cs : List Char) : Prop where
  /-- They spell tokens that derive a type. -/
  derives : ∃ w t, Spells cs w ∧ IsType w t
  /-- They do not begin with a blank. -/
  head : ∀ c ∈ cs.head?, isBlank c = false
  /-- They do not end with a blank. -/
  last : ∀ c ∈ cs.getLast?, isBlank c = false

/-- Whether characters are blanks followed by a type. -/
def OpensType (cs : List Char) : Prop :=
  ∃ blanks type, cs = blanks ++ type ∧ (∀ c ∈ blanks, isBlank c = true) ∧ IsTypeText type

/-- Where a text stops being a type, by the number of bytes in front of the place, and the word for
what is wrong there. -/
inductive Stops (cs : List Char) : Nat → String → Prop
  /-- Something follows the longest beginning that is blanks and a type, and blanks after it. -/
  | leftover {opening rest : List Char} (split : cs = opening ++ rest) (opens : OpensType opening)
      (longest : ∀ other, other <+: cs → OpensType other → other.length ≤ opening.length) :
      Stops cs (byteLength (opening ++ rest.takeWhile isBlank)) "Eof"
  /-- No beginning is blanks and a type. -/
  | noType (none : ∀ opening, opening <+: cs → ¬ OpensType opening) :
      Stops cs (byteLength (cs.takeWhile isBlank)) "Satisfy"

/-- A text stops being a type at one place and for one reason. -/
theorem Stops.unique {o o' : Nat} {word word' : String} (h : Stops cs o word)
    (h' : Stops cs o' word') : o = o' ∧ word = word' := by
  cases h with
  | @leftover opening rest split opens longest =>
    cases h' with
    | @leftover opening' rest' split' opens' longest' =>
      have hlength : opening.length = opening'.length :=
        Nat.le_antisymm (longest' opening ⟨rest, split.symm⟩ opens)
          (longest opening' ⟨rest', split'.symm⟩ opens')
      obtain ⟨rfl, rfl⟩ := List.append_inj (split.symm.trans split') hlength
      exact ⟨rfl, rfl⟩
    | noType none => exact absurd opens (none opening ⟨rest, split.symm⟩)
  | noType none =>
    cases h' with
    | @leftover opening rest split opens longest =>
      exact absurd opens (none opening ⟨rest, split.symm⟩)
    | noType => exact ⟨rfl, rfl⟩

/-- A text stops being a type behind some of its characters. -/
theorem Stops.exists_append {o : Nat} {word : String} (h : Stops cs o word) :
    ∃ before after, cs = before ++ after ∧ o = byteLength before := by
  cases h with
  | @leftover opening rest split =>
    refine ⟨opening ++ rest.takeWhile isBlank, rest.dropWhile isBlank, ?_, rfl⟩
    rw [split, List.append_assoc, List.takeWhile_append_dropWhile]
  | noType => exact ⟨_, _, List.takeWhile_append_dropWhile.symm, rfl⟩

theorem byteLength_toList (s : String) : byteLength s.toList = s.utf8ByteSize := by
  have hlist : ∀ cs, byteLength cs = (String.ofList cs).utf8ByteSize := by
    intro cs
    induction cs with
    | nil => rfl
    | cons c cs ih =>
      rw [String.ofList_cons, String.utf8ByteSize_append, String.utf8ByteSize_singleton, ← ih,
        byteLength_cons]
  rw [hlist, String.ofList_toList]

/-- A text stops being a type at a place between two of its characters. -/
theorem Stops.isValid {s : String} {o : Nat} {word : String} (h : Stops s.toList o word) :
    o ≤ s.utf8ByteSize ∧ (⟨o⟩ : String.Pos.Raw).IsValid s := by
  obtain ⟨before, after, hsplit, rfl⟩ := h.exists_append
  have hs : s = String.ofList before ++ String.ofList after := by
    rw [← String.ofList_append, ← hsplit, String.ofList_toList]
  have hlength : byteLength before = (String.ofList before).utf8ByteSize := by
    rw [← byteLength_toList, String.toList_ofList]
  refine ⟨?_, String.Pos.Raw.isValid_iff_exists_append.mpr ⟨_, _, hs, ?_⟩⟩
  · rw [← byteLength_toList, hsplit, byteLength_append]
    exact Nat.le_add_right _ _
  · rw [hlength]
    rfl

/-! ### Tokens by their places -/

/-- Blanks in front are passed over. -/
theorem scan_blanks {blanks : List Char} (h : ∀ c ∈ blanks, isBlank c = true) (offset : Nat)
    (cs : List Char) : scan offset (blanks ++ cs) = scan (offset + byteLength blanks) cs := by
  induction blanks generalizing offset with
  | nil => rfl
  | cons c blanks ih =>
    obtain ⟨hc, hblanks⟩ := List.forall_mem_cons.mp h
    rw [List.cons_append, scan, if_pos hc, ih hblanks, byteLength_cons, Nat.add_assoc]

/-- The first token stands behind the blanks in front; where there is none, the blanks are all. -/
theorem offset_head?_scan (offset : Nat) (cs : List Char) :
    ((scan offset cs).head?.map Lexeme.offset).getD (offset + byteLength cs) =
      offset + byteLength (cs.takeWhile isBlank) := by
  fun_induction scan offset cs with
  | case1 => rfl
  | case2 offset c rest hc ih =>
    rw [List.takeWhile_cons_of_pos hc, byteLength_cons, byteLength_cons, ← Nat.add_assoc, ih,
      Nat.add_assoc]
  | case3 offset c rest hc => simp [hc]
  | case4 offset c rest hc => simp [hc]

/-- No token stands in front of the text. -/
theorem le_offset_of_mem_scan {l : Lexeme} (h : l ∈ scan offset cs) : offset ≤ l.offset := by
  fun_induction scan offset cs with
  | case1 => cases h
  | case2 offset c rest _ ih => exact Nat.le_of_add_right_le (ih h)
  | case3 offset c rest _ _ r ih =>
    cases h with
    | head => exact Nat.le_refl _
    | tail _ h => exact Nat.le_of_add_right_le (ih h)
  | case4 offset c rest _ _ ih =>
    cases h with
    | head => exact Nat.le_refl _
    | tail _ h => exact Nat.le_of_add_right_le (ih h)

/-- A name has no blanks. -/
theorem not_isBlank_of_mem_splitName {d : Char} (h : d ∈ (splitName cs).1) :
    isBlank d = false := by
  have hdot : isBlank '.' = false := by decide
  fun_induction splitName cs with
  | case1 | case2 | case4 | case6 => cases h
  | case3 c rest hc _ ih =>
    simp only [List.mem_cons] at h
    obtain rfl | rfl | h := h
    · exact hdot
    · exact not_isBlank_of_isNameStart hc
    · exact ih h
  | case5 c rest _ _ hc _ ih =>
    simp only [List.mem_cons] at h
    obtain rfl | h := h
    · exact eq_false_of_ne_true fun hblank => by simp [(isBlank_cases hblank).2.1] at hc
    · exact ih h

/-- The last of the characters of a name and of what follows is no blank if that of what follows
is none. -/
theorem not_isBlank_getLast?_name {c : Char} {rest : List Char} (hc : isNameStart c = true)
    (hcs : ∀ d ∈ cs.getLast?, isBlank d = false) :
    ∀ d ∈ (c :: (splitName rest).1 ++ cs).getLast?, isBlank d = false := by
  intro d hd
  rw [List.getLast?_append, Option.mem_def, Option.or_eq_some_iff] at hd
  obtain hd | ⟨-, hd⟩ := hd
  · exact hcs d hd
  · obtain rfl | hmem := List.mem_cons.mp (List.mem_of_getLast? hd)
    · exact not_isBlank_of_isNameStart hc
    · exact not_isBlank_of_mem_splitName hmem

/-- The first tokens of a text are those of a part in front, which ends with the last of them, and
the others are those of what follows the part. -/
theorem exists_of_scan_eq_append {lw rest : List Lexeme} (h : scan offset cs = lw ++ rest) :
    ∃ front behind, cs = front ++ behind ∧ Spells front (lw.map Lexeme.token) ∧
      (∀ c ∈ front.getLast?, isBlank c = false) ∧
      rest = scan (offset + byteLength front) behind := by
  have hnone : ∀ {offset cs}, scan offset cs = rest → ∃ front behind, cs = front ++ behind ∧
      Spells front [] ∧ (∀ c ∈ front.getLast?, isBlank c = false) ∧
      rest = scan (offset + byteLength front) behind :=
    fun h => ⟨[], _, rfl, .nil, by simp, h.symm⟩
  fun_induction scan offset cs generalizing lw
  case case1 offset =>
    obtain ⟨rfl, rfl⟩ := List.append_eq_nil_iff.mp h.symm
    exact ⟨[], [], rfl, .nil, by simp, by rw [scan]⟩
  case case2 offset c cs hc ih =>
    cases lw with
    | nil => exact hnone (by rw [scan, if_pos hc, h]; rfl)
    | cons l lw =>
      obtain ⟨front, behind, rfl, hspells, hlast, hrest⟩ := ih h
      refine ⟨c :: front, behind, rfl, .blank hc hspells, ?_, ?_⟩
      · cases front with
        | nil => cases hspells.eq_nil
        | cons d front => simpa [List.getLast?_cons] using hlast
      · rw [hrest, byteLength_cons, Nat.add_assoc]
  case case3 offset c cs hblank hc r ih =>
    cases lw with
    | nil => exact hnone (by rw [scan, if_neg hblank, if_pos hc]; exact h)
    | cons l lw =>
      obtain ⟨rfl, htail⟩ := List.cons.inj h
      obtain ⟨front, behind, hcs, hspells, hlast, hrest⟩ := ih htail
      have hname : IsName (String.ofList (c :: r.1)).toList := by
        simpa using @isName_splitName c [] hc (by simp) cs
      refine ⟨c :: r.1 ++ front, behind, ?_, ?_, not_isBlank_getLast?_name hc hlast, ?_⟩
      · rw [List.append_assoc, ← hcs, List.cons_append, splitName_append]
      · simpa using Spells.name hname hspells
      · rw [hrest, byteLength_append, Nat.add_assoc]
  case case4 offset c cs hblank hc ih =>
    cases lw with
    | nil => exact hnone (by rw [scan, if_neg hblank, if_neg hc]; exact h)
    | cons l lw =>
      obtain ⟨rfl, htail⟩ := List.cons.inj h
      obtain ⟨front, behind, rfl, hspells, hlast, hrest⟩ := ih htail
      refine ⟨c :: front, behind, rfl, .symbol hspells, ?_, ?_⟩
      · cases front with
        | nil => simpa using hblank
        | cons d front => simpa [List.getLast?_cons] using hlast
      · rw [hrest, byteLength_cons, Nat.add_assoc]

/-! ### Types as far as they go -/

/-- Suffixes end with a symbol. -/
theorem Suffixes.last (h : Suffixes t w u) : ∀ a ∈ w.getLast?, ∃ c, a = .symbol c := by
  have hcons : ∀ {c : Char} {w : List Token}, (∀ a ∈ w.getLast?, ∃ c, a = .symbol c) →
      ∀ a ∈ (Token.symbol c :: w).getLast?, ∃ c, a = .symbol c := by
    intro c w hw
    cases w with
    | nil => simp
    | cons b w => simpa [List.getLast?_cons] using hw
  induction h with
  | nil => simp
  | array _ ih => exact hcons (hcons ih)
  | nullable _ ih => exact hcons ih

/-- What derives a type without suffixes is a name alone or ends with a symbol. -/
theorem IsBase.name_or_symbol (h : IsBase w t) :
    (∃ name, w = [.name name]) ∨ ∀ a ∈ w.getLast?, ∃ c, a = .symbol c := by
  cases h with
  | tuple | generic => exact .inr (by simp [List.getLast?_cons])
  | marker | plain => exact .inl ⟨_, rfl⟩

/-- One token that derives a type is a name. -/
theorem IsBase.eq_name (h : IsBase w t) (hone : w.length = 1) : ∃ name, w = [.name name] := by
  cases h with
  | tuple | generic => simp at hone
  | marker | plain => exact ⟨_, rfl⟩

/-- What derives a type is a name alone or ends with a symbol. -/
theorem IsType.name_or_symbol (h : IsType w t) :
    (∃ name, w = [.name name]) ∨ ∀ a ∈ w.getLast?, ∃ c, a = .symbol c := by
  obtain @⟨w, v, t, u, hbase, hv⟩ := h
  obtain ⟨name, rfl⟩ | hlast := hbase.name_or_symbol
  · cases v with
    | nil => exact .inl ⟨name, rfl⟩
    | cons b v => exact .inr (by simpa [List.getLast?_cons] using hv.last)
  · refine .inr fun a ha => ?_
    rw [List.getLast?_append, Option.mem_def, Option.or_eq_some_iff] at ha
    obtain ha | ⟨-, ha⟩ := ha
    · exact hv.last a ha
    · exact hlast a ha

/-- Where no token is spelled and no blank stands at the end, there is nothing. -/
theorem Spells.eq_nil_of_last (h : Spells cs []) (hlast : ∀ c ∈ cs.getLast?, isBlank c = false) :
    cs = [] := by
  generalize hw : ([] : List Token) = w at h
  induction h with
  | nil => rfl
  | @blank c cs w hc _ ih =>
    cases cs with
    | nil => exact absurd (hlast c rfl) (by simp [hc])
    | cons d cs => exact absurd (ih (by simpa [List.getLast?_cons] using hlast) hw) (by simp)
  | name => cases hw
  | symbol => cases hw

/-- Where one name is spelled and no blank stands at the end, blanks and the name are all. -/
theorem Spells.exists_blanks {name : String} (h : Spells cs [.name name])
    (hlast : ∀ c ∈ cs.getLast?, isBlank c = false) :
    ∃ blanks, cs = blanks ++ name.toList ∧ (∀ c ∈ blanks, isBlank c = true) ∧
      IsName name.toList := by
  generalize hw : [Token.name name] = w at h
  induction h with
  | nil => cases hw
  | @blank c cs w hc h ih =>
    subst hw
    cases cs with
    | nil => cases h.eq_nil
    | cons d cs =>
      obtain ⟨blanks, hcs, hblanks, hname⟩ := ih (by simpa [List.getLast?_cons] using hlast) rfl
      exact ⟨c :: blanks, by rw [hcs, List.cons_append], List.forall_mem_cons.mpr ⟨hc, hblanks⟩,
        hname⟩
  | @name text cs w hname h =>
    cases hw
    have hrest : ∀ c ∈ cs.getLast?, isBlank c = false := by
      intro c hc
      exact hlast c (by simp [List.getLast?_append, Option.mem_def.mp hc])
    obtain rfl := h.eq_nil_of_last hrest
    exact ⟨[], List.append_nil _, by simp, hname⟩
  | symbol => cases hw

/-- The tokens of a text that begins with a type begin with those of a type that goes at least as
far. Only a name can go on behind its end. -/
theorem exists_scan_type (h : Spells cs w) (ht : IsType w t)
    (hlast : ∀ c ∈ cs.getLast?, isBlank c = false) (offset : Nat) (more : List Char) :
    ∃ front behind lw u, cs ++ more = front ++ behind ∧ cs.length ≤ front.length ∧
      (∀ c ∈ front.getLast?, isBlank c = false) ∧ IsType (lw.map Lexeme.token) u ∧
      scan offset (cs ++ more) = lw ++ scan (offset + byteLength front) behind := by
  obtain ⟨name, rfl⟩ | hsymbol := ht.name_or_symbol
  · obtain ⟨blanks, rfl, hblanks, hname⟩ := h.exists_blanks hlast
    obtain ⟨c, rest, hchars, hc, hsplit⟩ := hname.splitName_append
    rw [hchars]
    refine ⟨blanks ++ c :: (splitName (rest ++ more)).1, (splitName (rest ++ more)).2,
      [⟨offset + byteLength blanks, .name (String.ofList (c :: (splitName (rest ++ more)).1))⟩],
      _, ?_, ?_, ?_, .suffixed (isBase_ofName _) .nil, ?_⟩
    · rw [List.append_assoc, List.append_assoc, List.cons_append, List.cons_append,
        splitName_append]
    · simp [hsplit]
    · have hname := @not_isBlank_getLast?_name [] c (rest ++ more) hc (by simp)
      simpa [List.getLast?_append] using hname
    · rw [List.append_assoc, scan_blanks hblanks, List.cons_append, scan,
        if_neg (by simp [not_isBlank_of_isNameStart hc]), if_pos hc, byteLength_append,
        ← Nat.add_assoc]
      rfl
  · obtain ⟨lw, hlw, hscan⟩ := scan_append h ht.divided (fun a ha => .inl (hsymbol a ha)) offset
    exact ⟨cs, more, lw, t, rfl, Nat.le_refl _, hlast, hlw ▸ ht, hscan⟩

theorem exists_baseAt_name (fuel offset : Nat) (name : String) (rest : List Lexeme) :
    ∃ t after, baseAt (fuel + 1) (⟨offset, .name name⟩ :: rest) = some (t, after) := by
  unfold baseAt
  split
  · next heq => cases heq
  · split
    · exact ⟨_, _, rfl⟩
    · exact ⟨_, _, rfl⟩
  · exact ⟨_, _, rfl⟩
  · next hname => exact absurd rfl (hname fuel offset name rest rfl)

theorem IsType.length_pos (h : IsType w t) : 0 < w.length := by
  obtain ⟨hbase, hv⟩ := h
  rw [List.length_append]
  exact Nat.add_pos_left hbase.length_pos _

/-- At least the first token is taken where a type is read. -/
theorem length_lt_of_typeAt {fuel : Nat} {ls after : List Lexeme}
    (h : typeAt fuel ls = some (t, after)) : after.length < ls.length := by
  obtain ⟨lw, rfl, hw⟩ := typeAt_sound h
  have hpos := hw.length_pos
  rw [List.length_map] at hpos
  rw [List.length_append]
  omega

/-- Behind tokens that derive a type at most what follows them is left: whether or not arguments are
read, the name itself is taken. -/
theorem IsType.exists_typeAt {fuel : Nat} {lw : List Lexeme} (h : IsType w t)
    (hlw : lw.map Lexeme.token = w) (hfuel : 3 * w.length ≤ fuel) (rest : List Lexeme) :
    ∃ u after, TypeExpr.typeAt fuel (lw ++ rest) = some (u, after) ∧
      after.length ≤ rest.length := by
  obtain ⟨name, rfl⟩ | hlast := h.name_or_symbol
  · obtain ⟨offset, none, rfl, hnone⟩ := exists_of_map_token hlw
    obtain rfl := List.map_eq_nil_iff.mp hnone
    obtain ⟨fuel, rfl⟩ : ∃ n, fuel = n + 2 := ⟨fuel - 2, by simp at hfuel; omega⟩
    obtain ⟨u, more, hread⟩ := exists_baseAt_name fuel offset name rest
    have htype : TypeExpr.typeAt (fuel + 2) (⟨offset, .name name⟩ :: rest) =
        some (TypeExpr.suffixesAt u more) := by
      rw [TypeExpr.typeAt, hread, Option.map_some]
    exact ⟨_, _, htype, Nat.le_of_lt_succ (length_lt_of_typeAt htype)⟩
  · obtain @⟨w, v, u, _, hbase, hv⟩ := h
    obtain ⟨lb, lv, rfl, hlb, hlv⟩ := List.map_eq_append_iff.mp hlw
    have hpos := hbase.length_pos
    rw [List.length_append] at hfuel
    obtain ⟨fuel, rfl⟩ : ∃ n, fuel = n + 1 := ⟨fuel - 1, by omega⟩
    have hends : w.length = 1 → EndsBase (lv ++ rest) := by
      intro hone
      refine hv.endsBase hlv ?_
      rintro rfl
      obtain ⟨name, rfl⟩ := hbase.eq_name hone
      obtain ⟨c, hc⟩ := hlast (.name name) rfl
      cases hc
    have hfit : 3 * w.length ≤ fuel + 1 := by omega
    have hread := hbase.baseAt hlb hends hfit
    obtain ⟨taken, hrest, -⟩ := @suffixesAt_sound t _ rest _ rfl
    have htype : TypeExpr.typeAt (fuel + 1) (lb ++ lv ++ rest) =
        some (TypeExpr.suffixesAt t rest) := by
      rw [TypeExpr.typeAt, List.append_assoc, hread, Option.map_some, hv.suffixesAt_append hlv]
    have hlength := congrArg List.length hrest
    rw [List.length_append] at hlength
    exact ⟨_, _, htype, by omega⟩

/-! ### The place of an error -/

/-- Where something behind the first blanks is no blank, these are shorter than what ends there. -/
theorem byteLength_takeWhile_lt {front : List Char} (hfront : front ≠ [])
    (hlast : ∀ c ∈ front.getLast?, isBlank c = false) (behind : List Char) :
    byteLength ((front ++ behind).takeWhile isBlank) < byteLength front := by
  induction front with
  | nil => exact absurd rfl hfront
  | cons c front ih =>
    have hsize : 0 < c.utf8Size := Char.utf8Size_pos c
    rw [List.cons_append, byteLength_cons]
    by_cases hc : isBlank c = true
    · rw [List.takeWhile_cons_of_pos hc, byteLength_cons]
      cases front with
      | nil => exact absurd (hlast c rfl) (by simp [hc])
      | cons d front =>
        have hshorter := ih (by simp) (by simpa [List.getLast?_cons] using hlast)
        omega
    · rw [List.takeWhile_cons_of_neg hc, byteLength_nil]
      omega

/-- Blanks and a type spell what the type spells. -/
theorem OpensType.spells (h : OpensType cs) :
    ∃ w t, Spells cs w ∧ IsType w t ∧ ∀ c ∈ cs.getLast?, isBlank c = false := by
  obtain ⟨blanks, type, rfl, hblanks, ⟨w, t, hspells, htype⟩, -, hlast⟩ := h
  have hnil : type ≠ [] := by
    rintro rfl
    obtain rfl := hspells.eq_nil
    exact absurd htype.length_pos (Nat.lt_irrefl 0)
  refine ⟨w, t, ?_, htype, by rwa [List.getLast?_append_of_ne_nil _ hnil]⟩
  clear hlast
  induction blanks with
  | nil => exact hspells
  | cons c blanks ih =>
    obtain ⟨hc, hblanks⟩ := List.forall_mem_cons.mp hblanks
    exact .blank hc (ih hblanks)

/-- A beginning that is a type is read, and what is left then stands behind its end. -/
theorem OpensType.exists_typeAt {opening : List Char} (h : OpensType opening) {fuel : Nat}
    (hcs : opening <+: cs) (hfuel : 3 * (scan 0 cs).length ≤ fuel) :
    ∃ u after front behind, typeAt fuel (scan 0 cs) = some (u, after) ∧
      cs = front ++ behind ∧ opening.length ≤ front.length ∧
      (∀ c ∈ front.getLast?, isBlank c = false) ∧ after <:+ scan (byteLength front) behind := by
  obtain ⟨rest, rfl⟩ := hcs
  obtain ⟨w, t, hspells, htype, hlast⟩ := h.spells
  obtain ⟨front, behind, lw, u, hsplit, hlength, hfront, hlw, hscan⟩ :=
    exists_scan_type hspells htype hlast 0 rest
  rw [Nat.zero_add] at hscan
  have hfit : 3 * (lw.map Lexeme.token).length ≤ fuel := by
    rw [hscan, List.length_append] at hfuel
    rw [List.length_map]
    omega
  obtain ⟨v, after, hread, hafter⟩ := hlw.exists_typeAt rfl hfit (scan (byteLength front) behind)
  rw [← hscan] at hread
  obtain ⟨taken, htaken, -⟩ := typeAt_sound hread
  exact ⟨v, after, front, behind, hread, hsplit, hlength, hfront,
    List.suffix_of_suffix_length_le ⟨taken, htaken.symm⟩ ⟨lw, hscan.symm⟩ hafter⟩

/-- What is taken where a type is read is a beginning that is a type. -/
theorem exists_opensType {fuel : Nat} {after : List Lexeme}
    (h : typeAt fuel (scan 0 cs) = some (t, after)) :
    ∃ opening behind, cs = opening ++ behind ∧ OpensType opening ∧
      after = scan (byteLength opening) behind := by
  obtain ⟨lw, hscan, hlw⟩ := typeAt_sound h
  have hblanks : ∀ c ∈ cs.takeWhile isBlank, isBlank c = true := fun c => List.mem_takeWhile_imp
  rw [← List.takeWhile_append_dropWhile (p := isBlank) (l := cs), scan_blanks hblanks] at hscan
  obtain ⟨type, behind, hdrop, hspells, hlast, hafter⟩ := exists_of_scan_eq_append hscan
  refine ⟨cs.takeWhile isBlank ++ type, behind, ?_,
    ⟨_, type, rfl, hblanks, ⟨_, t, hspells, hlw⟩, ?_, hlast⟩, ?_⟩
  · rw [List.append_assoc, ← hdrop, List.takeWhile_append_dropWhile]
  · intro c hc
    have hhead := List.head?_dropWhile_not isBlank cs
    rw [hdrop] at hhead
    cases type with
    | nil => cases hc
    | cons d type =>
      cases hc
      exact hhead
  · rw [hafter, byteLength_append, Nat.zero_add]

/-- A text that is refused stops being a type where the error says, for the reason it says. The next
token stands behind the text up to there, with nothing but blanks in between. -/
theorem stops_of_parse {s : String} {e : ParseError} (h : parse s = .error e) :
    e.input = s ∧ Stops s.toList e.offset e.cause.word := by
  have hfuel : 3 * (scan 0 s.toList).length ≤ 3 * (scan 0 s.toList).length + 3 :=
    Nat.le_add_right _ _
  unfold parse ofTokens at h
  split at h
  · cases h
  · next t next tail hread =>
    cases h
    obtain ⟨opening, behind, hsplit, hopens, htail⟩ := exists_opensType hread
    have hoffset := offset_head?_scan (byteLength opening) behind
    rw [← htail, List.head?_cons, Option.map_some, Option.getD_some, ← byteLength_append]
      at hoffset
    refine ⟨rfl, ?_⟩
    show Stops s.toList next.offset "Eof"
    rw [hoffset]
    refine .leftover hsplit hopens fun other hother hothers => ?_
    obtain ⟨_, after, front, rest, hread', hsplit', hlength, hlast, hafter⟩ :=
      hothers.exists_typeAt hother hfuel
    obtain ⟨rfl, rfl⟩ : t = _ ∧ next :: tail = after := by simpa using hread.symm.trans hread'
    have hle : byteLength front ≤ next.offset :=
      le_offset_of_mem_scan (hafter.subset List.mem_cons_self)
    by_contra hlonger
    obtain ⟨more, rfl⟩ : opening <+: front :=
      List.prefix_of_prefix_length_le ⟨behind, hsplit.symm⟩ ⟨rest, hsplit'.symm⟩ (by omega)
    have hmore : more ≠ [] := by
      rintro rfl
      rw [List.append_nil] at hlength
      omega
    have hbehind : behind = more ++ rest := by
      simpa using hsplit.symm.trans hsplit'
    rw [List.getLast?_append_of_ne_nil _ hmore] at hlast
    have hlt := byteLength_takeWhile_lt hmore hlast rest
    rw [hoffset, hbehind, byteLength_append, byteLength_append] at hle
    omega
  · next hread =>
    cases h
    have hoffset := offset_head?_scan 0 s.toList
    rw [Nat.zero_add, Nat.zero_add, byteLength_toList] at hoffset
    refine ⟨rfl, ?_⟩
    show Stops s.toList _ "Satisfy"
    rw [hoffset]
    refine .noType fun opening hopening hopens => ?_
    obtain ⟨_, _, _, _, hread', -⟩ := hopens.exists_typeAt hopening hfuel
    cases hread.symm.trans hread'

theorem ParseCause.word_injective {a b : ParseCause} (h : a.word = b.word) : a = b := by
  cases a <;> cases b <;> first | rfl | exact absurd h (by decide)

/-- A text that is not a type is refused at the place where it stops being one, which lies between
two of its characters, and no other text is refused. -/
theorem parse_eq_error_iff (s : String) (e : ParseError) :
    parse s = .error e ↔ (¬ ∃ t, Denotes s t) ∧ e.input = s ∧
      Stops s.toList e.offset e.cause.word ∧ e.offset ≤ s.utf8ByteSize ∧
      (⟨e.offset⟩ : String.Pos.Raw).IsValid s := by
  constructor
  · intro h
    obtain ⟨hinput, hstops⟩ := stops_of_parse h
    refine ⟨?_, hinput, hstops, hstops.isValid⟩
    rintro ⟨t, ht⟩
    rw [parse_of_denotes ht] at h
    cases h
  · rintro ⟨hnone, hinput, hstops, -⟩
    cases hparse : parse s with
    | ok t => exact absurd ⟨t, denotes_of_parse hparse⟩ hnone
    | error e' =>
      obtain ⟨hinput', hstops'⟩ := stops_of_parse hparse
      obtain ⟨hoffset, hword⟩ := hstops'.unique hstops
      have hcause := ParseCause.word_injective hword
      cases e
      cases e'
      subst hinput hinput' hoffset hcause
      rfl

/-- An error points behind the longest type and the blanks after it, in bytes. -/
example : parse " Ä" = .error ⟨" Ä", 1, .noType⟩ ∧
    parse "A.B<C> >Ä" = .error ⟨"A.B<C> >Ä", 7, .leftover⟩ := by
  cbv

end Injector.TypeExpr

import Injector.Proofs.Json.Scalars

/-!
# Values of JSON as they are printed

A text writes a value when it is the value's tokens in their order, each after any blanks. Both ways
of printing write the value they print (`writes_compact`, `writes_pretty`), and whatever writes a
value is read as that value (`read?_of_writes`). Left out are fractions, integers beyond 64 bits,
and values that nest too deeply to be read.
-/

namespace Injector.Json

/-! ## Texts that write a value -/

/-- A value without fractions whose integers have at most 64 bits and in which no more containers
than `height` stand within each other. -/
inductive Plain : (height : Nat) → Json → Prop where
  /-- Nothing. -/
  | null {height : Nat} : Plain height .null
  /-- A truth value. -/
  | bool {height : Nat} (b : Bool) : Plain height (.bool b)
  /-- An integer. -/
  | integer {height : Nat} {n : Int} (h : IsWord n) : Plain height (.integer n)
  /-- A text. -/
  | string {height : Nat} (s : String) : Plain height (.string s)
  /-- A list. -/
  | array {height : Nat} {items : List Json} (h : ∀ item ∈ items, Plain height item) :
      Plain (height + 1) (.array items)
  /-- An object. -/
  | object {height : Nat} {members : List (String × Json)}
      (h : ∀ m ∈ members, Plain height m.2) : Plain (height + 1) (.object members)

/-- Blanks, of which any number may stand before a token. -/
def Blanks (cs : List Char) : Prop := ∀ c ∈ cs, isBlank c = true

mutual

/-- Whether characters write a value, with any blanks before each of its tokens. -/
inductive Writes : Json → List Char → Prop where
  /-- Nothing. -/
  | null {b : List Char} (hb : Blanks b) : Writes .null (b ++ "null".toList)
  /-- A truth value. -/
  | bool {b : List Char} (hb : Blanks b) (v : Bool) : Writes (.bool v) (b ++ (boolText v).toList)
  /-- An integer. -/
  | integer {b : List Char} (hb : Blanks b) (n : Int) :
      Writes (.integer n) (b ++ (toString n).toList)
  /-- A text. -/
  | string {b : List Char} (hb : Blanks b) (s : String) :
      Writes (.string s) (b ++ (quoted s).toList)
  /-- A list without items. -/
  | emptyArray {b b' : List Char} (hb : Blanks b) (hb' : Blanks b') :
      Writes (.array []) (b ++ '[' :: (b' ++ [']']))
  /-- A list with items. -/
  | array {item : Json} {items : List Json} {b b' cs ds : List Char} (hb : Blanks b)
      (hb' : Blanks b') (h : Writes item cs) (hs : WritesItems items ds) :
      Writes (.array (item :: items)) (b ++ '[' :: (cs ++ (ds ++ (b' ++ [']']))))
  /-- An object without members. -/
  | emptyObject {b b' : List Char} (hb : Blanks b) (hb' : Blanks b') :
      Writes (.object []) (b ++ '{' :: (b' ++ ['}']))
  /-- An object with members. -/
  | object {key : String} {value : Json} {members : List (String × Json)}
      {b₁ b₂ b₃ b₄ cs ds : List Char} (hb₁ : Blanks b₁) (hb₂ : Blanks b₂) (hb₃ : Blanks b₃)
      (hb₄ : Blanks b₄) (h : Writes value cs) (hs : WritesMembers members ds) :
      Writes (.object ((key, value) :: members))
        (b₁ ++ '{' :: (b₂ ++ ((quoted key).toList ++
          (b₃ ++ ':' :: (cs ++ (ds ++ (b₄ ++ ['}'])))))))

/-- Whether characters write the items of a list after the first. -/
inductive WritesItems : List Json → List Char → Prop where
  /-- No further item. -/
  | nil : WritesItems [] []
  /-- A further item after a comma. -/
  | cons {item : Json} {items : List Json} {b cs ds : List Char} (hb : Blanks b)
      (h : Writes item cs) (hs : WritesItems items ds) :
      WritesItems (item :: items) (b ++ ',' :: (cs ++ ds))

/-- Whether characters write the members of an object after the first. -/
inductive WritesMembers : List (String × Json) → List Char → Prop where
  /-- No further member. -/
  | nil : WritesMembers [] []
  /-- A further member after a comma. -/
  | cons {key : String} {value : Json} {members : List (String × Json)}
      {b b' b'' cs ds : List Char} (hb : Blanks b) (hb' : Blanks b') (hb'' : Blanks b'')
      (h : Writes value cs) (hs : WritesMembers members ds) :
      WritesMembers ((key, value) :: members)
        (b ++ ',' :: (b' ++ ((quoted key).toList ++ (b'' ++ ':' :: (cs ++ ds)))))

end

/-! ## What is printed -/

theorem Blanks.nil : Blanks [] := by
  simp [Blanks]

/-- Blanks after blanks are blanks. -/
theorem Blanks.append {b b' : List Char} (h : Blanks b) (h' : Blanks b') : Blanks (b ++ b') :=
  fun c hc => (List.mem_append.mp hc).elim (h c) (h' c)

theorem blanks_space : Blanks [' '] := by
  simp [Blanks, isBlank]

/-- An indentation is made of blanks. -/
theorem blanks_indent (level : Nat) : Blanks (indent level).toList := by
  intro c hc
  have hspace : c = ' ' := List.eq_of_mem_replicate (by simpa [indent] using hc)
  subst hspace
  decide

/-- A new line and its indentation are blanks. -/
theorem blanks_newLine (level : Nat) : Blanks ('\n' :: (indent level).toList) :=
  Blanks.append (b := ['\n']) (by simp [Blanks, isBlank]) (blanks_indent level)

/-- A text that writes a value still does after further blanks. -/
theorem Writes.after {j : Json} {cs b : List Char} (hb : Blanks b) (h : Writes j cs) :
    Writes j (b ++ cs) := by
  cases h with
  | null hb' => simpa using Writes.null (hb.append hb')
  | bool hb' v => simpa using Writes.bool (hb.append hb') v
  | integer hb' n => simpa using Writes.integer (hb.append hb') n
  | string hb' s => simpa using Writes.string (hb.append hb') s
  | emptyArray hb₁ hb₂ => simpa using Writes.emptyArray (hb.append hb₁) hb₂
  | array hb₁ hb₂ h hs => simpa using Writes.array (hb.append hb₁) hb₂ h hs
  | emptyObject hb₁ hb₂ => simpa using Writes.emptyObject (hb.append hb₁) hb₂
  | object hb₁ hb₂ hb₃ hb₄ h hs =>
      simpa using Writes.object (hb.append hb₁) hb₂ hb₃ hb₄ h hs

/-- Items are written one after the other in the compact form. -/
theorem writesItems_compact {items : List Json}
    (h : ∀ item ∈ items, Writes item item.compact.toList) :
    WritesItems items (compactItems items).toList := by
  induction items with
  | nil => exact .nil
  | cons item items ih =>
      obtain ⟨hfirst, hothers⟩ := List.forall_mem_cons.mp h
      simpa [compactItems] using WritesItems.cons .nil hfirst (ih hothers)

/-- Members are written one after the other in the compact form. -/
theorem writesMembers_compact {members : List (String × Json)}
    (h : ∀ m ∈ members, Writes m.2 m.2.compact.toList) :
    WritesMembers members (compactMembers members).toList := by
  induction members with
  | nil => exact .nil
  | cons m members ih =>
      obtain ⟨hfirst, hothers⟩ := List.forall_mem_cons.mp h
      simpa [compactMembers] using WritesMembers.cons .nil .nil .nil hfirst (ih hothers)

/-- The value on one line writes the value. -/
theorem writes_compact {height : Nat} {j : Json} (hj : Plain height j) :
    Writes j j.compact.toList := by
  induction hj with
  | null => exact .null .nil
  | bool b => exact .bool .nil b
  | integer _ => exact .integer .nil _
  | string s => simpa [compact] using Writes.string .nil s
  | @array _ items _ ih =>
      cases items with
      | nil => exact .emptyArray .nil .nil
      | cons item items =>
          obtain ⟨hfirst, hothers⟩ := List.forall_mem_cons.mp ih
          simpa [compact] using Writes.array .nil .nil hfirst (writesItems_compact hothers)
  | @object _ members _ ih =>
      cases members with
      | nil => exact .emptyObject .nil .nil
      | cons m members =>
          obtain ⟨hfirst, hothers⟩ := List.forall_mem_cons.mp ih
          simpa [compact] using
            Writes.object .nil .nil .nil .nil hfirst (writesMembers_compact hothers)

/-- Items are written one below the other in the indented form. -/
theorem writesItems_prettyAt {items : List Json}
    (h : ∀ item ∈ items, ∀ level, Writes item (item.prettyAt level).toList) (level : Nat) :
    WritesItems items (prettyItems level items).toList := by
  induction items with
  | nil => exact .nil
  | cons item items ih =>
      obtain ⟨hfirst, hothers⟩ := List.forall_mem_cons.mp h
      have hitem := (hfirst (level + 1)).after (blanks_newLine (level + 1))
      simpa [prettyItems] using WritesItems.cons .nil hitem (ih hothers)

/-- Members are written one below the other in the indented form. -/
theorem writesMembers_prettyAt {members : List (String × Json)}
    (h : ∀ m ∈ members, ∀ level, Writes m.2 (m.2.prettyAt level).toList) (level : Nat) :
    WritesMembers members (prettyMembers level members).toList := by
  induction members with
  | nil => exact .nil
  | cons m members ih =>
      obtain ⟨hfirst, hothers⟩ := List.forall_mem_cons.mp h
      have hvalue := (hfirst (level + 1)).after blanks_space
      simpa [prettyMembers] using
        WritesMembers.cons .nil (blanks_newLine (level + 1)) .nil hvalue (ih hothers)

/-- The value on several lines, at whatever level it stands, writes the value. -/
theorem writes_prettyAt {height : Nat} {j : Json} (hj : Plain height j) :
    ∀ level, Writes j (j.prettyAt level).toList := by
  induction hj with
  | null => exact fun _ => .null .nil
  | bool b => exact fun _ => .bool .nil b
  | integer _ => exact fun _ => .integer .nil _
  | string s =>
      intro level
      simpa [prettyAt] using Writes.string .nil s
  | @array _ items _ ih =>
      intro level
      cases items with
      | nil => simpa [prettyAt] using Writes.emptyArray .nil .nil
      | cons item items =>
          obtain ⟨hfirst, hothers⟩ := List.forall_mem_cons.mp ih
          have hitem := (hfirst (level + 1)).after (blanks_newLine (level + 1))
          simpa [prettyAt] using
            Writes.array .nil (blanks_newLine level) hitem (writesItems_prettyAt hothers level)
  | @object _ members _ ih =>
      intro level
      cases members with
      | nil => simpa [prettyAt] using Writes.emptyObject .nil .nil
      | cons m members =>
          obtain ⟨hfirst, hothers⟩ := List.forall_mem_cons.mp ih
          have hvalue := (hfirst (level + 1)).after blanks_space
          simpa [prettyAt] using
            Writes.object .nil (blanks_newLine (level + 1)) .nil (blanks_newLine level) hvalue
              (writesMembers_prettyAt hothers level)

/-- The value with its parts on lines of their own writes the value. -/
theorem writes_pretty {height : Nat} {j : Json} (hj : Plain height j) :
    Writes j j.pretty.toList :=
  writes_prettyAt hj 0

/-! ## Reading what writes a value -/

/-- All blanks before another character are skipped. -/
theorem skipBlanks_blanks {b : List Char} (hb : Blanks b) {c : Char} (hc : isBlank c = false)
    (cs : List Char) : skipBlanks (b ++ c :: cs) = c :: cs := by
  rw [skipBlanks, List.dropWhile_append_of_pos hb, List.dropWhile_cons_of_neg (by simp [hc])]

/-- Blanks before a value are skipped. -/
theorem valueIn_skipBlanks (fuel depth : Nat) (containers : List Container) (cs : List Char) :
    valueIn fuel depth containers (skipBlanks cs) = valueIn fuel depth containers cs := by
  have htwice : skipBlanks (skipBlanks cs) = skipBlanks cs := by
    induction cs with
    | nil => rfl
    | cons c cs ih =>
        cases hc : isBlank c with
        | true => simpa [skipBlanks, hc] using ih
        | false => simp [skipBlanks, hc]
  cases fuel with
  | zero => simp [valueIn]
  | succ fuel => simp only [valueIn, htwice]

/-- A number ends before blanks and a comma or a closing bracket. -/
theorem endsNumber_blanks {b : List Char} (hb : Blanks b) {c : Char} (hc : c ∈ [',', ']', '}'])
    (cs : List Char) : EndsNumber (b ++ c :: cs) := by
  cases b with
  | nil =>
      apply EndsNumber.cons
      have hthree : c = ',' ∨ c = ']' ∨ c = '}' := by simpa using hc
      rcases hthree with rfl | rfl | rfl <;> decide
  | cons d b =>
      apply EndsNumber.cons
      have hd : isBlank d = true := hb d (by simp)
      have hfour : d = ' ' ∨ d = '\n' ∨ d = '\t' ∨ d = '\r' := by simpa [isBlank, or_assoc] using hd
      rcases hfour with rfl | rfl | rfl | rfl <;> decide

/-- A value that is no container is read by its first character. -/
theorem valueIn_scalar (fuel depth : Nat) (containers : List Container) {b : List Char}
    (hb : Blanks b) {c : Char} {cs rest : List Char} {d : Datum} (hc : isBlank c = false)
    (hlist : c ≠ '[') (hobject : c ≠ '{') (h : scalarAt fuel (c :: cs) = some (d, rest)) :
    valueIn (fuel + 1) depth containers (b ++ c :: cs) = restOf fuel depth containers d rest := by
  rw [valueIn, skipBlanks_blanks hb hc]
  split
  · next heq => exact absurd (List.cons.inj heq).1 hlist
  · next heq => exact absurd (List.cons.inj heq).1 hobject
  · rw [h]

/-- A minus or a digit is no blank and no bracket. -/
theorem not_bracket {c : Char} (h : c = '-' ∨ c.isDigit = true) :
    isBlank c = false ∧ c ≠ '[' ∧ c ≠ '{' ∧ c ≠ ']' ∧ c ≠ '}' := by
  have hne : ∀ d : Char, d ≠ '-' → d.isDigit = false → c ≠ d := by
    rintro d hminus hdigit rfl
    simp [hminus, hdigit] at h
  have hblank : isBlank c = false := by
    simp [isBlank, hne ' ' (by decide) (by decide), hne '\n' (by decide) (by decide),
      hne '\t' (by decide) (by decide), hne '\r' (by decide) (by decide)]
  exact ⟨hblank, hne _ (by decide) (by decide), hne _ (by decide) (by decide),
    hne _ (by decide) (by decide), hne _ (by decide) (by decide)⟩

/-- A text that writes a value begins, after blanks, with a character that closes nothing. -/
theorem Writes.first {j : Json} {cs : List Char} (h : Writes j cs) :
    ∃ b c ds, cs = b ++ c :: ds ∧ Blanks b ∧ isBlank c = false ∧ c ≠ ']' ∧ c ≠ '}' := by
  cases h with
  | null hb => exact ⟨_, 'n', _, rfl, hb, by decide⟩
  | bool hb v => cases v <;> exact ⟨_, _, _, rfl, hb, by decide⟩
  | integer hb n =>
      obtain ⟨c, ds, hcs, hc⟩ := first_integer n
      obtain ⟨hblank, -, -, hlist, hobject⟩ := not_bracket hc
      exact ⟨_, c, ds, by rw [hcs], hb, hblank, hlist, hobject⟩
  | string hb s => exact ⟨_, '"', _, by rw [toList_quoted], hb, by decide⟩
  | emptyArray hb _ => exact ⟨_, '[', _, rfl, hb, by decide⟩
  | array hb _ _ _ => exact ⟨_, '[', _, rfl, hb, by decide⟩
  | emptyObject hb _ => exact ⟨_, '{', _, rfl, hb, by decide⟩
  | object hb _ _ _ _ _ => exact ⟨_, '{', _, rfl, hb, by decide⟩

/-- A list is open once its bracket and the beginning of an item were seen. -/
theorem valueIn_open_list (fuel depth : Nat) (containers : List Container) {b : List Char}
    (hb : Blanks b) {item : Json} {cs : List Char} (h : Writes item cs) (rest : List Char) :
    valueIn (fuel + 1) depth containers (b ++ '[' :: (cs ++ rest)) =
      valueIn fuel (depth + 1) (.list [] :: containers) (cs ++ rest) := by
  obtain ⟨b', c, ds, rfl, hb', hblank, hclose, -⟩ := h.first
  have hskip : skipBlanks (b' ++ c :: ds ++ rest) = c :: (ds ++ rest) := by
    rw [List.append_assoc, List.cons_append, skipBlanks_blanks hb' hblank]
  rw [valueIn, skipBlanks_blanks hb (by decide)]
  simp only [hskip]
  split
  · next heq => exact absurd (List.cons.inj heq).1 hclose
  · rw [← hskip, valueIn_skipBlanks]

/-- A key, printed between quotes, is read up to the colon after it. -/
theorem keyAt_quoted (key : String) {fuel : Nat} {b b' : List Char} (hb : Blanks b)
    (hb' : Blanks b') (hf : (quoted key).toList.length ≤ fuel) (rest : List Char) :
    keyAt fuel (b ++ ((quoted key).toList ++ (b' ++ ':' :: rest))) = some (.text key, rest) := by
  have hlength : key.toList.length < fuel := by
    have h := length_le_flatMap_escape key.toList
    simp only [toList_quoted, List.length_cons, List.length_append] at hf
    omega
  simp only [toList_quoted, List.cons_append, List.append_assoc, List.nil_append]
  rw [keyAt, skipBlanks_blanks hb (by decide)]
  simp only [textAt_quoted key hlength, Option.bind_some,
    skipBlanks_blanks hb' (show isBlank ':' = false by decide)]

/-- An object is open once its bracket and its first key were read. -/
theorem valueIn_open_object (fuel depth : Nat) (containers : List Container) {b b' b'' : List Char}
    (hb : Blanks b) (hb' : Blanks b') (hb'' : Blanks b'') (key : String)
    (hf : (quoted key).toList.length ≤ fuel) (rest : List Char) :
    valueIn (fuel + 1) depth containers
        (b ++ '{' :: (b' ++ ((quoted key).toList ++ (b'' ++ ':' :: rest)))) =
      valueIn fuel (depth + 1) (.object [] (.text key) :: containers) rest := by
  have hkey := keyAt_quoted key .nil hb'' hf rest
  simp only [toList_quoted, List.cons_append, List.append_assoc, List.nil_append] at hkey ⊢
  rw [valueIn, skipBlanks_blanks hb (by decide)]
  simp [skipBlanks_blanks hb' (show isBlank '"' = false by decide), hkey]

/-- After the items of a list a number ends. -/
theorem WritesItems.endsNumber {items : List Json} {ds b : List Char} (h : WritesItems items ds)
    (hb : Blanks b) (rest : List Char) : EndsNumber (ds ++ (b ++ ']' :: rest)) := by
  cases h with
  | nil => exact endsNumber_blanks hb (by simp) rest
  | cons hb' _ _ =>
      rw [List.append_assoc]
      exact endsNumber_blanks hb' (by simp) _

/-- After the members of an object a number ends. -/
theorem WritesMembers.endsNumber {members : List (String × Json)} {ds b : List Char}
    (h : WritesMembers members ds) (hb : Blanks b) (rest : List Char) :
    EndsNumber (ds ++ (b ++ '}' :: rest)) := by
  cases h with
  | nil => exact endsNumber_blanks hb (by simp) rest
  | cons hb' _ _ _ _ =>
      rw [List.append_assoc]
      exact endsNumber_blanks hb' (by simp) _

/-- A container that is not too deep stands for what was read. -/
theorem nested_eq {depth : Nat} (h : depth + 1 < maxDepth) (d : Datum) : nested depth d = d :=
  if_pos h

mutual

/-- A value that is written is read, and reading goes on with what follows it. -/
theorem valueIn_writes {height : Nat} {j : Json} {cs : List Char} (hw : Writes j cs)
    (hj : Plain height j) (fuel : Nat) {depth : Nat} (hd : depth + height < maxDepth)
    (containers : List Container) {rest : List Char} (hr : EndsNumber rest)
    (hf : (cs ++ rest).length < fuel) :
    ∃ left, rest.length < left ∧ valueIn fuel depth containers (cs ++ rest) =
      restOf left depth containers (.ofJson j) rest := by
  obtain ⟨fuel, rfl⟩ := Nat.exists_eq_add_one_of_ne_zero (Nat.ne_zero_of_lt hf)
  cases hw with
  | null hb =>
      refine ⟨fuel, by simp at hf; omega, ?_⟩
      rw [List.append_assoc]
      exact valueIn_scalar fuel depth containers hb (by decide) (by decide) (by decide) rfl
  | bool hb v =>
      refine ⟨fuel, by cases v <;> simp [boolText] at hf <;> omega, ?_⟩
      rw [List.append_assoc]
      cases v <;>
        exact valueIn_scalar fuel depth containers hb (by decide) (by decide) (by decide) rfl
  | integer hb n =>
      cases hj with
      | integer hn =>
      obtain ⟨c, ds, hcs, hc⟩ := first_integer n
      obtain ⟨hblank, hlist, hobject, -, -⟩ := not_bracket hc
      have hread := scalarAt_integer fuel hn hr
      rw [hcs] at hread hf ⊢
      refine ⟨fuel, by simp at hf; omega, ?_⟩
      rw [List.append_assoc]
      exact valueIn_scalar fuel depth containers hb hblank hlist hobject hread
  | string hb s =>
      have hlength := length_le_flatMap_escape s.toList
      rw [toList_quoted] at hf ⊢
      simp only [List.length_append, List.length_cons, List.length_nil] at hf
      refine ⟨fuel, by omega, ?_⟩
      have hfit : s.toList.length < fuel := by omega
      have hread := textAt_quoted s hfit rest
      rw [List.append_assoc]
      refine valueIn_scalar fuel depth containers hb (by decide) (by decide) (by decide) ?_
      simpa [scalarAt, Datum.ofJson] using hread
  | emptyArray hb hb' =>
      cases hj with
      | array _ =>
      refine ⟨fuel, by simp at hf; omega, ?_⟩
      simp only [List.append_assoc, List.cons_append, List.nil_append]
      rw [valueIn, skipBlanks_blanks hb (by decide)]
      simp [skipBlanks_blanks hb' (show isBlank ']' = false by decide),
        nested_eq (show depth + 1 < maxDepth by omega), Datum.ofJson, Datum.ofItems]
  | array hb hb' h hs =>
      cases hj with
      | array hitems =>
      obtain ⟨hfirst, hothers⟩ := List.forall_mem_cons.mp hitems
      simp only [List.append_assoc, List.cons_append, List.nil_append] at hf ⊢
      obtain ⟨left, hleft, hitem⟩ := valueIn_writes h hfirst fuel
        (show depth + 1 + _ < maxDepth by omega) (.list [] :: containers)
        (hs.endsNumber hb' rest) (by simp at hf ⊢; omega)
      obtain ⟨left', hleft', hrest⟩ :=
        restOf_writesItems hs hothers hd containers [] _ hb' hleft
      refine ⟨left', hleft', ?_⟩
      rw [valueIn_open_list fuel depth containers hb h, hitem, hrest]
      simp [Datum.ofJson, Datum.ofItems]
  | emptyObject hb hb' =>
      cases hj with
      | object _ =>
      refine ⟨fuel, by simp at hf; omega, ?_⟩
      simp only [List.append_assoc, List.cons_append, List.nil_append]
      rw [valueIn, skipBlanks_blanks hb (by decide)]
      simp [skipBlanks_blanks hb' (show isBlank '}' = false by decide),
        nested_eq (show depth + 1 < maxDepth by omega), Datum.ofJson, Datum.ofMembers]
  | object hb₁ hb₂ hb₃ hb₄ h hs =>
      cases hj with
      | object hmembers =>
      obtain ⟨hfirst, hothers⟩ := List.forall_mem_cons.mp hmembers
      simp only [List.append_assoc, List.cons_append, List.nil_append] at hf ⊢
      simp only [List.length_append, List.length_cons] at hf
      obtain ⟨left, hleft, hvalue⟩ := valueIn_writes h hfirst fuel
        (show depth + 1 + _ < maxDepth by omega) (.object [] (.text _) :: containers)
        (hs.endsNumber hb₄ rest) (by simp; omega)
      obtain ⟨left', hleft', hrest⟩ :=
        restOf_writesMembers hs hothers hd containers [] _ _ hb₄ hleft
      refine ⟨left', hleft', ?_⟩
      rw [valueIn_open_object fuel depth containers hb₁ hb₂ hb₃ _ (by omega), hvalue, hrest]
      simp [Datum.ofJson, Datum.ofMembers]

/-- The further items of a list are read, and reading goes on after the list. -/
theorem restOf_writesItems {height : Nat} {items : List Json} {ds : List Char}
    (hw : WritesItems items ds) (hitems : ∀ item ∈ items, Plain height item) {fuel depth : Nat}
    (hd : depth + (height + 1) < maxDepth) (containers : List Container) (read : List Datum)
    (d : Datum) {b rest : List Char} (hb : Blanks b)
    (hf : (ds ++ (b ++ ']' :: rest)).length < fuel) :
    ∃ left, rest.length < left ∧
      restOf fuel (depth + 1) (.list read :: containers) d (ds ++ (b ++ ']' :: rest)) =
        restOf left depth containers (.list (read.reverse ++ d :: Datum.ofItems items)) rest := by
  obtain ⟨fuel, rfl⟩ := Nat.exists_eq_add_one_of_ne_zero (Nat.ne_zero_of_lt hf)
  cases hw with
  | nil =>
      refine ⟨fuel, by simp at hf; omega, ?_⟩
      rw [List.nil_append, restOf, skipBlanks_blanks hb (by decide)]
      simp [nested_eq (show depth + 1 < maxDepth by omega), Datum.ofItems]
  | cons hb' h hs =>
      obtain ⟨hfirst, hothers⟩ := List.forall_mem_cons.mp hitems
      simp only [List.append_assoc, List.cons_append] at hf ⊢
      obtain ⟨left, hleft, hitem⟩ := valueIn_writes h hfirst fuel
        (show depth + 1 + _ < maxDepth by omega) (.list (d :: read) :: containers)
        (hs.endsNumber hb rest) (by simp at hf ⊢; omega)
      obtain ⟨left', hleft', hrest⟩ :=
        restOf_writesItems hs hothers hd containers (d :: read) _ hb hleft
      refine ⟨left', hleft', ?_⟩
      rw [restOf, skipBlanks_blanks hb' (by decide)]
      simp only
      rw [hitem, hrest]
      simp [Datum.ofItems]

/-- The further members of an object are read, and reading goes on after the object. -/
theorem restOf_writesMembers {height : Nat} {members : List (String × Json)} {ds : List Char}
    (hw : WritesMembers members ds) (hmembers : ∀ m ∈ members, Plain height m.2)
    {fuel depth : Nat} (hd : depth + (height + 1) < maxDepth) (containers : List Container)
    (read : List (Datum × Datum)) (key d : Datum) {b rest : List Char} (hb : Blanks b)
    (hf : (ds ++ (b ++ '}' :: rest)).length < fuel) :
    ∃ left, rest.length < left ∧
      restOf fuel (depth + 1) (.object read key :: containers) d (ds ++ (b ++ '}' :: rest)) =
        restOf left depth containers
          (.map (read.reverse ++ (key, d) :: Datum.ofMembers members)) rest := by
  obtain ⟨fuel, rfl⟩ := Nat.exists_eq_add_one_of_ne_zero (Nat.ne_zero_of_lt hf)
  cases hw with
  | nil =>
      refine ⟨fuel, by simp at hf; omega, ?_⟩
      rw [List.nil_append, restOf, skipBlanks_blanks hb (by decide)]
      simp [nested_eq (show depth + 1 < maxDepth by omega), Datum.ofMembers]
  | @cons next _ _ _ _ _ _ _ hb₁ hb₂ hb₃ h hs =>
      obtain ⟨hfirst, hothers⟩ := List.forall_mem_cons.mp hmembers
      simp only [List.append_assoc, List.cons_append] at hf ⊢
      simp only [List.length_append, List.length_cons] at hf
      obtain ⟨left, hleft, hvalue⟩ := valueIn_writes h hfirst fuel
        (show depth + 1 + _ < maxDepth by omega)
        (.object ((key, d) :: read) (.text next) :: containers)
        (hs.endsNumber hb rest) (by simp; omega)
      obtain ⟨left', hleft', hrest⟩ :=
        restOf_writesMembers hs hothers hd containers ((key, d) :: read) _ _ hb hleft
      refine ⟨left', hleft', ?_⟩
      rw [restOf, skipBlanks_blanks hb₁ (by decide)]
      have hfit : (quoted next).toList.length ≤ fuel := by omega
      have hkey := keyAt_quoted next hb₂ hb₃ hfit
      simp only [hkey, hvalue]
      rw [hrest]
      simp [Datum.ofMembers]

end

/-- What writes a value is read as that value. -/
theorem read?_of_writes {height : Nat} {j : Json} {text : String} (hw : Writes j text.toList)
    (hj : Plain height j) (hheight : height < maxDepth) : read? text = some (.ofJson j) := by
  have hdepth : 0 + height < maxDepth := by omega
  have hfit : (text.toList ++ []).length < text.toList.length + 2 := by simp
  obtain ⟨left, -, hread⟩ := valueIn_writes hw hj _ hdepth [] .nil hfit
  rw [List.append_nil] at hread
  cases left <;> simp [read?, hread, restOf, skipBlanks]

/-- The values that readable items say are readable. -/
theorem areReadable_ofItems {items : List Json}
    (h : ∀ item ∈ items, (Datum.ofJson item).isReadable = true) :
    Datum.areReadable (Datum.ofItems items) = true := by
  induction items with
  | nil => rfl
  | cons item items ih =>
      obtain ⟨hfirst, hothers⟩ := List.forall_mem_cons.mp h
      simp [Datum.ofItems, Datum.areReadable, hfirst, ih hothers]

/-- The pairs that readable members say are readable. -/
theorem haveReadable_ofMembers {members : List (String × Json)}
    (h : ∀ m ∈ members, (Datum.ofJson m.2).isReadable = true) :
    Datum.haveReadable (Datum.ofMembers members) = true := by
  induction members with
  | nil => rfl
  | cons m members ih =>
      obtain ⟨hfirst, hothers⟩ := List.forall_mem_cons.mp h
      simp [Datum.ofMembers, Datum.haveReadable, Datum.isReadable, hfirst, ih hothers]

/-- A plain value stands for something in all its parts. -/
theorem Plain.isReadable {height : Nat} {j : Json} (hj : Plain height j) :
    (Datum.ofJson j).isReadable = true := by
  induction hj with
  | null => rfl
  | bool _ => rfl
  | @integer _ n _ => cases n <;> rfl
  | string _ => rfl
  | array _ ih => exact areReadable_ofItems ih
  | object _ ih => exact haveReadable_ofMembers ih

end Injector.Json

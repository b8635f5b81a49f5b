import Injector.Table.Merge
import Mathlib.Algebra.GroupWithZero.Nat

/-!
# Declarations of a merged table

The bindings of a merged table are those of its setups, one setup after the other, each at its
position. What a table tells of a contract (its active binding, its place among the active
contracts, its shadowings) is read off the list of the bindings that declare it, however often each
of them does. The main statement is that a merge leads to such a table.
-/

namespace Injector

/-- The tags that a binding declares as unique. -/
def Binding.uniqueTags (b : Binding) : Nat := (b.contracts.flatMap ContractSpec.tags).count .unique

namespace Table

/-! ### Numbers of unique tags -/

/-- As many numbers are used up as there are tags declared as unique for a type. -/
theorem tagged_next (type : TypeExpr) (next : Nat) (tags : List TagSpec) :
    (tagged type next tags).2 = next + tags.count .unique := by
  induction tags generalizing next with
  | nil => rfl
  | cons tag tags ih =>
    cases tag with
    | value s => simpa [tagged] using ih next
    | any => simpa [tagged] using ih next
    | unique =>
      have hrest := ih (next + 1)
      simp only [tagged, List.count_cons_self]
      omega

/-- As many numbers are used up as there are tags declared as unique for the contracts of a binding.
-/
theorem declared_next (markers : List String) (next : Nat) (specs : List ContractSpec) :
    (declared markers next specs).2 = next + (specs.flatMap ContractSpec.tags).count .unique := by
  induction specs generalizing next with
  | nil => rfl
  | cons spec specs ih =>
    rw [declared, List.flatMap_cons, List.count_append, ← Nat.add_assoc]
    by_cases hempty : spec.tags.isEmpty
    · have htags : spec.tags = [] := List.isEmpty_iff.mp hempty
      simpa [htags] using ih next
    · simpa [hempty, tagged_next] using ih (next + spec.tags.count .unique)

/-- As many numbers are used up as a binding declares unique tags. -/
theorem register_next (setup : Setup) (next : Nat) (b : Binding) :
    (register setup next b).2 = next + b.uniqueTags :=
  declared_next setup.markers next b.contracts

/-- Bindings enter a table one by one, with unique tags numbered on from those before. -/
theorem getElem?_registerAll (next : Nat) (entries : List (Setup × Binding)) (i : Nat) :
    (registerAll next entries)[i]? = entries[i]?.map fun entry =>
      (register entry.1 (next + ((entries.take i).map fun e => e.2.uniqueTags).sum) entry.2).1 := by
  induction entries generalizing next i with
  | nil => rfl
  | cons entry rest ih =>
    cases i with
    | zero => rfl
    | succ i =>
      rw [registerAll, List.getElem?_cons_succ, ih, register_next]
      simp [Nat.add_assoc]

/-! ### Bindings that declare a contract -/

/-- Every declaration of a contract by bindings that are numbered from `start` on. -/
def declarationsFrom (start : Nat) (bindings : List Registration) : List (Contract × BindingId) :=
  (bindings.zipIdx start).flatMap fun b => b.1.contracts.map fun c => (c, b.2)

/-- The bindings that declare a contract, of those that are numbered from `start` on. -/
def declaringFrom (start : Nat) (bindings : List Registration) (c : Contract) : List BindingId :=
  ((bindings.zipIdx start).filter fun b => c ∈ b.1.contracts).map Prod.snd

/-- The bindings that declare a contract. -/
def declaring (t : Table) (c : Contract) : List BindingId := declaringFrom 0 t.bindings c

section Bindings

variable {c : Contract} {start : Nat} {b : Registration} {bindings : List Registration}

/-- A binding declares its contracts before those of the bindings that follow. -/
theorem declarationsFrom_cons :
    declarationsFrom start (b :: bindings) =
      (b.contracts.map fun c => (c, start)) ++ declarationsFrom (start + 1) bindings := by
  rw [declarationsFrom, List.zipIdx_cons, List.flatMap_cons]
  rfl

/-- A binding is the first to declare a contract that it has. -/
theorem declaringFrom_cons_of_mem (h : c ∈ b.contracts) :
    declaringFrom start (b :: bindings) c = start :: declaringFrom (start + 1) bindings c := by
  simp [declaringFrom, List.zipIdx_cons, h]

/-- A binding does not declare a contract that it has not. -/
theorem declaringFrom_cons_of_notMem (h : c ∉ b.contracts) :
    declaringFrom start (b :: bindings) c = declaringFrom (start + 1) bindings c := by
  simp [declaringFrom, List.zipIdx_cons, h]

/-- The bindings that declare a contract are those that list it. -/
theorem mem_declaring {t : Table} {id : BindingId} :
    id ∈ t.declaring c ↔ ∃ r, t.bindings[id]? = some r ∧ c ∈ r.contracts := by
  simp [declaring, declaringFrom, List.mem_zipIdx_iff_getElem?]

/-- The bindings that declare a contract stand by ascending number. -/
theorem pairwise_declaringFrom : (declaringFrom start bindings c).Pairwise (· < ·) := by
  have hids : ((bindings.zipIdx start).map Prod.snd).Pairwise (· < ·) := by
    rw [List.zipIdx_map_snd]
    exact List.pairwise_lt_range'
  exact hids.sublist (List.filter_sublist.map Prod.snd)

/-! ### The active binding -/

/-- Among what one binding declares each of its contracts is found, and no other. -/
private theorem lookup_declared (contracts : List Contract) (id : BindingId) :
    (contracts.map fun c => (c, id)).reverse.lookup c =
      if c ∈ contracts then some id else none := by
  induction contracts with
  | nil => rfl
  | cons d contracts ih =>
    rw [List.map_cons, List.reverse_cons, List.lookup_append, ih]
    by_cases hrest : c ∈ contracts
    · simp [hrest]
    · by_cases hd : c = d
      · subst hd
        simp [hrest]
      · simp [hrest, hd]

/-- What a binding declares is found before what was declared earlier. -/
private theorem lookup_append_declared (contracts : List Contract) (id : BindingId)
    (seen : List (Contract × BindingId)) :
    ((contracts.map fun c => (c, id)).reverse ++ seen).lookup c =
      if c ∈ contracts then some id else seen.lookup c := by
  rw [List.lookup_append, lookup_declared]
  split <;> rfl

/-- The last declaration of a contract is that of the last binding that declares it. -/
private theorem lastDeclaring_declarationsFrom :
    lastDeclaring (declarationsFrom start bindings) c =
      (declaringFrom start bindings c).getLast? := by
  induction bindings generalizing start with
  | nil => rfl
  | cons b bindings ih =>
    have hrest : (declarationsFrom (start + 1) bindings).reverse.lookup c =
        (declaringFrom (start + 1) bindings c).getLast? := ih
    rw [lastDeclaring, declarationsFrom_cons, List.reverse_append, List.lookup_append, hrest,
      lookup_declared]
    by_cases hc : c ∈ b.contracts
    · rw [declaringFrom_cons_of_mem hc, List.getLast?_cons, if_pos hc]
      cases (declaringFrom (start + 1) bindings c).getLast? <;> rfl
    · rw [declaringFrom_cons_of_notMem hc, if_neg hc, Option.or_none]

/-- Of the bindings that declare a contract the last is active. -/
theorem active?_eq_getLast? (t : Table) (c : Contract) : t.active? c = (t.declaring c).getLast? :=
  lastDeclaring_declarationsFrom

/-- A contract that a binding declares has an active one. -/
theorem exists_active? {t : Table} {id : BindingId} (h : id ∈ t.declaring c) :
    ∃ last, t.active? c = some last := by
  rw [active?_eq_getLast?]
  exact ⟨_, List.getLast?_eq_some_getLast (List.ne_nil_of_mem h)⟩

/-- No binding that declares a contract comes after the active one. -/
theorem le_of_active? {t : Table} {id last : BindingId} (h : t.active? c = some last)
    (hid : id ∈ t.declaring c) : id ≤ last := by
  rw [active?_eq_getLast?] at h
  obtain ⟨before, hbefore⟩ := List.getLast?_eq_some_iff.mp h
  have hsorted : (t.declaring c).Pairwise (· < ·) := pairwise_declaringFrom
  rw [hbefore, List.pairwise_append] at hsorted
  rw [hbefore, List.mem_append, List.mem_singleton] at hid
  rcases hid with hid | rfl
  · exact Nat.le_of_lt (hsorted.2.2 id hid last (List.mem_singleton_self last))
  · exact Nat.le_refl id

/-! ### Shadowings -/

/-- What one binding shadows: the binding that declared the contract last before, unless it is the
binding itself. A contract that it declares again shadows nothing. -/
private theorem shadowingsAfter_declared (contracts : List Contract) (id : BindingId)
    (seen rest : List (Contract × BindingId)) :
    (shadowingsAfter seen ((contracts.map fun c => (c, id)) ++ rest)).filter
        (fun s => s.contract = c) =
      (if c ∈ contracts then
        ((seen.lookup c).toList.filter (· ≠ id)).map fun earlier => ⟨c, earlier, id⟩ else []) ++
      (shadowingsAfter ((contracts.map fun c => (c, id)).reverse ++ seen) rest).filter
        fun s => s.contract = c := by
  induction contracts generalizing seen with
  | nil => rfl
  | cons d contracts ih =>
    have hreverse : ((d :: contracts).map fun c => (c, id)).reverse ++ seen =
        (contracts.map fun c => (c, id)).reverse ++ (d, id) :: seen := by simp
    rw [hreverse, List.map_cons, List.cons_append, shadowingsAfter]
    by_cases hd : c = d
    · subst hd
      have hlater : (shadowingsAfter ((c, id) :: seen)
          ((contracts.map fun c => (c, id)) ++ rest)).filter (fun s => s.contract = c) =
          (shadowingsAfter ((contracts.map fun c => (c, id)).reverse ++ (c, id) :: seen)
            rest).filter fun s => s.contract = c := by
        rw [ih]
        simp
      cases hseen : seen.lookup c with
      | none => simp [hlater]
      | some earlier =>
        by_cases hid : earlier = id
        · simp [hid, hlater]
        · simp [hid, hlater]
    · have hseen : ((d, id) :: seen).lookup c = seen.lookup c := by
        rw [List.lookup_cons, beq_false_of_ne hd]
      have hmem : c ∈ d :: contracts ↔ c ∈ contracts := by simp [hd]
      have hother : d ≠ c := fun h => hd h.symm
      simp only [hmem]
      split
      · split
        · rw [ih, hseen]
        · rw [List.filter_cons_of_neg (by simpa using hother), ih, hseen]
      · rw [ih, hseen]

/-- Of the bindings that declare a contract, each but the first shadows the one before it. -/
private theorem shadowingsAfter_declarationsFrom {seen : List (Contract × BindingId)}
    (hseen : ∀ earlier ∈ seen.lookup c, earlier < start) :
    ((shadowingsAfter seen (declarationsFrom start bindings)).filter
        fun s => s.contract = c).map (fun s => (s.earlier, s.later)) =
      ((seen.lookup c).toList ++ declaringFrom start bindings c).zip
        ((seen.lookup c).toList ++ declaringFrom start bindings c).tail := by
  induction bindings generalizing start seen with
  | nil => cases hs : seen.lookup c <;> rfl
  | cons b bindings ih =>
    rw [declarationsFrom_cons, shadowingsAfter_declared, List.map_append, ih,
      lookup_append_declared]
    · by_cases hc : c ∈ b.contracts
      · rw [declaringFrom_cons_of_mem hc]
        cases hs : seen.lookup c with
        | none => simp [hc]
        | some earlier =>
          have hne : earlier ≠ start := Nat.ne_of_lt (hseen earlier hs)
          simp [hc, hne]
      · rw [declaringFrom_cons_of_notMem hc]
        simp [hc]
    · intro earlier hearlier
      rw [lookup_append_declared] at hearlier
      split at hearlier
      · cases hearlier
        exact Nat.lt_succ_self start
      · exact Nat.lt_succ_of_lt (hseen earlier hearlier)

/-- Each binding that declares a contract shadows the one that declares it before. -/
theorem shadowings_of_contract (t : Table) (c : Contract) :
    (t.shadowings.filter fun s => s.contract = c).map (fun s => (s.earlier, s.later)) =
      (t.declaring c).zip (t.declaring c).tail :=
  shadowingsAfter_declarationsFrom fun _ h => nomatch h

end Bindings

/-! ### Active contracts -/

section Active

variable {all listed rest : List (Contract × BindingId)}

/-- Active declarations are kept in their order. -/
private theorem keepActive_sublist (all : List (Contract × BindingId)) (listed : List Contract)
    (rest : List (Contract × BindingId)) : (keepActive all listed rest).Sublist rest := by
  induction rest generalizing listed with
  | nil => exact List.Sublist.refl _
  | cons d rest ih =>
    rw [keepActive]
    split
    · exact (ih _).cons_cons d
    · exact (ih _).cons d

/-- The declaration that is kept for a contract is the last one, unless the contract is listed
already. -/
private theorem mem_keepActive {listed : List Contract} {c : Contract} {id : BindingId} :
    (c, id) ∈ keepActive all listed rest ↔
      (c, id) ∈ rest ∧ lastDeclaring all c = some id ∧ c ∉ listed := by
  induction rest generalizing listed with
  | nil => simp [keepActive]
  | cons d rest ih =>
    obtain ⟨c', id'⟩ := d
    rw [keepActive]
    split
    · next hkept =>
      by_cases hd : c = c'
      · subst hd
        constructor
        · intro h
          rcases List.mem_cons.mp h with heq | h
          · cases heq
            exact ⟨List.mem_cons_self, hkept⟩
          · exact absurd List.mem_cons_self (ih.mp h).2.2
        · rintro ⟨-, hlast, -⟩
          have hid : id' = id := Option.some.inj (hkept.1.symm.trans hlast)
          rw [hid]
          exact List.mem_cons_self
      · simp [ih, hd]
    · next hleft =>
      rw [ih]
      constructor
      · exact fun ⟨hmem, hlast⟩ => ⟨List.mem_cons_of_mem _ hmem, hlast⟩
      · rintro ⟨hmem, hlast⟩
        rcases List.mem_cons.mp hmem with heq | hmem
        · cases heq
          exact absurd hlast hleft
        · exact ⟨hmem, hlast⟩

/-- One declaration is kept for a contract. -/
private theorem nodup_keepActive (all : List (Contract × BindingId)) (listed : List Contract)
    (rest : List (Contract × BindingId)) :
    ((keepActive all listed rest).map Prod.fst).Nodup := by
  induction rest generalizing listed with
  | nil => exact List.nodup_nil
  | cons d rest ih =>
    rw [keepActive]
    split
    · rw [List.map_cons, List.nodup_cons]
      refine ⟨fun h => ?_, ih _⟩
      obtain ⟨⟨c, id⟩, hmem, heq⟩ := List.mem_map.mp h
      cases heq
      exact (mem_keepActive.mp hmem).2.2 List.mem_cons_self
    · exact ih _

end Active

/-- Declarations stand by ascending number of their bindings. -/
theorem pairwise_declarationsFrom (start : Nat) (bindings : List Registration) :
    (declarationsFrom start bindings).Pairwise fun d e => d.2 ≤ e.2 := by
  induction bindings generalizing start with
  | nil => exact List.Pairwise.nil
  | cons b bindings ih =>
    rw [declarationsFrom_cons, List.pairwise_append]
    refine ⟨?_, ih _, ?_⟩
    · exact List.pairwise_map.mpr (List.pairwise_of_forall fun _ _ => Nat.le_refl _)
    · intro d hd e he
      obtain ⟨_, _, rfl⟩ := List.mem_map.mp hd
      obtain ⟨⟨r, i⟩, hr, he⟩ := List.mem_flatMap.mp he
      obtain ⟨_, _, rfl⟩ := List.mem_map.mp he
      have hi : start + 1 ≤ i := (List.mem_zipIdx hr).1
      exact Nat.le_of_succ_le hi

/-- No contract is listed as active twice. -/
theorem nodup_activeContracts (t : Table) : (t.activeContracts.map Prod.fst).Nodup :=
  nodup_keepActive t.declarations [] t.declarations

/-- Active contracts stand by ascending number of their bindings. -/
theorem pairwise_activeContracts (t : Table) :
    t.activeContracts.Pairwise fun d e => d.2 ≤ e.2 :=
  (pairwise_declarationsFrom 0 t.bindings).sublist (keepActive_sublist _ _ _)

/-- A contract is listed with its active binding. -/
theorem mem_activeContracts {t : Table} {c : Contract} {id : BindingId} :
    (c, id) ∈ t.activeContracts ↔ t.active? c = some id := by
  rw [activeContracts, mem_keepActive]
  constructor
  · exact fun h => h.2.1
  · intro h
    obtain ⟨before, after, heq, -⟩ := List.lookup_eq_some_iff.mp h
    have hmem : (c, id) ∈ t.declarations.reverse := by simp [heq]
    exact ⟨List.mem_reverse.mp hmem, h, List.not_mem_nil⟩

/-- The binding that answers every tag of a type is the active one of that contract. -/
theorem anyTagged?_eq_active? (t : Table) (type : TypeExpr) :
    t.anyTagged? type = t.active? ⟨type, some .any⟩ := by
  have hmem : ∀ id, (type, id) ∈ t.anyTagged ↔ t.active? ⟨type, some .any⟩ = some id := by
    intro id
    rw [← mem_activeContracts, anyTagged, List.mem_filterMap]
    constructor
    · rintro ⟨⟨c, i⟩, hc, hany⟩
      split at hany
      · next htag =>
        cases hany
        rwa [← htag]
      · cases hany
    · exact fun h => ⟨_, h, by simp⟩
  cases hany : t.anyTagged? type with
  | some id =>
    obtain ⟨before, after, heq, -⟩ := List.lookup_eq_some_iff.mp hany
    exact ((hmem id).mp (by simp [heq])).symm
  | none =>
    have hnone := List.lookup_eq_none_iff.mp hany
    cases hactive : t.active? ⟨type, some .any⟩ with
    | none => rfl
    | some id => simpa using hnone _ ((hmem id).mpr hactive)

/-! ### Merging -/

/-- The bindings of setups, with the part that declares each. -/
def entries (setups : List Setup) (order : List String) : List (Setup × Binding) :=
  (order.flatMap (Setup.parts setups)).flatMap fun s => s.bindings.map fun b => (s, b)

/-- A merge that leads to a table lays the setups out in their order. -/
theorem merge_eq_some {setups : List Setup} {composition : String} {hints : Hints}
    {sink merged : Sink} {t : Table}
    (h : merge setups composition hints sink = (merged, some t)) :
    composition ∈ Setup.names setups ∧ ∃ order, Setup.order setups composition = .ok order ∧
      t = ofSetups composition hints (order.flatMap (Setup.parts setups)) ∧
      t.configurationErrors = [] ∧
      merged = ((sink.reportAll t.configurationErrors).reportAll t.findings).reportAll
        t.overridingBindings := by
  unfold merge at h
  split at h
  · cases h
  · next hname =>
    split at h
    · cases h
    · next order horder =>
      dsimp only at h
      split at h
      · next hempty =>
        cases h
        exact ⟨Decidable.not_not.mp hname, order, horder, rfl, List.isEmpty_iff.mp hempty, rfl⟩
      · cases h

/-- A merge leads to the bindings of the setups in their order, each at its position. What the
table tells of a contract is read off the bindings that declare it: the last is active and listed
as such once, by ascending number, and each shadows the one before it. -/
theorem merge_table {setups : List Setup} {composition : String} {hints : Hints}
    {sink merged : Sink} {t : Table}
    (h : merge setups composition hints sink = (merged, some t)) :
    (∃ order, Setup.order setups composition = .ok order ∧
      ∀ id : BindingId, t.bindings[id]? = (entries setups order)[id]?.map fun entry =>
        (register entry.1 (((entries setups order).take id).map fun e => e.2.uniqueTags).sum
          entry.2).1) ∧
    (∀ c, t.active? c = (t.declaring c).getLast?) ∧
    ((t.activeContracts.map Prod.fst).Nodup ∧
      t.activeContracts.Pairwise (fun d e => d.2 ≤ e.2) ∧
      ∀ c id, (c, id) ∈ t.activeContracts ↔ t.active? c = some id) ∧
    (∀ type, t.anyTagged? type = t.active? ⟨type, some .any⟩) ∧
    ∀ c, (t.shadowings.filter fun s => s.contract = c).map (fun s => (s.earlier, s.later)) =
      (t.declaring c).zip (t.declaring c).tail := by
  refine ⟨?_, t.active?_eq_getLast?,
    ⟨t.nodup_activeContracts, t.pairwise_activeContracts, fun _ _ => mem_activeContracts⟩,
    t.anyTagged?_eq_active?, t.shadowings_of_contract⟩
  obtain ⟨-, order, horder, rfl, -⟩ := merge_eq_some h
  refine ⟨order, horder, fun id => ?_⟩
  have hentry := getElem?_registerAll 0 (entries setups order) id
  simp only [Nat.zero_add] at hentry
  exact hentry

/-- A setup whose first binding answers every tag too, whose second declares one contract twice and
others under tags, and whose third declares that contract once more. -/
def overlapping : Setup :=
  let binding := fun (name : String) (contracts : List ContractSpec) =>
    { contracts, lifetime := none
      recipe := .construct (.named name []) none [⟨[], none⟩]
      scope := none, disposable := false, location := .unknown : Binding }
  { name := "Composition", kind := .exposed
    bindings :=
      [binding "A" [⟨.named "IA" [], []⟩, ⟨.named "IA" [], [.any]⟩],
        binding "B" [⟨.named "IA" [], []⟩, ⟨.named "IA" [], [.unique, .value "b"]⟩,
          ⟨.named "IA" [], []⟩],
        binding "C" [⟨.named "IA" [], []⟩, ⟨.named "IA" [], [.unique]⟩]]
    roots := [], dependsOn := [], defaultLifetime := none, hints := .empty, markers := []
    members := [], location := .unknown }

/-- The binding that declares a contract twice shadows the first once and is shadowed once. -/
theorem merge_table_overlapping : ∃ merged t,
    merge [overlapping] "Composition" .empty .empty = (merged, some t) ∧
      t.active? ⟨.named "IA" [], none⟩ = some 2 ∧
      t.active? ⟨.named "IA" [], some (.unique 1)⟩ = some 2 ∧
      t.anyTagged? (.named "IA" []) = some 0 ∧
      (t.shadowings.filter fun s => s.contract = ⟨.named "IA" [], none⟩).map
        (fun s => (s.earlier, s.later)) = [(0, 1), (1, 2)] := by
  have htable : (merge [overlapping] "Composition" .empty .empty).2 =
      some (ofSetups "Composition" .empty [overlapping]) := by decide +kernel
  have hmerge : merge [overlapping] "Composition" .empty .empty =
      ((merge [overlapping] "Composition" .empty .empty).1,
        some (ofSetups "Composition" .empty [overlapping])) := Prod.ext rfl htable
  obtain ⟨-, hactive, -, hany, hshadowed⟩ := merge_table hmerge
  refine ⟨_, _, hmerge, ?_, ?_, ?_, ?_⟩
  · rw [hactive]
    decide +kernel
  · rw [hactive]
    decide +kernel
  · rw [hany, hactive]
    decide +kernel
  · rw [hshadowed]
    decide +kernel

end Table

end Injector

import Injector.Graph.Basic
import Mathlib.Data.List.Forall2

/-!
# Computations that pass a state on and may fail

The wiring and the planner work out a result from a state, leave a state for what follows, or end
in a fault. The equations here say what each way to put such computations together comes to when it
is given a state.
-/

namespace Injector

variable {ε σ α β : Type}

/-- Two parts are carried out one after the other exactly when the first gives a result and the
second then does. -/
theorem bind_eq_ok {x : Except ε α} {f : α → Except ε β} {b : β} :
    (x >>= f) = .ok b ↔ ∃ a, x = .ok a ∧ f a = .ok b := by
  cases x <;> simp [bind, Except.bind]

/-- Two parts fail one after the other where the first does, or the second with its result. -/
theorem bind_eq_error {x : Except ε α} {f : α → Except ε β} {e : ε} :
    (x >>= f) = .error e ↔ x = .error e ∨ ∃ a, x = .ok a ∧ f a = .error e := by
  cases x <;> simp [bind, Except.bind]

/-- A list is worked through with a failure only where one of its members fails. -/
theorem exists_of_foldlM_eq_error {f : β → α → Except ε β} {as : List α} {b : β} {e : ε}
    (h : as.foldlM f b = .error e) : ∃ a ∈ as, ∃ b', f b' a = .error e := by
  induction as generalizing b with
  | nil => cases h
  | cons a rest ih =>
    rw [List.foldlM_cons] at h
    rcases bind_eq_error.mp h with h | ⟨b', -, h⟩
    · exact ⟨a, List.mem_cons_self, b, h⟩
    · obtain ⟨a', ha', hfails⟩ := ih h
      exact ⟨a', List.mem_cons_of_mem a ha', hfails⟩

theorem toOption_eq_some {x : Except Fault α} {a : α} : x.toOption = some a ↔ x = .ok a := by
  cases x <;> simp [Except.toOption]

/-- A check of what a computation comes to says yes exactly when there is a result that passes
it. -/
theorem any_toOption {x : Except Fault α} {p : α → Bool} :
    x.toOption.any p = true ↔ ∃ a, x = .ok a ∧ p a = true := by
  simp only [Option.any_eq_true, toOption_eq_some]

/-- Steps that agree on the members of a list work through it alike. -/
theorem foldlM_congr {f g : β → α → Except ε β} {as : List α} {b : β}
    (h : ∀ a ∈ as, ∀ b, f b a = g b a) : as.foldlM f b = as.foldlM g b := by
  induction as generalizing b with
  | nil => rfl
  | cons a rest ih =>
    rw [List.foldlM_cons, List.foldlM_cons, h a List.mem_cons_self]
    exact bind_congr fun b' => ih fun a' ha' => h a' (List.mem_cons_of_mem a ha')

/-- What follows a computation goes on with the result and the state that it left. -/
theorem bind_apply (x : StateT σ (Except Fault) α) (f : α → StateT σ (Except Fault) β) (s : σ) :
    (x >>= f) s = (x s).bind fun r => f r.1 r.2 := rfl

theorem pure_apply (a : α) (s : σ) : (pure a : StateT σ (Except Fault) α) s = .ok (a, s) := rfl

theorem get_apply (s : σ) : (get : StateT σ (Except Fault) σ) s = .ok (s, s) := rfl

theorem set_apply (s s' : σ) : (set s' : StateT σ (Except Fault) PUnit) s = .ok (⟨⟩, s') := rfl

theorem modify_apply (f : σ → σ) (s : σ) :
    (modify f : StateT σ (Except Fault) PUnit) s = .ok (⟨⟩, f s) := rfl

/-- A part that reads no state leaves the state as it is. -/
theorem lift_apply (x : Except Fault α) (s : σ) :
    (liftM x : StateT σ (Except Fault) α) s = x.map fun a => (a, s) := by
  cases x <;> rfl

@[simp] theorem ok_bind (a : α) (f : α → Except Fault β) : (Except.ok a).bind f = f a := rfl

@[simp] theorem error_bind (e : Fault) (f : α → Except Fault β) :
    (Except.error e).bind f = .error e := rfl

/-- A list is worked through to the end exactly when each of its members is. -/
theorem mapM_eq_ok {f : α → Except ε β} {as : List α} {bs : List β} :
    as.mapM f = .ok bs ↔ List.Forall₂ (fun a b => f a = .ok b) as bs := by
  induction as generalizing bs with
  | nil => simp [pure, Except.pure, eq_comm]
  | cons a rest ih =>
    rw [List.mapM_cons, bind_eq_ok, List.forall₂_cons_left_iff]
    constructor
    · rintro ⟨b, hb, h⟩
      obtain ⟨others, hrest, h⟩ := bind_eq_ok.mp h
      cases h
      exact ⟨b, others, hb, ih.mp hrest, rfl⟩
    · rintro ⟨b, others, hb, hrest, rfl⟩
      exact ⟨b, hb, bind_eq_ok.mpr ⟨others, ih.mpr hrest, rfl⟩⟩

/-- Each member of a list that is worked through has its result. -/
theorem exists_mem_of_mapM_eq_ok {f : α → Except ε β} {as : List α} {bs : List β}
    (h : as.mapM f = .ok bs) {a : α} (ha : a ∈ as) : ∃ b ∈ bs, f a = .ok b := by
  have hall := mapM_eq_ok.mp h
  clear h
  induction hall with
  | nil => cases ha
  | cons hb _ ih =>
    rcases List.mem_cons.mp ha with rfl | ha
    · exact ⟨_, List.mem_cons_self, hb⟩
    · obtain ⟨b, hin, hb⟩ := ih ha
      exact ⟨b, List.mem_cons_of_mem _ hin, hb⟩

/-- Each result of a list that is worked through is that of one of its members. -/
theorem mem_of_mapM_eq_ok {f : α → Except ε β} {as : List α} {bs : List β}
    (h : as.mapM f = .ok bs) {b : β} (hb : b ∈ bs) : ∃ a ∈ as, f a = .ok b := by
  have hall := mapM_eq_ok.mp h
  clear h
  induction hall with
  | nil => cases hb
  | cons ha _ ih =>
    rcases List.mem_cons.mp hb with rfl | hb
    · exact ⟨_, List.mem_cons_self, ha⟩
    · obtain ⟨a, hin, ha⟩ := ih hb
      exact ⟨a, List.mem_cons_of_mem _ hin, ha⟩

/-- What each step makes of its member holds of all results. -/
theorem forall_mem_of_mapM_eq_ok {f : α → Except ε β} {as : List α} {bs : List β} {P : β → Prop}
    (h : as.mapM f = .ok bs) (hstep : ∀ a ∈ as, ∀ b, f a = .ok b → P b) : ∀ b ∈ bs, P b := by
  intro b hb
  obtain ⟨a, ha, hfa⟩ := mem_of_mapM_eq_ok h hb
  exact hstep a ha b hfa

theorem mapM_ok_iff {f : α → Except ε β} {as : List α} :
    (∃ bs, as.mapM f = .ok bs) ↔ ∀ a ∈ as, ∃ b, f a = .ok b := by
  simp only [mapM_eq_ok]
  induction as with
  | nil => simp
  | cons a rest ih =>
    simp only [List.forall₂_cons_left_iff, List.forall_mem_cons]
    constructor
    · rintro ⟨_, b, bs, hb, hrest, rfl⟩
      exact ⟨⟨b, hb⟩, ih.mp ⟨bs, hrest⟩⟩
    · rintro ⟨⟨b, hb⟩, hrest⟩
      obtain ⟨bs, hbs⟩ := ih.mpr hrest
      exact ⟨b :: bs, b, bs, hb, hbs, rfl⟩

end Injector

import Injector.Graph.Component
import Injector.Proofs.Graph.Walk
import Mathlib.Logic.Relation

/-!
# Searches in depth

The first search leaves a node once all that the node leads to was met, and the second one meets
what it leads to. The main statements are that the first one lists behind each node what it leads to
and was not listed before, and behind this only what does not lead there, and that the second one
meets everything that is led to past what was met before.
-/

namespace Injector.Graph

variable {next : NodeId → List NodeId} {all : Finset NodeId}

/-- Whether a node leads to another one in some number of steps. -/
abbrev Reaches (next : NodeId → List NodeId) : NodeId → NodeId → Prop :=
  Relation.ReflTransGen fun n m => m ∈ next n

/-- What is put on the stack for a node once it is met. -/
def newNext (next : NodeId → List NodeId) (met : List NodeId) (n : NodeId) : List NodeId :=
  ((next n).filter (· ∉ met)).reverse

@[simp] theorem mem_newNext {met : List NodeId} {n m : NodeId} :
    m ∈ newNext next met n ↔ m ∈ next n ∧ m ∉ met := by
  simp [newNext]

theorem length_newNext_le (next : NodeId → List NodeId) (met : List NodeId) (n : NodeId) :
    (newNext next met n).length ≤ (next n).length := by
  rw [newNext, List.length_reverse]
  exact List.length_filter_le _ _

/-- What a first search does that takes off a list of nodes: it is over with each node before it
comes to the next one. -/
inductive Search.Visits (next : NodeId → List NodeId) : List NodeId → Search → Search → Prop
  /-- Nothing is to be taken off. -/
  | done (s : Search) : Visits next [] s s
  /-- A node that was left is passed over. -/
  | old {n : NodeId} {rest : List NodeId} {s t : Search} (met : n ∈ s.met) (left : n ∈ s.left)
      (after : Visits next rest s t) : Visits next (n :: rest) s t
  /-- A node that was not met is left after what it leads to. -/
  | fresh {n : NodeId} {rest : List NodeId} {s t u : Search} (new : n ∉ s.met)
      (below : Visits next (newNext next (n :: s.met) n) { s with met := n :: s.met } t)
      (after : Visits next rest { t with left := n :: t.left } u) : Visits next (n :: rest) s u

/-- What is the same whenever a first search took off some nodes: those that it met are left, and
are listed in front of the others. -/
structure Search.Adds (next : NodeId → List NodeId) (stack : List NodeId) (s t : Search)
    (new : List NodeId) : Prop where
  /-- They are listed in front. -/
  left : t.left = new ++ s.left
  /-- They are what was met. -/
  met : ∀ m, m ∈ t.met ↔ m ∈ new ∨ m ∈ s.met
  /-- None was met before. -/
  fresh : ∀ m ∈ new, m ∉ s.met
  /-- One of the nodes taken off leads to each of them. -/
  reached : ∀ m ∈ new, ∃ n ∈ stack, Reaches next n m
  /-- What is taken off is met. -/
  stack : ∀ n ∈ stack, n ∈ t.met
  /-- They lead only to what is met. -/
  closed : ∀ m ∈ new, ∀ k ∈ next m, k ∈ t.met

/-- When what is above a node is over, all that the node leads to was met. -/
theorem Search.Adds.met_of_next {n : NodeId} {new : List NodeId} {s t : Search}
    (h : Adds next (newNext next (n :: s.met) n) { s with met := n :: s.met } t new) :
    ∀ k ∈ next n, k ∈ t.met := by
  intro k hk
  by_cases hold : k ∈ n :: s.met
  · exact (h.met k).mpr (.inr hold)
  · exact h.stack k (mem_newNext.mpr ⟨hk, hold⟩)

/-- Whether nodes are listed as a first search leaves them: behind each is first what it leads to,
and then what does not lead there. -/
inductive Leaving (next : NodeId → List NodeId) : List NodeId → Prop
  /-- None was left. -/
  | nil : Leaving next []
  /-- A node was left after what it leads to. -/
  | cons {n : NodeId} {below before : List NodeId} (reached : ∀ m ∈ below, Reaches next n m)
      (apart : ∀ m ∈ before, ∀ k ∈ next m, k ∉ n :: below)
      (rest : Leaving next (below ++ before)) : Leaving next (n :: (below ++ before))

namespace Search.Visits

variable {stack : List NodeId} {s t : Search}

theorem exists_adds (h : Visits next stack s t) : ∃ new, Adds next stack s t new := by
  induction h with
  | done s => exact ⟨[], by simp, by simp, by simp, by simp, by simp, by simp⟩
  | old met left after ih =>
    obtain ⟨new, h⟩ := ih
    refine ⟨new, h.left, h.met, h.fresh, fun m hm => ?_, ?_, h.closed⟩
    · obtain ⟨k, hk, hreach⟩ := h.reached m hm
      exact ⟨k, List.mem_cons_of_mem _ hk, hreach⟩
    · exact List.forall_mem_cons.mpr ⟨(h.met _).mpr (.inr met), h.stack⟩
  | @fresh n rest s t u new below after ihBelow ihAfter =>
    obtain ⟨first, hfirst⟩ := ihBelow
    obtain ⟨second, hsecond⟩ := ihAfter
    have hkept : ∀ m, m ∈ t.met → m ∈ u.met := fun m hm => (hsecond.met m).mpr (.inr hm)
    have hn : n ∈ t.met := (hfirst.met n).mpr (.inr List.mem_cons_self)
    refine ⟨second ++ n :: first, ?_, fun m => ?_, ?_, ?_, ?_, ?_⟩
    · rw [hsecond.left]
      simp [hfirst.left]
    · rw [hsecond.met, hfirst.met]
      simp only [List.mem_cons, List.mem_append]
      tauto
    · refine List.forall_mem_append.mpr ⟨fun m hm hold => ?_, List.forall_mem_cons.mpr
        ⟨new, fun m hm hold => hfirst.fresh m hm (List.mem_cons_of_mem _ hold)⟩⟩
      exact hsecond.fresh m hm ((hfirst.met m).mpr (.inr (List.mem_cons_of_mem _ hold)))
    · refine List.forall_mem_append.mpr ⟨fun m hm => ?_, List.forall_mem_cons.mpr
        ⟨⟨n, List.mem_cons_self, .refl⟩, fun m hm => ?_⟩⟩
      · obtain ⟨k, hk, hreach⟩ := hsecond.reached m hm
        exact ⟨k, List.mem_cons_of_mem _ hk, hreach⟩
      · obtain ⟨k, hk, hreach⟩ := hfirst.reached m hm
        exact ⟨n, List.mem_cons_self, .head (mem_newNext.mp hk).1 hreach⟩
    · exact List.forall_mem_cons.mpr ⟨hkept n hn, hsecond.stack⟩
    · exact List.forall_mem_append.mpr ⟨hsecond.closed, List.forall_mem_cons.mpr
        ⟨fun k hk => hkept k (hfirst.met_of_next k hk),
          fun m hm k hk => hkept k (hfirst.closed m hm k hk)⟩⟩

/-- What was listed so as a search leaves it, and leads only to what was met, is listed so in the
end. What was left before does not lead to what is left now, which was not met then. -/
theorem leaving (h : Visits next stack s t) (hs : Leaving next s.left)
    (hclosed : ∀ m ∈ s.left, ∀ k ∈ next m, k ∈ s.met) : Leaving next t.left := by
  induction h with
  | done s => exact hs
  | old met left after ih => exact ih hs hclosed
  | @fresh n rest s t u new below after ihBelow ihAfter =>
    obtain ⟨first, hfirst⟩ := below.exists_adds
    have hbelow : Leaving next t.left :=
      ihBelow hs fun m hm k hk => List.mem_cons_of_mem _ (hclosed m hm k hk)
    rw [hfirst.left] at hbelow
    refine ihAfter ?_ ?_
    · simp only [hfirst.left]
      refine .cons (fun m hm => ?_) (fun m hm k hk hin => ?_) hbelow
      · obtain ⟨k, hk, hreach⟩ := hfirst.reached m hm
        exact .head (mem_newNext.mp hk).1 hreach
      · rcases List.mem_cons.mp hin with rfl | hin
        · exact new (hclosed m hm k hk)
        · exact hfirst.fresh k hin (List.mem_cons_of_mem _ (hclosed m hm k hk))
    · simp only [hfirst.left, List.forall_mem_cons, List.forall_mem_append]
      exact ⟨hfirst.met_of_next, hfirst.closed, fun m hm k hk =>
        (hfirst.met k).mpr (.inr (List.mem_cons_of_mem _ (hclosed m hm k hk)))⟩

/-- Lists of nodes are taken off one after the other. -/
theorem cons {n : NodeId} {rest : List NodeId} {u : Search} (h : Visits next [n] s t)
    (hrest : Visits next rest t u) : Visits next (n :: rest) s u := by
  cases h with
  | old met left after =>
    cases after
    exact .old met left hrest
  | fresh new below after =>
    cases after
    exact .fresh new below hrest

end Search.Visits

/-- A search that left what it met has left what it met when it took off some nodes more. -/
theorem Search.Adds.met_iff {stack new : List NodeId} {s t : Search}
    (h : Adds next stack s t new) (hs : ∀ n, n ∈ s.met ↔ n ∈ s.left) (n : NodeId) :
    n ∈ t.met ↔ n ∈ t.left := by
  rw [h.met, hs, h.left, List.mem_append]

/-- Whether a first search can take off some nodes: just those of them that were met were left. -/
structure Search.Ready (stack : List NodeId) (s : Search) : Prop where
  /-- What was left was met. -/
  met : ∀ n ∈ s.left, n ∈ s.met
  /-- What was met, and is to be taken off, was left. -/
  left : ∀ n ∈ stack, n ∈ s.met → n ∈ s.left

namespace Search.Ready

variable {n : NodeId} {rest new : List NodeId} {s t : Search}

theorem tail (h : Ready (n :: rest) s) : Ready rest s :=
  ⟨h.met, fun m hm => h.left m (List.mem_cons_of_mem _ hm)⟩

/-- What comes on the stack for a node is new. -/
theorem below (h : Ready (n :: rest) s) :
    Ready (newNext next (n :: s.met) n) { s with met := n :: s.met } :=
  ⟨fun m hm => List.mem_cons_of_mem _ (h.met m hm),
    fun _ hm hin => absurd hin (mem_newNext.mp hm).2⟩

/-- A node is met, and not left, when what is above it is over. -/
theorem waits (h : Ready (n :: rest) s) (hnew : n ∉ s.met)
    (hadds : Adds next (newNext next (n :: s.met) n) { s with met := n :: s.met } t new) :
    n ∈ t.met ∧ n ∉ t.left := by
  refine ⟨(hadds.met n).mpr (.inr List.mem_cons_self), ?_⟩
  rw [hadds.left, List.mem_append]
  rintro (hin | hin)
  · exact hadds.fresh n hin List.mem_cons_self
  · exact hnew (h.met n hin)

/-- Once it is left the others can be taken off. -/
theorem after (h : Ready (n :: rest) s)
    (hadds : Adds next (newNext next (n :: s.met) n) { s with met := n :: s.met } t new) :
    Ready rest { t with left := n :: t.left } := by
  constructor
  · simp only [hadds.left, List.forall_mem_cons, List.forall_mem_append]
    exact ⟨(hadds.met n).mpr (.inr List.mem_cons_self), fun m hm => (hadds.met m).mpr (.inl hm),
      fun m hm => (hadds.met m).mpr (.inr (List.mem_cons_of_mem _ (h.met m hm)))⟩
  · intro m hm hin
    simp only [hadds.left, List.mem_cons, List.mem_append]
    rcases (hadds.met m).mp hin with hin | hin
    · exact .inr (.inl hin)
    · rcases List.mem_cons.mp hin with rfl | hin
      · exact .inl rfl
      · exact .inr (.inr (h.left m (List.mem_cons_of_mem _ hm) hin))

end Search.Ready

theorem leaveFrom_nil (next : NodeId → List NodeId) (fuel : Nat) (s : Search) :
    leaveFrom next fuel [] s = s := by
  cases fuel <;> rfl

/-- A search with enough steps is over with the upper part of its stack before it comes to the lower
one, and has enough steps for this. What is above the first node to be left is over first, then the
node is left, and the others follow. -/
theorem exists_visits (hnext : ∀ n m, m ∈ next n → m ∈ all) {fuel : Nat} {upper : List NodeId}
    (lower : List NodeId) {s : Search} (hupper : ∀ n ∈ upper, n ∈ all) (hready : s.Ready upper)
    (hfuel : (upper ++ lower).length +
      unspent (fun n => (next n).length + 1) all s.met ≤ fuel) :
    ∃ t fuel', s.Visits next upper t ∧ fuel' ≤ fuel ∧
      lower.length + unspent (fun n => (next n).length + 1) all t.met ≤ fuel' ∧
      leaveFrom next fuel (upper ++ lower) s = leaveFrom next fuel' lower t := by
  induction fuel using Nat.strongRecOn generalizing upper lower s with
  | ind fuel ih =>
    cases upper with
    | nil => exact ⟨s, fuel, .done s, le_rfl, hfuel, rfl⟩
    | cons n rest =>
      obtain ⟨hn, hrest⟩ := List.forall_mem_cons.mp hupper
      rw [List.cons_append, List.length_cons] at hfuel
      obtain ⟨fuel, rfl⟩ : ∃ k, fuel = k + 1 := ⟨fuel - 1, by omega⟩
      by_cases hold : n ∈ s.met
      · have hleft : n ∈ s.left := hready.left n List.mem_cons_self hold
        obtain ⟨t, fuel', hafter, hle, hfuel', heq⟩ :=
          ih fuel fuel.lt_succ_self lower hrest hready.tail (by omega)
        refine ⟨t, fuel', .old hold hleft hafter, by omega, hfuel', ?_⟩
        rw [List.cons_append, leaveFrom, if_neg (not_not.mpr hold), if_neg (not_not.mpr hleft), heq]
      · have hspend := unspent_cons (fun n => (next n).length + 1) hn hold
        have hlength := length_newNext_le next (n :: s.met) n
        obtain ⟨t, fuel₁, hbelow, hle₁, hfuel₁, heq₁⟩ :=
          ih fuel fuel.lt_succ_self (n :: rest ++ lower) (s := { s with met := n :: s.met })
            (fun m hm => hnext n m (mem_newNext.mp hm).1) hready.below
            (by
              simp only [List.length_append, List.length_cons] at hfuel hspend ⊢
              omega)
        obtain ⟨new, hadds⟩ := hbelow.exists_adds
        obtain ⟨hmet, hleft⟩ := hready.waits hold hadds
        rw [List.cons_append, List.length_cons] at hfuel₁
        obtain ⟨fuel₁, rfl⟩ : ∃ k, fuel₁ = k + 1 := ⟨fuel₁ - 1, by omega⟩
        obtain ⟨u, fuel₂, hafter, hle₂, hfuel₂, heq₂⟩ :=
          ih fuel₁ (by omega) lower (s := { t with left := n :: t.left }) hrest
            (hready.after hadds) (by simp only; omega)
        refine ⟨u, fuel₂, .fresh hold hbelow hafter, by omega, hfuel₂, ?_⟩
        rw [List.cons_append, leaveFrom, if_pos hold, ← heq₂]
        exact heq₁.trans
          (by rw [List.cons_append, leaveFrom, if_neg (not_not.mpr hmet), if_pos hleft])

/-- What a second search meets: from one of the nodes that it has to take off, past what was met
before. -/
structure Search.Meets (next : NodeId → List NodeId) (stack met new : List NodeId) : Prop where
  /-- Nothing is met twice. -/
  nodup : new.Nodup
  /-- Nothing was met before. -/
  fresh : ∀ m ∈ new, m ∉ met
  /-- One of the nodes taken off leads to each, past what was met before. -/
  reached : ∀ m ∈ new, ∃ n ∈ stack, Relation.ReflTransGen (fun a b => b ∈ next a ∧ b ∉ met) n m
  /-- Each is taken off the stack or follows, later, something that leads to it. -/
  led : ∀ before m after, new = before ++ m :: after → m ∈ stack ∨ ∃ n ∈ before, m ∈ next n
  /-- What is taken off is met. -/
  stack : ∀ n ∈ stack, n ∈ new ∨ n ∈ met
  /-- What is met leads only to what is met. -/
  closed : ∀ m ∈ new, ∀ k ∈ next m, k ∈ new ∨ k ∈ met

namespace Search.Meets

variable {n : NodeId} {rest met new : List NodeId}

theorem nothing : Meets next [] met [] :=
  ⟨by simp, by simp, by simp, by simp, by simp, by simp⟩

/-- A node that was met before adds nothing. -/
theorem passOver (hold : n ∈ met) (h : Meets next rest met new) :
    Meets next (n :: rest) met new := by
  refine ⟨h.nodup, h.fresh, fun m hm => ?_, fun before m after heq =>
    (h.led before m after heq).imp_left (List.mem_cons_of_mem _),
    List.forall_mem_cons.mpr ⟨.inr hold, h.stack⟩, h.closed⟩
  obtain ⟨k, hk, hreach⟩ := h.reached m hm
  exact ⟨k, List.mem_cons_of_mem _ hk, hreach⟩

/-- A node that was not met is followed by what it leads to. -/
theorem meet (hnew : n ∉ met)
    (h : Meets next (newNext next (n :: met) n ++ rest) (n :: met) new) :
    Meets next (n :: rest) met (n :: new) := by
  have hpast : ∀ {k m}, Relation.ReflTransGen (fun a b => b ∈ next a ∧ b ∉ n :: met) k m →
      Relation.ReflTransGen (fun a b => b ∈ next a ∧ b ∉ met) k m :=
    fun hreach => hreach.lift id fun _ _ hab =>
      ⟨hab.1, fun hin => hab.2 (List.mem_cons_of_mem _ hin)⟩
  have hhere : ∀ {m}, m ∈ new ∨ m ∈ n :: met → m ∈ n :: new ∨ m ∈ met := by
    intro m hm
    simp only [List.mem_cons] at hm ⊢
    tauto
  refine ⟨List.nodup_cons.mpr ⟨fun hin => h.fresh n hin List.mem_cons_self, h.nodup⟩,
    List.forall_mem_cons.mpr ⟨hnew, fun m hm hold => h.fresh m hm (List.mem_cons_of_mem _ hold)⟩,
    List.forall_mem_cons.mpr ⟨⟨n, List.mem_cons_self, .refl⟩, fun m hm => ?_⟩,
    fun before m after heq => ?_, List.forall_mem_cons.mpr ⟨.inl List.mem_cons_self, fun k hk =>
      hhere (h.stack k (List.mem_append_right _ hk))⟩,
    List.forall_mem_cons.mpr ⟨fun k hk => hhere ?_, fun m hm k hk => hhere (h.closed m hm k hk)⟩⟩
  · obtain ⟨k, hk, hreach⟩ := h.reached m hm
    rcases List.mem_append.mp hk with hk | hk
    · obtain ⟨hlead, hfresh⟩ := mem_newNext.mp hk
      exact ⟨n, List.mem_cons_self,
        .head ⟨hlead, fun hin => hfresh (List.mem_cons_of_mem _ hin)⟩ (hpast hreach)⟩
    · exact ⟨k, List.mem_cons_of_mem _ hk, hpast hreach⟩
  · cases before with
    | nil =>
      obtain ⟨rfl, -⟩ := List.cons_eq_cons.mp heq
      exact .inl List.mem_cons_self
    | cons first before =>
      rw [List.cons_append, List.cons_eq_cons] at heq
      obtain ⟨rfl, hrest⟩ := heq
      rcases h.led before m after hrest with hm | ⟨k, hk, hm⟩
      · rcases List.mem_append.mp hm with hm | hm
        · exact .inr ⟨n, List.mem_cons_self, (mem_newNext.mp hm).1⟩
        · exact .inl (List.mem_cons_of_mem _ hm)
      · exact .inr ⟨k, List.mem_cons_of_mem _ hk, hm⟩
  · by_cases hold : k ∈ n :: met
    · exact .inr hold
    · exact h.stack k (List.mem_append_left _ (mem_newNext.mpr ⟨hk, hold⟩))

end Search.Meets

/-- A second search with enough steps meets what it leads to. -/
theorem exists_meets (hnext : ∀ n m, m ∈ next n → m ∈ all) {fuel : Nat}
    {stack met : List NodeId} (component : List NodeId) (hstack : ∀ n ∈ stack, n ∈ all)
    (hfuel : stack.length + unspent (fun n => (next n).length) all met ≤ fuel) :
    ∃ new, Search.Meets next stack met new ∧
      meetFrom next fuel stack met component = (component.reverse ++ new, new.reverse ++ met) := by
  induction fuel generalizing stack met component with
  | zero =>
    obtain rfl : stack = [] := List.length_eq_zero_iff.mp (by omega)
    exact ⟨[], .nothing, by simp [meetFrom]⟩
  | succ fuel ih =>
    cases stack with
    | nil => exact ⟨[], .nothing, by simp [meetFrom]⟩
    | cons n rest =>
      obtain ⟨hn, hrest⟩ := List.forall_mem_cons.mp hstack
      rw [List.length_cons] at hfuel
      by_cases hold : n ∈ met
      · have hless : rest.length + unspent (fun n => (next n).length) all met ≤ fuel := by omega
        obtain ⟨new, hmeets, heq⟩ := ih component hrest hless
        exact ⟨new, hmeets.passOver hold, by rw [meetFrom, if_neg (not_not.mpr hold), heq]⟩
      · have hspend := unspent_cons (fun n => (next n).length) hn hold
        have hlength := length_newNext_le next (n :: met) n
        have hless : (newNext next (n :: met) n ++ rest).length +
            unspent (fun n => (next n).length) all (n :: met) ≤ fuel := by
          rw [List.length_append]
          omega
        obtain ⟨new, hmeets, heq⟩ := ih (n :: component)
          (List.forall_mem_append.mpr ⟨fun m hm => hnext n m (mem_newNext.mp hm).1, hrest⟩) hless
        refine ⟨n :: new, hmeets.meet hold, ?_⟩
        rw [meetFrom, if_pos hold]
        exact heq.trans (by simp)

end Injector.Graph

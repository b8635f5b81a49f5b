import Injector.Proofs.Wiring.Root
import Mathlib.Data.List.Chain

/-!
# Building ends

Generic bindings may ask for ever larger specializations of themselves, and values of shapes are
made anew in every segment. What ends this is that a binding is under construction four times at
most and that, from one binding to the next, values of shapes ask for ever smaller types. The main
statement is that what a root asks for is well-founded and that the bounds that following is given
are never reached.
-/

namespace Injector.Wiring

section Faults

variable {follow : Follow} {context : Context} {node : NodeId} {s : State} {e : Fault}

/-- Jobs fail for want of a node, or as a query for one of their links does. -/
theorem performAll_eq_error {jobs : List Job}
    (h : performAll follow context node jobs s = .error e) :
    (∃ n, e = .absentNode n) ∨
      ∃ l s', .link l ∈ jobs ∧ follow.answer (l.query context s') = .error e := by
  induction jobs generalizing s with
  | nil => cases h
  | cons job jobs ih =>
    rcases performAll_cons_cases follow context node job jobs s with
      ⟨e', hhere, he⟩ | ⟨b, s₁, hhere, ⟨e', hrest, he⟩ | ⟨b', s₂, hrest, hok⟩⟩
    · cases h.symm.trans he
      cases job with
      | complain issue => cases hhere
      | link l =>
        rcases perform_link_cases follow context node l s with
          ⟨e', ha, he'⟩ | ⟨s₁, ha, hok⟩ | ⟨n, s₁, ha, ⟨e', hadd, he'⟩ | ⟨g, hadd, hok⟩⟩
        · cases hhere.symm.trans he'
          exact .inr ⟨l, s, List.mem_cons_self, ha⟩
        · cases hhere.symm.trans hok
        · cases hhere.symm.trans he'
          unfold Graph.addEdge at hadd
          split at hadd
          · split at hadd <;> cases hadd
            exact .inl ⟨_, rfl⟩
          · cases hadd
            exact .inl ⟨_, rfl⟩
        · cases hhere.symm.trans hok
    · cases h.symm.trans he
      exact (ih hrest).imp_right fun ⟨l, s', hl, ha⟩ => ⟨l, s', List.mem_cons_of_mem _ hl, ha⟩
    · cases h.symm.trans hok

theorem rollback_eq_error {m : Mark} (h : rollback m s = .error e) : e = .staleCheckpoint := by
  unfold rollback at h
  simp only [bind_apply, get_apply, ok_bind, lift_apply] at h
  unfold Graph.rollback at h
  split at h
  · cases h
    rfl
  · cases h

/-- A choice fails as jobs do, or for want of an earlier state to be taken back to. -/
theorem tryAll_eq_error {alternatives : List (List Job × Nat)} {found : List Issue}
    (h : tryAll follow context node alternatives found s = .error e) :
    (∃ n, e = .absentNode n) ∨ e = .staleCheckpoint ∨
      ∃ l s', .link l ∈ alternatives.flatMap Prod.fst ∧
        follow.answer (l.query context s') = .error e := by
  induction alternatives generalizing s found with
  | nil => cases h
  | cons first rest ih =>
    obtain ⟨jobs, index⟩ := first
    rcases tryAll_cons_cases follow context node jobs index rest found s with
      ⟨e', hall, he⟩ | ⟨s₁, hall, hok⟩ | ⟨s₁, hall, hok⟩
    · cases h.symm.trans he
      refine (performAll_eq_error hall).imp_right fun ⟨l, s', hl, ha⟩ => .inr ⟨l, s', ?_, ha⟩
      rw [List.flatMap_cons]
      exact List.mem_append_left _ hl
    · rw [hok] at h
      unfold Graph.modifyNode at h
      split at h <;> cases h
      exact .inl ⟨_, rfl⟩
    · rw [hok] at h
      cases hback : rollback s.mark s₁ with
      | error e' =>
        rw [hback] at h
        cases h
        exact .inr (.inl (rollback_eq_error hback))
      | ok r =>
        rw [hback] at h
        refine (ih h).imp_right fun h => h.imp_right fun ⟨l, s', hl, ha⟩ => ⟨l, s', ?_, ha⟩
        rw [List.flatMap_cons]
        exact List.mem_append_right _ hl

theorem carryOut_eq_error {work : Work} (h : work.carryOut follow context node s = .error e) :
    (∃ n, e = .absentNode n) ∨ e = .staleCheckpoint ∨
      ∃ l s', .link l ∈ work.jobs ∧ follow.answer (l.query context s') = .error e := by
  cases work with
  | once jobs => exact (performAll_eq_error h).imp_right .inr
  | choice alternatives => exact tryAll_eq_error h

end Faults

namespace Query

variable {resolver : Resolver} {q d : Query}

/-- A query that can be asked on the way from a root never reaches a bound. -/
theorem Admissible.outcome_ne_exhausted (hq : q.Admissible resolver) :
    q.outcome resolver ≠ .error .exhausted := by
  induction q, hq using Admissible.induct with | step q hq ih
  intro h
  by_cases hmake : ∃ m, q.verdict resolver = .ok (.make m)
  · obtain ⟨m, hm⟩ := hmake
    rw [outcome_make hq hm] at h
    cases hwork : m.work.carryOut (follow resolver (pathBound resolver))
        (q.inner m.key q.nodeNumber) q.nodeNumber (q.begun resolver m) with
    | ok r =>
      rw [hwork] at h
      cases h
    | error e =>
      rw [hwork] at h
      cases h
      rcases carryOut_eq_error hwork with ⟨n, hn⟩ | hstale | ⟨l, s, hl, ha⟩
      · cases hn
      · cases hstale
      · exact ih _ ⟨m, l, q.nodeNumber, s, hm, hl, rfl⟩ ha
  · obtain ⟨r, hr⟩ := outcome_ok_of_not_make hq fun m hm => hmake ⟨m, hm⟩
    cases h.symm.trans hr

/-- What can be asked for a value, for what that asks for, and so on, comes to an end. -/
theorem Admissible.acc (hq : q.Admissible resolver) :
    Acc (fun d q : Query => d.Below resolver q) q := by
  induction q, hq using Admissible.induct with | step q hq ih
  exact ⟨q, fun d hd => ih d hd⟩

/-- Whether the path to a query is bounded: no binding is under construction more often than
allowed, and below a value of a shape, up to the next binding, types become smaller. -/
structure Descending (q : Query) : Prop where
  /-- A binding is under construction four times at most. -/
  bounded : ∀ id, (q.context.path.filter (Frame.isOf id)).length ≤ 4
  /-- What comes below a value of a shape was asked for by a smaller type. -/
  shrinking : q.context.path.IsChain fun f f' =>
    f.binding? = none → f'.contract.type.size < f.contract.type.size
  /-- What is asked for a value of a shape is smaller. -/
  request : ∀ f, q.context.path.getLast? = some f → f.binding? = none →
    q.request.contract.type.size < f.contract.type.size

/-- What is asked for a value comes below the path to it, at which the value stands. -/
theorem Descending.below (hq : q.Admissible resolver) (h : q.Descending)
    (hd : d.Below resolver q) : d.Descending := by
  have hbounded : ∀ id, (d.context.path.filter (Frame.isOf id)).length ≤ 4 := fun id =>
    Context.count_bindings d.context id ▸ (hq.below hd).bounded id
  obtain ⟨m, l, node, s, hm, hl, rfl⟩ := hd
  have hpath : (l.query (q.inner m.key node) s).context.path =
      q.context.path ++ [⟨m.key, node, q.context.segment, q.request.contract⟩] := by
    unfold Link.query
    cases l.provides <;> rfl
  refine ⟨hbounded, ?_, ?_⟩ <;> rw [hpath]
  · refine List.isChain_append.mpr ⟨h.shrinking, .singleton _, fun f hf f' hf' hshape => ?_⟩
    obtain rfl : _ = f' := by simpa using hf'
    exact h.request f hf hshape
  · intro f hf hshape
    obtain rfl : _ = f := by simpa using hf
    rcases decreases node s hq.admits hm hl with ⟨id, t, hkey, -⟩ | ⟨c, -, -, hsize⟩
    · simp [Frame.binding?, hkey] at hshape
    · exact hsize

/-- The path to whatever can be asked on the way from a query is as bounded as that to the query. -/
theorem Descending.of_reflTransGen (hq : q.Admissible resolver) (h : q.Descending)
    (hd : Relation.ReflTransGen (fun q d : Query => d.Below resolver q) q d) : d.Descending := by
  suffices hboth : d.Admissible resolver ∧ d.Descending from hboth.2
  induction hd with
  | refl => exact ⟨hq, h⟩
  | tail _ hstep ih => exact ⟨ih.1.below hstep, ih.2.below ih.1 hstep⟩

/-- What a query reaches can be asked on the way from it. -/
theorem Proper.of_reaches (hq : q.Proper resolver) (h : Reaches resolver q d) :
    d.Proper resolver ∧ Relation.ReflTransGen (fun q d : Query => d.Below resolver q) q d := by
  induction h with
  | refl => exact ⟨hq, .refl⟩
  | tail _ hstep ih =>
    obtain ⟨hproper, hbelow⟩ := ih.1.of_asks hstep
    exact ⟨hproper, ih.2.tail hbelow⟩

theorem ofRoot_descending (root : Table.Root) (cycles : CycleLog) :
    (ofRoot root cycles).Descending :=
  ⟨by simp [ofRoot], .nil, by simp [ofRoot]⟩

end Query

/-- Building always ends, whatever the table, the shapes and the root. What can be asked on the way
from the root, in any state, is well-founded, since no binding is under construction more than four
times and, from one binding to the next, values of shapes ask for smaller and smaller types; and
what building asks for is among that, so that no bound on it is ever reached. -/
theorem buildRoot_ends (resolver : Resolver) (root : Table.Root) (cycles : CycleLog) :
    buildRoot resolver root cycles ≠ .error .exhausted ∧
      Acc (fun d q : Query => d.Below resolver q) (.ofRoot root cycles) ∧
      (∀ d, Relation.ReflTransGen (fun q d : Query => d.Below resolver q) (.ofRoot root cycles) d →
        d.Descending) ∧
      ∀ d, Query.Reaches resolver (.ofRoot root cycles) d →
        Relation.ReflTransGen (fun q d : Query => d.Below resolver q) (.ofRoot root cycles) d := by
  have hq := Query.ofRoot_proper resolver root cycles
  refine ⟨fun h => ?_, hq.acc, fun d => .of_reflTransGen hq.toAdmissible ?_, fun d hd => ?_⟩
  · rw [buildRoot_eq] at h
    cases hout : (Query.ofRoot root cycles).outcome resolver with
    | ok r =>
      rw [hout] at h
      cases h
    | error e =>
      rw [hout] at h
      cases h
      exact hq.outcome_ne_exhausted hout
  · exact Query.ofRoot_descending root cycles
  · exact (hq.of_reaches hd).2

end Injector.Wiring

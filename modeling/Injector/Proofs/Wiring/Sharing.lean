import Injector.Proofs.Wiring.Creation

/-!
# Values are shared

A value that is not transient has a key under which it is shared once it is made. While it is under
construction, what asks for it is linked to it or closes a loop, and afterwards it is found by its
key. The main statement is that no two queries that are retained make values with one key.
-/

namespace Injector.Wiring

variable {resolver : Resolver}

namespace Query

variable {q d d' : Query}

/-- A value that is shared is made only where it is neither under construction nor shared yet. -/
theorem unshared_of_make {m : Making} (hm : q.verdict resolver = .ok (.make m)) {k : SharedKey}
    (hk : m.shared = some k) :
    (∀ f ∈ q.context.path, f.key ≠ m.key) ∧ ∀ n, (k, n) ∉ q.state.shared := by
  cases verdict_grounds hm with
  | makeShape => cases hk
  | @makeBinding id s r hres hr =>
    have hkey : SharedKey.of? r.lifetime id s q.context.block = some k := hk
    have hshared : (r.lifetime != .transient) = true := by
      rw [bne_iff_ne]
      intro htransient
      rw [htransient] at hkey
      cases hkey
    obtain ⟨hpath, -, hlookup, -⟩ :=
      bindingVerdict_eq_make.mp (bindingVerdict_of_verdict hm (by simp) hres hr)
    rw [hshared] at hpath
    rw [hkey, Option.bind_some] at hlookup
    refine ⟨fun f hf heq => ?_, fun n hn => ?_⟩
    · cases (of_onPath?_eq_none hpath hf heq).2
    · simpa using List.lookup_eq_none_iff.mp hlookup (k, n) hn

/-- A value with a key is shared once it is made, and is under construction until then. -/
theorem leaves_shared (resolver : Resolver) (k : SharedKey) :
    Leaves resolver (fun q => ∃ m, q.verdict resolver = .ok (.make m) ∧ m.shared = some k)
      (fun s => ∃ n, (k, n) ∈ s.shared) where
  kept hx := fun ⟨n, hn⟩ => ⟨n, hx.shared.subset hn⟩
  completed := by
    rintro q m s₀ s₁ s' hmade ⟨n, hn⟩
    refine ⟨n, ?_⟩
    rw [hmade.shared]
    unfold State.sharing
    split
    · exact List.mem_cons_of_mem _ hn
    · exact hn
  left := by
    rintro q n s hq ⟨m, hm, hk⟩ hout
    obtain ⟨-, s₀, s₁, hmade⟩ := exists_made hq hm hout
    rw [hmade.shared, hk]
    exact ⟨q.nodeNumber, List.mem_cons_self⟩
  once := by
    rintro q - ⟨n, hn⟩ ⟨m, hm, hk⟩
    exact (unshared_of_make hm hk).2 n hn
  below := by
    rintro q d c hq ⟨m, hm, hk⟩ hc hd ⟨m', hm', hk'⟩
    obtain ⟨-, hproper, -⟩ := hq.of_mem_lastCalls hc
    have hframe : (⟨m.key, q.nodeNumber, q.context.segment, q.request.contract⟩ : Frame) ∈
        d.context.path := by
      refine hproper.path_subset hd ?_
      rw [hq.path_of_mem_lastCalls hm hc]
      exact List.mem_append_right _ (List.mem_singleton_self _)
    have hkey : m.key = .binding k.binding k.substitution :=
      (content_of_make (verdict_grounds hm)).2.2 k hk
    have hkey' : m'.key = .binding k.binding k.substitution :=
      (content_of_make (verdict_grounds hm')).2.2 k hk'
    exact (unshared_of_make hm' hk').1 _ hframe (hkey.trans hkey'.symm)

/-- No two queries that are retained make values with one key. -/
theorem eq_of_shared_eq (hq : q.Proper resolver) {n : NodeId} {s' : State}
    (h : q.outcome resolver = .ok (some n, s')) (hd : q.Retains resolver d)
    (hd' : q.Retains resolver d') {m m' : Making} (hm : d.verdict resolver = .ok (.make m))
    (hm' : d'.verdict resolver = .ok (.make m')) {k : SharedKey} (hk : m.shared = some k)
    (hk' : m'.shared = some k) : d = d' :=
  (leaves_shared resolver k).unique hq h hd hd' ⟨m, hm, hk⟩ ⟨m', hm', hk'⟩

end Query

end Injector.Wiring

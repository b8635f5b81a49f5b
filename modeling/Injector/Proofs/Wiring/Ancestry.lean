import Injector.Proofs.Wiring.Needs
import Injector.Proofs.Wiring.Termination

/-!
# What loops come from

What is under construction was asked for on the way, and in one segment everything is asked for at
once. Where no binding needs itself at once, a binding can therefore not close a loop. The main
statement is what is left: over a table without choices, a query on the way from the root closes a
loop only if a binding is under construction as often as is allowed, or if it asks for a value of a
shape that is under construction under another pin. The latter does not happen where what holds one
value has one argument.
-/

namespace Injector.Wiring

namespace Query

variable {resolver : Resolver} {p q d : Query}

/-- Whether a query closes a loop, or is refused as one that would. -/
def Loops (resolver : Resolver) (q : Query) : Prop :=
  ∃ members path, q.verdict resolver = .ok (.loop members path)

/-- Whether a query asks at once for a binding that is under construction as often as is allowed. -/
def Overruns (resolver : Resolver) (q : Query) : Prop :=
  q.visible? = none ∧ q.timing = .eager ∧
    ∃ id s, resolver.resolve q.request = .binding id s ∧
      maxSpecializations ≤ (q.context.path.filter (Frame.isOf id)).length

/-- Whether a query that no binding answers is refused because it is taken for `p`, which has the
same contract and segment, but another pin. -/
def TakenFor (resolver : Resolver) (q p : Query) : Prop :=
  q.Loops resolver ∧ (∀ id s, resolver.resolve q.request ≠ .binding id s) ∧
    (∃ m, p.verdict resolver = .ok (.make m) ∧ m.key = .contract q.request.contract) ∧
    p.context.segment = q.context.segment ∧ p.request.pin ≠ q.request.pin

/-- A query is asked for a link of the value that is made. -/
theorem Proper.exists_link_of_asks (hq : q.Proper resolver) (h : q.Asks resolver d) :
    ∃ m l s, q.verdict resolver = .ok (.make m) ∧ .link l ∈ m.work.jobs ∧
      d = l.query (q.inner m.key q.nodeNumber) s ∧ (q.begun resolver m).Extends s ∧
      s.Consistent resolver := by
  obtain ⟨a, ha, c, hc, rfl⟩ := h
  obtain ⟨m, s, hm, -, hl, heq, hx, hs⟩ := hq.exists_link ha hc
  exact ⟨m, c.link, s, hm, hl, heq, hx, hs⟩

/-- A call is made at once in the segment of its value, or it is a provider call, which begins a
segment. -/
theorem Proper.segment_cases (hq : q.Proper resolver)
    (hbegun : q.context.segment < q.state.nextSegment) {a : Attempt}
    (ha : a ∈ q.attempts resolver) {c : Call} (hc : c ∈ q.callsOf resolver a) :
    c.query.context.segment < c.query.state.nextSegment ∧
      (c.link.provides = none ∧ c.query.timing = .eager ∧
          c.query.context.segment = q.context.segment ∨
        c.query.timing = .deferred ∧ q.context.segment < c.query.context.segment) := by
  obtain ⟨m, s, hm, -, hl, heq, hx, hs⟩ := hq.exists_link ha hc
  have hblocks : q.state.nextSegment ≤ s.nextSegment := by
    rw [hq.consistent.segments, hs.segments]
    exact Nat.le_trans (extends_begun q m).blocks hx.blocks
  have htiming : c.query.timing = c.link.wire.timing := by rw [heq, Link.query_timing]
  have hprovides : c.link.provides.isSome ↔ c.link.wire.timing = .deferred := by
    cases verdict_grounds hm with
    | makeBinding =>
      obtain ⟨-, heager, hwithin⟩ := plain_of_mem_workOf hl
      simp [heager, hwithin]
    | makeShape =>
      obtain ⟨part, -, -, hsame, hdeferred, -⟩ := part_of_mem_partJobs hl
      rw [hsame, hdeferred]
  cases hargs : c.link.provides with
  | none =>
    have hsegment : c.query.context.segment = q.context.segment := by
      simp [heq, Link.query, hargs, inner]
    have hstate : c.query.state = s := by simp [heq, Link.query, hargs]
    have heager : c.query.timing = .eager := by
      cases hwire : c.link.wire.timing with
      | eager => rw [htiming, hwire]
      | deferred => simp [hargs, hwire] at hprovides
    rw [hsegment, hstate]
    exact ⟨Nat.lt_of_lt_of_le hbegun hblocks, .inl ⟨rfl, heager, rfl⟩⟩
  | some args =>
    have hsegment : c.query.context.segment = s.nextSegment := by simp [heq, Link.query, hargs]
    have hnext : c.query.state.nextSegment = s.nextSegment + 1 := by
      simp [heq, Link.query, hargs, State.opened]
    have hdeferred : c.query.timing = .deferred := htiming.trans (hprovides.mp (by simp [hargs]))
    rw [hsegment, hnext]
    exact ⟨Nat.lt_succ_self _, .inr ⟨hdeferred, Nat.lt_of_lt_of_le hbegun hblocks⟩⟩

/-- What is under construction where a query is reached was asked for on the way. -/
theorem Proper.exists_of_frame (hq : q.Proper resolver) (h : q.Reaches resolver d) {f : Frame}
    (hf : f ∈ d.context.path) :
    f ∈ q.context.path ∨ ∃ p m, q.Reaches resolver p ∧
      Relation.TransGen (Asks resolver) p d ∧ p.verdict resolver = .ok (.make m) ∧
      f = ⟨m.key, p.nodeNumber, p.context.segment, p.request.contract⟩ := by
  induction h with
  | refl => exact .inl hf
  | @tail r d hr hasks ih =>
    have hproper := (hq.of_reaches hr).1
    obtain ⟨m, l, s, hm, -, rfl, -⟩ := hproper.exists_link_of_asks hasks
    rw [Link.query_path] at hf
    rcases List.mem_append.mp hf with hf | hf
    · refine (ih hf).imp_right ?_
      rintro ⟨p, m', hp, hpath, hm', heq⟩
      exact ⟨p, m', hp, hpath.tail hasks, hm', heq⟩
    · exact .inr ⟨r, m, hr, .single hasks, hm, List.mem_singleton.mp hf⟩

/-- Whether a query can be asked on the way from a root over a table without markers. -/
structure Regular (resolver : Resolver) (q : Query) : Prop extends q.Proper resolver where
  /-- Its segment was begun. -/
  begun : q.context.segment < q.state.nextSegment
  /-- It is pinned to no choices. -/
  unmarked : q.request.Unmarked

theorem ofRoot_regular (resolver : Resolver) (root : Table.Root) (cycles : CycleLog) :
    (ofRoot root cycles).Regular resolver where
  toProper := ofRoot_proper resolver root cycles
  begun := Nat.zero_lt_one
  unmarked := Resolver.unmarked_free _

/-- What is asked for a value is asked in the same segment, at once, or in a later one. -/
theorem Regular.of_asks (ht : resolver.table.Rigid) (hq : q.Regular resolver)
    (h : q.Asks resolver d) :
    d.Regular resolver ∧ q.context.segment ≤ d.context.segment ∧
      ∃ m l, q.verdict resolver = .ok (.make m) ∧ .link l ∈ m.work.jobs ∧
        d.request = l.wire.request ∧
        (d.context.segment = q.context.segment → l.provides = none) := by
  have hproper := (hq.toProper.of_asks h).1
  obtain ⟨a, ha, c, hc, rfl⟩ := h
  obtain ⟨m, s, hm, -, hl, heq, -⟩ := hq.exists_link ha hc
  obtain ⟨hbegun, hcases⟩ := hq.segment_cases hq.begun ha hc
  have hrequest : c.query.request = c.link.wire.request := by rw [heq, Link.query_request]
  have hunmarked : c.link.wire.request.Unmarked := by
    cases verdict_grounds hm with
    | makeBinding =>
      obtain ⟨⟨c, hfree⟩, -, -⟩ := plain_of_mem_workOf hl
      exact hfree ▸ Resolver.unmarked_free c
    | makeShape hres =>
      obtain ⟨part, hpart, hrequest, -⟩ := part_of_mem_partJobs hl
      exact hrequest ▸ Resolver.unmarked_of_mem_dependencies ht hq.unmarked hres hpart
  refine ⟨⟨hproper, hbegun, hrequest ▸ hunmarked⟩, ?_, m, c.link, hm, hl, hrequest, ?_⟩
  · rcases hcases with ⟨-, -, hsame⟩ | ⟨-, hlt⟩
    · exact hsame.ge
    · exact hlt.le
  · intro hsame
    rcases hcases with ⟨hnone, -⟩ | ⟨-, hlt⟩
    · exact hnone
    · exact absurd hsame.symm hlt.ne

theorem Regular.of_reaches (ht : resolver.table.Rigid) (hq : q.Regular resolver)
    (h : q.Reaches resolver d) : d.Regular resolver := by
  induction h with
  | refl => exact hq
  | tail _ hasks ih => exact (ih.of_asks ht hasks).1

/-- Whether a query asks for something at once that another one needs: for a part of its type, or
for what a binding needs to which the other one leads. -/
def Descends (resolver : Resolver) (p q : Query) : Prop :=
  ((∀ id s, resolver.resolve p.request ≠ .binding id s) ∧
    q.request.contract.type.size < p.request.contract.type.size ∧
    ∀ y, resolver.Leads q.request y → resolver.Leads p.request y) ∨
  ∃ x, resolver.Leads p.request x ∧
    ∀ y, resolver.Leads q.request y → Relation.TransGen resolver.NeedsEagerly x y

/-- What is asked for a value at once is needed at once. -/
theorem Regular.descends_of_asks (ht : resolver.table.Rigid) (hq : q.Regular resolver)
    (h : q.Asks resolver d) (hsegment : d.context.segment = q.context.segment) :
    q.Descends resolver d := by
  obtain ⟨-, -, m, l, hm, hl, hrequest, hnone⟩ := hq.of_asks ht h
  have hprovides := hnone hsegment
  cases verdict_grounds hm with
  | @makeBinding x s r hres hr =>
    obtain rfl := Resolver.eq_empty_of_resolve ht hq.unmarked hres
    refine .inr ⟨x, .binding hres, fun y hy => .single ⟨r, l, hr, hl, ?_⟩⟩
    rwa [← hrequest]
  | makeShape hres =>
    obtain ⟨part, hpart, hsame, -, hdeferred, -⟩ := part_of_mem_partJobs hl
    have heager : part.timing = .eager := by
      cases htiming : part.timing with
      | eager => rfl
      | deferred => simp [hprovides, htiming] at hdeferred
    obtain ⟨-, htype⟩ := Resolver.mem_dependencies hq.admits hres hpart
    refine .inl ⟨fun id s heq => ?_, ?_, fun y hy => ?_⟩
    · cases hres.symm.trans heq
    · rw [hrequest, hsame]
      exact TypeExpr.size_lt_of_mem_args htype
    · rw [hrequest, hsame] at hy
      exact .part hres hpart heager hy

/-- Where a query asks for the same again, it is needed by a binding to which the first one
leads. -/
theorem Descends.exists_needs (h : p.Descends resolver q)
    (hcontract : p.request.contract = q.request.contract) :
    ∃ x, resolver.Leads p.request x ∧
      ∀ y, resolver.Leads q.request y → Relation.TransGen resolver.NeedsEagerly x y := by
  rcases h with ⟨-, hsize, -⟩ | hneeds
  · rw [hcontract] at hsize
    exact absurd hsize (Nat.lt_irrefl _)
  · exact hneeds

theorem Descends.trans (h : p.Descends resolver q) (h' : q.Descends resolver d) :
    p.Descends resolver d := by
  rcases h with ⟨hshape, hsize, hleads⟩ | ⟨x, hx, hneeds⟩ <;>
    rcases h' with ⟨hshape', hsize', hleads'⟩ | ⟨x', hx', hneeds'⟩
  · exact .inl ⟨hshape, Nat.lt_trans hsize' hsize, fun y hy => hleads y (hleads' y hy)⟩
  · exact .inr ⟨x', hleads x' hx', hneeds'⟩
  · exact .inr ⟨x, hx, fun y hy => hneeds y (hleads' y hy)⟩
  · exact .inr ⟨x, hx, fun y hy => (hneeds x' hx').trans (hneeds' y hy)⟩

/-- What is asked on the way in one segment is needed at once. -/
theorem Regular.descends (ht : resolver.table.Rigid) (hp : p.Regular resolver)
    (h : Relation.TransGen (Asks resolver) p q) :
    p.context.segment ≤ q.context.segment ∧
      (q.context.segment = p.context.segment → p.Descends resolver q) := by
  induction h with
  | single hasks => exact ⟨(hp.of_asks ht hasks).2.1, hp.descends_of_asks ht hasks⟩
  | @tail d q hpath hasks ih =>
    obtain ⟨hle, hdescends⟩ := ih
    have hd := hp.of_reaches ht hpath.to_reflTransGen
    have hle' := (hd.of_asks ht hasks).2.1
    refine ⟨Nat.le_trans hle hle', fun hsame => ?_⟩
    have hmiddle : d.context.segment = p.context.segment := by omega
    exact (hdescends hmiddle).trans (hd.descends_of_asks ht hasks (hsame.trans hmiddle.symm))

/-- A value that is recognised by a contract was asked for by it. -/
theorem contract_eq_of_key {m : Making} (hm : p.verdict resolver = .ok (.make m)) {c : Contract}
    (hkey : m.key = .contract c) : p.request.contract = c := by
  cases verdict_grounds hm with
  | makeBinding => cases hkey
  | makeShape => exact Key.contract.inj hkey

section FromRoot

variable {root : Table.Root} {cycles : CycleLog}

/-- Over a table without markers, what a binding makes is recognised by the binding alone. -/
theorem key_of_isOf (ht : resolver.table.Rigid) (hq : (ofRoot root cycles).Reaches resolver q)
    {f : Frame} (hf : f ∈ q.context.path) {id : BindingId} (hof : f.isOf id = true) :
    f.key = .binding id .empty := by
  have hroot := ofRoot_regular resolver root cycles
  rcases hroot.toProper.exists_of_frame hq hf with hf | ⟨p, m, hp, -, hm, rfl⟩
  · cases hf
  · cases verdict_grounds hm with
    | makeShape => cases hof
    | makeBinding hres =>
      obtain rfl := Resolver.eq_empty_of_resolve ht (hroot.of_reaches ht hp).unmarked hres
      obtain rfl : _ = id := by simpa [Frame.isOf, bindingMaking] using hof
      rfl

/-- What is not transient is under construction once at most, for where its value is made it is not
under construction yet. -/
theorem length_filter_isOf_le_one (ht : resolver.table.Rigid)
    (hq : (ofRoot root cycles).Reaches resolver q) {id : BindingId} {r : Registration}
    (hr : resolver.table.bindings[id]? = some r) (hl : r.lifetime ≠ .transient) :
    (q.context.path.filter (Frame.isOf id)).length ≤ 1 := by
  have hroot := ofRoot_regular resolver root cycles
  induction hq with
  | refl => exact Nat.zero_le _
  | @tail d q hd hasks ih =>
    have hregular := hroot.of_reaches ht hd
    obtain ⟨m, l, s, hm, -, rfl, -⟩ := hregular.toProper.exists_link_of_asks hasks
    rw [Link.query_path, inner, List.filter_append, List.length_append]
    cases hof : Frame.isOf id ⟨m.key, d.nodeNumber, d.context.segment, d.request.contract⟩ with
    | false => simpa [hof] using ih
    | true =>
      have hnone : d.context.path.filter (Frame.isOf id) = [] := by
        refine List.filter_eq_nil_iff.mpr fun f hf hofId => ?_
        cases verdict_grounds hm with
        | makeShape => cases hof
        | @makeBinding x s' r' hres hr' =>
          obtain rfl := Resolver.eq_empty_of_resolve ht hregular.unmarked hres
          obtain rfl : x = id := by simpa [Frame.isOf, bindingMaking] using hof
          cases hr.symm.trans hr'
          obtain ⟨hpath, -⟩ :=
            bindingVerdict_eq_make.mp (bindingVerdict_of_verdict hm (by simp) hres hr)
          have hshared := (of_onPath?_eq_none hpath hf (key_of_isOf ht hd hf hofId)).2
          exact hl (by simpa using hshared)
      simp [hnone, hof]

/-- A query that asks at once for a binding which is under construction as often as is allowed
closes a loop. -/
theorem Overruns.loops (ht : resolver.table.Rigid) (hq : (ofRoot root cycles).Reaches resolver q)
    (h : q.Overruns resolver) : q.Loops resolver := by
  obtain ⟨hvisible, heager, id, s, hres, hcount⟩ := h
  have hlt := Resolver.lt_of_resolve_binding
    ((ofRoot_regular resolver root cycles).of_reaches ht hq).admits hres
  have hr := List.getElem?_eq_getElem hlt
  refine verdict_of_count_le hvisible hres hr hcount fun n => ?_
  have htransient : resolver.table.bindings[id].lifetime = .transient := by
    by_contra hl
    have hone := length_filter_isOf_le_one ht hq hr hl
    have : 1 < maxSpecializations := by decide
    omega
  rw [htransient]
  exact onPath?_ne_linked heager n

/-- What closes a loop was asked for on the way in the same segment. -/
theorem exists_ancestor (ht : resolver.table.Rigid) (hq : (ofRoot root cycles).Reaches resolver q)
    {key : Key} {isShared : Bool} {members : List String} {path : String}
    (h : q.onPath? key isShared = some (.loop members path)) :
    ∃ p m, (ofRoot root cycles).Reaches resolver p ∧ Relation.TransGen (Asks resolver) p q ∧
      p.verdict resolver = .ok (.make m) ∧ m.key = key ∧
      p.context.segment = q.context.segment ∧ p.Descends resolver q := by
  have hroot := ofRoot_regular resolver root cycles
  obtain ⟨f, hf, hkey, hsegment⟩ := onPath?_eq_loop h
  rcases hroot.toProper.exists_of_frame hq hf with hf | ⟨p, m, hp, hasks, hm, rfl⟩
  · cases hf
  · have hdescends := ((hroot.of_reaches ht hp).descends ht hasks).2 hsegment.symm
    exact ⟨p, m, hp, hasks, hm, hkey, hsegment, hdescends⟩

/-- Where no binding needs itself at once, a binding that is under construction closes no loop. -/
theorem onPath?_ne_loop (ht : resolver.table.Rigid) (hacyclic : resolver.Acyclic)
    (hq : (ofRoot root cycles).Reaches resolver q) {id : BindingId} {s : Substitution}
    (hres : resolver.resolve q.request = .binding id s) (isShared : Bool) (members : List String)
    (path : String) : q.onPath? (.binding id s) isShared ≠ some (.loop members path) := by
  intro hpath
  obtain ⟨p, m, -, -, hm, hkey, -, hdescends⟩ := exists_ancestor ht hq hpath
  cases verdict_grounds hm with
  | makeShape => cases hkey
  | makeBinding hres' =>
    cases hkey
    rcases hdescends with ⟨hshape, -⟩ | ⟨x, hx, hneeds⟩
    · exact hshape _ _ hres'
    · obtain rfl := hx.eq_of_resolve hres'
      exact hacyclic x (hneeds x (.binding hres))

/-- Where no binding needs itself at once, a query on the way from a root closes a loop only if its
binding is under construction too often, or if it is taken for another one. -/
theorem Loops.cases (ht : resolver.table.Rigid) (hacyclic : resolver.Acyclic)
    (hq : (ofRoot root cycles).Reaches resolver q) (h : q.Loops resolver) :
    q.Overruns resolver ∨ ∃ p, (ofRoot root cycles).Reaches resolver p ∧
      Relation.TransGen (Asks resolver) p q ∧ q.TakenFor resolver p := by
  have hregular := (ofRoot_regular resolver root cycles).of_reaches ht hq
  obtain ⟨members, path, hv⟩ := h
  rcases verdict_eq_loop hv with
    ⟨id, s, isShared, hres, hpath | ⟨hpath, hcount⟩⟩ | ⟨_, _, _, hres, hpath⟩
  · exact absurd hpath (onPath?_ne_loop ht hacyclic hq hres isShared members path)
  · obtain rfl := Resolver.eq_empty_of_resolve ht hregular.unmarked hres
    have hvisible := visible?_eq_none hv (by simp)
    have hpos : 0 < (q.context.path.filter (Frame.isOf id)).length :=
      Nat.lt_of_lt_of_le (by decide) hcount
    obtain ⟨f, hf⟩ := List.exists_mem_of_length_pos hpos
    obtain ⟨hf, hof⟩ := List.mem_filter.mp hf
    have heager := (of_onPath?_eq_none hpath hf (key_of_isOf ht hq hf hof)).1
    exact .inl ⟨hvisible, heager, id, _, hres, hcount⟩
  · obtain ⟨p, m, hp, hasks, hm, hkey, hsegment, hdescends⟩ := exists_ancestor ht hq hpath
    have hcontract := contract_eq_of_key hm hkey
    have hpin : p.request.pin ≠ q.request.pin := by
      intro hpin
      obtain ⟨x, hx, hneeds⟩ := hdescends.exists_needs hcontract
      have hsame : p.request = q.request := Request.ext hcontract hpin
      exact hacyclic x (hneeds x (hsame ▸ hx))
    have hshape : ∀ id s, resolver.resolve q.request ≠ .binding id s := by
      intro id s heq
      cases hres.symm.trans heq
    exact .inr ⟨p, hp, hasks, ⟨members, path, hv⟩, hshape, ⟨m, hm, hkey⟩, hsegment, hpin⟩

/-- Pins on the way from a root are to the active bindings, where wrappers have one argument. -/
theorem anchors_of_reaches (ht : resolver.table.Rigid) (hshapes : resolver.shapes.Unary)
    (hq : (ofRoot root cycles).Reaches resolver q) : resolver.Anchors q.request := by
  induction hq with
  | refl => exact Resolver.anchors_free _
  | @tail d q hd hasks ih =>
    obtain ⟨-, -, m, l, hm, hl, hrequest, -⟩ :=
      ((ofRoot_regular resolver root cycles).of_reaches ht hd).of_asks ht hasks
    rw [hrequest]
    cases verdict_grounds hm with
    | makeBinding =>
      obtain ⟨⟨c, hfree⟩, -, -⟩ := plain_of_mem_workOf hl
      exact hfree ▸ Resolver.anchors_free c
    | makeShape hres =>
      obtain ⟨part, hpart, hsame, -⟩ := part_of_mem_partJobs hl
      exact hsame ▸ ih.of_mem_dependencies ht hshapes hres hpart

/-- No query is taken for another one where wrappers have one argument. -/
theorem not_takenFor (ht : resolver.table.Rigid) (hshapes : resolver.shapes.Unary)
    (hacyclic : resolver.Acyclic) (hp : (ofRoot root cycles).Reaches resolver p)
    (hasks : Relation.TransGen (Asks resolver) p q) : ¬ q.TakenFor resolver p := by
  rintro ⟨⟨members, path, hv⟩, hshape, ⟨m, hm, hkey⟩, hsegment, hpin⟩
  have hregular := (ofRoot_regular resolver root cycles).of_reaches ht hp
  have hcontract := contract_eq_of_key hm hkey
  have hdescends := (hregular.descends ht hasks).2 hsegment.symm
  obtain ⟨x, hx, hneeds⟩ := hdescends.exists_needs hcontract
  rcases verdict_eq_loop hv with ⟨id, s, -, hres, -⟩ | ⟨_, _, _, hres', -⟩
  · exact hshape id s hres
  · cases verdict_grounds hm with
    | makeBinding => cases hkey
    | makeShape hres =>
      have hanchors := anchors_of_reaches ht hshapes hp
      have hanchors' := anchors_of_reaches ht hshapes (hp.trans hasks.to_reflTransGen)
      have hleads := hanchors.leads_of_leads hshapes hanchors' hcontract hpin hres hres' hx
      exact hacyclic x (hneeds x hleads)

end FromRoot

end Query

end Injector.Wiring

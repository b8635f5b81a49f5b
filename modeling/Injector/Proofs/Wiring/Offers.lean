import Injector.Proofs.Wiring.Blocks

/-!
# What is seen within a provider call

The arguments of a provider call are seen before all others, also in what is made at once for its
value, and stay so when they get nodes. The main statement is that a request without tag and pin for
the type of one of them is answered there by an argument of the call, or by the number noted for
one.
-/

namespace Injector.Wiring

variable {resolver : Resolver}

/-- Whether an argument is one of a block, or has a node. -/
def Argument.IsGiven (block : BlockId) (a : Argument) : Prop :=
  (∃ index, a.source = .argument block index) ∨ ∃ n, a.source = .node n

/-- Whether the first argument seen of each of some types is given by the call that opened a
block. -/
def State.Offers (s : State) (args : List TypeExpr) (block : BlockId) : Prop :=
  ∀ type ∈ args, ∃ a, (s.arguments.find? fun a => a.type == type) = some a ∧ a.IsGiven block

/-- The first argument of a type stays the first one, and at most gets a node. -/
theorem find?_of_becomes {g : Graph} {as bs : List Argument}
    (h : List.Forall₂ (Argument.Becomes g) as bs) {type : TypeExpr} {a : Argument}
    (ha : (as.find? fun a => a.type == type) = some a) :
    ∃ b, (bs.find? fun b => b.type == type) = some b ∧ a.Becomes g b := by
  induction h with
  | nil => cases ha
  | @cons a' b' as bs hhere _ ih =>
    have htype : b'.type = a'.type := by
      rcases hhere with rfl | ⟨htype, -⟩
      · rfl
      · exact htype
    by_cases hfound : a'.type = type
    · rw [List.find?_cons_of_pos (by simpa using hfound)] at ha
      obtain rfl := Option.some.inj ha
      exact ⟨b', List.find?_cons_of_pos (by simpa [htype] using hfound), hhere⟩
    · rw [List.find?_cons_of_neg (by simpa using hfound)] at ha
      obtain ⟨b, hb, hbecomes⟩ := ih ha
      exact ⟨b, by rwa [List.find?_cons_of_neg (by simpa [htype] using hfound)], hbecomes⟩

namespace State

variable {s s' : State} {args : List TypeExpr} {block : BlockId}

/-- What a call gives is still seen when more was built. -/
theorem Offers.of_extends (h : s.Offers args block) (hx : s.Extends s') :
    s'.Offers args block := by
  intro type htype
  obtain ⟨a, ha, hgiven⟩ := h type htype
  obtain ⟨b, hb, rfl | ⟨-, n, hn, -⟩⟩ := find?_of_becomes hx.arguments ha
  · exact ⟨b, hb, hgiven⟩
  · exact ⟨b, hb, .inr ⟨n, hn⟩⟩

/-- What a call gives is seen first when its block is opened. -/
theorem offers_opened (s : State) (args : List TypeExpr) :
    (s.opened args).Offers args s.graph.blocks := by
  intro type htype
  obtain ⟨index, hindex, rfl⟩ := List.mem_iff_getElem.mp htype
  simp only [opened, List.find?_append]
  cases hfound : ((args.zipIdx.map fun a =>
      (⟨a.1, .argument s.graph.blocks a.2⟩ : Argument)).reverse.find? fun a =>
        a.type == args[index]) with
  | none =>
    have hnone := List.find?_eq_none.mp hfound ⟨args[index], .argument s.graph.blocks index⟩
      (List.mem_reverse.mpr (List.mem_map.mpr ⟨(args[index], index),
        List.mem_zipIdx_iff_getElem?.mpr (by simp), rfl⟩))
    simp at hnone
  | some a =>
    obtain ⟨p, -, rfl⟩ := List.mem_map.mp (List.mem_reverse.mp (List.mem_of_find?_eq_some hfound))
    exact ⟨_, rfl, .inl ⟨p.2, rfl⟩⟩

end State

namespace Query

variable {q d : Query} {c : Call} {args : List TypeExpr} {block : BlockId}

/-- A call that opens a block gives its arguments to what it asks for. -/
theorem Proper.offers_of_opens (hq : q.Proper resolver) (hc : c ∈ q.lastCalls resolver)
    (ho : c.Opens block) (hl : c.link.provides = some args) :
    c.query.state.Offers args block := by
  obtain ⟨m, s, -, -, heq, -⟩ := hq.exists_lastLink hc
  have hblock : s.graph.blocks = block := by
    simpa [heq, Link.query, hl] using ho.2
  rw [heq, ← hblock]
  simpa [Link.query, hl] using s.offers_opened args

/-- A call that is made at once opens no block. -/
theorem Proper.provides_eq_none (hq : q.Proper resolver) (hc : c ∈ q.lastCalls resolver)
    (heager : c.query.timing = .eager) : c.link.provides = none := by
  by_contra hl
  have hdeferred := (hq.eq_singleton_of_provides hc (Option.isSome_iff_ne_none.mpr hl)).2.1
  rw [← hq.timing_of_mem_lastCalls hc, heager] at hdeferred
  cases hdeferred

/-- What is seen when a value is made is seen when it asks for something at once. -/
theorem Proper.offers_of_eager (hq : q.Proper resolver) (hoffers : q.state.Offers args block)
    (hc : c ∈ q.lastCalls resolver) (heager : c.query.timing = .eager) :
    c.query.state.Offers args block := by
  have hl := hq.provides_eq_none hc heager
  obtain ⟨m, s, -, -, heq, hx, -⟩ := hq.exists_lastLink hc
  rw [heq]
  simpa [Link.query, hl] using hoffers.of_extends ((extends_begun q m).trans hx)

/-- A request for the type of an argument, without tag and pin, is answered by what the call
gives. -/
theorem visible?_of_offers (hoffers : q.state.Offers args block) (hpin : q.request.pin = none)
    (htag : q.request.contract.tag = none) (htype : q.request.contract.type ∈ args) :
    ∃ a, q.visible? = some a ∧ a.IsGiven block := by
  obtain ⟨a, ha, hgiven⟩ := hoffers _ htype
  exact ⟨a, by simpa [visible?, hpin, htag] using ha, hgiven⟩

/-- Whether a value is made anew for a query. -/
def MakesAnew (resolver : Resolver) (q : Query) : Prop :=
  ∃ m, q.verdict resolver = .ok (.make m) ∧ m.content.lifetime = .transient

/-- Whether `d` is `q` or asked at once on the way from it, for values that are made anew. -/
def AsksAtOnce (resolver : Resolver) : Query → Query → Prop :=
  Relation.ReflTransGen fun q d => q.MakesAnew resolver ∧
    ∃ c ∈ q.lastCalls resolver, c.query.timing = .eager ∧ c.query = d

theorem AsksAtOnce.retains (h : q.AsksAtOnce resolver d) : q.Retains resolver d := by
  induction h with
  | refl => exact .refl
  | tail _ hstep ih =>
    obtain ⟨-, c, hc, -, rfl⟩ := hstep
    exact ih.tail ⟨c, hc, rfl⟩

/-- What is seen when a query is asked is seen in whatever it asks at once. -/
theorem AsksAtOnce.offers (h : q.AsksAtOnce resolver d) (hq : q.Proper resolver)
    (hoffers : q.state.Offers args block) : d.state.Offers args block := by
  induction h with
  | refl => exact hoffers
  | tail hd hstep ih =>
    obtain ⟨-, c, hc, heager, rfl⟩ := hstep
    exact (hq.of_retains (AsksAtOnce.retains hd)).1.offers_of_eager ih hc heager

end Query

end Injector.Wiring

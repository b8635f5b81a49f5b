import Injector.Proofs.Wiring.Ancestry
import Mathlib.Data.List.Chain
import Mathlib.Data.List.Forall2

/-!
# What is made at one time

What is under construction when a query is asked are the values of the queries that lead to it, the
root's first. A provider call begins a segment, so that segments do not decrease on the way. The
main statement is that what is under construction since a value of the present segment was all asked
for at once, with no provider call in between.
-/

namespace Injector.Wiring

namespace Query

variable {resolver : Resolver} {q d : Query}

/-- Whether `d` is asked at once for the value that `q` asks for, and outside any provider call. -/
def AsksDirectly (resolver : Resolver) (q d : Query) : Prop :=
  ∃ a ∈ q.attempts resolver, ∃ c ∈ q.callsOf resolver a,
    c.query = d ∧ d.timing = .eager ∧ c.link.provides = none

/-- Whether a frame is that of the value which a query asks for and which is to be made. -/
def Enters (resolver : Resolver) (q : Query) (f : Frame) : Prop :=
  ∃ m, q.verdict resolver = .ok (.make m) ∧
    f = ⟨m.key, q.nodeNumber, q.context.segment, q.request.contract⟩

/-- Whether queries lead to `q`, in that each is asked for the value of the one before it, and what
is under construction when `q` is asked are their values. -/
structure Line (resolver : Resolver) (askers : List Query) (q : Query) : Prop where
  /-- Each asks the next one, and the last asks `q`. -/
  asked : (askers ++ [q]).IsChain (Asks resolver)
  /-- Their values are under construction. -/
  entered : List.Forall₂ (Enters resolver) askers q.context.path

theorem Enters.segment {f : Frame} (h : q.Enters resolver f) :
    f.segment = q.context.segment := by
  obtain ⟨m, -, rfl⟩ := h
  rfl

theorem map_segment {askers : List Query} {frames : List Frame}
    (h : List.Forall₂ (Enters resolver) askers frames) :
    frames.map Frame.segment = askers.map fun p => p.context.segment := by
  induction h with
  | nil => rfl
  | cons hfirst _ ih => rw [List.map_cons, List.map_cons, hfirst.segment, ih]

/-- What is asked for a value is asked while the value is under construction. -/
theorem Proper.exists_entered (hq : q.Proper resolver) (h : q.Asks resolver d) :
    ∃ f, q.Enters resolver f ∧ d.context.path = q.context.path ++ [f] := by
  obtain ⟨m, l, s, hm, -, rfl, -⟩ := hq.exists_link_of_asks h
  exact ⟨_, ⟨m, hm, rfl⟩, Link.query_path l _ s⟩

/-- What is asked for a value that is made continues the line. -/
theorem Line.concat {askers : List Query} (hline : Line resolver askers q)
    (hq : q.Proper resolver) (h : q.Asks resolver d) : Line resolver (askers ++ [q]) d := by
  obtain ⟨f, hf, hpath⟩ := hq.exists_entered h
  refine ⟨?_, ?_⟩
  · refine List.isChain_append.mpr ⟨hline.asked, .singleton _, fun x hx y hy => ?_⟩
    obtain rfl : q = x := by simpa using hx
    obtain rfl : d = y := by simpa using hy
    exact h
  · rw [hpath]
    exact List.rel_append hline.entered (.cons hf .nil)

section FromRoot

variable {root : Table.Root} {cycles : CycleLog}

theorem proper_of_reaches (hq : (ofRoot root cycles).Reaches resolver q) : q.Proper resolver :=
  ((ofRoot_proper resolver root cycles).of_reaches hq).1

/-- What is under construction when a query is asked is what the queries that lead to it ask for. -/
theorem exists_line (hq : (ofRoot root cycles).Reaches resolver q) :
    ∃ askers, Line resolver askers q ∧
      ∀ p ∈ askers, (ofRoot root cycles).Reaches resolver p := by
  induction hq with
  | refl => exact ⟨[], ⟨.singleton _, .nil⟩, fun p hp => (nomatch hp)⟩
  | @tail q d hq hasks ih =>
    obtain ⟨askers, hline, hreached⟩ := ih
    refine ⟨askers ++ [q], hline.concat (proper_of_reaches hq) hasks, ?_⟩
    exact List.forall_mem_append.mpr ⟨hreached, List.forall_mem_singleton.mpr hq⟩

/-- The segment in which a query is asked was begun. -/
theorem begun_of_reaches (hq : (ofRoot root cycles).Reaches resolver q) :
    q.context.segment < q.state.nextSegment := by
  induction hq with
  | refl => exact Nat.zero_lt_one
  | @tail q d hq hasks ih =>
    obtain ⟨a, ha, c, hc, rfl⟩ := hasks
    exact ((proper_of_reaches hq).segment_cases ih ha hc).1

/-- Segments do not decrease on the way, and what is asked in the segment of a value is asked at
once. -/
theorem segment_of_asks (hq : (ofRoot root cycles).Reaches resolver q) (h : q.Asks resolver d) :
    q.context.segment ≤ d.context.segment ∧
      (q.context.segment = d.context.segment → q.AsksDirectly resolver d) := by
  obtain ⟨a, ha, c, hc, rfl⟩ := h
  obtain ⟨-, hcases⟩ := (proper_of_reaches hq).segment_cases (begun_of_reaches hq) ha hc
  rcases hcases with ⟨hnone, heager, hsame⟩ | ⟨-, hlt⟩
  · exact ⟨hsame.ge, fun _ => ⟨a, ha, c, hc, rfl, heager, hnone⟩⟩
  · exact ⟨hlt.le, fun hsame => absurd hsame hlt.ne⟩

/-- Segments are in order where each query asks the next one. -/
theorem pairwise_segment {queries : List Query} (h : queries.IsChain (Asks resolver))
    (hreached : ∀ p ∈ queries, (ofRoot root cycles).Reaches resolver p) :
    queries.Pairwise fun p d => p.context.segment ≤ d.context.segment := by
  have hstep : queries.IsChain fun p d => p.context.segment ≤ d.context.segment :=
    h.imp_of_mem_imp fun p d hp _ hasks => (segment_of_asks (hreached p hp) hasks).1
  have hmap : (queries.map fun p => p.context.segment).IsChain (· ≤ ·) :=
    (List.isChain_map _).mpr hstep
  exact List.pairwise_map.mp hmap.pairwise

/-- Where queries lead from a segment to the same segment, all are asked in it. -/
theorem segment_eq_of_isChain {p : Query} {queries : List Query}
    (h : (p :: queries ++ [q]).IsChain (Asks resolver))
    (hreached : ∀ d ∈ p :: queries ++ [q], (ofRoot root cycles).Reaches resolver d)
    (hsegment : p.context.segment = q.context.segment) :
    ∀ d ∈ p :: queries ++ [q], d.context.segment = q.context.segment := by
  obtain ⟨hfrom, -, hto⟩ := List.pairwise_append.mp (pairwise_segment h hreached)
  refine List.forall_mem_append.mpr ⟨fun d hd => ?_, List.forall_mem_singleton.mpr rfl⟩
  have hle := hto d hd q (List.mem_singleton_self q)
  rcases List.mem_cons.mp hd with rfl | hd
  · exact hsegment
  · have hge := List.rel_of_pairwise_cons hfrom hd
    omega

/-- The queries whose values are under construction since one in the segment of `q` lead to `q` at
once, with no provider call in between. They are the last ones of the line to `q`. -/
theorem exists_direct (hq : (ofRoot root cycles).Reaches resolver q) {before rest : List Frame}
    {f : Frame} (hpath : q.context.path = before ++ f :: rest)
    (hsegment : f.segment = q.context.segment) :
    ∃ askers, List.Forall₂ (Enters resolver) askers (f :: rest) ∧
      (∀ p ∈ askers, (ofRoot root cycles).Reaches resolver p ∧
        p.context.segment = q.context.segment) ∧
      (askers ++ [q]).IsChain (AsksDirectly resolver) := by
  obtain ⟨all, hline, hall⟩ := exists_line hq
  have hentered := List.forall₂_drop_append all before _ (hpath ▸ hline.entered)
  obtain ⟨first, others, hfirst, -, hdrop⟩ := List.forall₂_cons_right_iff.mp hentered
  rw [hdrop] at hentered
  have hsuffix : first :: others ++ [q] <:+ all ++ [q] :=
    List.suffix_append_self_iff.mpr (hdrop ▸ List.drop_suffix _ _)
  have hreached : ∀ p ∈ first :: others ++ [q], (ofRoot root cycles).Reaches resolver p :=
    fun p hp => List.forall_mem_append.mpr ⟨hall, List.forall_mem_singleton.mpr hq⟩ p
      (hsuffix.subset hp)
  have hasked := hline.asked.suffix hsuffix
  have hsame := segment_eq_of_isChain hasked hreached (hfirst.segment.symm.trans hsegment)
  refine ⟨first :: others, hentered, fun p hp => ?_, ?_⟩
  · have hmem := List.mem_append_left [q] hp
    exact ⟨hreached p hmem, hsame p hmem⟩
  · refine hasked.imp_of_mem_imp fun p d hp hd hasks => ?_
    exact (segment_of_asks (hreached p hp) hasks).2 ((hsame p hp).trans (hsame d hd).symm)

/-- What is under construction was begun in the segment of the query or in an earlier one. -/
theorem segment_le_of_mem_path (hq : (ofRoot root cycles).Reaches resolver q) {f : Frame}
    (hf : f ∈ q.context.path) : f.segment ≤ q.context.segment := by
  induction hq with
  | refl => cases hf
  | @tail q d hq hasks ih =>
    have hle := (segment_of_asks hq hasks).1
    obtain ⟨g, hg, hpath⟩ := (proper_of_reaches hq).exists_entered hasks
    rw [hpath] at hf
    rcases List.mem_append.mp hf with hf | hf
    · exact (ih hf).trans hle
    · obtain rfl := List.mem_singleton.mp hf
      exact hg.segment.le.trans hle

end FromRoot

end Query

end Injector.Wiring

import Mathlib.Data.List.Nodup
import Mathlib.Logic.Relation

/-!
# Lists in which what an item needs stands before it

Setups are listed after those they depend on, and a plan makes values after those they are made
from. Both lists grow at their ends, by items for which all that they need is listed
(`NeedsFirst.concat`), and both have before an item whatever it needs by way of others
(`NeedsFirst.mem_before`).
-/

namespace Injector

/-- Whether a list has no item twice, and each after all that the item needs. -/
structure NeedsFirst {α : Type} (needs : α → α → Prop) (listed : List α) : Prop where
  /-- No item is listed twice. -/
  nodup : listed.Nodup
  /-- What an item needs stands before it. -/
  after : ∀ before a rest, listed = before ++ a :: rest → ∀ b, needs a b → b ∈ before

namespace NeedsFirst

variable {α : Type} {needs : α → α → Prop} {listed : List α} {a b : α}

theorem nil : NeedsFirst needs [] := ⟨List.nodup_nil, fun before a rest heq => by simp at heq⟩

/-- An item may be listed when all that it needs is. -/
theorem concat (h : NeedsFirst needs listed) (ha : a ∉ listed)
    (hneeds : ∀ b, needs a b → b ∈ listed) : NeedsFirst needs (listed ++ [a]) := by
  refine ⟨List.concat_eq_append ▸ h.nodup.concat ha, fun before a' rest heq b hb => ?_⟩
  rcases List.eq_nil_or_concat rest with rfl | ⟨rest', last, rfl⟩
  · obtain ⟨rfl, hlast⟩ := List.append_inj' heq rfl
    cases hlast
    exact hneeds b hb
  · have heq : listed ++ [a] = (before ++ a' :: rest') ++ [last] := by simpa using heq
    obtain ⟨rfl, -⟩ := List.append_inj' heq rfl
    exact h.after before a' rest' rfl b hb

/-- All that a listed item needs, at once or by way of others, stands before it. -/
theorem mem_before (h : NeedsFirst needs listed) {before rest : List α}
    (heq : listed = before ++ a :: rest) (hb : Relation.TransGen needs a b) : b ∈ before := by
  induction hb with
  | single hneed => exact h.after before a rest heq _ hneed
  | @tail between b _ hneed ih =>
    obtain ⟨first, second, rfl⟩ := List.append_of_mem ih
    have heq : listed = first ++ between :: (second ++ a :: rest) := by simpa using heq
    exact List.mem_append_left _ (h.after first between _ heq b hneed)

end NeedsFirst

end Injector

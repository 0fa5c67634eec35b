import Conformance.Program
import Mathlib.Data.List.Basic
import Mathlib.Data.List.Induction

namespace Conformance.Program

section

variable {n : String} {names new : List String}

theorem addExternals_append (names new more : List String) :
    addExternals names (new ++ more) = addExternals (addExternals names new) more := by
  induction new generalizing names with
  | nil => rfl
  | cons n new ih => exact ih _

theorem mem_addExternals : n ∈ addExternals names new ↔ n ∈ names ∨ n ∈ new := by
  induction new generalizing names with
  | nil => simp [addExternals]
  | cons m new ih =>
    rw [addExternals, ih, List.mem_cons]
    split <;> grind

theorem mem_addExternals_nil : n ∈ addExternals [] new ↔ n ∈ new :=
  mem_addExternals.trans (or_iff_right List.not_mem_nil)

/-- Names that were made unique among themselves add the same as the names that they come from. -/
theorem addExternals_addExternals (names new more : List String) :
    addExternals names (addExternals new more) = addExternals (addExternals names new) more := by
  induction more generalizing new with
  | nil => rfl
  | cons n more ih =>
    rw [addExternals, ih, addExternals]
    by_cases hn : n ∈ new
    · rw [if_pos hn, if_pos (mem_addExternals.2 (.inr hn))]
    · rw [if_neg hn, addExternals_append]
      rfl

/-- The names of a list, each of them once, in the order in which they first occur there. -/
structure FirstOccurrences (all names : List String) : Prop where
  nodup : names.Nodup
  mem_iff : ∀ n, n ∈ names ↔ n ∈ all
  inOrder : names.Pairwise (all.idxOf · < all.idxOf ·)

theorem inOrder_addExternals (all : List String) :
    (addExternals [] all).Pairwise (all.idxOf · < all.idxOf ·) := by
  induction all using List.reverseRecOn with
  | nil => exact .nil
  | append_singleton all n ih =>
    -- a name that occurs before keeps its place when one more is appended
    have hplace : ∀ m ∈ addExternals [] all, (all ++ [n]).idxOf m = all.idxOf m := by
      intro m hm
      exact List.idxOf_append_of_mem (mem_addExternals_nil.1 hm)
    have hkept : (addExternals [] all).Pairwise
        ((all ++ [n]).idxOf · < (all ++ [n]).idxOf ·) := by
      refine ih.imp_of_mem fun {l m} hl hm hlt ↦ ?_
      rwa [hplace l hl, hplace m hm]
    rw [addExternals_append, addExternals]
    by_cases hn : n ∈ addExternals [] all
    · rwa [if_pos hn]
    · rw [if_neg hn]
      refine List.pairwise_append.2 ⟨hkept, List.pairwise_singleton _ _, fun m hm n' hn' ↦ ?_⟩
      obtain rfl := List.mem_singleton.1 hn'
      rw [mem_addExternals_nil] at hm hn
      rw [List.idxOf_append_of_mem hm, List.idxOf_append_of_notMem hn]
      exact Nat.lt_of_lt_of_le (List.idxOf_lt_length_iff.2 hm) (Nat.le_add_right _ _)

theorem firstOccurrences_addExternals (all : List String) :
    FirstOccurrences all (addExternals [] all) where
  nodup := (inOrder_addExternals all).imp fun hlt he ↦ Nat.ne_of_lt hlt (congrArg all.idxOf he)
  mem_iff _ := mem_addExternals_nil
  inOrder := inOrder_addExternals all

end

theorem merge_empty (p : Program) : p.merge {} = p := by
  simp [merge, addExternals]

theorem merge_assoc (p q r : Program) : (p.merge q).merge r = p.merge (q.merge r) := by
  simp only [merge, List.append_assoc, addExternals_addExternals]

end Conformance.Program

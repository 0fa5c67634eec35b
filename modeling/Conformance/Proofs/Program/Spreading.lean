import Conformance.Program.Spreading
import Conformance.Proofs.Program.WellFormed
import Mathlib.Data.List.Pairwise

namespace Conformance

namespace EdgeSet

variable {found edges : List Edge}

theorem eq_of_before_of_before (h : edges.Pairwise Edge.Precedes) {a b : Edge} (ha : a ∈ edges)
    (hb : b ∈ edges) (hab : a.before b) (hba : b.before a) : a = b := by
  by_contra hne
  have : Std.Symm fun a b : Edge ↦ ¬ (a.before b ∧ b.before a) := ⟨fun _ _ h h' ↦ h h'.symm⟩
  have hone : edges.Pairwise fun a b ↦ ¬ (a.before b ∧ b.before a) :=
    h.imp fun hlt h ↦ hlt.not_before h.2
  exact hone.forall ha hb hne ⟨hab, hba⟩

theorem mergeSort_eq_of_perm (h : found.Perm edges) (hedges : edges.Pairwise Edge.Precedes) :
    found.mergeSort Edge.before = edges := by
  have hperm : (found.mergeSort Edge.before).Perm edges := (List.mergeSort_perm _ _).trans h
  have hsorted := List.pairwise_mergeSort Edge.before_trans Edge.before_total found
  have hanti : ∀ a b, a ∈ found.mergeSort Edge.before → b ∈ edges → a.before b → b.before a →
      a = b :=
    fun a b ha hb ↦ eq_of_before_of_before hedges (hperm.mem_iff.1 ha) hb
  exact hperm.eq_of_pairwise hanti hsorted (hedges.imp Edge.Precedes.before)

theorem ofEdges_eq_of_perm (is : List InterfaceNode) (ts : List TypeNode) (ms : List MethodNode)
    (h : found.Perm edges) (hedges : edges.Pairwise Edge.Precedes) :
    ofEdges is ts ms found = ofEdges is ts ms edges := by
  unfold ofEdges
  rw [mergeSort_eq_of_perm h hedges, mergeSort_eq_of_perm (.refl edges) hedges]

end EdgeSet

namespace Program

variable {p : Program} {policy : ReceiverPolicy} {es : EdgeSet}

/-- Edges found in another order make the same edge set. -/
theorem ofEdges_eq_edgeSet {found : List Edge}
    (h : found.Perm (p.partitions policy).flatten) :
    .ofEdges p.interfaceNodes p.typeNodes p.methodNodes found = p.edgeSet policy :=
  EdgeSet.ofEdges_eq_of_perm _ _ _ h (p.pairwise_partitions policy)

theorem collectedEdges_perm {collect : List (List Edge) → List Edge}
    (h : ∀ parts, (collect parts).Perm parts.flatten) (parallel : Settings.Parallel) :
    (p.collectedEdges collect parallel policy).Perm (p.partitions policy).flatten := by
  unfold collectedEdges
  split
  · exact h _
  · exact .refl _

/-- The parts of the work may be put together in any order, and may be spread or not: as long as
every edge of every part is collected once, the edge set with its tables is the same. -/
theorem edges_of_any_order (h : p.edges policy = .ok es) :
    (∀ parts : List (List Edge), parts.Perm (p.partitions policy) →
      .ofEdges p.interfaceNodes p.typeNodes p.methodNodes parts.flatten = es) ∧
    ∀ collect : List (List Edge) → List Edge, (∀ parts, (collect parts).Perm parts.flatten) →
      ∀ parallel, p.spreadEdges collect parallel policy = .ok es := by
  obtain ⟨hproblems, rfl⟩ := edges_eq_ok_iff.1 h
  refine ⟨fun parts hparts ↦ ofEdges_eq_edgeSet hparts.flatten, fun collect hcollect parallel ↦ ?_⟩
  unfold spreadEdges
  rw [hproblems, ofEdges_eq_edgeSet (collectedEdges_perm hcollect parallel)]

/-- The last interface may come first: its edge is found before the others and sorted behind them. -/
theorem edges_of_any_order_sockets : sockets.edges .union = .ok (sockets.edgeSet .union) ∧
    (sockets.partitions .union).reverse.flatten.map (fun e ↦ (e.interface, e.type)) =
      [(1, 1), (0, 0), (0, 1)] ∧
    .ofEdges sockets.interfaceNodes sockets.typeNodes sockets.methodNodes
      (sockets.partitions .union).reverse.flatten = sockets.edgeSet .union ∧
    sockets.spreadEdges (·.reverse.flatten) ⟨true, none, 1⟩ .union =
      .ok (sockets.edgeSet .union) := by
  have hes : sockets.edges .union = .ok (sockets.edgeSet .union) :=
    edges_eq_edgeSet .union (by decide)
  obtain ⟨hparts, hspread⟩ := edges_of_any_order hes
  refine ⟨hes, by decide +kernel, hparts _ (List.reverse_perm _), ?_⟩
  exact hspread (·.reverse.flatten) (fun parts ↦ (List.reverse_perm parts).flatten) ⟨true, none, 1⟩

end Program

end Conformance

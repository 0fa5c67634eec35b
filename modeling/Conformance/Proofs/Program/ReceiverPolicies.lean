import Conformance.Proofs.Program.WellFormed

namespace Conformance

/-- Values alone satisfy what values and pointers satisfy without a pointer method. -/
theorem satisfy_valueOnly (shapes : Shapes) (cs : List Candidate) (b : Bindings)
    (ss : List Signature) : satisfy shapes .valueOnly cs b ss =
      (satisfy shapes .union cs b ss).filter fun found ↦ !found.needsPointer := by
  induction ss generalizing b with
  | nil => rfl
  | cons s ss ih =>
    rw [satisfy_cons, satisfy_cons]
    cases candidateNamed? cs s.name with
    | none => rfl
    | some c =>
      simp only [Option.bind_some, ih]
      cases hform : c.form with
      | value =>
        -- The method changes nothing about whether the others need a pointer.
        have hcons : (fun found : Satisfaction ↦ !found.needsPointer) ∘ Satisfaction.cons s c =
            fun found ↦ !found.needsPointer := by
          funext found
          simp [Satisfaction.cons, hform]
        simp only [ReceiverPolicy.admits, true_and]
        split
        · rw [Option.filter_map, hcons]
        · rfl
      | pointer =>
        have hcons (found : Satisfaction) : (found.cons s c).needsPointer = true := by
          simp [Satisfaction.cons, hform]
        simp only [ReceiverPolicy.admits, Bool.false_eq_true, false_and, if_false, true_and]
        symm
        rw [Option.filter_eq_none_iff]
        intro found hfound
        obtain ⟨rest, -, rfl⟩ := Option.map_eq_some_iff.1 (Option.ite_none_right_eq_some.1 hfound).2
        simp [hcons]

namespace Program

variable {p : Program} {policy : ReceiverPolicy}

theorem partition_valueOnly (shapes : Shapes) (cs : List (List Candidate))
    (x : Option (List Signature) × InterfaceId) : partition shapes .valueOnly cs x =
      (partition shapes .union cs x).filter fun e ↦ !e.needsPointer := by
  obtain ⟨_ | required, i⟩ := x
  · rfl
  · rw [partition, partition, List.filter_filterMap]
    refine List.filterMap_congr fun y _ ↦ ?_
    obtain ⟨c, t⟩ := y
    dsimp only
    rw [satisfy_valueOnly, Option.filter_map]
    rfl

theorem edges_edgeSet_valueOnly (p : Program) : (p.edgeSet .valueOnly).edges =
    (p.edgeSet .union).edges.filter fun e ↦ !e.needsPointer := by
  rw [edges_edgeSet, edges_edgeSet, List.filter_flatten, partitions, partitions, List.map_map]
  exact congrArg List.flatten (List.map_congr_left fun x _ ↦ partition_valueOnly _ _ x)

theorem needsPointer_iff (h : p.Valid) {e : Edge} (he : e ∈ (p.edgeSet policy).edges) :
    e.needsPointer ↔
      ∃ l ∈ e.links, ∃ m, p.methods[l.method]? = some m ∧ m.form = .pointer := by
  obtain ⟨required, cs, -, hcs, -, hlinks, hpointer⟩ := exists_linked_of_edge h he
  have hform {x : Signature × Candidate} (hx : x ∈ linked cs required) :
      x.2.form = .pointer ↔ ∃ m, p.methods[x.2.id]? = some m ∧ m.form = .pointer := by
    obtain ⟨m, hm, -, -, hform⟩ := exists_method_of_mem_linked h hcs hx
    rw [← hform]
    constructor
    · intro hpointer
      exact ⟨m, hm, hpointer⟩
    · intro hm'
      obtain ⟨m', hm', hpointer⟩ := hm'
      rwa [Option.some.inj (hm.symm.trans hm')]
  rw [hpointer, hlinks, List.any_eq_true]
  simp only [List.mem_map, exists_exists_and_eq_and, beq_iff_eq, Link.ofPair]
  exact exists_congr fun x ↦ and_congr_right fun hx ↦ hform hx

/-- Both policies reject the same programs for the same problem, and values alone have just the
edges that need no pointer, as they are. -/
theorem edges_of_receiverPolicies (p : Program) :
    (∀ problem, p.edges .valueOnly = .error problem ↔ p.edges .union = .error problem) ∧
    (∀ es es', p.edges .union = .ok es → p.edges .valueOnly = .ok es' →
      es'.edges = es.edges.filter fun e ↦ !e.needsPointer) ∧
    ∀ policy es, p.edges policy = .ok es → ∀ e ∈ es.edges,
      (e.needsPointer ↔
        ∃ l ∈ e.links, ∃ m, p.methods[l.method]? = some m ∧ m.form = .pointer) := by
  refine ⟨fun problem ↦ ?_, fun es es' hes hes' ↦ ?_, fun policy es hes e he ↦ ?_⟩
  · unfold edges
    cases p.problems with
    | nil => simp only [reduceCtorEq]
    | cons first rest => rfl
  · obtain ⟨-, rfl⟩ := edges_eq_ok_iff.1 hes
    obtain ⟨-, rfl⟩ := edges_eq_ok_iff.1 hes'
    exact p.edges_edgeSet_valueOnly
  · obtain ⟨hp, rfl⟩ := edges_eq_ok_iff.1 hes
    exact needsPointer_iff (problems_eq_nil_iff.1 hp) he

/-- Closing the socket takes a pointer, so its value can only be read. -/
theorem edges_of_receiverPolicies_sockets :
    sockets.edges .valueOnly = .ok (sockets.edgeSet .valueOnly) ∧
      (sockets.edgeSet .valueOnly).edges =
        [⟨0, 0, false, [⟨"Read", 0⟩]⟩, ⟨0, 1, false, [⟨"Read", 2⟩]⟩] := by
  have hproblems : sockets.problems = [] := by decide
  obtain ⟨-, hedges, -⟩ := edges_of_receiverPolicies sockets
  refine ⟨edges_eq_edgeSet .valueOnly hproblems, ?_⟩
  rw [hedges _ _ (edges_eq_edgeSet .union hproblems) (edges_eq_edgeSet .valueOnly hproblems),
    edges_sockets]
  rfl

end Program

end Conformance

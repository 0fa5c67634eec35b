import Conformance.EdgeSet
import Mathlib.Algebra.GroupWithZero.Nat
import Mathlib.Data.List.Sort

namespace Conformance

/-- The edge stands before another, and not for the same interface and type. -/
def Edge.Precedes (a b : Edge) : Prop :=
  a.interface < b.interface ∨ a.interface = b.interface ∧ a.type < b.type

theorem Edge.before_iff {a b : Edge} :
    a.before b ↔ a.interface < b.interface ∨ a.interface = b.interface ∧ a.type ≤ b.type := by
  simp only [Edge.before, Bool.or_eq_true, Bool.and_eq_true, decide_eq_true_eq, beq_iff_eq]

theorem Edge.before_trans (a b c : Edge) (hab : a.before b) (hbc : b.before c) : a.before c := by
  rw [Edge.before_iff] at *
  grind

theorem Edge.before_total (a b : Edge) : (a.before b || b.before a) = true := by
  rw [Bool.or_eq_true, Edge.before_iff, Edge.before_iff]
  grind

theorem Edge.Precedes.before {a b : Edge} (h : a.Precedes b) : a.before b :=
  Edge.before_iff.2 (h.imp_right fun h ↦ ⟨h.1, h.2.le⟩)

theorem Edge.Precedes.not_before {a b : Edge} (h : a.Precedes b) : ¬ b.before a := by
  rw [Edge.before_iff]
  unfold Edge.Precedes at h
  grind

theorem pairwise_snd_zipIdx {α : Type} (xs : List α) : xs.zipIdx.Pairwise (·.2 < ·.2) := by
  apply List.pairwise_map.1
  rw [List.zipIdx_map_snd]
  exact List.pairwise_lt_range' 1

namespace EdgeSet

/-- Each row lists, in ascending order, the places of the edges that have its number as their key;
every edge stands in one row, once. -/
structure IsTable (count : Nat) (key : Edge → Nat) (edges : List Edge) (rows : List (List Nat)) :
    Prop where
  length : rows.length = count
  increasing : ∀ row ∈ rows, row.Pairwise (· < ·)
  mem_iff : ∀ k row, rows[k]? = some row → ∀ n, n ∈ row ↔ ∃ e, edges[n]? = some e ∧ key e = k
  once : rows.flatten.Perm (List.range edges.length)

section

variable {count : Nat} {key : Edge → Nat} {edges : List Edge} {rows : List (List Nat)} {k : Nat}

def row (key : Edge → Nat) (edges : List Edge) (k : Nat) : List Nat :=
  (edges.zipIdx.filter fun e ↦ key e.1 == k).map (·.2)

theorem table_eq_map_row (count : Nat) (key : Edge → Nat) (edges : List Edge) :
    table count key edges = (List.range count).map (row key edges) := rfl

theorem mem_row {n : Nat} : n ∈ row key edges k ↔ ∃ e, edges[n]? = some e ∧ key e = k := by
  simp [row, List.mem_zipIdx_iff_getElem?]

theorem pairwise_row (k : Nat) : (row key edges k).Pairwise (· < ·) :=
  List.pairwise_map.2 ((pairwise_snd_zipIdx edges).filter _)

theorem isTable_table (h : ∀ e ∈ edges, key e < count) :
    IsTable count key edges (table count key edges) where
  length := by rw [table_eq_map_row, List.length_map, List.length_range]
  increasing := List.forall_mem_map.2 fun k _ ↦ pairwise_row k
  mem_iff k r hr n := by
    rw [table_eq_map_row, List.getElem?_map, Option.map_eq_some_iff] at hr
    obtain ⟨j, hj, rfl⟩ := hr
    obtain ⟨hk, rfl⟩ := List.getElem?_eq_some_iff.1 hj
    rw [mem_row, List.getElem_range]
  once := by
    refine (List.perm_ext_iff_of_nodup ?_ List.nodup_range).2 fun n ↦ ⟨fun hn ↦ ?_, fun hn ↦ ?_⟩
    · refine List.nodup_flatten.2 ⟨List.forall_mem_map.2 fun k _ ↦ (pairwise_row k).nodup, ?_⟩
      -- An edge has one key only.
      apply List.pairwise_map.2
      refine List.pairwise_lt_range.imp fun {j k} hjk n hj hk ↦ ?_
      obtain ⟨e, he, rfl⟩ := mem_row.1 hj
      obtain ⟨e', he', rfl⟩ := mem_row.1 hk
      rw [Option.some.inj (he.symm.trans he')] at hjk
      exact Nat.lt_irrefl _ hjk
    · obtain ⟨_, hr, hn⟩ := List.mem_flatten.1 hn
      obtain ⟨k, -, rfl⟩ := List.mem_map.1 hr
      obtain ⟨e, he, -⟩ := mem_row.1 hn
      exact List.mem_range.2 (List.getElem?_eq_some_iff.1 he).1
    · have hn := List.mem_range.1 hn
      have hkey := h edges[n] (List.getElem_mem hn)
      refine List.mem_flatten.2 ⟨_, List.mem_map_of_mem (List.mem_range.2 hkey), ?_⟩
      exact mem_row.2 ⟨_, List.getElem?_eq_getElem hn, rfl⟩

theorem IsTable.getElem?_eq (h : IsTable count key edges rows) (hk : k < count) :
    rows[k]? = some (rows.getD k []) := by
  rw [List.getD_eq_getElem?_getD, List.getElem?_eq_getElem (h.length ▸ hk), Option.getD_some]

theorem IsTable.getD_eq_row (h : IsTable count key edges rows) (hk : k < count) :
    rows.getD k [] = row key edges k := by
  have hrow := h.getElem?_eq hk
  have hincreasing := h.increasing _ (List.mem_of_getElem? hrow)
  refine hincreasing.eq_of_mem_iff (pairwise_row k) fun n ↦ ?_
  rw [h.mem_iff k _ hrow, mem_row]

theorem map_fst_filter_zipIdx (key : Edge → Nat) (edges : List Edge) (k : Nat) :
    (edges.zipIdx.filter fun e ↦ key e.1 == k).map (·.1) = edges.filter (key · == k) := by
  conv_rhs => rw [← List.zipIdx_map_fst 0 edges, List.filter_map]
  rfl

theorem filterMap_row (key : Edge → Nat) (edges : List Edge) (k : Nat) :
    (row key edges k).filterMap (edges[·]?) = edges.filter (key · == k) := by
  have hplace : ∀ x ∈ edges.zipIdx.filter (fun e ↦ key e.1 == k), edges[x.2]? = some x.1 :=
    fun x hx ↦ List.mem_zipIdx_iff_getElem?.1 (List.mem_of_mem_filter hx)
  rw [row, List.filterMap_map, Function.comp_def,
    List.filterMap_eq_map_iff_forall_eq_some.2 hplace]
  exact map_fst_filter_zipIdx key edges k

theorem length_row (key : Edge → Nat) (edges : List Edge) (k : Nat) :
    (row key edges k).length = (edges.filter (key · == k)).length := by
  rw [row, List.length_map, ← map_fst_filter_zipIdx, List.length_map]

theorem IsTable.filterMap_getD (h : IsTable count key edges rows) (hk : k < count) :
    (rows.getD k []).filterMap (edges[·]?) = edges.filter (key · == k) := by
  rw [h.getD_eq_row hk, filterMap_row]

theorem IsTable.lt_length (h : IsTable count key edges rows) {row : List Nat} (hr : row ∈ rows)
    {n : Nat} (hn : n ∈ row) : n < edges.length :=
  List.mem_range.1 (h.once.subset (List.mem_flatten.2 ⟨row, hr, hn⟩))

/-- The rows of all nodes have as many entries as there are edges. -/
theorem IsTable.sum_length (h : IsTable count key edges rows) {α : Type} {xs : List α}
    {id : α → Nat} (hlength : xs.length = count) (hid : ∀ k x, xs[k]? = some x → id x = k) :
    (xs.map fun x ↦ (rows.getD (id x) []).length).sum = edges.length := by
  have hrows : xs.map (fun x ↦ rows.getD (id x) []) = rows := by
    apply List.ext_getElem?
    intro k
    rw [List.getElem?_map]
    cases hx : xs[k]? with
    | none =>
      have hk := List.getElem?_eq_none_iff.1 hx
      rw [Option.map_none, List.getElem?_eq_none (by rw [h.length, ← hlength]; exact hk)]
    | some x =>
      have hk := (List.getElem?_eq_some_iff.1 hx).1
      rw [Option.map_some, hid k x hx, h.getElem?_eq (hlength ▸ hk)]
  calc (xs.map fun x ↦ (rows.getD (id x) []).length).sum
      = ((xs.map fun x ↦ rows.getD (id x) []).map List.length).sum := by rw [List.map_map]; rfl
    _ = rows.flatten.length := by rw [hrows, List.length_flatten]
    _ = edges.length := by rw [h.once.length_eq, List.length_range]

end

theorem pairwise_filter_key {edges : List Edge} (h : edges.Pairwise Edge.Precedes)
    {key : Edge → Nat} {R : Edge → Edge → Prop}
    (hR : ∀ a b, a.Precedes b → key a = key b → R a b) (k : Nat) :
    (edges.filter (key · == k)).Pairwise R := by
  refine (h.filter _).imp_of_mem fun {a b} ha hb hab ↦ hR a b hab ?_
  rw [beq_iff_eq.1 (List.mem_filter.1 ha).2, beq_iff_eq.1 (List.mem_filter.1 hb).2]

/-- Every number leads to what it stands for. -/
structure WellFormed (s : EdgeSet) : Prop where
  interfaceIds : ∀ k (i : InterfaceNode), s.interfaces[k]? = some i → i.id = k
  typeIds : ∀ k (t : TypeNode), s.types[k]? = some t → t.id = k
  methodIds : ∀ k (m : MethodNode), s.methods[k]? = some m → m.id = k
  required : ∀ i ∈ s.interfaces, (i.required.map (·.name)).Nodup
  /-- A type has just the methods that have it as their receiver. -/
  methodsOfType : ∀ t ∈ s.types, ∀ id,
    id ∈ t.methods ↔ ∃ m, s.methods[id]? = some m ∧ m.receiver = t.id
  receivers : ∀ m ∈ s.methods, m.receiver < s.types.length
  increasing : s.edges.Pairwise Edge.Precedes
  /-- An edge links the methods that its interface requires, each of them once. -/
  interfaceOf : ∀ e ∈ s.edges, ∃ i, s.interfaces[e.interface]? = some i ∧
    e.links.map (·.required) = i.required.map (·.name)
  /-- An edge links to methods of its type, each under its own name. -/
  typeOf : ∀ e ∈ s.edges, ∃ t, s.types[e.type]? = some t ∧ ∀ l ∈ e.links, l.method ∈ t.methods ∧
    ∃ m, s.methods[l.method]? = some m ∧ m.receiver = e.type ∧ m.signature.name = l.required
  byInterface : IsTable s.interfaces.length (·.interface) s.edges s.byInterface
  byType : IsTable s.types.length (·.type) s.edges s.byType

/-- No number that the edge set holds is too large for the list that it refers to. -/
structure InRange (s : EdgeSet) : Prop where
  rowsOfInterfaces : s.byInterface.length = s.interfaces.length
  rowsOfTypes : s.byType.length = s.types.length
  places : ∀ row ∈ s.byInterface ++ s.byType, ∀ n ∈ row, n < s.edges.length
  interfaceOf : ∀ e ∈ s.edges, e.interface < s.interfaces.length
  typeOf : ∀ e ∈ s.edges, e.type < s.types.length
  links : ∀ e ∈ s.edges, ∀ l ∈ e.links, l.method < s.methods.length
  methodsOfType : ∀ t ∈ s.types, ∀ id ∈ t.methods, id < s.methods.length
  receivers : ∀ m ∈ s.methods, m.receiver < s.types.length
  interfaceIds : ∀ i ∈ s.interfaces, i.id < s.interfaces.length
  typeIds : ∀ t ∈ s.types, t.id < s.types.length
  methodIds : ∀ m ∈ s.methods, m.id < s.methods.length

theorem getElem?_id_of_mem {α : Type} {xs : List α} {id : α → Nat}
    (h : ∀ k x, xs[k]? = some x → id x = k) {x : α} (hx : x ∈ xs) : xs[id x]? = some x := by
  obtain ⟨k, hk⟩ := List.mem_iff_getElem?.1 hx
  rwa [h k x hk]

theorem WellFormed.inRange {s : EdgeSet} (h : s.WellFormed) : s.InRange where
  rowsOfInterfaces := h.byInterface.length
  rowsOfTypes := h.byType.length
  places row hr n hn := by
    obtain hr | hr := List.mem_append.1 hr
    · exact h.byInterface.lt_length hr hn
    · exact h.byType.lt_length hr hn
  interfaceOf e he := by
    obtain ⟨i, hi, -⟩ := h.interfaceOf e he
    exact (List.getElem?_eq_some_iff.1 hi).1
  typeOf e he := by
    obtain ⟨t, ht, -⟩ := h.typeOf e he
    exact (List.getElem?_eq_some_iff.1 ht).1
  links e he l hl := by
    obtain ⟨t, -, hlinks⟩ := h.typeOf e he
    obtain ⟨-, m, hm, -⟩ := hlinks l hl
    exact (List.getElem?_eq_some_iff.1 hm).1
  methodsOfType t ht id hid := by
    obtain ⟨m, hm, -⟩ := (h.methodsOfType t ht id).1 hid
    exact (List.getElem?_eq_some_iff.1 hm).1
  receivers := h.receivers
  interfaceIds _ hi := (List.getElem?_eq_some_iff.1 (getElem?_id_of_mem h.interfaceIds hi)).1
  typeIds _ ht := (List.getElem?_eq_some_iff.1 (getElem?_id_of_mem h.typeIds ht)).1
  methodIds _ hm := (List.getElem?_eq_some_iff.1 (getElem?_id_of_mem h.methodIds hm)).1

end EdgeSet

end Conformance

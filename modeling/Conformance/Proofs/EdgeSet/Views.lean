import Conformance.EdgeSet.Views
import Conformance.Proofs.EdgeSet

namespace Conformance

theorem filter_key_of_nodup {α β : Type} [DecidableEq β] {key : α → β} {xs : List α}
    (h : (xs.map key).Nodup) {x : α} (hx : x ∈ xs) : xs.filter (key · == key x) = [x] := by
  induction xs with
  | nil => cases hx
  | cons y ys ih =>
    obtain ⟨hy, hys⟩ := List.nodup_cons.1 h
    obtain rfl | hx := List.mem_cons.1 hx
    · have hnone : ys.filter (key · == key x) = [] := by
        refine List.filter_eq_nil_iff.2 fun z hz hzx ↦ hy ?_
        rw [← beq_iff_eq.1 hzx]
        exact List.mem_map_of_mem hz
      rw [List.filter_cons, if_pos (beq_self_eq_true _), hnone]
    · have hne : key y ≠ key x := fun he ↦ hy (he ▸ List.mem_map_of_mem hx)
      rw [List.filter_cons, if_neg (by simpa using hne), ih hys hx]

namespace EdgeSet

variable {s : EdgeSet} (h : s.WellFormed) {i : InterfaceId} {I : InterfaceNode} {t : TypeId}
  {T : TypeNode} {id : MethodId} {m : MethodNode} {name : String}

include h

theorem edgesOfInterface_eq_filter (hi : i < s.interfaces.length) :
    s.edgesOfInterface i = s.edges.filter (·.interface == i) :=
  h.byInterface.filterMap_getD hi

theorem edgesOfType_eq_filter (ht : t < s.types.length) :
    s.edgesOfType t = s.edges.filter (·.type == t) :=
  h.byType.filterMap_getD ht

theorem mem_edgesOfInterface (hi : i < s.interfaces.length) {e : Edge} :
    e ∈ s.edgesOfInterface i ↔ e ∈ s.edges ∧ e.interface = i := by
  rw [edgesOfInterface_eq_filter h hi, List.mem_filter, beq_iff_eq]

theorem mem_edgesOfType (ht : t < s.types.length) {e : Edge} :
    e ∈ s.edgesOfType t ↔ e ∈ s.edges ∧ e.type = t := by
  rw [edgesOfType_eq_filter h ht, List.mem_filter, beq_iff_eq]

theorem pairwise_edgesOfInterface (hi : i < s.interfaces.length) :
    (s.edgesOfInterface i).Pairwise (·.type < ·.type) := by
  rw [edgesOfInterface_eq_filter h hi]
  apply pairwise_filter_key h.increasing
  intro a b hab he
  obtain hlt | ⟨-, hlt⟩ := hab
  · exact absurd he hlt.ne
  · exact hlt

theorem pairwise_edgesOfType (ht : t < s.types.length) :
    (s.edgesOfType t).Pairwise (·.interface < ·.interface) := by
  rw [edgesOfType_eq_filter h ht]
  apply pairwise_filter_key h.increasing
  intro a b hab he
  obtain hlt | ⟨-, hlt⟩ := hab
  · exact hlt
  · exact absurd he hlt.ne

theorem implementationCount_eq_length (hi : i < s.interfaces.length) :
    s.implementationCount i = (s.edgesOfInterface i).length := by
  rw [edgesOfInterface_eq_filter h hi, implementationCount, h.byInterface.getD_eq_row hi,
    length_row]

theorem map_id_implementors (hi : i < s.interfaces.length) :
    (s.implementors i).map (·.id) = (s.edgesOfInterface i).map (·.type) := by
  rw [implementors, List.map_filterMap]
  refine List.filterMap_eq_map_iff_forall_eq_some.2 fun e he ↦ ?_
  obtain ⟨T, hT, -⟩ := h.typeOf e ((mem_edgesOfInterface h hi).1 he).1
  rw [hT, Option.map_some, h.typeIds _ T hT]

theorem pairwise_implementors (hi : i < s.interfaces.length) :
    (s.implementors i).Pairwise (·.id < ·.id) := by
  apply List.pairwise_map.1
  rw [map_id_implementors h hi, List.pairwise_map]
  exact pairwise_edgesOfInterface h hi

theorem map_id_implementedInterfaces (ht : t < s.types.length) :
    (s.implementedInterfaces t).map (·.id) = (s.edgesOfType t).map (·.interface) := by
  rw [implementedInterfaces, List.map_filterMap]
  refine List.filterMap_eq_map_iff_forall_eq_some.2 fun e he ↦ ?_
  obtain ⟨I, hI, -⟩ := h.interfaceOf e ((mem_edgesOfType h ht).1 he).1
  rw [hI, Option.map_some, h.interfaceIds _ I hI]

theorem mem_implementors_iff (hi : i < s.interfaces.length) (hT : s.types[t]? = some T) :
    T ∈ s.implementors i ↔ ∃ e ∈ s.edges, e.interface = i ∧ e.type = t := by
  have htype (e : Edge) : s.types[e.type]? = some T ↔ e.type = t := by
    constructor
    · intro he
      rw [← h.typeIds _ T he, h.typeIds _ T hT]
    · intro he
      rwa [he]
  simp only [implementors, List.mem_filterMap, mem_edgesOfInterface h hi, htype, and_assoc]

theorem mem_implementedInterfaces_iff (hI : s.interfaces[i]? = some I) (ht : t < s.types.length) :
    I ∈ s.implementedInterfaces t ↔ ∃ e ∈ s.edges, e.interface = i ∧ e.type = t := by
  have hinterface (e : Edge) : s.interfaces[e.interface]? = some I ↔ e.interface = i := by
    constructor
    · intro he
      rw [← h.interfaceIds _ I he, h.interfaceIds _ I hI]
    · intro he
      rwa [he]
  simp only [implementedInterfaces, List.mem_filterMap, mem_edgesOfType h ht, hinterface, and_assoc,
    and_comm]

theorem length_implementedInterfaces (ht : t < s.types.length) :
    (s.implementedInterfaces t).length = (s.byType.getD t []).length := by
  have hlength := congrArg List.length (map_id_implementedInterfaces h ht)
  rw [List.length_map, List.length_map, edgesOfType_eq_filter h ht] at hlength
  rw [hlength, h.byType.getD_eq_row ht, length_row]

theorem sum_length_implementedInterfaces :
    (s.types.map fun T ↦ (s.implementedInterfaces T.id).length).sum = s.edges.length := by
  rw [← h.byType.sum_length rfl h.typeIds]
  refine congrArg List.sum (List.map_congr_left fun T hT ↦ ?_)
  exact length_implementedInterfaces h (h.inRange.typeIds T hT)

theorem nodup_required_links {e : Edge} (he : e ∈ s.edges) : (e.links.map (·.required)).Nodup := by
  obtain ⟨I, hI, hlinks⟩ := h.interfaceOf e he
  rw [hlinks]
  exact h.required I (List.mem_of_getElem? hI)

theorem method_of_link {e : Edge} (he : e ∈ s.edges) {l : Link} (hl : l ∈ e.links)
    (hm : s.methods[l.method]? = some m) :
    m.receiver = e.type ∧ m.signature.name = l.required := by
  obtain ⟨T, -, hlinks⟩ := h.typeOf e he
  obtain ⟨-, m', hm', hreceiver, hname⟩ := hlinks l hl
  obtain rfl := Option.some.inj (hm'.symm.trans hm)
  exact ⟨hreceiver, hname⟩

/-- An edge gives one implementation of each method that it links, a method of its type. -/
theorem exists_implementation {e : Edge} (he : e ∈ s.edges) {l : Link} (hl : l ∈ e.links) :
    ∃ m, (e.links.filter (·.required == l.required)).filterMap (s.methods[·.method]?) = [m] ∧
      m.receiver = e.type := by
  obtain ⟨T, -, hlinks⟩ := h.typeOf e he
  obtain ⟨-, m, hm, hreceiver, -⟩ := hlinks l hl
  refine ⟨m, ?_, hreceiver⟩
  rw [filter_key_of_nodup (nodup_required_links h he) hl]
  simp only [List.filterMap_cons, hm, List.filterMap_nil]

theorem map_receiver_methodImplementations (hI : s.interfaces[i]? = some I)
    (hname : name ∈ I.required.map (·.name)) :
    (s.methodImplementations i name).map (·.receiver) = (s.edgesOfInterface i).map (·.type) := by
  have hi := (List.getElem?_eq_some_iff.1 hI).1
  rw [methodImplementations, List.filter_flatMap, List.filterMap_flatMap, List.map_flatMap,
    ← List.flatMap_pure_eq_map]
  refine List.flatMap_congr fun e he ↦ ?_
  obtain ⟨hedge, rfl⟩ := (mem_edgesOfInterface h hi).1 he
  obtain ⟨J, hJ, hlinks⟩ := h.interfaceOf e hedge
  obtain rfl := Option.some.inj (hI.symm.trans hJ)
  rw [← hlinks] at hname
  obtain ⟨l, hl, rfl⟩ := List.mem_map.1 hname
  obtain ⟨m, hm, hreceiver⟩ := exists_implementation h hedge hl
  rw [hm, List.map_singleton, hreceiver]
  rfl

theorem length_methodImplementations (hI : s.interfaces[i]? = some I)
    (hname : name ∈ I.required.map (·.name)) :
    (s.methodImplementations i name).length = s.implementationCount i := by
  have hlength := congrArg List.length (map_receiver_methodImplementations h hI hname)
  rw [List.length_map, List.length_map] at hlength
  rw [hlength, implementationCount_eq_length h (List.getElem?_eq_some_iff.1 hI).1]

theorem pairwise_methodImplementations (hI : s.interfaces[i]? = some I)
    (hname : name ∈ I.required.map (·.name)) :
    (s.methodImplementations i name).Pairwise (·.receiver < ·.receiver) := by
  apply List.pairwise_map.1
  rw [map_receiver_methodImplementations h hI hname, List.pairwise_map]
  exact pairwise_edgesOfInterface h (List.getElem?_eq_some_iff.1 hI).1

theorem mem_methodImplementations_iff (hi : i < s.interfaces.length)
    (hm : s.methods[id]? = some m) :
    m ∈ s.methodImplementations i name ↔
      ∃ e ∈ s.edges, e.interface = i ∧ ⟨name, id⟩ ∈ e.links := by
  simp only [methodImplementations, List.mem_filterMap, List.mem_filter, List.mem_flatMap,
    mem_edgesOfInterface h hi, beq_iff_eq]
  constructor
  · intro hl
    obtain ⟨l, ⟨⟨e, ⟨he, hei⟩, hl⟩, rfl⟩, hlm⟩ := hl
    obtain rfl : l.method = id := by rw [← h.methodIds _ m hlm, h.methodIds _ m hm]
    exact ⟨e, he, hei, hl⟩
  · intro he
    obtain ⟨e, he, hei, hl⟩ := he
    exact ⟨_, ⟨⟨e, ⟨he, hei⟩, hl⟩, rfl⟩, hm⟩

omit h in
theorem implementedMethods_eq (hm : s.methods[id]? = some m) :
    s.implementedMethods id = (s.edgesOfType m.receiver).flatMap fun e ↦
      (e.links.filter (·.method == id)).filterMap fun l ↦
        (s.interfaces[e.interface]?).map fun i ↦ (i, l.required) := by
  rw [implementedMethods, hm]

theorem mem_implementedMethods_iff (hI : s.interfaces[i]? = some I)
    (hm : s.methods[id]? = some m) :
    (I, name) ∈ s.implementedMethods id ↔
      ∃ e ∈ s.edges, e.interface = i ∧ ⟨name, id⟩ ∈ e.links := by
  have hreceiver := h.receivers m (List.mem_of_getElem? hm)
  simp only [implementedMethods_eq hm, List.mem_flatMap, mem_edgesOfType h hreceiver,
    List.mem_filterMap, List.mem_filter, beq_iff_eq, Option.map_eq_some_iff, Prod.mk.injEq]
  constructor
  · intro he
    obtain ⟨e, ⟨he, -⟩, ⟨_, _⟩, ⟨hl, rfl⟩, J, hJ, rfl, rfl⟩ := he
    refine ⟨e, he, ?_, hl⟩
    rw [← h.interfaceIds _ J hJ, h.interfaceIds _ J hI]
  · intro he
    obtain ⟨e, he, rfl, hl⟩ := he
    have htype := (method_of_link h he hl hm).1
    exact ⟨e, ⟨he, htype.symm⟩, _, ⟨hl, rfl⟩, I, hI, rfl, rfl⟩

theorem id_eq_interface {e : Edge} {links : List Link} {x : InterfaceNode × String}
    (hx : x ∈ links.filterMap fun l ↦ (s.interfaces[e.interface]?).map fun i ↦ (i, l.required)) :
    x.1.id = e.interface := by
  obtain ⟨l, -, hl⟩ := List.mem_filterMap.1 hx
  obtain ⟨I, hI, rfl⟩ := Option.map_eq_some_iff.1 hl
  exact h.interfaceIds _ I hI

/-- A method has one name, so it implements one method of an interface at most. -/
theorem pairwise_implementedMethods (id : MethodId) :
    (s.implementedMethods id).Pairwise (·.1.id < ·.1.id) := by
  cases hm : s.methods[id]? with
  | none =>
    rw [implementedMethods, hm]
    exact .nil
  | some m =>
    have hreceiver := h.receivers m (List.mem_of_getElem? hm)
    rw [implementedMethods_eq hm]
    refine List.pairwise_flatMap.2 ⟨fun e he ↦ ?_, ?_⟩
    · have he := ((mem_edgesOfType h hreceiver).1 he).1
      have hname {l : Link} (hl : l ∈ e.links.filter (·.method == id)) :
          m.signature.name = l.required := by
        obtain ⟨hl, hid⟩ := List.mem_filter.1 hl
        rw [← beq_iff_eq.1 hid] at hm
        exact (method_of_link h he hl hm).2
      have hapart := (List.pairwise_map.1 (nodup_required_links h he)).filter (·.method == id)
      refine List.pairwise_filterMap.2 (hapart.imp_of_mem fun {l l'} hl hl' hne ↦ ?_)
      exact absurd ((hname hl).symm.trans (hname hl')) hne
    · refine (pairwise_edgesOfType h hreceiver).imp fun {e e'} hlt x hx y hy ↦ ?_
      rwa [id_eq_interface h hx, id_eq_interface h hy]

end EdgeSet

end Conformance

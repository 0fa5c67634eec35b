import Conformance.Proofs.EdgeSet.Views
import Conformance.Proofs.Program.Edges

namespace Conformance

theorem getElem?_filterMap_of_isSome {α β : Type} {f : α → Option β} {xs : List α}
    (h : ∀ x ∈ xs, (f x).isSome) (k : Nat) : (xs.filterMap f)[k]? = (xs[k]?).bind f := by
  induction xs generalizing k with
  | nil => rfl
  | cons x xs ih =>
    obtain ⟨hx, hxs⟩ := List.forall_mem_cons.1 h
    obtain ⟨y, hy⟩ := Option.isSome_iff_exists.1 hx
    rw [List.filterMap_cons_some hy]
    cases k with
    | zero => exact hy.symm
    | succ k => exact ih hxs k

theorem SortedByName.nodup_map_name {ms : List Signature} (h : SortedByName ms) :
    (ms.map (·.name)).Nodup :=
  List.pairwise_map.2 (h.imp fun {s t} hlt (he : s.name = t.name) ↦
    String.lt_irrefl t.name (he ▸ hlt))

namespace Program

variable {p : Program} {policy : ReceiverPolicy}

theorem length_interfaceNodes (p : Program) : p.interfaceNodes.length = p.interfaces.length := by
  simp [interfaceNodes, length_requiredSets]

theorem length_typeNodes (p : Program) : p.typeNodes.length = p.types.length := by
  simp [typeNodes]

theorem getElem?_interfaceNodes {i : InterfaceId} {I : InterfaceNode}
    (hI : p.interfaceNodes[i]? = some I) :
    I.id = i ∧ ∃ o, p.requiredSets[i]? = some o ∧ I.required = o.getD [] := by
  rw [interfaceNodes, List.getElem?_map, List.getElem?_zipIdx, Option.map_map,
    Option.map_eq_some_iff] at hI
  obtain ⟨⟨d, o⟩, hd, rfl⟩ := hI
  obtain ⟨-, ho⟩ := List.getElem?_zip_eq_some.1 hd
  exact ⟨Nat.zero_add i, o, ho, rfl⟩

theorem nodup_required_interfaceNode (h : p.Valid) {I : InterfaceNode}
    (hI : I ∈ p.interfaceNodes) : (I.required.map (·.name)).Nodup := by
  obtain ⟨i, hi⟩ := List.mem_iff_getElem?.1 hI
  obtain ⟨-, o, ho, hrequired⟩ := getElem?_interfaceNodes hi
  obtain ⟨required, hset, hsorted⟩ := h.exists_requiredSet (lt_length_of_requiredSets ho)
  obtain rfl := Option.some.inj (hset.symm.trans ho)
  rw [hrequired]
  exact hsorted.sorted.nodup_map_name

theorem getElem?_typeNodes {t : TypeId} {T : TypeNode} : p.typeNodes[t]? = some T ↔
    ∃ D, p.types[t]? = some D ∧ T = ⟨t, D.name, D.location, methodsOf p.attachments t⟩ := by
  rw [typeNodes, List.getElem?_map, List.getElem?_zipIdx, Nat.zero_add, Option.map_map,
    Option.map_eq_some_iff]
  exact exists_congr fun D ↦ and_congr_right fun _ ↦ eq_comm

theorem mem_attachments (h : p.Valid) {a : Attachment} : a ∈ p.attachments ↔
    ∃ m, p.methods[a.method]? = some m ∧ p.names.type? m.receiver = some a.type ∧
      m.signature.name = a.name := by
  obtain ⟨t, id, name⟩ := a
  simp only [attachments_eq h, attachment?, List.mem_filterMap, Prod.exists,
    List.mem_zipIdx_iff_getElem?, Option.map_eq_some_iff, Attachment.mk.injEq]
  constructor
  · intro ha
    obtain ⟨m, _, hm, t, ht, rfl, rfl, rfl⟩ := ha
    exact ⟨m, hm, ht, rfl⟩
  · intro ha
    obtain ⟨m, hm, ht, rfl⟩ := ha
    exact ⟨m, id, hm, t, ht, rfl, rfl, rfl⟩

theorem mem_methodsOf_iff (h : p.Valid) {t : TypeId} {id : MethodId} :
    id ∈ methodsOf p.attachments t ↔
      ∃ m, p.methods[id]? = some m ∧ p.names.type? m.receiver = some t := by
  simp only [methodsOf, List.mem_map, List.mem_filter, mem_attachments h, beq_iff_eq]
  constructor
  · intro ha
    obtain ⟨a, ⟨⟨m, hm, htype, -⟩, rfl⟩, rfl⟩ := ha
    exact ⟨m, hm, htype⟩
  · intro ha
    obtain ⟨m, hm, htype⟩ := ha
    exact ⟨⟨t, id, m.signature.name⟩, ⟨⟨m, hm, htype, rfl⟩, rfl⟩, rfl⟩

theorem exists_receiver (h : p.Valid) {m : MethodDecl} (hm : m ∈ p.methods) :
    ∃ t, p.names.type? m.receiver = some t := by
  obtain ⟨T, hT, hname⟩ := h.receivers m hm
  obtain ⟨t, ht⟩ := List.mem_iff_getElem?.1 hT
  exact ⟨t, (type?_iff h.declaredNames).2 ⟨T, ht, hname⟩⟩

theorem find?_attachments (h : p.Valid) {id : MethodId} {m : MethodDecl}
    (hm : p.methods[id]? = some m) :
    (p.attachments.find? (·.method == id)).map (·.type) = p.names.type? m.receiver := by
  obtain ⟨t, ht⟩ := exists_receiver h (List.mem_of_getElem? hm)
  have hmem : (⟨t, id, m.signature.name⟩ : Attachment) ∈ p.attachments :=
    (mem_attachments h).2 ⟨m, hm, ht, rfl⟩
  obtain ⟨a, ha⟩ : ∃ a, p.attachments.find? (·.method == id) = some a :=
    Option.isSome_iff_exists.1 (List.find?_isSome.2 ⟨_, hmem, beq_self_eq_true id⟩)
  obtain ⟨m', hm', hreceiver, -⟩ := (mem_attachments h).1 (List.mem_of_find?_eq_some ha)
  have hid : a.method = id := by simpa using List.find?_some ha
  rw [hid, hm, Option.some.injEq] at hm'
  rw [ha, Option.map_some, hm', hreceiver]

theorem methodNodes_eq (h : p.Valid) : p.methodNodes = p.methods.zipIdx.filterMap fun (m, id) ↦
    (p.names.type? m.receiver).map fun t ↦ ⟨id, t, m.form, m.resolve, m.location⟩ := by
  refine List.filterMap_congr fun x hx ↦ ?_
  obtain ⟨m, id⟩ := x
  dsimp only
  rw [← find?_attachments h (List.mem_zipIdx_iff_getElem?.1 hx), Option.map_map]
  rfl

theorem isSome_receiver_of_zipIdx (h : p.Valid) : ∀ x ∈ p.methods.zipIdx,
    ((p.names.type? x.1.receiver).map fun t ↦
      (⟨x.2, t, x.1.form, x.1.resolve, x.1.location⟩ : MethodNode)).isSome := by
  intro x hx
  obtain ⟨t, ht⟩ := exists_receiver h
    (List.mem_of_getElem? (List.mem_zipIdx_iff_getElem?.1 hx))
  rw [ht, Option.map_some, Option.isSome_some]

theorem getElem?_methodNodes (h : p.Valid) {id : MethodId} {n : MethodNode} :
    p.methodNodes[id]? = some n ↔ ∃ m t, p.methods[id]? = some m ∧
      p.names.type? m.receiver = some t ∧ n = ⟨id, t, m.form, m.resolve, m.location⟩ := by
  rw [methodNodes_eq h, getElem?_filterMap_of_isSome (isSome_receiver_of_zipIdx h),
    List.getElem?_zipIdx, Nat.zero_add]
  simp only [Option.bind_eq_some_iff, Option.map_eq_some_iff]
  constructor
  · intro hn
    obtain ⟨_, ⟨m, hm, rfl⟩, t, ht, rfl⟩ := hn
    exact ⟨m, t, hm, ht, rfl⟩
  · intro hn
    obtain ⟨m, t, hm, ht, rfl⟩ := hn
    exact ⟨_, ⟨m, hm, rfl⟩, t, ht, rfl⟩

theorem length_methodNodes (h : p.Valid) : p.methodNodes.length = p.methods.length := by
  rw [methodNodes_eq h, List.filterMap_length_eq_length.2 (isSome_receiver_of_zipIdx h),
    List.length_zipIdx]

theorem mem_methods_typeNode (h : p.Valid) {T : TypeNode} (hT : T ∈ p.typeNodes)
    (id : MethodId) :
    id ∈ T.methods ↔ ∃ n, p.methodNodes[id]? = some n ∧ n.receiver = T.id := by
  obtain ⟨t, ht⟩ := List.mem_iff_getElem?.1 hT
  obtain ⟨D, -, rfl⟩ := getElem?_typeNodes.1 ht
  rw [mem_methodsOf_iff h]
  constructor
  · intro hm
    obtain ⟨m, hm, htype⟩ := hm
    exact ⟨_, (getElem?_methodNodes h).2 ⟨m, t, hm, htype, rfl⟩, rfl⟩
  · intro hn
    obtain ⟨n, hn, rfl⟩ := hn
    obtain ⟨m, t, hm, htype, rfl⟩ := (getElem?_methodNodes h).1 hn
    exact ⟨m, hm, htype⟩

theorem receiver_lt_length (h : p.Valid) {n : MethodNode} (hn : n ∈ p.methodNodes) :
    n.receiver < p.typeNodes.length := by
  obtain ⟨id, hid⟩ := List.mem_iff_getElem?.1 hn
  obtain ⟨m, t, -, htype, rfl⟩ := (getElem?_methodNodes h).1 hid
  obtain ⟨T, hT, -⟩ := declaration_of_type? htype
  exact p.length_typeNodes ▸ (List.getElem?_eq_some_iff.1 hT).1

theorem interface_of_mem_partition {shapes : Shapes} {cs : List (List Candidate)}
    {x : Option (List Signature) × InterfaceId} {e : Edge}
    (he : e ∈ partition shapes policy cs x) : e.interface = x.2 := by
  obtain ⟨_ | required, i⟩ := x
  · cases he
  · obtain ⟨y, -, hy⟩ := List.mem_filterMap.1 he
    obtain ⟨found, -, rfl⟩ := Option.map_eq_some_iff.1 hy
    rfl

theorem pairwise_partition (shapes : Shapes) (cs : List (List Candidate))
    (x : Option (List Signature) × InterfaceId) :
    (partition shapes policy cs x).Pairwise Edge.Precedes := by
  obtain ⟨_ | required, i⟩ := x
  · exact .nil
  · refine List.pairwise_filterMap.2 ((pairwise_snd_zipIdx cs).imp fun {y z} hlt e he e' he' ↦ ?_)
    obtain ⟨found, -, rfl⟩ := Option.map_eq_some_iff.1 he
    obtain ⟨found', -, rfl⟩ := Option.map_eq_some_iff.1 he'
    exact .inr ⟨rfl, hlt⟩

theorem pairwise_partitions (p : Program) (policy : ReceiverPolicy) :
    (p.partitions policy).flatten.Pairwise Edge.Precedes := by
  refine List.pairwise_flatten.2 ⟨List.forall_mem_map.2 fun x _ ↦ pairwise_partition _ _ x, ?_⟩
  apply List.pairwise_map.2
  refine (pairwise_snd_zipIdx p.requiredSets).imp fun {x y} hlt e he e' he' ↦ .inl ?_
  rwa [interface_of_mem_partition he, interface_of_mem_partition he']

theorem edges_edgeSet (p : Program) (policy : ReceiverPolicy) :
    (p.edgeSet policy).edges = (p.partitions policy).flatten :=
  List.mergeSort_of_pairwise ((pairwise_partitions p policy).imp Edge.Precedes.before)

theorem edgeSet_eq (p : Program) (policy : ReceiverPolicy) : p.edgeSet policy =
    { interfaces := p.interfaceNodes
      types := p.typeNodes
      methods := p.methodNodes
      edges := (p.partitions policy).flatten
      byInterface :=
        EdgeSet.table p.interfaceNodes.length (·.interface) (p.partitions policy).flatten
      byType := EdgeSet.table p.typeNodes.length (·.type) (p.partitions policy).flatten } := by
  rw [← edges_edgeSet]
  rfl

theorem exists_method_of_mem_linked (h : p.Valid) {t : TypeId} {cs : List Candidate}
    (hcs : p.candidates[t]? = some cs) {ss : List Signature} {x : Signature × Candidate}
    (hx : x ∈ linked cs ss) : ∃ m, p.methods[x.2.id]? = some m ∧
      p.names.type? m.receiver = some t ∧ m.signature.name = x.1.name ∧ m.form = x.2.form := by
  obtain ⟨T, hT⟩ := exists_type_of_candidates hcs
  obtain ⟨hc, hname⟩ := (candidateNamed?_eq_some_iff (candidates_distinct h hT hcs)).1
    (mem_linked.1 hx).2
  obtain ⟨id, m, hm, hreceiver, hx⟩ := (mem_candidates h hT hcs).1 hc
  rw [hx, MethodDecl.resolve, Signature.markParams_name] at hname
  rw [hx]
  exact ⟨m, hm, (type?_iff h.declaredNames).2 ⟨T, hT, hreceiver.symm⟩, hname, rfl⟩

section

variable (h : p.Valid) {e : Edge} (he : e ∈ (p.edgeSet policy).edges)

include h he

theorem exists_linked_of_edge : ∃ required cs,
    p.requiredSets[e.interface]? = some (some required) ∧ p.candidates[e.type]? = some cs ∧
      (linked cs required).map (·.1) = required ∧
      e.links = (linked cs required).map Link.ofPair ∧
      e.needsPointer = (linked cs required).any (·.2.form == .pointer) := by
  have hes := edges_eq_edgeSet policy (problems_eq_nil_iff.2 h)
  obtain ⟨required, cs, hrequired, hcs, hfound⟩ := (mem_edges_iff hes).1 he
  have hpairs := satisfy_eq_some hfound
  exact ⟨required, cs, hrequired, hcs, map_fst_linked hfound, congrArg Satisfaction.links hpairs,
    congrArg Satisfaction.needsPointer hpairs⟩

theorem exists_interfaceNode_of_edge : ∃ I, p.interfaceNodes[e.interface]? = some I ∧
    e.links.map (·.required) = I.required.map (·.name) := by
  obtain ⟨required, cs, hrequired, -, hall, hlinks, -⟩ := exists_linked_of_edge h he
  have hi : e.interface < p.interfaceNodes.length :=
    p.length_interfaceNodes ▸ lt_length_of_requiredSets hrequired
  obtain ⟨-, o, ho, hI⟩ := getElem?_interfaceNodes (List.getElem?_eq_getElem hi)
  obtain rfl := Option.some.inj (hrequired.symm.trans ho)
  refine ⟨_, List.getElem?_eq_getElem hi, ?_⟩
  calc e.links.map (·.required)
      = ((linked cs required).map (·.1)).map (·.name) := by
        rw [hlinks, List.map_map, List.map_map]; rfl
    _ = _ := by rw [hall, hI, Option.getD_some]

theorem exists_typeNode_of_edge : ∃ T, p.typeNodes[e.type]? = some T := by
  obtain ⟨required, cs, -, hcs, -⟩ := exists_linked_of_edge h he
  obtain ⟨D, hD⟩ := exists_type_of_candidates hcs
  exact ⟨_, getElem?_typeNodes.2 ⟨D, hD, rfl⟩⟩

theorem exists_methodNode_of_link {l : Link} (hl : l ∈ e.links) :
    ∃ n, p.methodNodes[l.method]? = some n ∧ n.receiver = e.type ∧
      n.signature.name = l.required := by
  obtain ⟨required, cs, -, hcs, -, hlinks, -⟩ := exists_linked_of_edge h he
  rw [hlinks] at hl
  obtain ⟨x, hx, rfl⟩ := List.mem_map.1 hl
  obtain ⟨m, hm, htype, hname, -⟩ := exists_method_of_mem_linked h hcs hx
  refine ⟨_, (getElem?_methodNodes h).2 ⟨m, e.type, hm, htype, rfl⟩, rfl, ?_⟩
  rw [MethodDecl.resolve, Signature.markParams_name, hname]
  rfl

end

theorem wellFormed_edgeSet (h : p.Valid) (policy : ReceiverPolicy) :
    (p.edgeSet policy).WellFormed where
  interfaceIds k I hI := (getElem?_interfaceNodes hI).1
  typeIds k T hT := by
    obtain ⟨D, -, rfl⟩ := getElem?_typeNodes.1 hT
    rfl
  methodIds k n hn := by
    obtain ⟨m, t, -, -, rfl⟩ := (getElem?_methodNodes h).1 hn
    rfl
  required I hI := nodup_required_interfaceNode h hI
  methodsOfType T hT := mem_methods_typeNode h hT
  receivers n hn := receiver_lt_length h hn
  increasing := p.edges_edgeSet policy ▸ p.pairwise_partitions policy
  interfaceOf e he := exists_interfaceNode_of_edge h he
  typeOf e he := by
    obtain ⟨T, hT⟩ := exists_typeNode_of_edge h he
    refine ⟨T, hT, fun l hl ↦ ?_⟩
    obtain ⟨n, hn, hreceiver, hname⟩ := exists_methodNode_of_link h he hl
    obtain ⟨D, -, rfl⟩ := getElem?_typeNodes.1 hT
    exact ⟨(mem_methods_typeNode h (List.mem_of_getElem? hT) _).2 ⟨n, hn, hreceiver⟩, n, hn,
      hreceiver, hname⟩
  byInterface := EdgeSet.isTable_table fun e he ↦ by
    obtain ⟨I, hI, -⟩ := exists_interfaceNode_of_edge h he
    exact (List.getElem?_eq_some_iff.1 hI).1
  byType := EdgeSet.isTable_table fun e he ↦ by
    obtain ⟨T, hT⟩ := exists_typeNode_of_edge h he
    exact (List.getElem?_eq_some_iff.1 hT).1

/-- If the edges are computed, every declaration has its node at its place, every number leads to
what it stands for, and none is out of range. -/
theorem wellFormed_of_edges_eq_ok {es : EdgeSet} (h : p.edges policy = .ok es) :
    es.WellFormed ∧ es.InRange ∧ es.interfaces.length = p.interfaces.length ∧
      es.types.length = p.types.length ∧ es.methods.length = p.methods.length := by
  obtain ⟨hp, rfl⟩ := edges_eq_ok_iff.1 h
  have hvalid : p.Valid := problems_eq_nil_iff.1 hp
  have hwell := wellFormed_edgeSet hvalid policy
  exact ⟨hwell, hwell.inRange, p.length_interfaceNodes, p.length_typeNodes,
    length_methodNodes hvalid⟩

def sockets : Program where
  interfaces :=
    [⟨some "Reader", [], [⟨"Read", [], [], false⟩], [], none, []⟩,
      ⟨some "ReadCloser", [], [⟨"Close", [], [], false⟩], ["Reader"], none, []⟩]
  types := [⟨"File", none⟩, ⟨"Socket", none⟩]
  methods :=
    [⟨"File", .value, ⟨"Read", [], [], false⟩, none⟩,
      ⟨"Socket", .pointer, ⟨"Close", [], [], false⟩, none⟩,
      ⟨"Socket", .value, ⟨"Read", [], [], false⟩, none⟩]

theorem edges_sockets : (sockets.edgeSet .union).edges =
    [⟨0, 0, false, [⟨"Read", 0⟩]⟩, ⟨0, 1, false, [⟨"Read", 2⟩]⟩,
      ⟨1, 1, true, [⟨"Close", 1⟩, ⟨"Read", 2⟩]⟩] := by
  rw [edges_edgeSet]
  decide +kernel

theorem wellFormed_sockets : sockets.edges .union = .ok (sockets.edgeSet .union) ∧
    (sockets.edgeSet .union).WellFormed ∧ (sockets.edgeSet .union).edges.length = 3 ∧
      (sockets.edgeSet .union).methods.length = 3 := by
  have hes : sockets.edges .union = .ok (sockets.edgeSet .union) :=
    edges_eq_edgeSet .union (by decide)
  obtain ⟨hwell, -, -, -, hmethods⟩ := wellFormed_of_edges_eq_ok hes
  exact ⟨hes, hwell, by rw [edges_sockets]; rfl, hmethods⟩

/-- What the edges say of an interface is what they say of types and of methods: an interface has as
many implementations of each required method as it has implementors, one for each of them, and all
edges are seen from both sides. -/
theorem views_agree {es : EdgeSet} (h : p.edges policy = .ok es) :
    (∀ i I, es.interfaces[i]? = some I →
      (∀ name ∈ I.required.map (·.name),
        (∀ id m, es.methods[id]? = some m →
          (m ∈ es.methodImplementations i name ↔ (I, name) ∈ es.implementedMethods id)) ∧
        (es.methodImplementations i name).Nodup ∧
        (es.methodImplementations i name).length = es.implementationCount i ∧
        (es.methodImplementations i name).map (·.receiver) = (es.implementors i).map (·.id)) ∧
      (es.implementors i).Pairwise (·.id < ·.id) ∧
      ∀ t T, es.types[t]? = some T → (T ∈ es.implementors i ↔ I ∈ es.implementedInterfaces t)) ∧
    (∀ id, (es.implementedMethods id).Nodup) ∧
    es.statistics.edges = (es.interfaces.map fun I ↦ es.implementationCount I.id).sum ∧
    es.statistics.edges = (es.types.map fun T ↦ (es.implementedInterfaces T.id).length).sum := by
  obtain ⟨hp, rfl⟩ := edges_eq_ok_iff.1 h
  have hwell := wellFormed_edgeSet (problems_eq_nil_iff.1 hp) policy
  refine ⟨fun i I hI ↦ ?_, fun id ↦ ?_, ?_, ?_⟩
  · have hi := (List.getElem?_eq_some_iff.1 hI).1
    refine ⟨fun name hname ↦ ⟨fun id m hm ↦ ?_, ?_, ?_, ?_⟩, ?_, fun t T hT ↦ ?_⟩
    · rw [EdgeSet.mem_methodImplementations_iff hwell hi hm,
        EdgeSet.mem_implementedMethods_iff hwell hI hm]
    · refine (EdgeSet.pairwise_methodImplementations hwell hI hname).imp fun hlt he ↦ ?_
      exact hlt.ne (congrArg MethodNode.receiver he)
    · exact EdgeSet.length_methodImplementations hwell hI hname
    · rw [EdgeSet.map_receiver_methodImplementations hwell hI hname,
        EdgeSet.map_id_implementors hwell hi]
    · exact EdgeSet.pairwise_implementors hwell hi
    · rw [EdgeSet.mem_implementors_iff hwell hi hT,
        EdgeSet.mem_implementedInterfaces_iff hwell hI (List.getElem?_eq_some_iff.1 hT).1]
  · refine (EdgeSet.pairwise_implementedMethods hwell id).imp fun hlt he ↦ ?_
    exact hlt.ne (congrArg (·.1.id) he)
  · exact (hwell.byInterface.sum_length rfl hwell.interfaceIds).symm
  · exact (EdgeSet.sum_length_implementedInterfaces hwell).symm

/-- The socket's way of reading serves both interfaces, and three edges are seen from each side. -/
theorem views_agree_sockets : sockets.edges .union = .ok (sockets.edgeSet .union) ∧
    (∃ I ∈ (sockets.edgeSet .union).interfaces, I.name = "ReadCloser" ∧
      (I, "Read") ∈ (sockets.edgeSet .union).implementedMethods 2) ∧
    ((sockets.edgeSet .union).types.map fun T ↦
      ((sockets.edgeSet .union).implementedInterfaces T.id).length).sum = 3 := by
  have hes : sockets.edges .union = .ok (sockets.edgeSet .union) :=
    edges_eq_edgeSet .union (by decide)
  have hwell := wellFormed_edgeSet (problems_eq_nil_iff.1 (edges_eq_ok_iff.1 hes).1) .union
  obtain ⟨hinterfaces, -, -, htypes⟩ := views_agree hes
  obtain ⟨I, hI, hIname, hrequired⟩ : ∃ I, (sockets.edgeSet .union).interfaces[1]? = some I ∧
      I.name = "ReadCloser" ∧ "Read" ∈ I.required.map (·.name) := ⟨_, rfl, rfl, by decide⟩
  obtain ⟨m, hm⟩ : ∃ m, (sockets.edgeSet .union).methods[2]? = some m := ⟨_, rfl⟩
  have hmem : m ∈ (sockets.edgeSet .union).methodImplementations 1 "Read" := by
    rw [EdgeSet.mem_methodImplementations_iff hwell (List.getElem?_eq_some_iff.1 hI).1 hm,
      edges_sockets]
    exact ⟨_, List.mem_of_getElem? (i := 2) rfl, rfl, by decide⟩
  refine ⟨hes, ⟨I, List.mem_of_getElem? hI, hIname, ?_⟩, ?_⟩
  · exact (((hinterfaces 1 I hI).1 "Read" hrequired).1 2 m hm).1 hmem
  · rw [← htypes, EdgeSet.statistics, edges_sockets]
    rfl

end Program

end Conformance

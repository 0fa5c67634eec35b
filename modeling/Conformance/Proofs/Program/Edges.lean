import Conformance.Proofs.Links
import Conformance.Proofs.Marking
import Conformance.Proofs.Program.Validity

namespace Conformance

open Relation

namespace Program

variable {p : Program} {policy : ReceiverPolicy}

def signatures (p : Program) : List Signature :=
  p.interfaces.flatMap (·.methods) ++ p.methods.map (·.signature)

theorem mem_signatures_of_interface {d : InterfaceDecl} {s : Signature} (hd : d ∈ p.interfaces)
    (hs : s ∈ d.methods) : s ∈ p.signatures :=
  List.mem_append_left _ (List.mem_flatMap.2 ⟨d, hd, hs⟩)

theorem mem_signatures_of_method {m : MethodDecl} (hm : m ∈ p.methods) :
    m.signature ∈ p.signatures :=
  List.mem_append_right _ (List.mem_map_of_mem hm)

theorem attachments_eq (h : p.Valid) :
    p.attachments = p.methods.zipIdx.filterMap (attachment? p.names) := by
  have hnaming : p.namingProblems = [] :=
    namingProblems_eq_nil_iff.2 ⟨h.declaredNames, h.receivers, h.methods⟩
  have hattach := (List.append_eq_nil_iff.1 hnaming).2
  rw [attachments, attach_eq_of_problems_nil hattach, List.nil_append]

theorem mem_methodsOf (h : p.Valid) {t : TypeId} {T : TypeDecl} (hT : p.types[t]? = some T)
    {id : MethodId} :
    id ∈ methodsOf p.attachments t ↔ ∃ m, p.methods[id]? = some m ∧ m.receiver = T.name := by
  have htype {m : MethodDecl} : p.names.type? m.receiver = some t ↔ m.receiver = T.name := by
    rw [type?_iff h.declaredNames]
    grind
  rw [attachments_eq h, methodsOf]
  simp only [List.mem_map, List.mem_filter, List.mem_filterMap, attachment?, Option.map_eq_some_iff,
    Prod.exists, List.mem_zipIdx_iff_getElem?, beq_iff_eq]
  constructor
  · intro hx
    obtain ⟨_, ⟨⟨m, id, hm, t', ht', rfl⟩, rfl⟩, rfl⟩ := hx
    exact ⟨m, hm, htype.1 ht'⟩
  · intro hx
    obtain ⟨m, hm, hr⟩ := hx
    exact ⟨_, ⟨⟨m, id, hm, t, htype.2 hr, rfl⟩, rfl⟩, rfl⟩

theorem getElem?_candidates {t : TypeId} {T : TypeDecl} (hT : p.types[t]? = some T) :
    p.candidates[t]? = some ((methodsOf p.attachments t).filterMap fun id ↦
      (p.methods[id]?).map fun m ↦ ⟨id, m.resolve, m.form⟩) := by
  have ht : t < p.types.length := (List.getElem?_eq_some_iff.1 hT).1
  rw [candidates, List.getElem?_map, List.getElem?_range ht, Option.map_some]

theorem exists_type_of_candidates {t : TypeId} {cs : List Candidate}
    (h : p.candidates[t]? = some cs) : ∃ T, p.types[t]? = some T := by
  obtain ⟨ht, -⟩ := List.getElem?_eq_some_iff.1 h
  rw [Program.candidates, List.length_map, List.length_range] at ht
  exact ⟨p.types[t], List.getElem?_eq_getElem ht⟩

theorem mem_candidates (h : p.Valid) {t : TypeId} {T : TypeDecl} (hT : p.types[t]? = some T)
    {cs : List Candidate} (hcs : p.candidates[t]? = some cs) {c : Candidate} :
    c ∈ cs ↔ ∃ id m, p.methods[id]? = some m ∧ m.receiver = T.name ∧ c = ⟨id, m.resolve, m.form⟩ := by
  obtain rfl := Option.some.inj ((getElem?_candidates hT).symm.trans hcs)
  simp only [List.mem_filterMap, mem_methodsOf h hT, Option.map_eq_some_iff]
  constructor
  · intro hx
    obtain ⟨id, ⟨m, hm, hr⟩, m', hm', rfl⟩ := hx
    obtain rfl := Option.some.inj (hm.symm.trans hm')
    exact ⟨id, m, hm, hr, rfl⟩
  · intro hx
    obtain ⟨id, m, hm, hr, rfl⟩ := hx
    exact ⟨id, ⟨m, hm, hr⟩, m, hm, rfl⟩

theorem candidates_distinct (h : p.Valid) {t : TypeId} {T : TypeDecl} (hT : p.types[t]? = some T)
    {cs : List Candidate} (hcs : p.candidates[t]? = some cs) :
    ∀ c ∈ cs, ∀ c' ∈ cs, c.signature.name = c'.signature.name → c = c' := by
  intro c hc c' hc' hname
  obtain ⟨id, m, hm, hr, rfl⟩ := (mem_candidates h hT hcs).1 hc
  obtain ⟨id', m', hm', hr', rfl⟩ := (mem_candidates h hT hcs).1 hc'
  simp only [MethodDecl.resolve, Signature.markParams_name] at hname
  obtain ⟨hid, hget⟩ := List.getElem?_eq_some_iff.1 hm
  obtain ⟨hid', hget'⟩ := List.getElem?_eq_some_iff.1 hm'
  have hapart := List.pairwise_iff_getElem.1 h.methods
  rcases Nat.lt_trichotomy id id' with hlt | rfl | hlt
  · exact absurd hname (hget ▸ hget' ▸ hapart id id' hid hid' hlt (by rw [hget, hget', hr, hr']))
  · obtain rfl := Option.some.inj (hm.symm.trans hm')
    rfl
  · exact absurd hname.symm
      (hget ▸ hget' ▸ hapart id' id hid' hid hlt (by rw [hget, hget', hr, hr']))

theorem length_requiredSets (p : Program) : p.requiredSets.length = p.interfaces.length := by
  rw [requiredSets, flattening, length_flatten _ p.embedsInRange, resolvedInterfaces,
    List.length_map]

theorem Valid.exists_requiredSet (h : p.Valid) {i : InterfaceId} (hi : i < p.interfaces.length) :
    ∃ required, p.requiredSets[i]? = some (some required) ∧
      IsRequiredSet p.resolvedInterfaces i required := by
  have hcoherent := (coherent_iff h.declaredNames).2 ⟨h.acyclic, h.declaredOnce, h.agree⟩
  have hi : i < p.resolvedInterfaces.length := by rwa [resolvedInterfaces, List.length_map]
  exact Coherent.exists_requiredSet p.embedsInRange hi (hcoherent i hi)

theorem lt_length_of_requiredSets {i : InterfaceId} {o : Option (List Signature)}
    (h : p.requiredSets[i]? = some o) : i < p.interfaces.length :=
  p.length_requiredSets ▸ (List.getElem?_eq_some_iff.1 h).1

theorem Valid.isRequiredSet (h : p.Valid) {i : InterfaceId} {required : List Signature}
    (hset : p.requiredSets[i]? = some (some required)) :
    IsRequiredSet p.resolvedInterfaces i required := by
  obtain ⟨ms, hms, hrequired⟩ := h.exists_requiredSet (lt_length_of_requiredSets hset)
  rwa [← Option.some.inj (Option.some.inj (hms.symm.trans hset))]

theorem Valid.mem_required_iff (h : p.Valid) {i : InterfaceId} {required : List Signature}
    (hset : p.requiredSets[i]? = some (some required)) {s : Signature} : s ∈ required ↔
      ∃ j, ReflTransGen p.NamesEmbedded i j ∧ Declares p.resolvedInterfaces j s := by
  rw [(h.isRequiredSet hset).mem_iff, Requires, Reaches, embeds_eq h.declaredNames]

theorem mem_requiredSet {i : InterfaceId} {required : List Signature}
    (h : IsRequiredSet p.resolvedInterfaces i required) {s : Signature} (hs : s ∈ required) :
    ∃ d ∈ p.interfaces, ∃ t ∈ d.methods, d.resolveMethod t = s := by
  obtain ⟨j, -, hj⟩ := (h.mem_iff s).1 hs
  obtain ⟨d, hd, t, ht, he⟩ := declares_iff.1 hj
  exact ⟨d, List.mem_of_getElem? hd, t, ht, he⟩

theorem mem_shapes {name : String} {ms : List Signature} :
    (name, ms) ∈ p.shapes ↔ ∃ (i : InterfaceId) (d : InterfaceDecl), p.interfaces[i]? = some d ∧
      d.name = some name ∧ d.typeParams = [] ∧ p.requiredSets[i]? = some (some ms) := by
  simp only [shapes, List.mem_filterMap, List.mem_iff_getElem? (l := p.interfaces.zip _),
    Prod.exists, List.getElem?_zip_eq_some, List.isEmpty_iff]
  constructor
  · rintro ⟨d, required, ⟨i, hd, hrequired⟩, he⟩
    split at he
    · rename_i hparams
      obtain ⟨n, hn, hns⟩ := Option.bind_eq_some_iff.1 he
      obtain ⟨ns, rfl, hpair⟩ := Option.map_eq_some_iff.1 hns
      obtain ⟨rfl, rfl⟩ := Prod.mk.inj hpair
      exact ⟨i, d, hd, hn, hparams, hrequired⟩
    · cases he
  · rintro ⟨i, d, hd, hn, hparams, hrequired⟩
    refine ⟨d, _, ⟨i, hd, hrequired⟩, ?_⟩
    rw [if_pos hparams, hn]
    rfl

theorem lookup_shapes_iff (h : p.Valid) {name : String} {ms : List Signature} :
    p.shapes.lookup name = some ms ↔ (name, ms) ∈ p.shapes := by
  have hmem {ns : List Signature} (hns : p.shapes.lookup name = some ns) :
      (name, ns) ∈ p.shapes := by
    obtain ⟨l, r, he, -⟩ := List.lookup_eq_some_iff.1 hns
    rw [he]
    exact List.mem_append_right _ List.mem_cons_self
  refine ⟨hmem, fun hms ↦ ?_⟩
  obtain ⟨ns, hns⟩ : ∃ ns, p.shapes.lookup name = some ns := by
    rw [← Option.isSome_iff_exists, List.lookup_isSome_iff]
    exact ⟨_, hms, beq_self_eq_true _⟩
  obtain ⟨i, d, hd, hdn, -, hi⟩ := mem_shapes.1 hms
  obtain ⟨j, e, he, hen, -, hj⟩ := mem_shapes.1 (hmem hns)
  -- No other interface has the name.
  have hij := (interface?_iff h.declaredNames).2 ⟨d, hd, hdn⟩
  rw [(interface?_iff h.declaredNames).2 ⟨e, he, hen⟩] at hij
  obtain rfl := Option.some.inj hij
  rw [hns, Option.some.inj (Option.some.inj (hj.symm.trans hi))]

theorem mem_partition {shapes : Shapes} {cs : List (List Candidate)}
    {x : Option (List Signature) × InterfaceId} {i : InterfaceId} {t : TypeId} :
    (∃ e ∈ partition shapes policy cs x, e.interface = i ∧ e.type = t) ↔
      ∃ required c, x = (some required, i) ∧ cs[t]? = some c ∧
        (satisfy shapes policy c [] required).isSome := by
  obtain ⟨_ | required, j⟩ := x
  · simp [partition]
  · simp only [partition, List.mem_filterMap, Prod.exists, List.mem_zipIdx_iff_getElem?,
      Option.map_eq_some_iff, Option.isSome_iff_exists]
    constructor
    · intro h
      obtain ⟨e, ⟨c, u, hc, found, hfound, rfl⟩, rfl, rfl⟩ := h
      exact ⟨required, c, rfl, hc, found, hfound⟩
    · intro h
      obtain ⟨required', c, he, hc, found, hfound⟩ := h
      cases he
      exact ⟨_, ⟨c, t, hc, found, hfound, rfl⟩, rfl, rfl⟩

/-- There is an edge just where the candidates of a type satisfy the required set of an interface. -/
theorem exists_edge_iff {es : EdgeSet} (h : p.edges policy = .ok es) {i : InterfaceId} {t : TypeId} :
    (∃ e ∈ es.edges, e.interface = i ∧ e.type = t) ↔
      ∃ required cs, p.requiredSets[i]? = some (some required) ∧ p.candidates[t]? = some cs ∧
        (satisfy p.shapes policy cs [] required).isSome := by
  obtain ⟨-, rfl⟩ := edges_eq_ok_iff.1 h
  simp only [edgeSet, EdgeSet.ofEdges, List.mem_mergeSort, partitions, List.mem_flatten,
    List.mem_map]
  constructor
  · intro hx
    obtain ⟨e, ⟨_, ⟨x, hx, rfl⟩, he⟩, hi, ht⟩ := hx
    obtain ⟨required, cs, rfl, hcs, hsat⟩ := mem_partition.1 ⟨e, he, hi, ht⟩
    exact ⟨required, cs, List.mem_zipIdx_iff_getElem?.1 hx, hcs, hsat⟩
  · intro hx
    obtain ⟨required, cs, hr, hcs, hsat⟩ := hx
    obtain ⟨e, he, hi, ht⟩ := mem_partition.2 ⟨required, cs, rfl, hcs, hsat⟩
    exact ⟨e, ⟨_, ⟨_, List.mem_zipIdx_iff_getElem?.2 hr, rfl⟩, he⟩, hi, ht⟩

theorem mem_edges_iff {es : EdgeSet} (h : p.edges policy = .ok es) {e : Edge} :
    e ∈ es.edges ↔ ∃ required cs, p.requiredSets[e.interface]? = some (some required) ∧
      p.candidates[e.type]? = some cs ∧
      satisfy p.shapes policy cs [] required = some ⟨e.needsPointer, e.links⟩ := by
  obtain ⟨-, rfl⟩ := edges_eq_ok_iff.1 h
  simp only [edgeSet, EdgeSet.ofEdges, List.mem_mergeSort, partitions, List.mem_flatten,
    List.mem_map]
  constructor
  · rintro ⟨_, ⟨⟨_ | required, i⟩, hx, rfl⟩, he⟩
    · cases he
    · obtain ⟨⟨cs, t⟩, ht, he⟩ := List.mem_filterMap.1 he
      obtain ⟨found, hfound, rfl⟩ := Option.map_eq_some_iff.1 he
      exact ⟨required, cs, List.mem_zipIdx_iff_getElem?.1 hx, List.mem_zipIdx_iff_getElem?.1 ht,
        hfound⟩
  · rintro ⟨required, cs, hr, hcs, hfound⟩
    refine ⟨_, ⟨(some required, e.interface), List.mem_zipIdx_iff_getElem?.2 hr, rfl⟩, ?_⟩
    refine List.mem_filterMap.2 ⟨(cs, e.type), List.mem_zipIdx_iff_getElem?.2 hcs, ?_⟩
    rw [Option.map_eq_some_iff]
    exact ⟨_, hfound, rfl⟩

end Program

end Conformance

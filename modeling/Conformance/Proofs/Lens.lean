import Conformance.Lens
import Conformance.Proofs.Program.WellFormed

namespace Conformance

theorem filter_eq_ite {α : Type} {p : α → Bool} {b : Bool} {xs : List α} (h : ∀ x ∈ xs, p x = b) :
    xs.filter p = if b then xs else [] := by
  cases b with
  | true => exact List.filter_eq_self.2 h
  | false => exact List.filter_eq_nil_iff.2 fun x hx ↦ by simp [h x hx]

namespace Lens

def Switches.shows (on : Switches) : Subject → Bool
  | .interface _ => on.showOnInterfaces
  | .interfaceMethod _ _ => on.showOnMethods
  | .type _ => on.showOnTypes
  | .typeMethod _ _ => on.perMethodAttribution

def listing (subject : Subject) (location : Option Location) (targets : List String) : Lens :=
  ⟨subject, location, "Implements: " ++ Text.join ", " targets, targets⟩

theorem listing?_eq (subject : Subject) (location : Option Location) (targets : List String) :
    listing? subject location targets =
      (some (listing subject location targets)).filter (!·.targets.isEmpty) := by
  cases targets <;> rfl

theorem subject_of_mem_listing? {subject : Subject} {location : Option Location}
    {targets : List String} {l : Lens} (hl : l ∈ listing? subject location targets) :
    l.subject = subject := by
  rw [listing?_eq, Option.mem_def, Option.filter_eq_some_iff] at hl
  cases hl.1
  rfl

end Lens

namespace EdgeSet

section

variable (s : EdgeSet)

theorem filter_interfaceLenses (on : Lens.Switches) (i : InterfaceNode) :
    (s.interfaceLens i :: i.required.map (s.interfaceMethodLens i)).filter (on.shows ·.subject) =
      (if on.showOnInterfaces then [s.interfaceLens i] else []) ++
        if on.showOnMethods then i.required.map (s.interfaceMethodLens i) else [] := by
  have hown : ∀ l ∈ [s.interfaceLens i], on.shows l.subject = on.showOnInterfaces :=
    List.forall_mem_singleton.2 rfl
  have hmethods : ∀ l ∈ i.required.map (s.interfaceMethodLens i),
      on.shows l.subject = on.showOnMethods := List.forall_mem_map.2 fun _ _ ↦ rfl
  rw [← List.singleton_append, List.filter_append, filter_eq_ite hown, filter_eq_ite hmethods]

theorem filter_typeLenses (on : Lens.Switches) (t : TypeNode) :
    ((s.typeLens? t).toList ++ t.methods.filterMap (s.typeMethodLens? t)).filter
        (on.shows ·.subject) =
      (if on.showOnTypes then (s.typeLens? t).toList else []) ++
        if on.perMethodAttribution then t.methods.filterMap (s.typeMethodLens? t) else [] := by
  have hown : ∀ l ∈ (s.typeLens? t).toList, on.shows l.subject = on.showOnTypes := by
    intro l hl
    rw [Lens.subject_of_mem_listing? (Option.mem_toList.1 hl)]
    rfl
  have hmethods : ∀ l ∈ t.methods.filterMap (s.typeMethodLens? t),
      on.shows l.subject = on.perMethodAttribution := by
    intro l hl
    obtain ⟨id, -, hl⟩ := List.mem_filterMap.1 hl
    obtain ⟨m, -, hl⟩ := Option.bind_eq_some_iff.1 hl
    rw [Lens.subject_of_mem_listing? hl]
    rfl
  rw [List.filter_append, filter_eq_ite hown, filter_eq_ite hmethods]

theorem lenses_eq_filter (on : Lens.Switches) :
    s.lenses on = if on.enable then (s.lenses {}).filter (on.shows ·.subject) else [] := by
  have hall : s.lenses {} =
      s.interfaces.flatMap
          (fun i ↦ s.interfaceLens i :: i.required.map (s.interfaceMethodLens i)) ++
        s.types.flatMap fun t ↦
          (s.typeLens? t).toList ++ t.methods.filterMap (s.typeMethodLens? t) := rfl
  rw [hall, List.filter_append, List.filter_flatMap, List.filter_flatMap]
  simp only [filter_interfaceLenses, filter_typeLenses]
  rfl

end

section

variable (s : EdgeSet)

/-- A lens on the interface and one on each method that it requires, all of them with a target for
each type that implements the interface. -/
def counts (I : InterfaceNode) : List Lens :=
  .counting (.interface I.name) I.location ((s.implementors I.id).map (·.name)) ::
    I.required.map fun r ↦ .counting (.interfaceMethod I.name r.name) (I.methodLocation? r.name)
      ((s.implementors I.id).map fun T ↦ T.name ++ "." ++ r.name)

/-- What the type and each of its methods implement, be it something or nothing. -/
def attributions (T : TypeNode) : List Lens :=
  .listing (.type T.name) T.location ((s.implementedInterfaces T.id).map (·.name)) ::
    T.methods.filterMap fun id ↦ (s.methods[id]?).map fun m ↦
      .listing (.typeMethod T.name m.signature.name) m.location
        ((s.implementedMethods id).map fun x ↦ x.1.name ++ "." ++ x.2)

theorem typeLenses_eq_filter (T : TypeNode) :
    (s.typeLens? T).toList ++ T.methods.filterMap (s.typeMethodLens? T) =
      (s.attributions T).filter (!·.targets.isEmpty) := by
  have hown : (s.typeLens? T).toList = [Lens.listing (.type T.name) T.location
      ((s.implementedInterfaces T.id).map (·.name))].filter (!·.targets.isEmpty) := by
    rw [typeLens?, Lens.listing?_eq, Option.toList_filter, Option.toList_some]
  rw [attributions, ← List.singleton_append, List.filter_append, ← hown, List.filter_filterMap]
  refine congrArg _ (List.filterMap_congr fun id _ ↦ ?_)
  rw [typeMethodLens?]
  cases s.methods[id]? with
  | none => rfl
  | some m => exact Lens.listing?_eq _ _ _

end

section

variable {s : EdgeSet} {I : InterfaceNode} {T : TypeNode}

theorem mem_types_of_mem_implementors {i : InterfaceId} (hT : T ∈ s.implementors i) :
    T ∈ s.types := by
  obtain ⟨e, -, he⟩ := List.mem_filterMap.1 hT
  exact List.mem_of_getElem? he

def typeName (s : EdgeSet) (t : TypeId) : String :=
  match s.types[t]? with
  | some T => T.name
  | none => ""

theorem signature_of_mem_methodImplementations {i : InterfaceId} {name : String} {m : MethodNode}
    (h : s.WellFormed) (hi : i < s.interfaces.length) (hm : m ∈ s.methodImplementations i name) :
    m.signature.name = name := by
  obtain ⟨l, hl, hm⟩ := List.mem_filterMap.1 hm
  obtain ⟨hl, hname⟩ := List.mem_filter.1 hl
  obtain ⟨e, he, hl⟩ := List.mem_flatMap.1 hl
  rw [(method_of_link h ((mem_edgesOfInterface h hi).1 he).1 hl hm).2, beq_iff_eq.1 hname]

theorem map_typeName_implementors (h : s.WellFormed) (i : InterfaceId) :
    (s.implementors i).map (fun T ↦ s.typeName T.id) = (s.implementors i).map (·.name) := by
  refine List.map_congr_left fun T hT ↦ ?_
  rw [typeName, getElem?_id_of_mem h.typeIds (mem_types_of_mem_implementors hT)]

/-- Each implementor has its method for each required one, so a lens on a required method has the
targets that the lens on its interface has. -/
theorem map_qualifiedName_methodImplementations (h : s.WellFormed) (hI : I ∈ s.interfaces)
    {r : Signature} (hr : r ∈ I.required) :
    (s.methodImplementations I.id r.name).map s.qualifiedName =
      (s.implementors I.id).map fun T ↦ T.name ++ "." ++ r.name := by
  have hI := getElem?_id_of_mem h.interfaceIds hI
  have hi := (List.getElem?_eq_some_iff.1 hI).1
  have hreceivers : (s.methodImplementations I.id r.name).map (·.receiver) =
      (s.implementors I.id).map (·.id) := by
    rw [map_receiver_methodImplementations h hI (List.mem_map_of_mem hr), map_id_implementors h hi]
  calc (s.methodImplementations I.id r.name).map s.qualifiedName
      = (s.methodImplementations I.id r.name).map
          fun m ↦ s.typeName m.receiver ++ "." ++ r.name := by
        refine List.map_congr_left fun m hm ↦ ?_
        rw [← signature_of_mem_methodImplementations h hi hm]
        rfl
    _ = ((s.implementors I.id).map (·.id)).map fun t ↦ s.typeName t ++ "." ++ r.name := by
        rw [← hreceivers, List.map_map]
        rfl
    _ = ((s.implementors I.id).map fun T ↦ s.typeName T.id).map (· ++ "." ++ r.name) := by
        rw [List.map_map, List.map_map]
        rfl
    _ = (s.implementors I.id).map fun T ↦ T.name ++ "." ++ r.name := by
        rw [map_typeName_implementors h, List.map_map]
        rfl

theorem count_of_mem_counts {l : Lens} (hl : l ∈ s.counts I) :
    l.targets.length = (s.implementors I.id).length ∧
      l.label = Lens.implementationLabel (s.implementors I.id).length := by
  simp only [counts, List.mem_cons, List.mem_map] at hl
  obtain rfl | ⟨r, -, rfl⟩ := hl <;> simp [Lens.counting]

theorem counts_eq (h : s.WellFormed) (hI : I ∈ s.interfaces) :
    s.interfaceLens I :: I.required.map (s.interfaceMethodLens I) = s.counts I := by
  refine congrArg _ (List.map_congr_left fun r hr ↦ ?_)
  rw [interfaceMethodLens, map_qualifiedName_methodImplementations h hI hr]

theorem length_attributions (h : s.WellFormed) (hT : T ∈ s.types) :
    (s.attributions T).length = T.methods.length + 1 := by
  refine congrArg (· + 1) (List.filterMap_length_eq_length.2 fun id hid ↦ ?_)
  obtain ⟨m, hm, -⟩ := (h.methodsOfType T hT id).1 hid
  rw [hm]
  rfl

theorem lenses_all (h : s.WellFormed) : s.lenses {} = s.interfaces.flatMap s.counts ++
    s.types.flatMap fun T ↦ (s.attributions T).filter (!·.targets.isEmpty) := by
  have hinterfaces : s.interfaces.flatMap s.counts = s.interfaces.flatMap fun I ↦
      s.interfaceLens I :: I.required.map (s.interfaceMethodLens I) :=
    List.flatMap_congr fun I hI ↦ (counts_eq h hI).symm
  rw [hinterfaces]
  simp only [← typeLenses_eq_filter]
  rfl

end

end EdgeSet

namespace Program

variable {p : Program} {policy : ReceiverPolicy}

/-- With all switches on, each interface and each method that it requires has a lens, and all of
these have one target for each type that implements the interface; a type or a method of a type has
a lens if it has a target. Other switches choose from these lenses. -/
theorem lenses_of_edges {es : EdgeSet} (h : p.edges policy = .ok es) :
    (∀ on : Lens.Switches, es.lenses on =
      if on.enable then (es.lenses {}).filter (on.shows ·.subject) else []) ∧
    es.lenses {} = es.interfaces.flatMap es.counts ++
      es.types.flatMap (fun T ↦ (es.attributions T).filter (!·.targets.isEmpty)) ∧
    (∀ I ∈ es.interfaces,
      (∀ l ∈ es.counts I, l.targets.length = (es.implementors I.id).length ∧
        l.label = Lens.implementationLabel (es.implementors I.id).length) ∧
      (es.implementors I.id).Pairwise (·.id < ·.id) ∧
      ∀ T, T ∈ es.implementors I.id ↔
        T ∈ es.types ∧ ∃ e ∈ es.edges, e.interface = I.id ∧ e.type = T.id) ∧
    ∀ T ∈ es.types, (es.attributions T).length = T.methods.length + 1 := by
  have hwell := (wellFormed_of_edges_eq_ok h).1
  refine ⟨es.lenses_eq_filter, EdgeSet.lenses_all hwell, fun I hI ↦ ?_,
    fun T ↦ EdgeSet.length_attributions hwell⟩
  have hi := (List.getElem?_eq_some_iff.1 (EdgeSet.getElem?_id_of_mem hwell.interfaceIds hI)).1
  refine ⟨fun l ↦ EdgeSet.count_of_mem_counts, EdgeSet.pairwise_implementors hwell hi, fun T ↦ ?_⟩
  constructor
  · intro hT
    have hmem := EdgeSet.mem_types_of_mem_implementors hT
    exact ⟨hmem, (EdgeSet.mem_implementors_iff hwell hi
      (EdgeSet.getElem?_id_of_mem hwell.typeIds hmem)).1 hT⟩
  · rintro ⟨hT, he⟩
    exact (EdgeSet.mem_implementors_iff hwell hi (EdgeSet.getElem?_id_of_mem hwell.typeIds hT)).2 he

/-- Ten lenses, five of them on methods of interfaces or on types; for each method of `ReadCloser`
the one socket is counted. -/
theorem lenses_of_edges_sockets : sockets.edges .union = .ok (sockets.edgeSet .union) ∧
    ((sockets.edgeSet .union).lenses {}).length = 10 ∧
    ((sockets.edgeSet .union).lenses
        { showOnInterfaces := false, perMethodAttribution := false }).map
          (fun l ↦ (l.subject.text, l.label)) =
      [("Reader.Read", "2 implementations"), ("ReadCloser.Close", "1 implementation"),
        ("ReadCloser.Read", "1 implementation"), ("File", "Implements: Reader"),
        ("Socket", "Implements: Reader, ReadCloser")] := by
  have hes : sockets.edges .union = .ok (sockets.edgeSet .union) :=
    edges_eq_edgeSet .union (by decide)
  obtain ⟨hon, hall, -, -⟩ := lenses_of_edges hes
  refine ⟨hes, ?_, ?_⟩
  · rw [hall, edgeSet_eq]
    decide +kernel
  · rw [hon, edgeSet_eq]
    decide +kernel

end Program

end Conformance

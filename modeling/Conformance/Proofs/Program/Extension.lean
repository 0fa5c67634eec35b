import Conformance.Proofs.Program.WellFormed

namespace Conformance

def StandsIn {α : Type} (place : Nat → Nat) (xs ys : List α) : Prop :=
  ∀ k x, xs[k]? = some x → ys[place k]? = some x

theorem exists_standsIn_iff {α : Type} {xs ys : List α} :
    (∃ place, StandsIn place xs ys) ↔ xs ⊆ ys := by
  constructor
  · intro h x hx
    obtain ⟨place, hplace⟩ := h
    obtain ⟨k, hk⟩ := List.mem_iff_getElem?.1 hx
    exact List.mem_of_getElem? (hplace k x hk)
  · intro h
    have hplace (k : Nat) : ∃ j : Nat, ∀ x, xs[k]? = some x → ys[j]? = some x := by
      cases hk : xs[k]? with
      | none => exact ⟨0, fun x hx ↦ absurd hx (by simp)⟩
      | some y =>
        obtain ⟨j, hj⟩ := List.mem_iff_getElem?.1 (h (List.mem_of_getElem? hk))
        exact ⟨j, fun x hx ↦ by rwa [← Option.some.inj hx]⟩
    choose place hplace using hplace
    exact ⟨place, hplace⟩

namespace Program

/-- Where the types and methods of the first program stand in the second one, which has the same
interfaces. -/
structure Extension (p p' : Program) where
  type : TypeId → TypeId
  method : MethodId → MethodId
  interfaces : p'.interfaces = p.interfaces
  types : StandsIn type p.types p'.types
  methods : StandsIn method p.methods p'.methods
  externals : p.externals ⊆ p'.externals

variable {p p' : Program}

theorem nonempty_extension_iff : Nonempty (p.Extension p') ↔
    p'.interfaces = p.interfaces ∧ p.types ⊆ p'.types ∧ p.methods ⊆ p'.methods ∧
      p.externals ⊆ p'.externals := by
  constructor
  · intro h
    obtain ⟨x⟩ := h
    exact ⟨x.interfaces, exists_standsIn_iff.1 ⟨_, x.types⟩, exists_standsIn_iff.1 ⟨_, x.methods⟩,
      x.externals⟩
  · intro h
    obtain ⟨hinterfaces, htypes, hmethods, hexternals⟩ := h
    obtain ⟨type, htypes⟩ := exists_standsIn_iff.2 htypes
    obtain ⟨method, hmethods⟩ := exists_standsIn_iff.2 hmethods
    exact ⟨⟨type, method, hinterfaces, htypes, hmethods, hexternals⟩⟩

namespace Extension

variable (x : p.Extension p') (hp : p.Valid) (hp' : p'.Valid)

def edge (e : Edge) : Edge where
  interface := e.interface
  type := x.type e.type
  needsPointer := e.needsPointer
  links := e.links.map (.renumber x.method)

include x hp hp'

theorem interface?_eq : p'.names.interface? = p.names.interface? := by
  funext name
  ext i
  rw [interface?_iff hp.declaredNames, interface?_iff hp'.declaredNames, x.interfaces]

theorem requiredSets_eq : p'.requiredSets = p.requiredSets := by
  have hresolved : p'.resolvedInterfaces = p.resolvedInterfaces := by
    rw [resolvedInterfaces, resolvedInterfaces, x.interfaces]
    refine List.map_congr_left fun d _ ↦ ?_
    rw [InterfaceDecl.resolve, InterfaceDecl.resolve, x.interface?_eq hp hp']
  rw [requiredSets, requiredSets, flattening, flattening, hresolved, displayNames, displayNames,
    x.interfaces]

theorem shapes_eq : p'.shapes = p.shapes := by
  rw [shapes, shapes, x.requiredSets_eq hp hp', x.interfaces]

section

variable {t : TypeId} {T : TypeDecl} (hT : p.types[t]? = some T) {cs cs' : List Candidate}
  (hcs : p.candidates[t]? = some cs) (hcs' : p'.candidates[x.type t]? = some cs')

include hT hcs hcs'

theorem mem_candidates {c : Candidate} (hc : c ∈ cs) : c.renumber x.method ∈ cs' := by
  obtain ⟨id, m, hm, hreceiver, rfl⟩ := (Program.mem_candidates hp hT hcs).1 hc
  exact (Program.mem_candidates hp' (x.types t T hT) hcs').2
    ⟨x.method id, m, x.methods id m hm, hreceiver, rfl⟩

theorem candidateNamed?_of_some {name : String} {c : Candidate}
    (hc : candidateNamed? cs name = some c) :
    candidateNamed? cs' name = some (c.renumber x.method) := by
  rw [candidateNamed?_eq_some_iff (candidates_distinct hp hT hcs)] at hc
  rw [candidateNamed?_eq_some_iff (candidates_distinct hp' (x.types t T hT) hcs')]
  exact ⟨x.mem_candidates hp hp' hT hcs hcs' hc.1, hc.2⟩

theorem candidateNamed?_eq (hmethods : ∀ m ∈ p'.methods, m.receiver = T.name → m ∈ p.methods)
    (name : String) :
    candidateNamed? cs' name = (candidateNamed? cs name).map (.renumber x.method) := by
  have hdistinct' := candidates_distinct hp' (x.types t T hT) hcs'
  ext c'
  rw [Option.map_eq_some_iff]
  constructor
  · intro hc'
    obtain ⟨hmem', rfl⟩ := (candidateNamed?_eq_some_iff hdistinct').1 hc'
    obtain ⟨k, m, hm, hreceiver, hc'⟩ :=
      (Program.mem_candidates hp' (x.types t T hT) hcs').1 hmem'
    obtain ⟨j, hj⟩ := List.mem_iff_getElem?.1 (hmethods m (List.mem_of_getElem? hm) hreceiver)
    have hmem : (⟨j, m.resolve, m.form⟩ : Candidate) ∈ cs :=
      (Program.mem_candidates hp hT hcs).2 ⟨j, m, hj, hreceiver, rfl⟩
    refine ⟨_, (candidateNamed?_eq_some_iff (candidates_distinct hp hT hcs)).2 ⟨hmem, ?_⟩, ?_⟩
    · rw [hc']
    · -- Both stand among the candidates of the extended program under one name.
      apply hdistinct' _ (x.mem_candidates hp hp' hT hcs hcs' hmem) _ hmem'
      rw [hc']
      rfl
  · intro hc
    obtain ⟨c, hc, rfl⟩ := hc
    exact x.candidateNamed?_of_some hp hp' hT hcs hcs' hc

end

variable {policy : ReceiverPolicy} {es es' : EdgeSet} (hes : p.edges policy = .ok es)
  (hes' : p'.edges policy = .ok es')

include hes hes'

theorem edge_mem {e : Edge} (he : e ∈ es.edges) : x.edge e ∈ es'.edges := by
  obtain ⟨required, cs, hrequired, hcs, hfound⟩ := (mem_edges_iff hes).1 he
  obtain ⟨T, hT⟩ := exists_type_of_candidates hcs
  have hcs' := getElem?_candidates (x.types e.type T hT)
  refine (mem_edges_iff hes').2 ⟨required, _, ?_, hcs', ?_⟩
  · rw [x.requiredSets_eq hp hp']
    exact hrequired
  · rw [x.shapes_eq hp hp']
    exact satisfy_of_more_candidates
      (fun name c ↦ x.candidateNamed?_of_some hp hp' hT hcs hcs') hfound

theorem exists_edge {t : TypeId} {T : TypeDecl} (hT : p.types[t]? = some T)
    (hmethods : ∀ m ∈ p'.methods, m.receiver = T.name → m ∈ p.methods) {e' : Edge}
    (he' : e' ∈ es'.edges) (ht : e'.type = x.type t) :
    ∃ e ∈ es.edges, e.type = t ∧ x.edge e = e' := by
  obtain ⟨required, cs', hrequired, hcs', hfound'⟩ := (mem_edges_iff hes').1 he'
  have hcs := getElem?_candidates hT
  rw [ht] at hcs'
  rw [x.requiredSets_eq hp hp'] at hrequired
  rw [x.shapes_eq hp hp',
    satisfy_renumber (x.candidateNamed?_eq hp hp' hT hcs hcs' hmethods), Option.map_eq_some_iff]
    at hfound'
  obtain ⟨found, hfound, hlinks⟩ := hfound'
  refine ⟨⟨e'.interface, t, found.needsPointer, found.links⟩, ?_, rfl, ?_⟩
  · exact (mem_edges_iff hes).2 ⟨required, _, hrequired, hcs, hfound⟩
  · obtain ⟨hpointer, hlinks⟩ := Satisfaction.mk.inj hlinks
    rw [edge, ← ht, hpointer, hlinks]

end Extension

/-- With more types, methods and external names every edge is still there, with the same links and
need for a pointer, and a type without additional methods has no other ones. -/
theorem edges_of_extension (hp : p.problems = []) (hp' : p'.problems = []) (x : p.Extension p')
    (policy : ReceiverPolicy) :
    ∃ es es', p.edges policy = .ok es ∧ p'.edges policy = .ok es' ∧
      (∀ e ∈ es.edges, x.edge e ∈ es'.edges) ∧
      ∀ t T, p.types[t]? = some T →
        (∀ m ∈ p'.methods, m.receiver = T.name → m ∈ p.methods) →
        ∀ e' ∈ es'.edges, e'.type = x.type t → ∃ e ∈ es.edges, e.type = t ∧ x.edge e = e' := by
  have hvalid : p.Valid := problems_eq_nil_iff.1 hp
  have hvalid' : p'.Valid := problems_eq_nil_iff.1 hp'
  have hes := edges_eq_edgeSet policy hp
  have hes' := edges_eq_edgeSet policy hp'
  refine ⟨_, _, hes, hes', fun e he ↦ x.edge_mem hvalid hvalid' hes hes' he, ?_⟩
  intro t T hT hmethods e' he' ht
  exact x.exists_edge hvalid hvalid' hes hes' hT hmethods he' ht

def socketsAndPipes : Program where
  interfaces := sockets.interfaces
  types := ⟨"Pipe", none⟩ :: sockets.types
  methods :=
    ⟨"Pipe", .value, ⟨"Read", [], [], false⟩, none⟩ ::
      ⟨"File", .value, ⟨"Close", [], [], false⟩, none⟩ :: sockets.methods
  externals := ["Conn"]

def sockets.withPipes : sockets.Extension socketsAndPipes where
  type := (· + 1)
  method := (· + 2)
  interfaces := rfl
  types _ _ h := h
  methods _ _ h := h
  externals := List.nil_subset _

/-- The socket is closed and read as before, by methods that have other numbers. -/
theorem edges_of_extension_sockets : sockets.problems = [] ∧ socketsAndPipes.problems = [] ∧
    ∃ es es', sockets.edges .union = .ok es ∧ socketsAndPipes.edges .union = .ok es' ∧
      ⟨1, 1, true, [⟨"Close", 1⟩, ⟨"Read", 2⟩]⟩ ∈ es.edges ∧
      ⟨1, 2, true, [⟨"Close", 3⟩, ⟨"Read", 4⟩]⟩ ∈ es'.edges ∧
      ∀ e' ∈ es'.edges, e'.type = 2 → ∃ e ∈ es.edges, e.type = 1 ∧ sockets.withPipes.edge e = e' := by
  have hp : sockets.problems = [] := by decide
  have hp' : socketsAndPipes.problems = [] := by decide
  obtain ⟨es, es', hes, hes', hkept, hothers⟩ :=
    edges_of_extension hp hp' sockets.withPipes .union
  have hclosed : (⟨1, 1, true, [⟨"Close", 1⟩, ⟨"Read", 2⟩]⟩ : Edge) ∈ es.edges :=
    (mem_edges_iff hes).2 ⟨_, _, rfl, rfl, by decide +kernel⟩
  refine ⟨hp, hp', es, es', hes, hes', hclosed, hkept _ hclosed, ?_⟩
  apply hothers 1 ⟨"Socket", none⟩ rfl
  simp [socketsAndPipes, sockets]

end Program

end Conformance

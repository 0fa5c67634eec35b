import Conformance.Proofs.Fitting
import Conformance.Proofs.Program.Edges

namespace Conformance

open Relation

section

variable {shapes : Shapes} {policy : ReceiverPolicy} {cs : List Candidate} {ss ss' : List Signature}

theorem MethodsFit.mono {F : Descriptor → Descriptor → Prop} (h : MethodsFit F policy cs ss)
    (hsub : ∀ s ∈ ss', s ∈ ss) : MethodsFit F policy cs ss' :=
  fun s hs ↦ h s (hsub s hs)

theorem ParamsAgree.mono (h : ParamsAgree shapes cs ss) (hsub : ∀ s ∈ ss', s ∈ ss) :
    ParamsAgree shapes cs ss' := by
  obtain ⟨σ, hσ⟩ := h
  exact ⟨σ, fun s hs ↦ hσ s (hsub s hs)⟩

theorem satisfy_of_subset
    (distinct : ∀ c ∈ cs, ∀ c' ∈ cs, c.signature.name = c'.signature.name → c = c')
    (hsub : ∀ s ∈ ss', s ∈ ss) (h : (satisfy shapes policy cs [] ss).isSome) :
    (satisfy shapes policy cs [] ss').isSome := by
  rw [satisfy_isSome_iff_fit policy distinct] at h ⊢
  exact ⟨h.1.mono hsub, h.2.mono hsub⟩

end

theorem IsRequiredSet.eq_filter {is : List ResolvedInterface} {a b : InterfaceId}
    {ms ns : List Signature} (hm : IsRequiredSet is a ms) (hn : IsRequiredSet is b ns)
    (hab : Reaches is a b) : ns = ms.filter fun s ↦ decide (s.name ∈ ns.map (·.name)) := by
  have hsub {s : Signature} (hs : s ∈ ns) : s ∈ ms := by
    obtain ⟨j, hbj, hj⟩ := (hn.mem_iff s).1 hs
    exact (hm.mem_iff s).2 ⟨j, hab.trans hbj, hj⟩
  apply hn.sorted.ext (hm.sorted.filter _)
  intro s
  rw [List.mem_filter, decide_eq_true_eq]
  constructor
  · intro hs
    exact ⟨hsub hs, List.mem_map_of_mem hs⟩
  · rintro ⟨hs, hname⟩
    obtain ⟨t, ht, hts⟩ := List.mem_map.1 hname
    rwa [← hm.sorted.eq_of_name (hsub ht) hs hts]

namespace Program

variable {p : Program}

theorem reaches_of_namesEmbedded (hp : p.Valid) {a b : InterfaceId}
    (hab : ReflTransGen p.NamesEmbedded a b) : Reaches p.resolvedInterfaces a b := by
  rwa [Reaches, embeds_eq hp.declaredNames]

theorem lt_length_of_namesEmbedded {a b : InterfaceId} (hab : ReflTransGen p.NamesEmbedded a b)
    (ha : a < p.interfaces.length) : b < p.interfaces.length := by
  induction hab with
  | refl => exact ha
  | tail _ hbc _ =>
    obtain ⟨_, e, _, _, he, -⟩ := hbc
    exact (List.getElem?_eq_some_iff.1 he).1

/-- A type that implements an interface implements the interfaces it reaches, with those links that
their methods have there, and without pointers if there are none there. -/
theorem edges_along_embeddings (hp : p.problems = []) (policy : ReceiverPolicy) :
    ∃ es, p.edges policy = .ok es ∧
      ∀ a b, ReflTransGen p.NamesEmbedded a b → ∀ e ∈ es.edges, e.interface = a →
        ∃ required, p.requiredSets[b]? = some (some required) ∧
          (∃ e' ∈ es.edges, e'.interface = b ∧ e'.type = e.type) ∧
          ∀ e' ∈ es.edges, e'.interface = b → e'.type = e.type →
            e'.links = e.links.filter (fun l ↦ decide (l.required ∈ required.map (·.name))) ∧
            (e.needsPointer = false → e'.needsPointer = false) := by
  have hes := edges_eq_edgeSet policy hp
  have hvalid : p.Valid := problems_eq_nil_iff.1 hp
  refine ⟨_, hes, fun a b hab e he ha ↦ ?_⟩
  obtain ⟨ms, cs, hms, hcs, hfound⟩ := (mem_edges_iff hes).1 he
  rw [ha] at hms
  obtain ⟨ns, hns, hn⟩ := hvalid.exists_requiredSet
    (lt_length_of_namesEmbedded hab (lt_length_of_requiredSets hms))
  have hfilter := (hvalid.isRequiredSet hms).eq_filter hn (reaches_of_namesEmbedded hvalid hab)
  obtain ⟨T, hT⟩ := exists_type_of_candidates hcs
  refine ⟨ns, hns, ?_, fun e' he' hb ht ↦ ?_⟩
  · have hsome : (satisfy p.shapes policy cs [] ns).isSome := by
      have hsub (s : Signature) (hs : s ∈ ns) : s ∈ ms := by
        rw [hfilter] at hs
        exact (List.mem_filter.1 hs).1
      exact satisfy_of_subset (candidates_distinct hvalid hT hcs) hsub (by simp [hfound])
    exact (exists_edge_iff hes).2 ⟨ns, cs, hns, hcs, hsome⟩
  · obtain ⟨ns', cs', hns', hcs', hfound'⟩ := (mem_edges_iff hes).1 he'
    rw [hb, hns, Option.some.injEq, Option.some.injEq] at hns'
    rw [ht, hcs, Option.some.injEq] at hcs'
    subst hns' hcs'
    have hlinked := linked_filter cs ms fun name ↦ decide (name ∈ ns.map (·.name))
    rw [← hfilter] at hlinked
    have hlinks := congrArg Satisfaction.links (satisfy_eq_some hfound)
    have hlinks' := congrArg Satisfaction.links (satisfy_eq_some hfound')
    have hpointer := congrArg Satisfaction.needsPointer (satisfy_eq_some hfound)
    have hpointer' := congrArg Satisfaction.needsPointer (satisfy_eq_some hfound')
    dsimp only at hlinks hlinks' hpointer hpointer'
    rw [hlinks, hlinks', hpointer, hpointer', hlinked]
    exact ⟨Satisfaction.ofPairs_filter _ fun name ↦ decide (name ∈ ns.map (·.name)),
      Satisfaction.needsPointer_ofPairs_filter _⟩

def streams : Program where
  interfaces :=
    [⟨some "Source", ["T"], [⟨"Next", [], [.simple "T"], false⟩], [], none, []⟩,
      ⟨some "Stream", [], [⟨"Close", [], [], false⟩], ["Source"], none, []⟩]
  types := [⟨"File", none⟩]
  methods :=
    [⟨"File", .value, ⟨"Next", [], [.simple "int"], false⟩, none⟩,
      ⟨"File", .pointer, ⟨"Close", [], [], false⟩, none⟩]

/-- The file is a source because it is a stream. -/
theorem edges_along_embeddings_streams : streams.problems = [] ∧
    ∃ es, streams.edges .union = .ok es ∧
      ⟨1, 0, true, [⟨"Close", 1⟩, ⟨"Next", 0⟩]⟩ ∈ es.edges ∧
      ∃ e ∈ es.edges, e.interface = 0 ∧ e.type = 0 ∧ e.links = [⟨"Next", 0⟩] := by
  have hproblems : streams.problems = [] := by decide
  obtain ⟨es, hes, hedges⟩ := edges_along_embeddings hproblems .union
  have hstream : (⟨1, 0, true, [⟨"Close", 1⟩, ⟨"Next", 0⟩]⟩ : Edge) ∈ es.edges :=
    (mem_edges_iff hes).2 ⟨_, _, rfl, rfl, by decide +kernel⟩
  have hembeds : streams.NamesEmbedded 1 0 :=
    ⟨_, _, "Source", rfl, rfl, rfl, List.mem_singleton_self _⟩
  obtain ⟨required, hrequired, ⟨e, he, hi, ht⟩, hlinks⟩ :=
    hedges 1 0 (.single hembeds) _ hstream rfl
  have hset : streams.requiredSets[0]? =
      some (some [⟨"Next", [], [.param "T" "Source"], false⟩]) := rfl
  obtain rfl := Option.some.inj (Option.some.inj (hrequired.symm.trans hset))
  exact ⟨hproblems, es, hes, hstream, e, he, hi, ht, (hlinks e he hi ht).1⟩

end Program

end Conformance

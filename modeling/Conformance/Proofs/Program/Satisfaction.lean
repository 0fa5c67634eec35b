import Conformance.Proofs.Grammar.RoundTrip
import Conformance.Proofs.Matching
import Conformance.Proofs.Program.Edges

namespace Conformance

theorem nestingLimit_le_comparisonLimit : nestingLimit ≤ comparisonLimit := by decide

theorem Descriptor.Regular.plain {d : Descriptor} (hd : d.Regular)
    (h : ∀ ms es, .interface ms es ∈ d.parts → es = [] ∧ (ms.map (·.name)).Nodup) : d.Plain := by
  intro x hx
  cases x with
  | interface ms es =>
    obtain ⟨rfl, hnodup⟩ := h ms es hx
    have hordered : ms.Pairwise (·.name ≤ ·.name) := hd.ordered _ hx
    refine ⟨rfl, (hordered.and (List.pairwise_map.1 hnodup)).imp fun ⟨hle, hne⟩ ↦ ?_⟩
    exact Std.lt_of_le_of_ne hle hne
  | _ => trivial

namespace Program

variable {p : Program}

theorem readable_of_parsed (parsed : ∀ s ∈ p.signatures, ∃ text, Signature.parse text = .ok s)
    (inline : ∀ s ∈ p.signatures, ∀ ms es, .interface ms es ∈ s.parts →
      es = [] ∧ (ms.map (·.name)).Nodup) {s : Signature} (hs : s ∈ p.signatures) :
    ∀ d ∈ s.types, d.depth ≤ nestingLimit ∧ d.Plain := by
  intro d hd
  obtain ⟨text, htext⟩ := parsed s hs
  have hreadable := (Signature.readableIn_of_parse htext).2 d hd
  refine ⟨hreadable.depth, hreadable.regular.plain fun ms es hx ↦ ?_⟩
  exact inline s hs ms es (Signature.mem_parts.2 ⟨d, hd, hx⟩)

section

variable {t : TypeId} {T : TypeDecl} {cs : List Candidate} (hvalid : p.Valid)
  (parsed : ∀ s ∈ p.signatures, ∃ text, Signature.parse text = .ok s)
  (inline : ∀ s ∈ p.signatures, ∀ ms es, .interface ms es ∈ s.parts →
    es = [] ∧ (ms.map (·.name)).Nodup)
  (hT : p.types[t]? = some T) (hcs : p.candidates[t]? = some cs)

include hvalid parsed inline hT hcs

theorem mem_candidates_of_parsed {c : Candidate} : c ∈ cs ↔ ∃ id m, p.methods[id]? = some m ∧
    m.receiver = T.name ∧ c = ⟨id, m.signature, m.form⟩ := by
  have hresolve {m : MethodDecl} (hm : m ∈ p.methods) : m.resolve = m.signature := by
    apply Signature.markParams_eq_self
    intro d hd
    have hreadable := readable_of_parsed parsed inline (mem_signatures_of_method hm) d hd
    exact hreadable.2.ordered.markParams_nil
  rw [mem_candidates hvalid hT hcs]
  refine exists₂_congr fun id m ↦ and_congr_right fun hm ↦ ?_
  rw [hresolve (List.mem_of_getElem? hm)]

theorem exists_candidate_iff {σ : Substitution} {policy : ReceiverPolicy} {s : Signature} :
    (∃ c ∈ cs, policy.admits c.form ∧ s.subst σ = c.signature) ↔ ∃ m ∈ p.methods,
      m.receiver = T.name ∧ policy.admits m.form ∧ m.signature = s.subst σ := by
  have hcandidate {c : Candidate} := mem_candidates_of_parsed hvalid parsed inline hT hcs (c := c)
  constructor
  · intro h
    obtain ⟨c, hc, hadmits, he⟩ := h
    obtain ⟨id, m, hm, hr, rfl⟩ := hcandidate.1 hc
    exact ⟨m, List.mem_of_getElem? hm, hr, hadmits, he.symm⟩
  · intro h
    obtain ⟨m, hm, hr, hadmits, he⟩ := h
    obtain ⟨id, hid⟩ := List.mem_iff_getElem?.1 hm
    exact ⟨_, hcandidate.2 ⟨id, m, hid, hr, rfl⟩, hadmits, he.symm⟩

/-- The limit on levels leaves room for all types of the program. -/
theorem compares_of_parsed {i : InterfaceId} {required : List Signature}
    (hset : IsRequiredSet p.resolvedInterfaces i required) :
    ∀ s ∈ required, ∀ c ∈ cs, ∀ r ∈ s.types, ∀ a ∈ c.signature.types,
      Compares (unify p.shapes comparisonLimit) (fun r a σ ↦ r.subst σ = a) r a := by
  intro s hs c hc r hr a ha
  obtain ⟨d, hd, s', hs', rfl⟩ := mem_requiredSet hset hs
  rw [Signature.markParams_types] at hr
  obtain ⟨r', hr', rfl⟩ := List.mem_map.1 hr
  obtain ⟨hdepth, hplain⟩ :=
    readable_of_parsed parsed inline (mem_signatures_of_interface hd hs') r' hr'
  obtain ⟨id, m, hm, -, rfl⟩ := (mem_candidates_of_parsed hvalid parsed inline hT hcs).1 hc
  have hactual := readable_of_parsed parsed inline
    (mem_signatures_of_method (List.mem_of_getElem? hm)) a ha
  exact unify_compares (Descriptor.depth_markParams_le
    (hdepth.trans nestingLimit_le_comparisonLimit)) hplain.markParams hactual.2

end

/-- A type implements an interface if and only if one substitution turns every required method into
a method of the type. -/
theorem edge_iff_exists_substitution {policy : ReceiverPolicy} {es : EdgeSet}
    (h : p.edges policy = .ok es)
    (parsed : ∀ s ∈ p.signatures, ∃ text, Signature.parse text = .ok s)
    (inline : ∀ s ∈ p.signatures, ∀ ms embeds, .interface ms embeds ∈ s.parts →
      embeds = [] ∧ (ms.map (·.name)).Nodup)
    (i : InterfaceId) (hi : i < p.interfaces.length) (t : TypeId) (T : TypeDecl)
    (hT : p.types[t]? = some T) :
    ∃ required, p.requiredSets[i]? = some (some required) ∧
      ((∃ e ∈ es.edges, e.interface = i ∧ e.type = t) ↔
        ∃ σ : Substitution, ∀ s ∈ required, ∃ m ∈ p.methods,
          m.receiver = T.name ∧ policy.admits m.form ∧ m.signature = s.subst σ) ∧
      ((∀ s ∈ required, s.mentionsParam = false) →
        ((∃ e ∈ es.edges, e.interface = i ∧ e.type = t) ↔
          ∀ s ∈ required, ∃ m ∈ p.methods,
            m.receiver = T.name ∧ policy.admits m.form ∧ m.signature = s)) ∧
      (required = [] → ∃ e ∈ es.edges, e.interface = i ∧ e.type = t) := by
  have hvalid : p.Valid := problems_eq_nil_iff.1 (edges_eq_ok_iff.1 h).1
  obtain ⟨required, hrequired, hset⟩ := hvalid.exists_requiredSet hi
  obtain ⟨cs, hcs⟩ : ∃ cs, p.candidates[t]? = some cs := ⟨_, getElem?_candidates hT⟩
  have hedge : (∃ e ∈ es.edges, e.interface = i ∧ e.type = t) ↔
      ∃ σ : Substitution, ∀ s ∈ required, ∃ m ∈ p.methods,
        m.receiver = T.name ∧ policy.admits m.form ∧ m.signature = s.subst σ := by
    have hsatisfy := satisfy_isSome_iff policy
      (compares_of_parsed hvalid parsed inline hT hcs hset) (candidates_distinct hvalid hT hcs) []
    simp only [Bindings.agrees_nil, true_and, Signature.matches_subst_iff,
      exists_candidate_iff hvalid parsed inline hT hcs] at hsatisfy
    rw [exists_edge_iff h, ← hsatisfy, hrequired, hcs]
    simp
  refine ⟨required, hrequired, hedge, fun hparams ↦ ?_, fun hnil ↦ ?_⟩
  · rw [hedge]
    have hself (σ : Substitution) {s : Signature} (hs : s ∈ required) : s.subst σ = s :=
      Signature.subst_of_not_mentionsParam (hparams s hs)
    constructor
    · rintro ⟨σ, hσ⟩ s hs
      have hm := hσ s hs
      rwa [hself σ hs] at hm
    · intro hall
      refine ⟨fun _ ↦ .emptyInterface, fun s hs ↦ ?_⟩
      rw [hself _ hs]
      exact hall s hs
  · rw [hedge, hnil]
    exact ⟨fun _ ↦ .emptyInterface, List.forall_mem_nil _⟩

def boxes : Program where
  interfaces := [⟨some "Box", ["T"], [⟨"Put", [.simple "T"], [], false⟩], [], none, []⟩]
  types := [⟨"IntBox", none⟩]
  methods := [⟨"IntBox", .pointer, ⟨"Put", [.simple "int"], [], false⟩, none⟩]

theorem edge_boxes : boxes.edges .union = .ok (boxes.edgeSet .union) ∧
    ∃ e ∈ (boxes.edgeSet .union).edges, e.interface = 0 ∧ e.type = 0 := by
  have hedges : boxes.edges .union = .ok (boxes.edgeSet .union) :=
    edges_eq_edgeSet .union (by decide)
  have hput : Token.IsIdentifier "Put" := by decide
  have hparam : Token.IsIdentifier "T" := by decide
  have hint : Token.IsIdentifier "int" := by decide
  have hparsed : ∀ s ∈ boxes.signatures, ∃ text, Signature.parse text = .ok s := by
    refine List.forall_mem_cons.2 ⟨?_, List.forall_mem_singleton.2 ?_⟩
    · exact Signature.exists_text_of_simple hput hparam rfl
    · exact Signature.exists_text_of_simple hput hint rfl
  have hinline : ∀ s ∈ boxes.signatures, ∀ ms embeds, .interface ms embeds ∈ s.parts →
      embeds = [] ∧ (ms.map (·.name)).Nodup := by
    refine List.forall_mem_cons.2 ⟨?_, List.forall_mem_singleton.2 ?_⟩ <;>
      simp [Signature.parts, allParts, Descriptor.parts]
  obtain ⟨required, hrequired, hedge, -⟩ := edge_iff_exists_substitution hedges hparsed hinline 0
    (by decide) 0 ⟨"IntBox", none⟩ rfl
  have hset : boxes.requiredSets[0]? = some (some [⟨"Put", [.param "T" "Box"], [], false⟩]) := rfl
  obtain rfl := Option.some.inj (Option.some.inj (hrequired.symm.trans hset))
  refine ⟨hedges, hedge.2 ⟨fun _ ↦ .simple "int", List.forall_mem_singleton.2 ?_⟩⟩
  exact ⟨_, List.mem_singleton_self _, rfl, rfl, rfl⟩

end Program

end Conformance

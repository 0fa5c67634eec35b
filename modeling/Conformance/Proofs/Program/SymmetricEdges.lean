import Conformance.Proofs.Program.Edges
import Conformance.Proofs.Symmetry

/-!
Edges with required and actual method exchanged. Signatures that mention no type parameter are
compared symmetrically as long as no inline interface reaches a generic one: what it inherits from
there keeps its type parameters, and these stand for any type on the required side only.
-/

namespace Conformance

open Relation

namespace Program

variable {p : Program} {policy : ReceiverPolicy} {es : EdgeSet} {i : InterfaceId} {t : TypeId}

/-- Interfaces without type parameters reach no interface with type parameters. -/
def KeepsParamsApart (p : Program) : Prop :=
  ∀ i j d e, ReflTransGen p.NamesEmbedded i j → p.interfaces[i]? = some d →
    p.interfaces[j]? = some e → d.typeParams = [] → e.typeParams = []

theorem KeepsParamsApart.paramFree (hapart : p.KeepsParamsApart) (hp : p.Valid)
    (hground : ∀ s ∈ p.signatures, s.mentionsParam = false) : ParamFree p.shapes := by
  intro name ms hms s hs
  obtain ⟨i, d, hd, -, hparams, hset⟩ := mem_shapes.1 ((lookup_shapes_iff hp).1 hms)
  obtain ⟨j, hij, hj⟩ := (hp.mem_required_iff hset).1 hs
  obtain ⟨e, he, u, hu, rfl⟩ := declares_iff.1 hj
  rw [InterfaceDecl.resolveMethod, hapart i j d e hij hd he hparams]
  apply Signature.mentionsParam_markParams_nil
  exact hground u (mem_signatures_of_interface (List.mem_of_getElem? he) hu)

structure OneMethod (p : Program) (s : Signature) (i : InterfaceId) (t : TypeId)
    (form : ReceiverForm) : Prop where
  required : p.requiredSets[i]? = some (some [s])
  candidates : ∃ id, p.candidates[t]? = some [⟨id, s, form⟩]

theorem OneMethod.exists_edge_iff {s₁ s₂ : Signature} {i₁ i₂ : InterfaceId} {t₁ t₂ : TypeId}
    {f₁ f₂ : ReceiverForm} (h₁ : p.OneMethod s₁ i₁ t₁ f₁) (h₂ : p.OneMethod s₂ i₂ t₂ f₂)
    (hes : p.edges policy = .ok es) :
    (∃ e ∈ es.edges, e.interface = i₁ ∧ e.type = t₂) ↔ policy.admits f₂ ∧
      s₁.Matches (Fits p.shapes comparisonLimit) s₂ ∧
      ∀ k x y, s₁.Encounters p.shapes s₂ k x → s₁.Encounters p.shapes s₂ k y → x = y := by
  obtain ⟨id, hcs⟩ := h₂.candidates
  rw [Program.exists_edge_iff hes, ← satisfy_one_isSome_iff policy (c := ⟨id, s₂, f₂⟩)]
  simp [h₁.required, hcs]

/-- If `s₂` is as required where `s₁` is required, then `s₁` is as required where `s₂` is required
just in case the type parameters met are in one-to-one correspondence. If interfaces without type
parameters reach none with type parameters, this is always so. -/
theorem edge_exchanged_iff (hes : p.edges policy = .ok es) {s₁ s₂ : Signature}
    {i₁ i₂ : InterfaceId} {t₁ t₂ : TypeId} {f₁ f₂ : ReceiverForm} (h₁ : p.OneMethod s₁ i₁ t₁ f₁)
    (h₂ : p.OneMethod s₂ i₂ t₂ f₂) (hadmits : policy.admits f₁)
    (hedge : ∃ e ∈ es.edges, e.interface = i₁ ∧ e.type = t₂) :
    ((∃ e ∈ es.edges, e.interface = i₂ ∧ e.type = t₁) ↔ s₁.Exchanges p.shapes s₂) ∧
    (p.KeepsParamsApart → (∀ s ∈ p.signatures, s.mentionsParam = false) →
      s₁.mentionsParam = false → ∃ e ∈ es.edges, e.interface = i₂ ∧ e.type = t₁) := by
  obtain ⟨-, hmatches, -⟩ := (h₁.exists_edge_iff h₂ hes).1 hedge
  have hexchanged : (∃ e ∈ es.edges, e.interface = i₂ ∧ e.type = t₁) ↔
      s₁.Exchanges p.shapes s₂ := by
    rw [h₂.exists_edge_iff h₁ hes, hmatches.exchanges_iff, and_iff_right hadmits]
  refine ⟨hexchanged, fun hapart hground hs₁ ↦ hexchanged.2 ?_⟩
  have hp : p.Valid := problems_eq_nil_iff.1 (edges_eq_ok_iff.1 hes).1
  have hnone (k : String × String) (x : Descriptor) : ¬ s₁.Encounters p.shapes s₂ k x := by
    rintro ⟨y, hy, hx⟩
    have hr := Signature.mentionsParam_eq_false_iff.1 hs₁ y.1 (List.of_mem_zip hy).1
    exact not_encounters_of_not_mentionsParam (hapart.paramFree hp hground) hr hx
  exact ⟨fun k x hx ↦ absurd hx (hnone k x), fun k l x hx _ ↦ absurd hx (hnone k x)⟩

/-- Sinks, which are sources of this element type, with sinks as parameters in two spellings. -/
def sinks (typeParams : List String) (element : Descriptor) : Program where
  interfaces :=
    [⟨some "Source", typeParams, [⟨"Put", [element], [], false⟩], [], none, []⟩,
      ⟨some "Sink", [], [], ["Source"], none, []⟩,
      ⟨some "UsesNamed", [], [⟨"Use", [.interface [] [.simple "Sink"]], [], false⟩], [], none, []⟩,
      ⟨some "UsesSpelled", [],
        [⟨"Use", [.interface [⟨"Put", [.simple "int"], [], false⟩] []], [], false⟩], [], none, []⟩]
  types := [⟨"Named", none⟩, ⟨"Spelled", none⟩]
  methods :=
    [⟨"Named", .value, ⟨"Use", [.interface [] [.simple "Sink"]], [], false⟩, none⟩,
      ⟨"Spelled", .value,
        ⟨"Use", [.interface [⟨"Put", [.simple "int"], [], false⟩] []], [], false⟩, none⟩]

def named : Signature := ⟨"Use", [.interface [] [.simple "Sink"]], [], false⟩

def spelled : Signature :=
  ⟨"Use", [.interface [⟨"Put", [.simple "int"], [], false⟩] []], [], false⟩

theorem ground_named_spelled : named.mentionsParam = false ∧ spelled.mentionsParam = false := by
  decide

theorem problems_sinks : (sinks ["T"] (.simple "T")).problems = [] ∧
    (sinks [] (.simple "int")).problems = [] := by decide +kernel

theorem candidates_sinks (ps : List String) (d : Descriptor) :
    (sinks ps d).candidates = [[⟨0, named, .value⟩], [⟨1, spelled, .value⟩]] := by
  have hnamed : named.markParams "Named" [] = named := by
    refine Signature.markParams_eq_self (List.forall_mem_singleton.2 ?_)
    apply Descriptor.Ordered.markParams_nil
    simp [Descriptor.Ordered, Descriptor.parts, signaturesParts, allParts, Descriptor.OrderedLevel]
  have hspelled : spelled.markParams "Spelled" [] = spelled := by
    refine Signature.markParams_eq_self (List.forall_mem_singleton.2 ?_)
    apply Descriptor.Ordered.markParams_nil
    simp [Descriptor.Ordered, Descriptor.parts, signaturesParts, Signature.parts, allParts,
      Descriptor.OrderedLevel]
  have hcandidates : (sinks ps d).candidates = [[⟨0, named.markParams "Named" [], .value⟩],
      [⟨1, spelled.markParams "Spelled" [], .value⟩]] := rfl
  rw [hcandidates, hnamed, hspelled]

theorem requiredSets_sinks :
    (sinks ["T"] (.simple "T")).requiredSets.drop 2 = [some [named], some [spelled]] ∧
    (sinks [] (.simple "int")).requiredSets.drop 2 = [some [named], some [spelled]] := by
  decide +kernel

theorem oneMethod_sinks {ps : List String} {d : Descriptor}
    (h : (sinks ps d).requiredSets.drop 2 = [some [named], some [spelled]]) :
    (sinks ps d).OneMethod named 2 0 .value ∧ (sinks ps d).OneMethod spelled 3 1 .value := by
  have hrequired (k : ℕ) : (sinks ps d).requiredSets[2 + k]? =
      [some [named], some [spelled]][k]? := by
    rw [← h, List.getElem?_drop]
  refine ⟨⟨hrequired 0, 0, ?_⟩, hrequired 1, 1, ?_⟩
  · rw [candidates_sinks]
    rfl
  · rw [candidates_sinks]
    rfl

theorem edges_sinks_iff {ps : List String} {d : Descriptor}
    (h : (sinks ps d).requiredSets.drop 2 = [some [named], some [spelled]])
    (hes : (sinks ps d).edges policy = .ok es) :
    ((∃ e ∈ es.edges, e.interface = 2 ∧ e.type = 1) ↔
      (satisfy (sinks ps d).shapes policy [⟨1, spelled, .value⟩] [] [named]).isSome) ∧
    ((∃ e ∈ es.edges, e.interface = 3 ∧ e.type = 0) ↔
      (satisfy (sinks ps d).shapes policy [⟨0, named, .value⟩] [] [spelled]).isSome) := by
  obtain ⟨hnamed, hspelled⟩ := oneMethod_sinks h
  rw [exists_edge_iff hes, exists_edge_iff hes, hnamed.required, hspelled.required,
    candidates_sinks]
  simp

/-- The parameter that `Sink` inherits stands for `int` where `Sink` is required, and for nothing
where it is the actual type. -/
theorem edge_lost_by_exchange :
    (sinks ["T"] (.simple "T")).problems = [] ∧
    (sinks ["T"] (.simple "T")).OneMethod named 2 0 .value ∧
    (sinks ["T"] (.simple "T")).OneMethod spelled 3 1 .value ∧
    named.mentionsParam = false ∧ spelled.mentionsParam = false ∧
    ∃ es, (sinks ["T"] (.simple "T")).edges .union = .ok es ∧
      (∃ e ∈ es.edges, e.interface = 2 ∧ e.type = 1) ∧
      ¬ ∃ e ∈ es.edges, e.interface = 3 ∧ e.type = 0 := by
  obtain ⟨hnamed, hspelled⟩ := oneMethod_sinks requiredSets_sinks.1
  have hes := edges_eq_edgeSet .union problems_sinks.1
  obtain ⟨hedge, hexchanged⟩ := edges_sinks_iff requiredSets_sinks.1 hes
  refine ⟨problems_sinks.1, hnamed, hspelled, ground_named_spelled.1, ground_named_spelled.2, _,
    hes, hedge.2 (by decide +kernel), ?_⟩
  rw [hexchanged]
  decide +kernel

theorem edge_kept_by_exchange : (sinks [] (.simple "int")).problems = [] ∧
    ∃ es, (sinks [] (.simple "int")).edges .union = .ok es ∧
      (∃ e ∈ es.edges, e.interface = 2 ∧ e.type = 1) ∧
      ∃ e ∈ es.edges, e.interface = 3 ∧ e.type = 0 := by
  obtain ⟨hnamed, hspelled⟩ := oneMethod_sinks requiredSets_sinks.2
  have hes := edges_eq_edgeSet .union problems_sinks.2
  have hedge := (edges_sinks_iff requiredSets_sinks.2 hes).1.2 (by decide +kernel)
  have hground : ∀ s ∈ (sinks [] (.simple "int")).signatures, s.mentionsParam = false := by decide
  have hparams : ∀ d ∈ (sinks [] (.simple "int")).interfaces, d.typeParams = [] := by decide
  have hapart : (sinks [] (.simple "int")).KeepsParamsApart :=
    fun _ _ _ e _ _ he _ ↦ hparams e (List.mem_of_getElem? he)
  have hmain := edge_exchanged_iff hes hnamed hspelled rfl hedge
  exact ⟨problems_sinks.2, _, hes, hedge, hmain.2 hapart hground ground_named_spelled.1⟩

end Program

end Conformance

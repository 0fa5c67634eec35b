import Conformance.Proofs.Grammar.Regular
import Conformance.Proofs.Program.Edges
import Conformance.Proofs.Reordering.Comparison
import Conformance.Proofs.Reordering.Marking

namespace Conformance

open Relation

/-- The interface with embedded elements in another order in the types of its methods. Type
parameters belong to the display name, in which an inline interface shows its methods. -/
structure InterfaceDecl.ReorderedAs (shapes : Shapes) (d d' : InterfaceDecl) : Prop where
  name : d.name = d'.name
  typeParams : d.typeParams = d'.typeParams
  embeds : d.embeds = d'.embeds
  owner : d.typeParams = [] ∨ d.displayName = d'.displayName
  methods : List.Forall₂ (Signature.Matches
    (Reordered shapes (Descriptor.markParams d.displayName d.typeParams))) d.methods d'.methods

theorem InterfaceDecl.reorderedAs_refl (shapes : Shapes) (d : InterfaceDecl) :
    d.ReorderedAs shapes d where
  name := rfl
  typeParams := rfl
  embeds := rfl
  owner := .inr rfl
  methods := forall₂_matches_refl (fun _ ↦ .refl) d.methods

structure MethodDecl.ReorderedAs (shapes : Shapes) (m m' : MethodDecl) : Prop where
  receiver : m.receiver = m'.receiver
  form : m.form = m'.form
  signature : m.signature.Matches (Reordered shapes (Descriptor.markParams m.receiver []))
    m'.signature

namespace Program

/-- The program with embedded elements in another order in the types of its signatures. -/
structure ReorderedAs (p p' : Program) : Prop where
  interfaces : List.Forall₂ (InterfaceDecl.ReorderedAs p.shapes) p.interfaces p'.interfaces
  types : p.types = p'.types
  methods : List.Forall₂ (MethodDecl.ReorderedAs p.shapes) p.methods p'.methods
  externals : p.externals = p'.externals

/-- Methods of one name are equal if an interface requires both of them. -/
def MethodsAgree (p : Program) : Prop :=
  ∀ i j k d e, ReflTransGen p.NamesEmbedded i j → ReflTransGen p.NamesEmbedded i k →
    p.interfaces[j]? = some d → p.interfaces[k]? = some e → ∀ s ∈ d.methods, ∀ t ∈ e.methods,
      s.name = t.name → d.resolveMethod s = e.resolveMethod t

def Ordered (p : Program) : Prop := ∀ s ∈ p.signatures, ∀ d ∈ s.types, d.Ordered

theorem ordered_of_parsed {p : Program}
    (parsed : ∀ s ∈ p.signatures, ∃ text, Signature.parse text = .ok s) : p.Ordered := by
  intro s hs d hd
  obtain ⟨text, htext⟩ := parsed s hs
  exact ((Signature.readableIn_of_parse htext).2 d hd).regular.ordered

end Program

theorem Descriptor.HasName.of_outline {params : List String} {name : String} {d d' : Descriptor}
    (houtline : d.outline = d'.outline) (h : d.HasName params name) : d'.HasName params name := by
  obtain ⟨args, rfl, hargs⟩ := h
  cases d' with
  | named name' args' =>
    obtain ⟨rfl, hlength⟩ := named.inj houtline
    refine ⟨args', rfl, fun hparam ↦ hargs ⟨?_, hparam.2⟩⟩
    rw [hparam.1, List.map_nil, List.map_eq_nil_iff] at hlength
    exact hlength
  | _ => cases houtline

theorem Descriptor.mem_occurring_iff {params : List String} {name : String} {d : Descriptor} :
    name ∈ d.occurring params ↔
      d.HasName params name ∨ ∃ c ∈ d.children, name ∈ c.occurring params := by
  simp only [Descriptor.mem_occurring]
  constructor
  · intro h
    obtain ⟨x, hx, hname⟩ := h
    rcases Descriptor.mem_parts.1 hx with rfl | ⟨c, hc, hxc⟩
    · exact .inl hname
    · exact .inr ⟨c, hc, x, hxc, hname⟩
  · intro h
    rcases h with h | ⟨c, hc, x, hx, hname⟩
    · exact ⟨d, d.self_mem_parts, h⟩
    · exact ⟨x, Descriptor.mem_parts.2 (.inr ⟨c, hc, hx⟩), hname⟩

theorem Descriptor.Reorders.occurring {shapes : Shapes} {view : Descriptor → Descriptor}
    {d d' : Descriptor} (hd : d.Reorders shapes view d') {params : List String} {name : String} :
    name ∈ d.occurring params ↔ name ∈ d'.occurring params := by
  induction hd with
  | @elements ms es es' perm _ _ =>
    have hname {fs : List Descriptor} : ¬ (interface ms fs).HasName params name := by
      simp [Descriptor.HasName]
    rw [Descriptor.mem_occurring_iff, Descriptor.mem_occurring_iff, or_iff_right hname,
      or_iff_right hname]
    refine exists_congr fun c ↦ and_congr_left fun _ ↦ ?_
    exact (perm.append_left (ms.flatMap Signature.types)).mem_iff
  | @inside d d' c c' xs ys outline children children' _ _ ih =>
    have hname : d.HasName params name ↔ d'.HasName params name :=
      ⟨.of_outline outline, .of_outline outline.symm⟩
    rw [Descriptor.mem_occurring_iff, Descriptor.mem_occurring_iff, hname, children, children']
    simp only [List.mem_append, List.mem_cons, or_and_right, exists_or, exists_eq_left, ih]

theorem Signature.Matches.occurring {shapes : Shapes} {view : Descriptor → Descriptor}
    {s s' : Signature} (h : s.Matches (Reordered shapes view) s') {params : List String}
    {name : String} : name ∈ s.occurring params ↔ name ∈ s'.occurring params := by
  have htypes := h.types
  rw [Signature.occurring_eq_flatMap, Signature.occurring_eq_flatMap]
  generalize s.types = ds, s'.types = ds' at htypes
  induction htypes with
  | nil => rfl
  | cons hd _ ih =>
    rw [List.flatMap_cons, List.flatMap_cons, List.mem_append, List.mem_append]
    refine or_congr ?_ ih
    cases hd with
    | refl => rfl
    | single hd => exact hd.occurring

theorem SortedByName.forall₂_matches {T : Descriptor → Descriptor → Prop} {ms ms' : List Signature}
    (hms : SortedByName ms) (hms' : SortedByName ms')
    (h : ∀ s ∈ ms, ∃ s' ∈ ms', s.Matches T s') (h' : ∀ s' ∈ ms', ∃ s ∈ ms, s.Matches T s') :
    List.Forall₂ (Signature.Matches T) ms ms' := by
  -- Both lists have the same names in the same order.
  have hnames : ms.map (·.name) = ms'.map (·.name) := by
    have : Std.Irrefl fun a b : String ↦ a < b := ⟨String.lt_irrefl⟩
    have : Std.Antisymm fun a b : String ↦ a < b :=
      ⟨fun _ _ hab hba ↦ absurd hba (String.lt_asymm hab)⟩
    apply List.Pairwise.eq_of_mem_iff (List.pairwise_map.2 hms) (List.pairwise_map.2 hms')
    intro name
    rw [List.mem_map, List.mem_map]
    constructor
    · intro hname
      obtain ⟨s, hs, rfl⟩ := hname
      obtain ⟨s', hs', hss'⟩ := h s hs
      exact ⟨s', hs', hss'.name.symm⟩
    · intro hname
      obtain ⟨s', hs', rfl⟩ := hname
      obtain ⟨s, hs, hss'⟩ := h' s' hs'
      exact ⟨s, hs, hss'.name⟩
  have hsame : List.Forall₂ (fun s s' ↦ s.name = s'.name) ms ms' := by
    rw [← List.forall₂_eq_eq_eq, List.forall₂_map_left_iff, List.forall₂_map_right_iff] at hnames
    exact hnames
  rw [List.forall₂_iff_zip] at hsame ⊢
  refine ⟨hsame.1, fun {s s'} hmem ↦ ?_⟩
  obtain ⟨hs, hs'⟩ := List.of_mem_zip hmem
  obtain ⟨t, ht, hst⟩ := h s hs
  rw [← hms'.eq_of_name ht hs' (hst.name.symm.trans (hsame.2 hmem))]
  exact hst

namespace Program

variable {p p' : Program}

namespace ReorderedAs

theorem declaredNames (h : p.ReorderedAs p') : p.declaredNames = p'.declaredNames := by
  have hfilter (is : List InterfaceDecl) :
      is.filterMap (·.name) = (is.map (·.name)).filterMap id := by
    rw [List.filterMap_map]
    rfl
  have hnames : p.interfaces.map (·.name) = p'.interfaces.map (·.name) :=
    map_eq_of_forall₂ h.interfaces fun _ _ hd ↦ hd.name
  rw [Program.declaredNames, Program.declaredNames, hfilter, hfilter, hnames, h.types]

theorem knows (h : p.ReorderedAs p') {name : String} : p.Knows name ↔ p'.Knows name := by
  rw [Knows, Knows, h.declaredNames, h.externals]

theorem exists_interface (h : p.ReorderedAs p') {i : InterfaceId} {d' : InterfaceDecl}
    (hd : p'.interfaces[i]? = some d') :
    ∃ d, p.interfaces[i]? = some d ∧ d.ReorderedAs p.shapes d' :=
  exists_getElem?_of_forall₂ (List.Forall₂.flip (R := flip (InterfaceDecl.ReorderedAs p.shapes))
    h.interfaces) hd

theorem namesEmbedded (h : p.ReorderedAs p') : p.NamesEmbedded = p'.NamesEmbedded := by
  funext i j
  apply propext
  constructor
  · intro hembeds
    obtain ⟨d, e, name, hd, he, hname, hmem⟩ := hembeds
    obtain ⟨d', hd', hdd'⟩ := exists_getElem?_of_forall₂ h.interfaces hd
    obtain ⟨e', he', hee'⟩ := exists_getElem?_of_forall₂ h.interfaces he
    exact ⟨d', e', name, hd', he', hee'.name ▸ hname, hdd'.embeds ▸ hmem⟩
  · intro hembeds
    obtain ⟨d', e', name, hd', he', hname, hmem⟩ := hembeds
    obtain ⟨d, hd, hdd'⟩ := h.exists_interface hd'
    obtain ⟨e, he, hee'⟩ := h.exists_interface he'
    exact ⟨d, e, name, hd, he, hee'.name ▸ hname, hdd'.embeds ▸ hmem⟩

/-- All of a program's validity but the agreement of methods is about names. -/
theorem valid (h : p.ReorderedAs p') (hp : p.Valid) (hagree : p'.MethodsAgree) : p'.Valid where
  declaredNames := h.declaredNames ▸ hp.declaredNames
  receivers := by
    intro m' hm'
    obtain ⟨m, hm, hmm'⟩ := exists_of_forall₂_right h.methods m' hm'
    rw [← h.types, ← hmm'.receiver]
    exact hp.receivers m hm
  methods := by
    have hkeys : p.methods.map (fun m ↦ (m.receiver, m.signature.name)) =
        p'.methods.map (fun m ↦ (m.receiver, m.signature.name)) :=
      map_eq_of_forall₂ h.methods fun m m' hm ↦ by rw [hm.receiver, hm.signature.name]
    have hapart : (p.methods.map fun m ↦ (m.receiver, m.signature.name)).Pairwise
        fun x y ↦ x.1 = y.1 → x.2 ≠ y.2 := List.pairwise_map.2 hp.methods
    rw [hkeys] at hapart
    exact List.pairwise_map.1 hapart
  interfaceTypes := by
    intro d' hd' s' hs'
    obtain ⟨d, hd, hdd'⟩ := exists_of_forall₂_right h.interfaces d' hd'
    obtain ⟨s, hs, hss'⟩ := exists_of_forall₂_right hdd'.methods s' hs'
    refine occurring_known_iff.1 fun name hname ↦ ?_
    rw [← hdd'.typeParams, ← hss'.occurring] at hname
    exact h.knows.1 (occurring_known_iff.2 (hp.interfaceTypes d hd s hs) name hname)
  methodTypes := by
    intro m' hm' name args hname
    obtain ⟨m, hm, hmm'⟩ := exists_of_forall₂_right h.methods m' hm'
    have hoccurs : name ∈ m'.signature.occurring [] :=
      Signature.mem_occurring.2 ⟨args, hname, by simp⟩
    rw [← hmm'.signature.occurring] at hoccurs
    obtain ⟨args', hargs', -⟩ := Signature.mem_occurring.1 hoccurs
    exact h.knows.1 (hp.methodTypes m hm name args' hargs')
  embeds := by
    intro d' hd' name hname
    obtain ⟨d, hd, hdd'⟩ := exists_of_forall₂_right h.interfaces d' hd'
    obtain ⟨e, he, hename⟩ := hp.embeds d hd name (hdd'.embeds ▸ hname)
    obtain ⟨e', he', hee'⟩ := exists_of_forall₂_left h.interfaces e he
    exact ⟨e', he', hee'.name ▸ hename⟩
  acyclic := h.namesEmbedded ▸ hp.acyclic
  declaredOnce := by
    intro d' hd'
    obtain ⟨d, hd, hdd'⟩ := exists_of_forall₂_right h.interfaces d' hd'
    rw [← map_eq_of_forall₂ hdd'.methods fun _ _ hs ↦ hs.name]
    exact hp.declaredOnce d hd
  agree := hagree

theorem problems_eq_nil_iff (h : p.ReorderedAs p') (hp : p.Valid) :
    p'.problems = [] ↔ p'.MethodsAgree := by
  rw [Program.problems_eq_nil_iff]
  exact ⟨fun hp' ↦ hp'.agree, h.valid hp⟩

theorem resolveMethod (hordered : p.Ordered) {d d' : InterfaceDecl}
    (hdd' : d.ReorderedAs p.shapes d') (hd : d ∈ p.interfaces) {s s' : Signature}
    (hs : s ∈ d.methods)
    (hss' : s.Matches (Reordered p.shapes (Descriptor.markParams d.displayName d.typeParams)) s') :
    (d.resolveMethod s).Matches (Reordered p.shapes id) (d'.resolveMethod s') := by
  have htypes : ∀ x ∈ s.types, x.Ordered :=
    hordered s (mem_signatures_of_interface hd hs)
  have htypes' : ∀ x' ∈ s'.types, x'.Ordered := by
    intro x' hx'
    obtain ⟨x, hx, hxx'⟩ := exists_of_forall₂_right hss'.types x' hx'
    exact hxx'.ordered (htypes x hx)
  have hresolve : d'.resolveMethod s' = s'.markParams d.displayName d.typeParams := by
    rw [InterfaceDecl.resolveMethod, ← hdd'.typeParams]
    rcases hdd'.owner with hnone | howner
    · have hself (owner : String) : s'.markParams owner [] = s' :=
        Signature.markParams_eq_self fun x hx ↦ (htypes' x hx).markParams_nil
      rw [hnone, hself, hself]
    · rw [howner]
  rw [hresolve]
  exact hss'.markParams htypes

theorem reaches (h : p.ReorderedAs p') (hp : p.Valid) (hp' : p'.Valid) :
    Reaches p.resolvedInterfaces = Reaches p'.resolvedInterfaces := by
  rw [Reaches, Reaches, embeds_eq hp.declaredNames, embeds_eq hp'.declaredNames, h.namesEmbedded]

theorem declares (h : p.ReorderedAs p') (hordered : p.Ordered) {i : InterfaceId} {s : Signature}
    (hs : Declares p.resolvedInterfaces i s) :
    ∃ s', Declares p'.resolvedInterfaces i s' ∧ s.Matches (Reordered p.shapes id) s' := by
  obtain ⟨d, hd, t, ht, rfl⟩ := declares_iff.1 hs
  obtain ⟨d', hd', hdd'⟩ := exists_getElem?_of_forall₂ h.interfaces hd
  obtain ⟨t', ht', htt'⟩ := exists_of_forall₂_left hdd'.methods t ht
  exact ⟨_, declares_iff.2 ⟨d', hd', t', ht', rfl⟩,
    resolveMethod hordered hdd' (List.mem_of_getElem? hd) ht htt'⟩

theorem declares' (h : p.ReorderedAs p') (hordered : p.Ordered) {i : InterfaceId} {s' : Signature}
    (hs' : Declares p'.resolvedInterfaces i s') :
    ∃ s, Declares p.resolvedInterfaces i s ∧ s.Matches (Reordered p.shapes id) s' := by
  obtain ⟨d', hd', t', ht', rfl⟩ := declares_iff.1 hs'
  obtain ⟨d, hd, hdd'⟩ := h.exists_interface hd'
  obtain ⟨t, ht, htt'⟩ := exists_of_forall₂_right hdd'.methods t' ht'
  exact ⟨_, declares_iff.2 ⟨d, hd, t, ht, rfl⟩,
    resolveMethod hordered hdd' (List.mem_of_getElem? hd) ht htt'⟩

theorem requiredSet (h : p.ReorderedAs p') (hp : p.Valid) (hp' : p'.Valid) (hordered : p.Ordered)
    {i : InterfaceId} {required required' : List Signature}
    (hr : IsRequiredSet p.resolvedInterfaces i required)
    (hr' : IsRequiredSet p'.resolvedInterfaces i required') :
    List.Forall₂ (Signature.Matches (Reordered p.shapes id)) required required' := by
  apply hr.sorted.forall₂_matches hr'.sorted
  · intro s hs
    obtain ⟨j, hij, hj⟩ := (hr.mem_iff s).1 hs
    obtain ⟨s', hs', hss'⟩ := h.declares hordered hj
    exact ⟨s', (hr'.mem_iff s').2 ⟨j, h.reaches hp hp' ▸ hij, hs'⟩, hss'⟩
  · intro s' hs'
    obtain ⟨j, hij, hj⟩ := (hr'.mem_iff s').1 hs'
    obtain ⟨s, hs, hss'⟩ := h.declares' hordered hj
    exact ⟨s, (hr.mem_iff s).2 ⟨j, h.reaches hp hp' ▸ hij, hs⟩, hss'⟩

theorem requiredSets (h : p.ReorderedAs p') (hp : p.Valid) (hp' : p'.Valid)
    (hordered : p.Ordered) :
    List.Forall₂ (Option.Rel (List.Forall₂ (Signature.Matches (Reordered p.shapes id))))
      p.requiredSets p'.requiredSets := by
  have hlength := h.interfaces.length_eq
  rw [← p.length_requiredSets, ← p'.length_requiredSets] at hlength
  refine List.forall₂_iff_get.2 ⟨hlength, fun i hi hi' ↦ ?_⟩
  obtain ⟨required, hget, hr⟩ := hp.exists_requiredSet (p.length_requiredSets ▸ hi)
  obtain ⟨required', hget', hr'⟩ := hp'.exists_requiredSet (p'.length_requiredSets ▸ hi')
  rw [List.get_eq_getElem, List.get_eq_getElem, (List.getElem?_eq_some_iff.1 hget).2,
    (List.getElem?_eq_some_iff.1 hget').2]
  exact .some (h.requiredSet hp hp' hordered hr hr')

theorem shapesMatch (h : p.ReorderedAs p') (hp : p.Valid) (hp' : p'.Valid) (hordered : p.Ordered) :
    ShapesMatch (Reordered p.shapes id) p.shapes p'.shapes := by
  intro name
  apply forall₂_lookup
  refine List.rel_filterMap ?_ (forall₂_zip_zip h.interfaces (h.requiredSets hp hp' hordered))
  intro x y hxy
  obtain ⟨d, required⟩ := x
  obtain ⟨d', required'⟩ := y
  obtain ⟨hdd', hrequired⟩ := hxy
  simp only at hdd' hrequired ⊢
  rw [← hdd'.typeParams, ← hdd'.name]
  split
  · cases d.name with
    | none => exact .none
    | some name =>
      cases hrequired with
      | none => exact .none
      | some hms => exact .some ⟨rfl, hms⟩
  · exact .none

theorem resolve (hordered : p.Ordered) {m m' : MethodDecl} (hmm' : m.ReorderedAs p.shapes m')
    (hm : m ∈ p.methods) : m.resolve.Matches (Reordered p.shapes id) m'.resolve := by
  rw [MethodDecl.resolve, MethodDecl.resolve, ← hmm'.receiver]
  exact hmm'.signature.markParams (hordered _ (mem_signatures_of_method hm))

theorem candidates (h : p.ReorderedAs p') (hp : p.Valid) (hp' : p'.Valid) (hordered : p.Ordered)
    {t : TypeId} {T : TypeDecl} (hT : p.types[t]? = some T) {cs cs' : List Candidate}
    (hcs : p.candidates[t]? = some cs) (hcs' : p'.candidates[t]? = some cs') :
    (∀ c ∈ cs, ∃ c' ∈ cs', c.Matches (Reordered p.shapes id) c') ∧
      ∀ c' ∈ cs', ∃ c ∈ cs, c.Matches (Reordered p.shapes id) c' := by
  have hT' : p'.types[t]? = some T := h.types ▸ hT
  constructor
  · intro c hc
    obtain ⟨id, m, hm, hr, rfl⟩ := (mem_candidates hp hT hcs).1 hc
    obtain ⟨m', hm', hmm'⟩ := exists_getElem?_of_forall₂ h.methods hm
    refine ⟨_, (mem_candidates hp' hT' hcs').2 ⟨id, m', hm', hmm'.receiver ▸ hr, rfl⟩, ?_⟩
    exact ⟨hmm'.form, resolve hordered hmm' (List.mem_of_getElem? hm)⟩
  · intro c' hc'
    obtain ⟨id, m', hm', hr, rfl⟩ := (mem_candidates hp' hT' hcs').1 hc'
    obtain ⟨m, hm, hmm'⟩ := exists_getElem?_of_forall₂
      (List.Forall₂.flip (R := flip (MethodDecl.ReorderedAs p.shapes)) h.methods) hm'
    refine ⟨_, (mem_candidates hp hT hcs).2 ⟨id, m, hm, hmm'.receiver.trans hr, rfl⟩, ?_⟩
    exact ⟨hmm'.form, resolve hordered hmm' (List.mem_of_getElem? hm)⟩

end ReorderedAs

end Program

end Conformance

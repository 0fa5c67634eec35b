import Conformance.Proofs.Program.Reordering

namespace Conformance

namespace Program

variable {p p' : Program} {policy : ReceiverPolicy} {i : InterfaceId} {t : TypeId}

def HoldsAt (p : Program) (Q : List Candidate → List Signature → Prop) (i : InterfaceId)
    (t : TypeId) : Prop :=
  ∃ required cs, p.requiredSets[i]? = some (some required) ∧ p.candidates[t]? = some cs ∧
    Q cs required

def MethodsFit (p : Program) (policy : ReceiverPolicy) : InterfaceId → TypeId → Prop :=
  p.HoldsAt (Conformance.MethodsFit (Fits p.shapes comparisonLimit) policy)

/-- The methods of the type would fit the required ones if types were compared without a limit. -/
def MethodsSuit (p : Program) (policy : ReceiverPolicy) : InterfaceId → TypeId → Prop :=
  p.HoldsAt (Conformance.MethodsFit (Suits p.shapes) policy)

theorem MethodsFit.suit (h : p.MethodsFit policy i t) : p.MethodsSuit policy i t := by
  obtain ⟨required, cs, hr, hcs, hfit⟩ := h
  refine ⟨required, cs, hr, hcs, fun s hs ↦ ?_⟩
  obtain ⟨c, hc, hadmits, hm⟩ := hfit s hs
  exact ⟨c, hc, hadmits, hm.form, hm.types.imp fun _ _ hfits ↦ ⟨comparisonLimit, hfits⟩⟩

def ParamsAgree (p : Program) : InterfaceId → TypeId → Prop :=
  p.HoldsAt (Conformance.ParamsAgree p.shapes)

theorem exists_edge_iff_fit {es : EdgeSet} (h : p.edges policy = .ok es) :
    (∃ e ∈ es.edges, e.interface = i ∧ e.type = t) ↔
      p.MethodsFit policy i t ∧ p.ParamsAgree i t := by
  have hp : p.Valid := problems_eq_nil_iff.1 (edges_eq_ok_iff.1 h).1
  have hsatisfy {cs : List Candidate} (hcs : p.candidates[t]? = some cs)
      (required : List Signature) : (satisfy p.shapes policy cs [] required).isSome ↔
        Conformance.MethodsFit (Fits p.shapes comparisonLimit) policy cs required ∧
          Conformance.ParamsAgree p.shapes cs required := by
    obtain ⟨T, hT⟩ := exists_type_of_candidates hcs
    exact satisfy_isSome_iff_fit policy (candidates_distinct hp hT hcs)
  rw [exists_edge_iff h]
  constructor
  · intro hedge
    obtain ⟨required, cs, hr, hcs, hsat⟩ := hedge
    obtain ⟨hfit, hagree⟩ := (hsatisfy hcs required).1 hsat
    exact ⟨⟨required, cs, hr, hcs, hfit⟩, required, cs, hr, hcs, hagree⟩
  · intro hedge
    obtain ⟨⟨required, cs, hr, hcs, hfit⟩, required', cs', hr', hcs', hagree⟩ := hedge
    obtain rfl := Option.some.inj (Option.some.inj (hr.symm.trans hr'))
    obtain rfl := Option.some.inj (hcs.symm.trans hcs')
    exact ⟨required, cs, hr, hcs, (hsatisfy hcs required).2 ⟨hfit, hagree⟩⟩

theorem exists_candidates (h : p.ReorderedAs p') {cs : List Candidate}
    (hcs : p.candidates[t]? = some cs) :
    ∃ T cs', p.types[t]? = some T ∧ p'.candidates[t]? = some cs' := by
  obtain ⟨T, hT⟩ := exists_type_of_candidates hcs
  exact ⟨T, _, hT, getElem?_candidates (h.types ▸ hT)⟩

theorem paramsAgree_of_ground (hfree : ParamFree p.shapes)
    (h : p.HoldsAt (fun _ ss ↦ ∀ s ∈ ss, s.mentionsParam = false) i t) : p.ParamsAgree i t := by
  obtain ⟨required, cs, hr, hcs, hground⟩ := h
  exact ⟨required, cs, hr, hcs, paramsAgree_of_not_mentionsParam hfree hground⟩

namespace ReorderedAs

variable (h : p.ReorderedAs p') (hp : p.Valid) (hp' : p'.Valid) (hordered : p.Ordered)

include h hp hp' hordered

theorem holdsAt_iff {Q Q' : List Candidate → List Signature → Prop}
    (hQ : ∀ required required' cs cs',
      List.Forall₂ (Signature.Matches (Reordered p.shapes id)) required required' →
      (∀ c ∈ cs, ∃ c' ∈ cs', c.Matches (Reordered p.shapes id) c') →
      (∀ c' ∈ cs', ∃ c ∈ cs, c.Matches (Reordered p.shapes id) c') →
      (Q cs required ↔ Q' cs' required')) : p.HoldsAt Q i t ↔ p'.HoldsAt Q' i t := by
  have hsets := h.requiredSets hp hp' hordered
  constructor
  · intro hholds
    obtain ⟨required, cs, hr, hcs, hq⟩ := hholds
    obtain ⟨o, hr', hrel⟩ := exists_getElem?_of_forall₂ hsets hr
    obtain ⟨T, cs', hT, hcs'⟩ := exists_candidates h hcs
    obtain ⟨hleft, hright⟩ := h.candidates hp hp' hordered hT hcs hcs'
    cases hrel with
    | some hrequired =>
      exact ⟨_, cs', hr', hcs', (hQ _ _ cs cs' hrequired hleft hright).1 hq⟩
  · intro hholds
    obtain ⟨required', cs', hr', hcs', hq⟩ := hholds
    obtain ⟨o, hr, hrel⟩ := exists_getElem?_of_forall₂ (List.Forall₂.flip
      (R := flip (Option.Rel (List.Forall₂ (Signature.Matches (Reordered p.shapes id))))) hsets) hr'
    obtain ⟨T, hT'⟩ := exists_type_of_candidates hcs'
    have hT : p.types[t]? = some T := h.types ▸ hT'
    have hcs := getElem?_candidates hT
    obtain ⟨hleft, hright⟩ := h.candidates hp hp' hordered hT hcs hcs'
    cases hrel with
    | some hrequired =>
      exact ⟨_, _, hr, hcs, (hQ _ _ _ cs' hrequired hleft hright).2 hq⟩

theorem methodsSuit_iff (hself : SelfFitting p.shapes) :
    p.MethodsSuit policy i t ↔ p'.MethodsSuit policy i t := by
  have hshapes := h.shapesMatch hp hp' hordered
  refine h.holdsAt_iff hp hp' hordered fun required required' cs cs' hrequired hleft hright ↦ ?_
  constructor
  · refine Conformance.MethodsFit.transport (R := Reordered p.shapes id) ?_ hleft
      (exists_of_forall₂_right hrequired)
    exact fun r r' a a' hr ha ↦ (suits_iff_of_reordered hshapes hself hr ha).1
  · refine Conformance.MethodsFit.transport (R := flip (Reordered p.shapes id)) ?_ ?_ ?_
    · exact fun r' r a' a hr ha ↦ (suits_iff_of_reordered hshapes hself hr ha).2
    · intro c' hc'
      obtain ⟨c, hc, hcc'⟩ := hright c' hc'
      exact ⟨c, hc, hcc'.form.symm, hcc'.signature.flip⟩
    · intro s hs
      obtain ⟨s', hs', hss'⟩ := exists_of_forall₂_left hrequired s hs
      exact ⟨s', hs', hss'.flip⟩

theorem methodsFit_iff (hself : SelfFitting p.shapes)
    (hlimit : p.MethodsSuit policy i t → p.MethodsFit policy i t)
    (hlimit' : p'.MethodsSuit policy i t → p'.MethodsFit policy i t) :
    p.MethodsFit policy i t ↔ p'.MethodsFit policy i t := by
  have hsuit : p.MethodsSuit policy i t ↔ p'.MethodsSuit policy i t :=
    h.methodsSuit_iff hp hp' hordered hself
  constructor
  · intro hfit
    exact hlimit' (hsuit.1 hfit.suit)
  · intro hfit
    exact hlimit (hsuit.2 hfit.suit)

theorem ground_iff : p.HoldsAt (fun _ ss ↦ ∀ s ∈ ss, s.mentionsParam = false) i t ↔
    p'.HoldsAt (fun _ ss ↦ ∀ s ∈ ss, s.mentionsParam = false) i t := by
  apply h.holdsAt_iff hp hp' hordered
  intro ss ss' _ _ hss _ _
  constructor
  · intro hall s' hs'
    obtain ⟨s, hs, hss'⟩ := exists_of_forall₂_right hss s' hs'
    exact hss'.mentionsParam_eq.symm.trans (hall s hs)
  · intro hall s hs
    obtain ⟨s', hs', hss'⟩ := exists_of_forall₂_left hss s hs
    exact hss'.mentionsParam_eq.trans (hall s' hs')

end ReorderedAs

def pairs (first second : Descriptor) : Program where
  interfaces :=
    [⟨some "R", [], [⟨"Read", [], [], false⟩], [], none, []⟩,
      ⟨some "W", [], [⟨"Write", [], [], false⟩], [], none, []⟩,
      ⟨some "Swapper", ["T"], [⟨"Swap", [.simple "T", .simple "T"], [], false⟩], [], none, []⟩]
  types := [⟨"Pair", none⟩]
  methods := [⟨"Pair", .value, ⟨"Swap", [first, second], [], false⟩, none⟩]

def readerWriter : Descriptor := .interface [] [.simple "R", .simple "W"]

def writerReader : Descriptor := .interface [] [.simple "W", .simple "R"]

theorem ordered_readerWriter : readerWriter.Ordered := by
  simp [Descriptor.Ordered, readerWriter, Descriptor.parts, signaturesParts, allParts,
    Descriptor.OrderedLevel]

theorem ordered_writerReader : writerReader.Ordered := by
  simp [Descriptor.Ordered, writerReader, Descriptor.parts, signaturesParts, allParts,
    Descriptor.OrderedLevel]

section

variable {first second : Descriptor}

theorem ordered_pairs (hfirst : first.Ordered) (hsecond : second.Ordered) :
    (pairs first second).Ordered := by
  have hparam : (Descriptor.simple "T").Ordered := by
    simp [Descriptor.Ordered, Descriptor.parts, allParts, Descriptor.OrderedLevel]
  simp [Program.Ordered, signatures, pairs, Signature.types, hparam, hfirst, hsecond]

theorem shapes_pairs : (pairs first second).shapes =
    [("R", [⟨"Read", [], [], false⟩]), ("W", [⟨"Write", [], [], false⟩])] := rfl

theorem selfFitting_pairs : SelfFitting (pairs first second).shapes := by
  apply selfFitting_of_paramFree
  intro name ms hname s hs
  obtain ⟨l, r, he, -⟩ := List.lookup_eq_some_iff.1 hname
  have hmem : (name, ms) ∈ (pairs first second).shapes := by
    rw [he]
    exact List.mem_append_right l List.mem_cons_self
  rw [shapes_pairs, List.mem_cons, List.mem_singleton] at hmem
  rcases hmem with hmem | hmem
  · rw [(Prod.mk.inj hmem).2, List.mem_singleton] at hs
    rw [hs]
    rfl
  · rw [(Prod.mk.inj hmem).2, List.mem_singleton] at hs
    rw [hs]
    rfl

theorem reordered_readerWriter :
    Reordered (pairs first second).shapes (Descriptor.markParams "Pair" []) readerWriter
      writerReader := by
  have hperm : [Descriptor.simple "R", .simple "W"].Perm [.simple "W", .simple "R"] :=
    List.Perm.swap _ _ _
  have hmark : (Descriptor.interface [] [.simple "R", .simple "W"]).markParams "Pair" [] =
      .interface [] [.simple "R", .simple "W"] := ordered_readerWriter.markParams_nil
  refine .single (.elements hperm ?_ (keepsOrder_of_perm hperm ?_))
  · rw [hmark, shapes_pairs]
    decide
  · rw [hmark, shapes_pairs]
    decide

theorem candidates_pairs (hfirst : first.Ordered) (hsecond : second.Ordered) :
    (pairs first second).candidates[0]? =
      some [⟨0, ⟨"Swap", [first, second], [], false⟩, .value⟩] := by
  have hresolve : Signature.markParams "Pair" [] ⟨"Swap", [first, second], [], false⟩ =
      ⟨"Swap", [first, second], [], false⟩ := by
    apply Signature.markParams_eq_self
    simp [Signature.types, hfirst.markParams_nil, hsecond.markParams_nil]
  have hcandidates : (pairs first second).candidates[0]? =
      some [⟨0, Signature.markParams "Pair" [] ⟨"Swap", [first, second], [], false⟩, .value⟩] := rfl
  rw [hcandidates, hresolve]

theorem requiredSets_pairs : (pairs first second).requiredSets[2]? =
    some (some [⟨"Swap", [.param "T" "Swapper", .param "T" "Swapper"], [], false⟩]) := rfl

theorem methodsFit_pairs (hfirst : first.Ordered) (hsecond : second.Ordered) :
    (pairs first second).MethodsFit .union 2 0 := by
  refine ⟨_, _, requiredSets_pairs, candidates_pairs hfirst hsecond, ?_⟩
  refine List.forall_mem_singleton.2 ⟨_, List.mem_singleton_self _, rfl, rfl, ?_⟩
  have hfits (a : Descriptor) :
      Fits (pairs first second).shapes comparisonLimit (.param "T" "Swapper") a :=
    .inr (.inl ⟨"T", "Swapper", rfl⟩)
  exact .cons (hfits first) (.cons (hfits second) .nil)

theorem paramsAgree_pairs_iff (hfirst : first.Ordered) (hsecond : second.Ordered) :
    (pairs first second).ParamsAgree 2 0 ↔ first = second := by
  have hmeets (σ : Substitution) (a : Descriptor) : Meets (pairs first second).shapes σ
      comparisonLimit (.param "T" "Swapper") a ↔ σ ("Swapper", "T") = a :=
    meets_param (n := 511)
  constructor
  · intro hagree
    obtain ⟨required, cs, hr, hcs, σ, hσ⟩ := hagree
    obtain rfl := Option.some.inj (Option.some.inj (requiredSets_pairs.symm.trans hr))
    obtain rfl := Option.some.inj ((candidates_pairs hfirst hsecond).symm.trans hcs)
    have hall := hσ _ List.mem_cons_self _ List.mem_cons_self rfl
    have hfirst := (hmeets σ first).1 (hall _ List.mem_cons_self)
    have hsecond := (hmeets σ second).1 (hall _ (List.mem_cons_of_mem _ List.mem_cons_self))
    exact hfirst.symm.trans hsecond
  · intro he
    refine ⟨_, _, requiredSets_pairs, candidates_pairs hfirst hsecond, fun _ ↦ first, ?_⟩
    refine List.forall_mem_singleton.2 (List.forall_mem_singleton.2 fun _ ↦ ?_)
    exact List.forall_mem_cons.2 ⟨(hmeets _ first).2 rfl,
      List.forall_mem_singleton.2 ((hmeets _ second).2 he)⟩

theorem edges_pairs {es : EdgeSet} (hfirst : first.Ordered) (hsecond : second.Ordered)
    (h : (pairs first second).edges .union = .ok es) :
    (∃ e ∈ es.edges, e.interface = 2 ∧ e.type = 0) ↔ first = second := by
  rw [exists_edge_iff_fit h, and_iff_right (methodsFit_pairs hfirst hsecond),
    paramsAgree_pairs_iff hfirst hsecond]

theorem pairs_reorderedAs {first' second' : Descriptor}
    (hfirst : Reordered (pairs first second).shapes (Descriptor.markParams "Pair" []) first first')
    (hsecond : Reordered (pairs first second).shapes (Descriptor.markParams "Pair" []) second
      second') : (pairs first second).ReorderedAs (pairs first' second') where
  interfaces := List.forall₂_same.2 fun d _ ↦ d.reorderedAs_refl _
  types := rfl
  methods := .cons ⟨rfl, rfl, rfl, .cons hfirst (.cons hsecond .nil)⟩ .nil
  externals := rfl

end

theorem problems_pairs : (pairs readerWriter readerWriter).problems = [] ∧
    (pairs readerWriter writerReader).problems = [] ∧
    (pairs writerReader writerReader).problems = [] := by decide

/-- Putting embedded elements in another order keeps a program valid unless methods of one name come
apart. If no comparison reaches the limit, an edge is kept unless the methods fit and the type
parameters agree in just one of the programs; without type parameters it is always kept. -/
theorem edges_reordered_iff (hp : p.problems = []) (h : p.ReorderedAs p') (hordered : p.Ordered)
    (hself : SelfFitting p.shapes) :
    (p'.problems = [] ↔ p'.MethodsAgree) ∧
    ∀ policy es es', p.edges policy = .ok es → p'.edges policy = .ok es' → ∀ i t,
      (p.MethodsSuit policy i t → p.MethodsFit policy i t) →
      (p'.MethodsSuit policy i t → p'.MethodsFit policy i t) →
      (((∃ e ∈ es.edges, e.interface = i ∧ e.type = t) ↔
          ∃ e ∈ es'.edges, e.interface = i ∧ e.type = t) ↔
        (p.MethodsFit policy i t → (p.ParamsAgree i t ↔ p'.ParamsAgree i t))) ∧
      (ParamFree p.shapes → (∀ required, p.requiredSets[i]? = some (some required) →
          ∀ s ∈ required, s.mentionsParam = false) →
        ((∃ e ∈ es.edges, e.interface = i ∧ e.type = t) ↔
          ∃ e ∈ es'.edges, e.interface = i ∧ e.type = t)) := by
  have hvalid : p.Valid := problems_eq_nil_iff.1 hp
  refine ⟨h.problems_eq_nil_iff hvalid, ?_⟩
  intro policy es es' hes hes' i t hlimit hlimit'
  have hvalid' : p'.Valid := problems_eq_nil_iff.1 (edges_eq_ok_iff.1 hes').1
  have hfit : p.MethodsFit policy i t ↔ p'.MethodsFit policy i t :=
    h.methodsFit_iff hvalid hvalid' hordered hself hlimit hlimit'
  have hedges : ((∃ e ∈ es.edges, e.interface = i ∧ e.type = t) ↔
      ∃ e ∈ es'.edges, e.interface = i ∧ e.type = t) ↔
        (p.MethodsFit policy i t → (p.ParamsAgree i t ↔ p'.ParamsAgree i t)) := by
    rw [exists_edge_iff_fit hes, exists_edge_iff_fit hes', ← hfit]
    exact and_congr_right_iff
  refine ⟨hedges, fun hfree hground ↦ hedges.2 fun hmethods ↦ ?_⟩
  obtain ⟨required, cs, hr, hcs, -⟩ := hmethods
  have hparams : p.HoldsAt (fun _ ss ↦ ∀ s ∈ ss, s.mentionsParam = false) i t :=
    ⟨required, cs, hr, hcs, hground required hr⟩
  have hparams' := (h.ground_iff hvalid hvalid' hordered).1 hparams
  have hfree' : ParamFree p'.shapes :=
    hfree.reordered (h.shapesMatch hvalid hvalid' hordered)
  exact iff_of_true (paramsAgree_of_ground hfree hparams) (paramsAgree_of_ground hfree' hparams')

/-- A type parameter that meets the interface in both orders stands for one of them only. -/
theorem edge_lost_by_reordering :
    (pairs readerWriter readerWriter).ReorderedAs (pairs readerWriter writerReader) ∧
    (∃ es, (pairs readerWriter readerWriter).edges .union = .ok es ∧
      ∃ e ∈ es.edges, e.interface = 2 ∧ e.type = 0) ∧
    ∃ es, (pairs readerWriter writerReader).edges .union = .ok es ∧
      ¬ ∃ e ∈ es.edges, e.interface = 2 ∧ e.type = 0 := by
  obtain ⟨hproblems, hproblems', -⟩ := problems_pairs
  have hes := edges_eq_edgeSet .union hproblems
  have hes' := edges_eq_edgeSet .union hproblems'
  refine ⟨pairs_reorderedAs .refl reordered_readerWriter, ⟨_, hes, ?_⟩, _, hes', ?_⟩
  · exact (edges_pairs ordered_readerWriter ordered_readerWriter hes).2 rfl
  · rw [edges_pairs ordered_readerWriter ordered_writerReader hes']
    simp [readerWriter, writerReader]

/-- Both parameters in the other order are equal again. -/
theorem edge_kept_by_reordering_both :
    (pairs readerWriter readerWriter).ReorderedAs (pairs writerReader writerReader) ∧
    ∃ es, (pairs writerReader writerReader).edges .union = .ok es ∧
      ∃ e ∈ es.edges, e.interface = 2 ∧ e.type = 0 := by
  obtain ⟨hproblems, -, hproblems'⟩ := problems_pairs
  have hes := edges_eq_edgeSet .union hproblems
  have hes' := edges_eq_edgeSet .union hproblems'
  have hreordered :
      (pairs readerWriter readerWriter).ReorderedAs (pairs writerReader writerReader) :=
    pairs_reorderedAs reordered_readerWriter reordered_readerWriter
  have hmain := edges_reordered_iff hproblems hreordered
    (ordered_pairs ordered_readerWriter ordered_readerWriter) selfFitting_pairs
  obtain ⟨hedge, -⟩ := hmain.2 .union _ _ hes hes' 2 0
    (fun _ ↦ methodsFit_pairs ordered_readerWriter ordered_readerWriter)
    (fun _ ↦ methodsFit_pairs ordered_writerReader ordered_writerReader)
  have hagree := (paramsAgree_pairs_iff ordered_readerWriter ordered_readerWriter).2 rfl
  have hagree' := (paramsAgree_pairs_iff ordered_writerReader ordered_writerReader).2 rfl
  have hkept := hedge.2 fun _ ↦ iff_of_true hagree hagree'
  refine ⟨hreordered, _, hes', hkept.1 ?_⟩
  exact (edges_pairs ordered_readerWriter ordered_readerWriter hes).2 rfl

end Program

end Conformance

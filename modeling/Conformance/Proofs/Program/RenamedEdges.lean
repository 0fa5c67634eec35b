import Conformance.Proofs.Program.Renaming

namespace Conformance

open Relation

namespace Program

namespace CanRename

variable {p : Program} {i j k : InterfaceId} {d : InterfaceDecl} {old new : String}
  (h : p.CanRename i d old new)

include h

theorem requiredSet {ρ : Renaming} (hp : p.Valid)
    (hρ : ∀ j, ReflTransGen p.NamesEmbedded k j →
      DeclaresRenamed ρ p (p.renameParam i old new) j) {required : List Signature}
    (hset : p.requiredSets[k]? = some (some required)) :
    (p.renameParam i old new).requiredSets[k]? =
      some (some (required.map (Signature.renameParams ρ))) := by
  obtain ⟨ms, hms, hrequired⟩ := (h.valid hp).exists_requiredSet
    (length_interfaces_renameParam ▸ lt_length_of_requiredSets hset)
  have hsorted : SortedByName (required.map (Signature.renameParams ρ)) := by
    refine List.pairwise_map.2 ((hp.isRequiredSet hset).sorted.imp fun hlt ↦ ?_)
    rwa [Signature.renameParams_name, Signature.renameParams_name]
  rw [hms, hrequired.sorted.ext hsorted fun s' ↦ ?_]
  rw [(h.valid hp).mem_required_iff hms, namesEmbedded_renameParam, List.mem_map]
  simp only [hp.mem_required_iff hset]
  constructor
  · rintro ⟨j, hkj, hj⟩
    obtain ⟨s, hs, rfl⟩ := (hρ j hkj s').1 hj
    exact ⟨s, ⟨j, hkj, hs⟩, rfl⟩
  · rintro ⟨s, ⟨j, hkj, hs⟩, rfl⟩
    exact ⟨j, hkj, (hρ j hkj _).2 ⟨s, hs, rfl⟩⟩

omit h in
theorem keepsTextOrders_of_mem_requiredSet {ρ : Renaming} (hp : p.Valid)
    (hρ : ∀ j, ReflTransGen p.NamesEmbedded k j → KeepsTextOrders ρ p j) {required : List Signature}
    (hset : p.requiredSets[k]? = some (some required)) :
    ∀ s ∈ required, ∀ x ∈ s.types, x.KeepsTextOrders p.shapes ρ := by
  intro s hs
  obtain ⟨j, hkj, hj⟩ := (hp.mem_required_iff hset).1 hs
  exact hρ j hkj s hj

theorem shapes_renamedBy {ρ : Renaming} (hp : p.Valid)
    (hρ : ∀ j, p.NamedOr k j → DeclaresRenamed ρ p (p.renameParam i old new) j) :
    p.shapes.RenamedBy ρ (p.renameParam i old new).shapes := by
  intro name
  have hset {l : InterfaceId} {ms : List Signature} (hl : p.Expands name l)
      (hms : p.requiredSets[l]? = some (some ms)) : (p.renameParam i old new).requiredSets[l]? =
        some (some (ms.map (Signature.renameParams ρ))) :=
    h.requiredSet hp (fun j hlj ↦ hρ j (hl.namedOr.of_reaches hlj)) hms
  ext ms'
  rw [lookup_shapes_iff (h.valid hp), Option.map_eq_some_iff]
  simp only [lookup_shapes_iff hp, mem_shapes_iff_expands, expands_renameParam_iff]
  constructor
  · rintro ⟨l, hl, hms'⟩
    obtain ⟨e, he, -⟩ := id hl
    obtain ⟨ms, hms, -⟩ := hp.exists_requiredSet (List.getElem?_eq_some_iff.1 he).1
    refine ⟨ms, ⟨l, hl, hms⟩, ?_⟩
    exact Option.some.inj (Option.some.inj ((hset hl hms).symm.trans hms'))
  · rintro ⟨ms, ⟨l, hl, hms⟩, rfl⟩
    exact ⟨l, hl, hset hl hms⟩

theorem satisfy_eq (hp : p.Valid) (htexts : KeepsTextOrders (d.paramRenaming old new) p i)
    (policy : ReceiverPolicy) {required : List Signature}
    (hset : p.requiredSets[k]? = some (some required)) {t : TypeId} {cs : List Candidate}
    (hcs : p.candidates[t]? = some cs) :
    ∃ required', (p.renameParam i old new).requiredSets[k]? = some (some required') ∧
      satisfy (p.renameParam i old new).shapes policy cs [] required' =
        satisfy p.shapes policy cs [] required := by
  obtain ⟨ρ, hρ⟩ := h.exists_paramRenaming hp k
  obtain ⟨T, hT⟩ := exists_type_of_candidates hcs
  refine ⟨_, h.requiredSet hp (fun j hj ↦ (hρ j (namedOr_self.of_reaches hj)).1) hset, ?_⟩
  apply satisfy_renameParams (h.shapes_renamedBy hp fun j hj ↦ (hρ j hj).1)
  · intro name ms hms
    obtain ⟨l, hl, hset⟩ := mem_shapes_iff_expands.1 ((lookup_shapes_iff hp).1 hms)
    exact keepsTextOrders_of_mem_requiredSet hp
      (fun j hj ↦ (hρ j (hl.namedOr.of_reaches hj)).2 htexts) hset
  · exact candidates_distinct hp hT hcs
  · exact keepsTextOrders_of_mem_requiredSet hp
      (fun j hj ↦ (hρ j (namedOr_self.of_reaches hj)).2 htexts) hset
  · intro c hc x hx
    obtain ⟨id, m, hm, -, rfl⟩ := (mem_candidates hp hT hcs).1 hc
    have hground : m.resolve.mentionsParam = false := Signature.mentionsParam_markParams_nil
      (h.ground _ (mem_signatures_of_method (List.mem_of_getElem? hm)))
    exact Descriptor.renameParams_of_not_mentionsParam ρ
      (Signature.mentionsParam_eq_false_iff.1 hground x hx)

theorem keepsTextOrders_of_length_le_one
    (hone : ∀ s ∈ d.methods, ∀ ms es, .interface ms es ∈ s.parts → es.length ≤ 1) :
    KeepsTextOrders (d.paramRenaming old new) p i := by
  intro s hs x hx
  obtain ⟨e, he, t, ht, rfl⟩ := declares_iff.1 hs
  obtain rfl := Option.some.inj (he.symm.trans h.interface)
  rw [Signature.markParams_types] at hx
  obtain ⟨y, hy, rfl⟩ := List.mem_map.1 hx
  apply Conformance.keepsTextOrders_of_length_le_one
  apply Descriptor.length_le_one_of_mem_parts_markParams
  intro ms es hx
  exact hone t ht ms es (Signature.mem_parts.2 ⟨y, hy, hx⟩)

end CanRename

/-- With another name for a type parameter a program is still valid. Its edges are the same if what
inline interfaces embed and cannot expand has its texts in the same order as before, as it has where
nothing is embedded next to something else. -/
theorem edges_of_renamed_param {p : Program} {i : InterfaceId} {d : InterfaceDecl}
    {old new : String} (hp : p.problems = []) (h : p.CanRename i d old new) :
    (p.renameParam i old new).problems = [] ∧
    (KeepsTextOrders (d.paramRenaming old new) p i ∨
        (∀ s ∈ d.methods, ∀ ms embeds, .interface ms embeds ∈ s.parts → embeds.length ≤ 1) →
      ∀ policy, ∃ es es', p.edges policy = .ok es ∧
        (p.renameParam i old new).edges policy = .ok es' ∧ ∀ e, e ∈ es'.edges ↔ e ∈ es.edges) := by
  have hvalid : p.Valid := problems_eq_nil_iff.1 hp
  have hp' : (p.renameParam i old new).problems = [] := problems_eq_nil_iff.2 (h.valid hvalid)
  refine ⟨hp', fun htexts policy ↦ ?_⟩
  have htexts := htexts.elim id h.keepsTextOrders_of_length_le_one
  have hes := edges_eq_edgeSet policy hp
  have hes' := edges_eq_edgeSet policy hp'
  refine ⟨_, _, hes, hes', fun e ↦ ?_⟩
  rw [mem_edges_iff hes, mem_edges_iff hes', candidates_renameParam]
  constructor
  · rintro ⟨required', cs, hset', hcs, hfound⟩
    obtain ⟨required, hset, -⟩ := hvalid.exists_requiredSet
      (length_interfaces_renameParam ▸ lt_length_of_requiredSets hset')
    obtain ⟨ms, hms, hsatisfy⟩ := h.satisfy_eq hvalid htexts policy hset hcs
    obtain rfl := Option.some.inj (Option.some.inj (hms.symm.trans hset'))
    exact ⟨required, cs, hset, hcs, hsatisfy ▸ hfound⟩
  · rintro ⟨required, cs, hset, hcs, hfound⟩
    obtain ⟨required', hset', hsatisfy⟩ := h.satisfy_eq hvalid htexts policy hset hcs
    exact ⟨required', cs, hset', hcs, hsatisfy.trans hfound⟩

def box (element : Descriptor) : Descriptor := .named "Box" [element]

def bothBoxes (a b : Descriptor) : Descriptor := .interface [] [box a, box b]

def putting (a b : Descriptor) : Signature := ⟨"Put", [bothBoxes a b], [], false⟩

def shelf (param : String) : InterfaceDecl :=
  ⟨some "Shelf", [param], [putting (.simple param) (.simple "int")], [], none, []⟩

def shelves (param : String) : Program where
  interfaces := [shelf param]
  types := [⟨"Rack", none⟩]
  methods := [⟨"Rack", .value, putting (.simple "bool") (.simple "int"), none⟩]
  externals := ["Box"]

theorem expand_bothBoxes {a b : Descriptor} (hlt : (box a).render < (box b).render) :
    (bothBoxes a b).expand [] = bothBoxes a b ∧ (bothBoxes b a).expand [] = bothBoxes a b := by
  obtain ⟨hsorted, hswapped⟩ := MethodSet.inOrder_pair hlt
  have hexpand (c d : Descriptor) : (bothBoxes c d).expand [] =
      .interface [] (MethodSet.inOrder [box c, box d]) := by
    rw [bothBoxes, Descriptor.expand, MethodSet.ofElements_eq]
    rfl
  rw [hexpand, hexpand, hsorted, hswapped, bothBoxes, and_self]

/-- Which box comes first goes by the name of the type parameter. -/
theorem render_box : (box (.param "T" "Shelf")).render < (box (.simple "int")).render ∧
    (box (.param "S" "Shelf")).render < (box (.simple "int")).render ∧
    (box (.simple "bool")).render < (box (.simple "int")).render ∧
    (box (.simple "int")).render < (box (.param "z" "Shelf")).render := by decide

theorem fits_bothBoxes {param owner : String} {n : Nat}
    (hlt : (box (.param param owner)).render < (box (.simple "int")).render) :
    Fits [] (n + 3) (bothBoxes (.param param owner) (.simple "int"))
        (bothBoxes (.simple "bool") (.simple "int")) ∧
      Meets [] (fun _ ↦ .simple "bool") (n + 3) (bothBoxes (.param param owner) (.simple "int"))
        (bothBoxes (.simple "bool") (.simple "int")) := by
  have hr := (expand_bothBoxes hlt).1
  have ha := (expand_bothBoxes render_box.2.2.1).1
  constructor
  · right
    right
    rw [Descriptor.Matches, hr, ha]
    have hparam : Fits [] (n + 1) (.param param owner) (.simple "bool") :=
      .inr (.inl ⟨param, owner, rfl⟩)
    have hbox : Fits [] (n + 2) (box (.param param owner)) (box (.simple "bool")) :=
      .inr (.inr (Descriptor.matches_named.2 ⟨rfl, .cons hparam .nil⟩))
    exact ⟨rfl, .cons hbox (.cons (.inl ⟨rfl, rfl⟩) .nil)⟩
  · have hparam : Meets [] (fun _ ↦ .simple "bool") (n + 1) (.param param owner) (.simple "bool") :=
      meets_param.2 rfl
    have hbox : Meets [] (fun _ ↦ .simple "bool") (n + 2) (box (.param param owner))
        (box (.simple "bool")) := by
      refine .inr ⟨fun _ _ he ↦ ?_, List.forall_mem_singleton.2 hparam⟩
      cases he
    refine .inr ⟨fun _ _ he ↦ ?_, ?_⟩
    · cases he
    · rw [Descriptor.expanded, Descriptor.expanded, hr, ha]
      exact List.forall_mem_cons.2 ⟨hbox, List.forall_mem_singleton.2 (.inl ⟨rfl, rfl⟩)⟩

theorem eq_of_fits_box {n : Nat} {x y : String}
    (h : Fits [] n (box (.simple x)) (box (.simple y))) : x = y := by
  have hsimple {m : Nat} (hm : Fits [] m (.simple x) (.simple y)) : x = y := by
    cases m with
    | zero => exact hm.elim
    | succ m =>
      rcases hm with hsame | ⟨_, _, hparam⟩ | hm
      · exact (Descriptor.named.inj hsame.1).1
      · cases hparam
      · exact (Descriptor.matches_named.1 hm).1
  cases n with
  | zero => exact h.elim
  | succ n =>
    rcases h with hsame | ⟨_, _, hparam⟩ | hm
    · exact (Descriptor.named.inj (List.cons.inj (Descriptor.named.inj hsame.1).2).1).1
    · cases hparam
    · exact hsimple (List.forall₂_cons.1 (Descriptor.matches_named.1 hm).2).1

theorem not_fits_bothBoxes {param owner : String} {n : Nat}
    (hlt : (box (.simple "int")).render < (box (.param param owner)).render) :
    ¬ Fits [] n (bothBoxes (.param param owner) (.simple "int"))
      (bothBoxes (.simple "bool") (.simple "int")) := by
  cases n with
  | zero => exact id
  | succ n =>
    rintro (hsame | ⟨_, _, hparam⟩ | hm)
    · cases hsame.1
    · cases hparam
    · rw [Descriptor.Matches, (expand_bothBoxes hlt).2, (expand_bothBoxes render_box.2.2.1).1] at hm
      have heq := eq_of_fits_box (List.forall₂_cons.1 hm.children).1
      exact absurd heq (by decide)

theorem problems_shelves : ∀ param ∈ ["S", "T", "z"], (shelves param).problems = [] ∧
    (shelves param).requiredSets =
      [some [putting (.param param "Shelf") (.simple "int")]] := by decide +kernel

theorem shapes_shelves (param : String) : (shelves param).shapes = [] := by
  refine List.eq_nil_iff_forall_not_mem.2 fun ⟨name, ms⟩ hms ↦ ?_
  obtain ⟨i, d, hd, -, hparams, -⟩ := mem_shapes.1 hms
  rw [List.mem_singleton.1 (List.mem_of_getElem? hd)] at hparams
  exact List.cons_ne_nil _ _ hparams

theorem candidates_shelves (param : String) : (shelves param).candidates =
    [[⟨0, putting (.simple "bool") (.simple "int"), .value⟩]] := by
  have hordered : (bothBoxes (.simple "bool") (.simple "int")).Ordered := by
    simp [Descriptor.Ordered, bothBoxes, box, Descriptor.parts, signaturesParts, allParts,
      Descriptor.OrderedLevel]
  have hcandidates : (shelves param).candidates =
      [[⟨0, (putting (.simple "bool") (.simple "int")).markParams "Rack" [], .value⟩]] := rfl
  have hsame : (putting (.simple "bool") (.simple "int")).markParams "Rack" [] =
      putting (.simple "bool") (.simple "int") :=
    Signature.markParams_eq_self (List.forall_mem_singleton.2 hordered.markParams_nil)
  rw [hcandidates, hsame]

theorem satisfy_putting_iff {a b a' b' : Descriptor} :
    (satisfy [] .union [⟨0, putting a' b', .value⟩] [] [putting a b]).isSome ↔
      Fits [] comparisonLimit (bothBoxes a b) (bothBoxes a' b') ∧
        ∃ σ, Meets [] σ comparisonLimit (bothBoxes a b) (bothBoxes a' b') := by
  rw [satisfy_isSome_iff_fit .union (by simp)]
  refine and_congr ?_ ?_
  · simp [MethodsFit, Signature.matches_iff, putting, ReceiverPolicy.admits]
  · simp [ParamsAgree, putting, Signature.types]

theorem edges_shelves_iff {param : String} (hparam : param ∈ ["S", "T", "z"]) {es : EdgeSet}
    (hes : (shelves param).edges .union = .ok es) :
    (∃ e ∈ es.edges, e.interface = 0 ∧ e.type = 0) ↔
      Fits [] comparisonLimit (bothBoxes (.param param "Shelf") (.simple "int"))
        (bothBoxes (.simple "bool") (.simple "int")) ∧
      ∃ σ, Meets [] σ comparisonLimit (bothBoxes (.param param "Shelf") (.simple "int"))
        (bothBoxes (.simple "bool") (.simple "int")) := by
  rw [exists_edge_iff hes, (problems_shelves param hparam).2, candidates_shelves, shapes_shelves,
    ← satisfy_putting_iff]
  simp

theorem renameParam_shelves : (shelves "T").renameParam 0 "T" "S" = shelves "S" ∧
    (shelves "T").renameParam 0 "T" "z" = shelves "z" := ⟨rfl, rfl⟩

theorem canRename_shelves {new : String}
    (hnew : .named new [] ∉ (putting (.simple "T") (.simple "int")).parts) :
    (shelves "T").CanRename 0 (shelf "T") "T" new where
  interface := rfl
  param := List.mem_singleton_self "T"
  fresh := List.forall_mem_singleton.2 hnew
  ground := by decide
  names := by
    intro e he name hname
    rw [List.mem_singleton.1 he] at hname
    obtain rfl := Option.some.inj hname
    decide

theorem keepsTextOrders_shelves :
    KeepsTextOrders ((shelf "T").paramRenaming "T" "S") (shelves "T") 0 := by
  intro s hs
  obtain ⟨d, hd, t, ht, rfl⟩ := declares_iff.1 hs
  rw [List.mem_singleton.1 (List.mem_of_getElem? hd)] at ht ⊢
  rw [List.mem_singleton.1 ht]
  have hmark : (bothBoxes (.simple "T") (.simple "int")).markParams "Shelf" ["T"] =
      bothBoxes (.param "T" "Shelf") (.simple "int") := by decide +kernel
  have htexts : ∀ x ∈ [box (.param "T" "Shelf"), box (.simple "int")],
      ∀ y ∈ [box (.param "T" "Shelf"), box (.simple "int")],
        (x.renameParams ((shelf "T").paramRenaming "T" "S")).render ≤
          (y.renameParams ((shelf "T").paramRenaming "T" "S")).render ↔ x.render ≤ y.render := by
    decide +kernel
  refine List.forall_mem_singleton.2 ?_
  change ((bothBoxes (.simple "T") (.simple "int")).markParams "Shelf" ["T"]).KeepsTextOrders _ _
  rw [hmark]
  refine Descriptor.forall_parts.2 ⟨htexts, ?_⟩
  simp [Descriptor.children, bothBoxes, box, Descriptor.parts, allParts, Descriptor.KeepsTextOrder]

/-- Between the box of integers and the one of truth values there is none for `z`. -/
theorem edge_lost_by_renaming :
    (shelves "T").problems = [] ∧ (shelves "T").CanRename 0 (shelf "T") "T" "z" ∧
    (∃ es, (shelves "T").edges .union = .ok es ∧ ∃ e ∈ es.edges, e.interface = 0 ∧ e.type = 0) ∧
    ∃ es, ((shelves "T").renameParam 0 "T" "z").edges .union = .ok es ∧
      ¬ ∃ e ∈ es.edges, e.interface = 0 ∧ e.type = 0 := by
  have hproblems := (problems_shelves "T" (by decide)).1
  have hes := edges_eq_edgeSet .union hproblems
  have hes' := edges_eq_edgeSet .union (problems_shelves "z" (by decide)).1
  refine ⟨hproblems, canRename_shelves (by decide +kernel), ⟨_, hes, ?_⟩, ?_⟩
  · obtain ⟨hfits, hmeets⟩ := fits_bothBoxes (n := 509) render_box.1
    exact (edges_shelves_iff (by decide) hes).2 ⟨hfits, _, hmeets⟩
  · rw [renameParam_shelves.2]
    refine ⟨_, hes', fun hedge ↦ ?_⟩
    exact not_fits_bothBoxes render_box.2.2.2 ((edges_shelves_iff (by decide) hes').1 hedge).1

theorem edge_kept_by_renaming :
    (shelves "T").problems = [] ∧ (shelves "T").CanRename 0 (shelf "T") "T" "S" ∧
    KeepsTextOrders ((shelf "T").paramRenaming "T" "S") (shelves "T") 0 ∧
    ∃ es, ((shelves "T").renameParam 0 "T" "S").edges .union = .ok es ∧
      ∃ e ∈ es.edges, e.interface = 0 ∧ e.type = 0 := by
  have hproblems := (problems_shelves "T" (by decide)).1
  have hrename : (shelves "T").CanRename 0 (shelf "T") "T" "S" :=
    canRename_shelves (by decide +kernel)
  obtain ⟨es, es', hes, hes', hedges⟩ :=
    (edges_of_renamed_param hproblems hrename).2 (.inl keepsTextOrders_shelves) .union
  obtain ⟨hfits, hmeets⟩ := fits_bothBoxes (n := 509) render_box.1
  obtain ⟨e, he, hplace⟩ := (edges_shelves_iff (by decide) hes).2 ⟨hfits, _, hmeets⟩
  exact ⟨hproblems, hrename, keepsTextOrders_shelves, es', hes', e, (hedges e).2 he, hplace⟩

end Program

end Conformance

import Conformance.Proofs.Fitting
import Conformance.Proofs.Links
import Mathlib.Logic.Equiv.Basic

/-!
Type parameters under other names. A comparison sees of a type parameter only whether it is the same
one as before, with one exception: what an inline interface embeds and cannot expand is compared in
the order of the texts. Where a renaming keeps this order, everything else follows the renaming.
-/

namespace Conformance

/-- Another owner and name for each type parameter. -/
abbrev Renaming := Equiv.Perm (String × String)

section

variable {σ τ : Substitution}

theorem Signature.subst_subst_of_types {s : Signature}
    (h : ∀ d ∈ s.types, (d.subst σ).subst τ = d.subst fun k ↦ (σ k).subst τ) :
    (s.subst σ).subst τ = s.subst fun k ↦ (σ k).subst τ := by
  cases s
  simp only [Signature.subst_eq, List.map_map, Signature.mk.injEq, true_and, and_true]
  exact ⟨List.map_congr_left fun d hd ↦ h d (List.mem_append_left _ hd),
    List.map_congr_left fun d hd ↦ h d (List.mem_append_right _ hd)⟩

theorem Descriptor.subst_subst (d : Descriptor) :
    (d.subst σ).subst τ = d.subst fun k ↦ (σ k).subst τ := by
  induction d with
  | named name args ih =>
    simp only [Descriptor.subst, substAll_eq_map, List.map_map]
    exact congrArg (named name) (List.map_congr_left ih)
  | param name owner => rfl
  | pointer e ih | slice e ih | array len e ih | chan dir e ih => simp only [Descriptor.subst, ih]
  | map k v ihk ihv => simp only [Descriptor.subst, ihk, ihv]
  | func ps rs variadic ihp ihr =>
    simp only [Descriptor.subst, substAll_eq_map, List.map_map]
    exact congrArg₂ (func · · variadic) (List.map_congr_left ihp) (List.map_congr_left ihr)
  | interface ms es ihm ihe =>
    simp only [Descriptor.subst, substAll_eq_map, substSignatures_eq_map, List.map_map]
    refine congrArg₂ interface (List.map_congr_left fun s hs ↦ ?_) (List.map_congr_left ihe)
    exact Signature.subst_subst_of_types (ihm s hs)
  | struct fs ih =>
    simp only [Descriptor.subst, substFields_eq_map, List.map_map]
    refine congrArg struct (List.map_congr_left fun f hf ↦ ?_)
    simp only [Function.comp_apply, Field.subst_eq, ih f hf]

end

section

variable (ρ : Renaming)

def Descriptor.renameParams (d : Descriptor) : Descriptor := d.subst fun k ↦ .param (ρ k).2 (ρ k).1

def Signature.renameParams (s : Signature) : Signature := s.subst fun k ↦ .param (ρ k).2 (ρ k).1

@[simp]
theorem Signature.renameParams_name (s : Signature) : (s.renameParams ρ).name = s.name := by
  rw [Signature.renameParams, Signature.subst_eq]

theorem Signature.renameParams_types (s : Signature) :
    (s.renameParams ρ).types = s.types.map (Descriptor.renameParams ρ) := by
  rw [Signature.renameParams, Signature.subst_eq, Signature.types, Signature.types, List.map_append]
  rfl

theorem Signature.form_renameParams (s : Signature) : (s.renameParams ρ).form = s.form := by
  simp only [Signature.form, Signature.renameParams, Signature.subst_eq, List.map_map,
    Function.comp_def]

theorem Descriptor.renameParams_symm (d : Descriptor) :
    (d.renameParams ρ).renameParams ρ.symm = d := by
  rw [Descriptor.renameParams, Descriptor.renameParams, Descriptor.subst_subst]
  refine Descriptor.subst_eq_self fun name owner _ ↦ ?_
  simp only [Descriptor.subst, Prod.mk.eta, Equiv.symm_apply_apply]

theorem Descriptor.renameParams_inj {d d' : Descriptor} :
    d.renameParams ρ = d'.renameParams ρ ↔ d = d' := by
  constructor
  · intro h
    rw [← d.renameParams_symm ρ, h, d'.renameParams_symm ρ]
  · rintro rfl
    rfl

theorem Descriptor.renameParams_of_not_mentionsParam {d : Descriptor}
    (h : d.mentionsParam = false) : d.renameParams ρ = d :=
  Descriptor.subst_of_not_mentionsParam h

theorem Descriptor.renameParams_interface (ms : List Signature) (es : List Descriptor) :
    (interface ms es).renameParams ρ =
      .interface (ms.map (Signature.renameParams ρ)) (es.map (Descriptor.renameParams ρ)) := by
  rw [Descriptor.renameParams, Descriptor.subst, substSignatures_eq_map, substAll_eq_map]
  rfl

theorem Descriptor.children_renameParams (d : Descriptor) :
    (d.renameParams ρ).children = d.children.map (Descriptor.renameParams ρ) := by
  cases d with
  | interface ms es =>
    simp only [Descriptor.renameParams_interface, Descriptor.children, List.flatMap_map,
      List.map_append, List.map_flatMap, Signature.renameParams_types]
  | struct fs =>
    simp only [Descriptor.renameParams, Descriptor.subst, substFields_eq_map, Descriptor.children,
      List.map_map, Function.comp_def, Field.subst_eq]
  | named name args | func ps rs variadic =>
    simp only [Descriptor.renameParams, Descriptor.subst, substAll_eq_map, Descriptor.children,
      List.map_append]
    rfl
  | _ => rfl

theorem Descriptor.outline_renameParams_of_ne_param {d : Descriptor}
    (h : ∀ name owner, d ≠ .param name owner) : (d.renameParams ρ).outline = d.outline := by
  cases d with
  | param name owner => exact absurd rfl (h name owner)
  | interface ms es =>
    simp only [Descriptor.renameParams_interface, Descriptor.outline, List.map_map,
      Function.comp_def, Signature.form_renameParams]
  | struct fs =>
    simp only [Descriptor.renameParams, Descriptor.subst, substFields_eq_map, Descriptor.outline,
      List.map_map, Function.comp_def, Field.subst_eq]
  | named name args | func ps rs variadic =>
    simp only [Descriptor.renameParams, Descriptor.subst, substAll_eq_map, Descriptor.outline,
      List.map_map, Function.comp_def]
  | _ => rfl

theorem Descriptor.mentionsParam_outline {d : Descriptor}
    (h : ∀ name owner, d ≠ .param name owner) : d.outline.mentionsParam = false := by
  cases d with
  | param name owner => exact absurd rfl (h name owner)
  | interface ms es =>
    simp [Descriptor.outline, Descriptor.mentionsParam, Signature.form, Signature.types]
  | _ => simp [Descriptor.outline, Descriptor.mentionsParam]

theorem Descriptor.outline_renameParams (d : Descriptor) :
    (d.renameParams ρ).outline = d.outline.renameParams ρ := by
  by_cases hparam : ∃ name owner, d = .param name owner
  · obtain ⟨name, owner, rfl⟩ := hparam
    rfl
  · have hparam : ∀ name owner, d ≠ .param name owner := by simpa using hparam
    rw [Descriptor.outline_renameParams_of_ne_param ρ hparam,
      Descriptor.renameParams_of_not_mentionsParam ρ (Descriptor.mentionsParam_outline hparam)]

theorem identical_renameParams_iff {r a : Descriptor} :
    Identical (r.renameParams ρ) (a.renameParams ρ) ↔ Identical r a := by
  rw [Identical, Identical, Descriptor.renameParams_inj]
  refine and_congr_right fun _ ↦ ⟨fun h ↦ ?_, fun h ↦ ?_⟩
  · have hfixed := Descriptor.renameParams_of_not_mentionsParam ρ.symm h
    rw [Descriptor.renameParams_symm] at hfixed
    rwa [hfixed]
  · rwa [Descriptor.renameParams_of_not_mentionsParam ρ h]

end

theorem Descriptor.eq_param_renameParams_iff (ρ : Renaming) {d : Descriptor} :
    (∃ name owner, d.renameParams ρ = .param name owner) ↔ ∃ name owner, d = .param name owner := by
  constructor
  · rintro ⟨name, owner, h⟩
    rw [← d.renameParams_symm ρ, h]
    exact ⟨_, _, rfl⟩
  · rintro ⟨name, owner, rfl⟩
    exact ⟨_, _, rfl⟩

def Shapes.RenamedBy (ρ : Renaming) (shapes shapes' : Shapes) : Prop :=
  ∀ name, shapes'.lookup name = (shapes.lookup name).map (List.map (Signature.renameParams ρ))

/-- What the inline interface embeds and cannot expand has texts in the same order when renamed. -/
def Descriptor.KeepsTextOrder (shapes : Shapes) (ρ : Renaming) : Descriptor → Prop
  | .interface ms es => ∀ d ∈ (interface ms es).unexpanded shapes,
    ∀ d' ∈ (interface ms es).unexpanded shapes,
      (d.renameParams ρ).render ≤ (d'.renameParams ρ).render ↔ d.render ≤ d'.render
  | _ => True

def Descriptor.KeepsTextOrders (shapes : Shapes) (ρ : Renaming) (d : Descriptor) : Prop :=
  ∀ x ∈ d.parts, x.KeepsTextOrder shapes ρ

theorem insertMethods_map {f : Signature → Signature} (hf : ∀ s, (f s).name = s.name)
    (ms ns : List Signature) :
    insertMethods (ms.map f) (ns.map f) = (insertMethods ms ns).map f := by
  have hone (s : Signature) (ms : List Signature) :
      insertMethod (f s) (ms.map f) = (insertMethod s ms).map f := by
    induction ms with
    | nil => rfl
    | cons t ts ih =>
      simp only [List.map_cons, insertMethod, hf, ih]
      split
      · rfl
      · split <;> rfl
  induction ns generalizing ms with
  | nil => rfl
  | cons s ns ih =>
    rw [insertMethods, insertMethods, List.map_cons, List.foldl_cons, List.foldl_cons, hone]
    exact ih _

theorem dropRepeats_map {f : Descriptor → Descriptor} (hf : Function.Injective f)
    (ds : List Descriptor) : dropRepeats (ds.map f) = (dropRepeats ds).map f := by
  fun_induction dropRepeats ds with
  | case1 => rfl
  | case2 d => rfl
  | case3 d ds ih =>
    rw [List.map_cons, List.map_cons, dropRepeats, if_pos rfl, ← List.map_cons, ih]
  | case4 d e ds hne ih =>
    rw [List.map_cons, List.map_cons, dropRepeats, if_neg (hf.ne hne), ← List.map_cons, ih,
      List.map_cons]

theorem MethodSet.inOrder_map {f : Descriptor → Descriptor} (hf : Function.Injective f)
    {ds : List Descriptor}
    (h : ∀ d ∈ ds, ∀ d' ∈ ds, (f d).render ≤ (f d').render ↔ d.render ≤ d'.render) :
    inOrder (ds.map f) = (inOrder ds).map f := by
  have hsort : (ds.map f).mergeSort (fun a b ↦ decide (a.render ≤ b.render)) =
      (ds.mergeSort fun a b ↦ decide (a.render ≤ b.render)).map f :=
    (List.map_mergeSort fun d hd d' hd' ↦ decide_eq_decide.2 (h d hd d' hd').symm).symm
  rw [inOrder, inOrder, hsort, dropRepeats_map hf]

section

variable {ρ : Renaming} {shapes shapes' : Shapes} (h : shapes.RenamedBy ρ shapes')

include h

theorem collected_renameParams (d : Descriptor) : (d.renameParams ρ).collected shapes' =
    (d.collected shapes).map (Signature.renameParams ρ) := by
  induction d with
  | named name args _ =>
    cases args with
    | nil =>
      have hname : (Descriptor.named name []).renameParams ρ = .named name [] := rfl
      rw [hname, Descriptor.collected, Descriptor.collected, h]
      cases shapes.lookup name <;> rfl
    | cons a as => rfl
  | interface ms es _ ih =>
    rw [Descriptor.renameParams_interface, Descriptor.collected, Descriptor.collected,
      allCollected_eq_flatMap, allCollected_eq_flatMap, List.map_append, List.flatMap_map,
      List.map_flatMap, List.flatMap_congr ih]
  | _ => rfl

theorem unexpanded_renameParams (d : Descriptor) : (d.renameParams ρ).unexpanded shapes' =
    (d.unexpanded shapes).map (Descriptor.renameParams ρ) := by
  induction d with
  | named name args _ =>
    cases args with
    | nil =>
      have hname : (Descriptor.named name []).renameParams ρ = .named name [] := rfl
      rw [hname, Descriptor.unexpanded, Descriptor.unexpanded, h, Option.isSome_map]
      split
      · rfl
      · rw [List.map_singleton, hname]
    | cons a as => rfl
  | interface ms es _ ih =>
    rw [Descriptor.renameParams_interface, Descriptor.unexpanded, Descriptor.unexpanded,
      allUnexpanded_eq_flatMap, allUnexpanded_eq_flatMap, List.flatMap_map, List.map_flatMap,
      List.flatMap_congr ih]
  | _ => rfl

theorem expand_renameParams {d : Descriptor} (hd : d.KeepsTextOrder shapes ρ) :
    (d.renameParams ρ).expand shapes' = (d.expand shapes).renameParams ρ := by
  cases d with
  | interface ms es =>
    have hmethods := insertMethods_map (Signature.renameParams_name ρ) []
      ((Descriptor.interface ms es).collected shapes)
    have hunexpanded := MethodSet.inOrder_map (fun _ _ ↦ (Descriptor.renameParams_inj ρ).1) hd
    rw [← collected_renameParams h, Descriptor.renameParams_interface, List.map_nil] at hmethods
    rw [← unexpanded_renameParams h, Descriptor.renameParams_interface] at hunexpanded
    rw [Descriptor.renameParams_interface, Descriptor.expand, Descriptor.expand,
      Descriptor.renameParams_interface, MethodSet.ofElements_eq, MethodSet.ofElements_eq,
      hmethods, hunexpanded]
  | _ => rfl

theorem expanded_renameParams {d : Descriptor} (hd : d.KeepsTextOrder shapes ρ) :
    (d.renameParams ρ).expanded shapes' =
      (d.expanded shapes).map (Descriptor.renameParams ρ) := by
  rw [Descriptor.expanded, expand_renameParams h hd, Descriptor.children_renameParams]

end

theorem forall₂_congr_of_mem {α β : Type} {R Q : α → β → Prop} {as : List α} {bs : List β}
    (h : ∀ a ∈ as, ∀ b ∈ bs, R a b ↔ Q a b) : List.Forall₂ R as bs ↔ List.Forall₂ Q as bs := by
  rw [List.forall₂_iff_zip, List.forall₂_iff_zip]
  refine and_congr_right fun _ ↦ forall₂_congr fun a b ↦ forall_congr' fun hab ↦ ?_
  exact h a (List.of_mem_zip hab).1 b (List.of_mem_zip hab).2

def Shapes.KeepsTextOrders (shapes : Shapes) (ρ : Renaming) : Prop :=
  ∀ name ms, shapes.lookup name = some ms → ∀ s ∈ ms, ∀ d ∈ s.types, d.KeepsTextOrders shapes ρ

section

variable {ρ : Renaming} {shapes shapes' : Shapes} {n : Nat} {r a : Descriptor}
  (h : shapes.RenamedBy ρ shapes') (hshapes : shapes.KeepsTextOrders ρ)

include hshapes in
theorem Descriptor.KeepsTextOrders.of_mem_expanded {d c : Descriptor}
    (hd : d.KeepsTextOrders shapes ρ) (hc : c ∈ d.expanded shapes) :
    c.KeepsTextOrders shapes ρ := by
  rcases Descriptor.mem_expanded hc with ⟨x, hx, hc⟩ | ⟨name, ms, hname, s, hs, hc⟩
  · intro y hy
    exact hd y (Descriptor.mem_parts.2 (.inr ⟨x, hx, Descriptor.mem_parts_trans hc hy⟩))
  · exact hshapes name ms hname s hs c hc

include h hshapes

theorem fits_renameParams_iff (hr : r.KeepsTextOrders shapes ρ) (ha : a.KeepsTextOrders shapes ρ) :
    Fits shapes' n (r.renameParams ρ) (a.renameParams ρ) ↔ Fits shapes n r a := by
  induction n generalizing r a with
  | zero => exact Iff.rfl
  | succ n ih =>
    have hself := hr r r.self_mem_parts
    have haself := ha a a.self_mem_parts
    have hinner : (r.renameParams ρ).Matches shapes' shapes' (Fits shapes' n) (a.renameParams ρ) ↔
        r.Matches shapes shapes (Fits shapes n) a := by
      have houtline : ((r.renameParams ρ).expand shapes').outline =
          ((a.renameParams ρ).expand shapes').outline ↔
            (r.expand shapes).outline = (a.expand shapes).outline := by
        rw [expand_renameParams h hself, expand_renameParams h haself,
          Descriptor.outline_renameParams, Descriptor.outline_renameParams,
          Descriptor.renameParams_inj]
      have hchildren : List.Forall₂ (Fits shapes' n) ((r.renameParams ρ).expanded shapes')
          ((a.renameParams ρ).expanded shapes') ↔
            List.Forall₂ (Fits shapes n) (r.expanded shapes) (a.expanded shapes) := by
        rw [expanded_renameParams h hself, expanded_renameParams h haself,
          List.forall₂_map_left_iff, List.forall₂_map_right_iff]
        refine forall₂_congr_of_mem fun x hx y hy ↦ ?_
        exact ih (hr.of_mem_expanded hshapes hx) (ha.of_mem_expanded hshapes hy)
      constructor
      · rintro ⟨ho, hc⟩
        exact ⟨houtline.1 ho, hchildren.1 hc⟩
      · rintro ⟨ho, hc⟩
        exact ⟨houtline.2 ho, hchildren.2 hc⟩
    rw [Fits, Fits, identical_renameParams_iff, Descriptor.eq_param_renameParams_iff, hinner]

theorem meets_renameParams_iff {σ : Substitution} (hr : r.KeepsTextOrders shapes ρ)
    (ha : a.KeepsTextOrders shapes ρ) :
    Meets shapes' (fun k ↦ (σ (ρ.symm k)).renameParams ρ) n (r.renameParams ρ) (a.renameParams ρ) ↔
      Meets shapes σ n r a := by
  induction n generalizing r a with
  | zero => exact Iff.rfl
  | succ n ih =>
    have hself := hr r r.self_mem_parts
    have haself := ha a a.self_mem_parts
    have hparam : (∀ name owner, r.renameParams ρ = .param name owner →
        (σ (ρ.symm (owner, name))).renameParams ρ = a.renameParams ρ) ↔
          ∀ name owner, r = .param name owner → σ (owner, name) = a := by
      simp only [Descriptor.renameParams_inj]
      constructor
      · rintro hall name owner rfl
        rw [← hall _ _ rfl, Prod.mk.eta, Equiv.symm_apply_apply]
      · intro hall name owner hr
        apply hall
        rw [← r.renameParams_symm ρ, hr]
        rfl
    rw [Meets, Meets, identical_renameParams_iff, hparam, expanded_renameParams h hself,
      expanded_renameParams h haself, List.zip_map]
    simp only [List.forall_mem_map]
    refine or_congr_right (and_congr_right fun _ ↦ forall₂_congr fun x hx ↦ ?_)
    have hx := List.of_mem_zip hx
    exact ih (hr.of_mem_expanded hshapes hx.1) (ha.of_mem_expanded hshapes hx.2)

omit h hshapes

theorem renameParams_eq_of_mem_parts {d x : Descriptor} (hd : d.renameParams ρ = d)
    (hx : x ∈ d.parts) : x.renameParams ρ = x := by
  induction d using Descriptor.children_induct with
  | h d ih =>
    rcases Descriptor.mem_parts.1 hx with rfl | ⟨c, hc, hx⟩
    · exact hd
    · have hchildren := d.children_renameParams ρ
      rw [hd, ← List.map_id d.children, List.map_map] at hchildren
      exact ih c hc (List.map_inj_left.1 hchildren c hc).symm hx

theorem keepsTextOrders_of_renameParams_eq {d : Descriptor} (hd : d.renameParams ρ = d) :
    d.KeepsTextOrders shapes ρ := by
  intro x hx
  cases x with
  | interface ms es =>
    have hfixed {y : Descriptor} (hy : y ∈ (Descriptor.interface ms es).unexpanded shapes) :
        y.renameParams ρ = y :=
      renameParams_eq_of_mem_parts hd
        (Descriptor.mem_parts_trans hx (Descriptor.mem_parts_of_mem_unexpanded hy))
    intro y hy z hz
    rw [hfixed hy, hfixed hz]
  | _ => trivial

theorem Descriptor.length_unexpanded_le_one {d : Descriptor}
    (hd : ∀ ms es, .interface ms es ∈ d.parts → es.length ≤ 1) :
    (d.unexpanded shapes).length ≤ 1 := by
  induction d with
  | named name args _ =>
    cases args with
    | nil =>
      rw [Descriptor.unexpanded]
      split
      · exact Nat.zero_le 1
      · exact Nat.le_refl 1
    | cons a as => exact Nat.le_refl 1
  | interface ms es _ ih =>
    have hone : es.length ≤ 1 := hd ms es (Descriptor.self_mem_parts _)
    rw [Descriptor.unexpanded, allUnexpanded_eq_flatMap]
    cases es with
    | nil => exact Nat.zero_le 1
    | cons e fs =>
      have hnone : fs.length ≤ 0 := Nat.le_of_succ_le_succ hone
      obtain rfl := List.length_eq_zero_iff.1 (Nat.le_zero.1 hnone)
      rw [List.flatMap_singleton]
      refine ih e List.mem_cons_self fun ns fs hx ↦ hd ns fs ?_
      exact Descriptor.mem_parts.2 (.inr ⟨e, List.mem_append_right _ List.mem_cons_self, hx⟩)
  | _ => exact Nat.le_refl 1

theorem keepsTextOrders_of_length_le_one {d : Descriptor}
    (hd : ∀ ms es, .interface ms es ∈ d.parts → es.length ≤ 1) : d.KeepsTextOrders shapes ρ := by
  intro x hx
  cases x with
  | interface ms es =>
    have hone : ((Descriptor.interface ms es).unexpanded shapes).length ≤ 1 :=
      Descriptor.length_unexpanded_le_one fun ns fs hy ↦ hd ns fs (Descriptor.mem_parts_trans hx hy)
    intro y hy z hz
    obtain ⟨k, hk, rfl⟩ := List.getElem_of_mem hy
    obtain ⟨l, hl, rfl⟩ := List.getElem_of_mem hz
    obtain rfl : k = l := by omega
    exact iff_of_true (String.le_refl _) (String.le_refl _)
  | _ => trivial

theorem linked_map (cs : List Candidate) {f : Signature → Signature}
    (hf : ∀ s, (f s).name = s.name) (ss : List Signature) :
    linked cs (ss.map f) = (linked cs ss).map fun x ↦ (f x.1, x.2) := by
  rw [linked, linked, List.filterMap_map, List.map_filterMap]
  refine List.filterMap_congr fun s _ ↦ ?_
  rw [Function.comp_apply, hf, Option.map_map]
  rfl

theorem Satisfaction.ofPairs_linked_map (cs : List Candidate) {f : Signature → Signature}
    (hf : ∀ s, (f s).name = s.name) (ss : List Signature) :
    ofPairs (linked cs (ss.map f)) = ofPairs (linked cs ss) := by
  rw [linked_map cs hf, ofPairs, ofPairs, List.map_map, List.any_map]
  refine congrArg _ (List.map_congr_left fun x _ ↦ ?_)
  rw [Function.comp_apply, Link.ofPair, hf]
  rfl

theorem surjective_renameParams (ρ : Renaming) : Function.Surjective
    fun (σ : Substitution) (k : String × String) ↦ (σ (ρ.symm k)).renameParams ρ := by
  intro σ
  refine ⟨fun k ↦ (σ (ρ k)).renameParams ρ.symm, funext fun k ↦ ?_⟩
  have hback := (σ (ρ (ρ.symm k))).renameParams_symm ρ.symm
  rw [Equiv.symm_symm] at hback
  exact hback.trans (congrArg σ (ρ.apply_symm_apply k))

include h hshapes

/-- Methods with renamed type parameters are satisfied in the same way, if the candidates have none
that are renamed. -/
theorem satisfy_renameParams {policy : ReceiverPolicy} {cs : List Candidate} {ss : List Signature}
    (distinct : ∀ c ∈ cs, ∀ c' ∈ cs, c.signature.name = c'.signature.name → c = c')
    (hss : ∀ s ∈ ss, ∀ d ∈ s.types, d.KeepsTextOrders shapes ρ)
    (hcs : ∀ c ∈ cs, ∀ d ∈ c.signature.types, d.renameParams ρ = d) :
    satisfy shapes' policy cs [] (ss.map (Signature.renameParams ρ)) =
      satisfy shapes policy cs [] ss := by
  have hmatches {s : Signature} (hs : s ∈ ss) {c : Candidate} (hc : c ∈ cs) :
      (s.renameParams ρ).Matches (Fits shapes' comparisonLimit) c.signature ↔
        s.Matches (Fits shapes comparisonLimit) c.signature := by
    have htypes : List.Forall₂ (Fits shapes' comparisonLimit) (s.renameParams ρ).types
        c.signature.types ↔
          List.Forall₂ (Fits shapes comparisonLimit) s.types c.signature.types := by
      rw [Signature.renameParams_types, List.forall₂_map_left_iff]
      refine forall₂_congr_of_mem fun d hd d' hd' ↦ ?_
      have hd' := hcs c hc d' hd'
      rw [← fits_renameParams_iff h hshapes (hss s hs d hd)
        (keepsTextOrders_of_renameParams_eq hd'), hd']
    constructor
    · rintro ⟨hform, ht⟩
      exact ⟨(s.form_renameParams ρ).symm.trans hform, htypes.1 ht⟩
    · rintro ⟨hform, ht⟩
      exact ⟨(s.form_renameParams ρ).trans hform, htypes.2 ht⟩
  have hmeets {s : Signature} (hs : s ∈ ss) {c : Candidate} (hc : c ∈ cs) (σ : Substitution) :
      (∀ x ∈ (s.renameParams ρ).types.zip c.signature.types, Meets shapes'
          (fun k ↦ (σ (ρ.symm k)).renameParams ρ) comparisonLimit x.1 x.2) ↔
        ∀ x ∈ s.types.zip c.signature.types, Meets shapes σ comparisonLimit x.1 x.2 := by
    rw [Signature.renameParams_types, List.zip_map_left, List.forall_mem_map]
    refine forall₂_congr fun x hx ↦ ?_
    obtain ⟨hd, hd'⟩ := List.of_mem_zip hx
    have hd' := hcs c hc x.2 hd'
    rw [← meets_renameParams_iff h hshapes (hss s hs x.1 hd)
      (keepsTextOrders_of_renameParams_eq hd'), hd']
    rfl
  -- What type parameters stand for is renamed as well, and every substitution is a renamed one.
  have hsome : (satisfy shapes' policy cs [] (ss.map (Signature.renameParams ρ))).isSome ↔
      (satisfy shapes policy cs [] ss).isSome := by
    rw [satisfy_isSome_iff_fit policy distinct, satisfy_isSome_iff_fit policy distinct]
    refine and_congr ?_ ?_
    · simp only [MethodsFit, List.forall_mem_map]
      refine forall₂_congr fun s hs ↦ exists_congr fun c ↦ and_congr_right fun hc ↦ ?_
      rw [hmatches hs hc]
    · simp only [ParamsAgree, List.forall_mem_map, Signature.renameParams_name]
      rw [(surjective_renameParams ρ).exists]
      refine exists_congr fun σ ↦ forall₂_congr fun s hs ↦ forall₂_congr fun c hc ↦ ?_
      exact forall_congr' fun _ ↦ hmeets hs hc σ
  cases hfound : satisfy shapes policy cs [] ss with
  | none =>
    rw [hfound] at hsome
    exact Option.not_isSome_iff_eq_none.1 (mt hsome.1 Bool.false_ne_true)
  | some found =>
    rw [hfound] at hsome
    obtain ⟨found', hfound'⟩ := Option.isSome_iff_exists.1 (hsome.2 rfl)
    rw [hfound', satisfy_eq_some hfound', satisfy_eq_some hfound,
      Satisfaction.ofPairs_linked_map cs (Signature.renameParams_name ρ)]

end

end Conformance

import Conformance.Proofs.Marking.Places
import Conformance.Proofs.Reordering

namespace Conformance

variable {shapes : Shapes} {view : Descriptor → Descriptor} {d d' : Descriptor} {owner : String}
  {params : List String}

theorem Descriptor.OrderedLevel.of_outline (h : d.OrderedLevel)
    (houtline : d.outline = d'.outline) : d'.OrderedLevel := by
  cases d' with
  | interface ns fs =>
    obtain ⟨ms, es, rfl⟩ := Descriptor.eq_interface_of_outline houtline.symm
    have hforms : ms.map Signature.form = ns.map Signature.form := (interface.inj houtline).1
    have hns : (ns.map Signature.form).Pairwise (·.name ≤ ·.name) := by
      rw [← hforms]
      exact List.pairwise_map.2 h
    exact (List.pairwise_map (f := Signature.form)).1 hns
  | _ => trivial

theorem Descriptor.Reorders.ordered (hd : d.Reorders shapes view d') (h : d.Ordered) :
    d'.Ordered := by
  induction hd with
  | @elements ms es es' perm _ _ =>
    obtain ⟨hself, hchildren⟩ := Descriptor.forall_parts.1 h
    refine Descriptor.forall_parts.2 ⟨hself, fun c hc ↦ hchildren c ?_⟩
    exact ((perm.append_left (ms.flatMap Signature.types)).mem_iff).2 hc
  | @inside d d' c c' xs ys outline children children' _ _ ih =>
    obtain ⟨hself, hchildren⟩ := Descriptor.forall_parts.1 h
    rw [children, List.forall_mem_append, List.forall_mem_cons] at hchildren
    obtain ⟨hxs, hc, hys⟩ := hchildren
    refine Descriptor.forall_parts.2 ⟨hself.of_outline outline, ?_⟩
    rw [children', List.forall_mem_append, List.forall_mem_cons]
    exact ⟨hxs, ih hc, hys⟩

theorem Descriptor.Reorders.markParams
    (hd : d.Reorders shapes (Descriptor.markParams owner params) d') (h : d.Ordered) :
    (d.markParams owner params).Reorders shapes id (d'.markParams owner params) := by
  induction hd with
  | @elements ms es es' perm distinct order =>
    have hself : (interface ms es).OrderedLevel := h _ (Descriptor.self_mem_parts _)
    have hself' : (interface ms es').OrderedLevel := hself
    rw [Descriptor.markParams_interface hself] at distinct order ⊢
    rw [Descriptor.markParams_interface hself'] at order ⊢
    exact .elements (perm.map _) distinct order
  | @inside d d' c c' xs ys outline children children' order _ ih =>
    obtain ⟨hself, hchildren⟩ := Descriptor.forall_parts.1 h
    have hself' : d'.OrderedLevel := hself.of_outline outline
    have hc : c.Ordered := hchildren c (by simp [children])
    have houtline : (d.markParams owner params).outline = (d'.markParams owner params).outline := by
      rw [Descriptor.outline_markParams hself (by simp [children]),
        Descriptor.outline_markParams hself' (by simp [children']), outline]
    have hcs : (d.markParams owner params).children = xs.map (Descriptor.markParams owner params) ++
        c.markParams owner params :: ys.map (Descriptor.markParams owner params) := by
      rw [Descriptor.children_markParams hself, children, List.map_append, List.map_cons]
    have hcs' : (d'.markParams owner params).children = xs.map (Descriptor.markParams owner params) ++
        c'.markParams owner params :: ys.map (Descriptor.markParams owner params) := by
      rw [Descriptor.children_markParams hself', children', List.map_append, List.map_cons]
    exact .inside houtline hcs hcs' order (ih hc)

theorem keepsOrder_of_perm {ms : List Signature} {es es' : List Descriptor} (perm : es.Perm es')
    (texts : ∀ x ∈ ((Descriptor.interface ms es).markParams owner params).unexpanded shapes,
      ∀ y ∈ ((Descriptor.interface ms es).markParams owner params).unexpanded shapes,
        x.render = y.render → x = y) :
    KeepsOrder shapes ((Descriptor.interface ms es).markParams owner params)
      ((Descriptor.interface ms es').markParams owner params) := by
  left
  apply MethodSet.inOrder_congr _ texts
  intro x
  rw [Descriptor.markParams, Descriptor.markParams, Descriptor.ofElements, Descriptor.ofElements,
    Descriptor.unexpanded, Descriptor.unexpanded, allUnexpanded_eq_flatMap,
    allUnexpanded_eq_flatMap, markAllParams_eq_map, markAllParams_eq_map]
  exact ((perm.map _).flatMap_right _).mem_iff

theorem Reordered.markParams (h : Reordered shapes (Descriptor.markParams owner params) d d')
    (hd : d.Ordered) :
    Reordered shapes id (d.markParams owner params) (d'.markParams owner params) := by
  cases h with
  | refl => exact .refl
  | single h => exact .single (h.markParams hd)

theorem Reordered.ordered (h : Reordered shapes view d d') (hd : d.Ordered) : d'.Ordered := by
  cases h with
  | refl => exact hd
  | single h => exact h.ordered hd

theorem Signature.Matches.markParams {s s' : Signature}
    (h : s.Matches (Reordered shapes (Descriptor.markParams owner params)) s')
    (hs : ∀ d ∈ s.types, d.Ordered) :
    (s.markParams owner params).Matches (Reordered shapes id) (s'.markParams owner params) := by
  refine ⟨?_, ?_⟩
  · rw [Signature.form_markParams, Signature.form_markParams, h.form]
  · rw [Signature.markParams_types, Signature.markParams_types, List.forall₂_map_left_iff,
      List.forall₂_map_right_iff]
    exact forall₂_imp_of_mem h.types fun d hd d' hdd' ↦ hdd'.markParams (hs d hd)

end Conformance

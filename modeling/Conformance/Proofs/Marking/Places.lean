import Conformance.Proofs.Expansion
import Conformance.Proofs.Marking

namespace Conformance

variable {d d' : Descriptor} {owner : String} {params : List String}

theorem Descriptor.markParams_interface {ms : List Signature} {es : List Descriptor}
    (h : (interface ms es).OrderedLevel) : (interface ms es).markParams owner params =
      .interface (ms.map (Signature.markParams owner params))
        (es.map (Descriptor.markParams owner params)) := by
  rw [Descriptor.markParams, markSignatureParams_eq_map, markAllParams_eq_map]
  apply ofElements_of_pairwise
  refine List.pairwise_map.2 (h.imp fun {s t} hle ↦ ?_)
  rw [Signature.markParams_name, Signature.markParams_name]
  exact hle

theorem Descriptor.children_markParams (h : d.OrderedLevel) :
    (d.markParams owner params).children = d.children.map (Descriptor.markParams owner params) := by
  cases d with
  | named name args =>
    cases args with
    | nil => rw [Descriptor.markParams]; split <;> rfl
    | cons a as => rw [Descriptor.markParams, markAllParams_eq_map]; rfl
  | interface ms es =>
    rw [Descriptor.markParams_interface h]
    simp only [Descriptor.children, List.map_append, List.flatMap_map, List.map_flatMap,
      Signature.markParams_types]
  | func ps rs variadic =>
    simp only [Descriptor.markParams, Descriptor.children, markAllParams_eq_map, List.map_append]
  | struct fs =>
    simp only [Descriptor.markParams, Descriptor.children, markFieldParams_eq_map, List.map_map,
      Function.comp_def, Field.markParams_type]
  | _ => rfl

theorem Signature.form_markParams (s : Signature) : (s.markParams owner params).form = s.form := by
  simp only [Signature.form, Signature.markParams_eq, List.map_map, Function.comp_def]

theorem Descriptor.outline_markParams_of_ne (h : d.OrderedLevel)
    (hnames : ∀ name ∈ params, d ≠ .simple name) :
    (d.markParams owner params).outline = d.outline := by
  cases d with
  | named name args =>
    cases args with
    | nil =>
      have hname : name ∉ params := fun hname ↦ hnames name hname rfl
      rw [Descriptor.markParams, if_neg hname]
    | cons a as =>
      simp only [Descriptor.markParams, Descriptor.outline, markAllParams_eq_map, List.map_cons,
        List.map_map, Function.comp_def]
  | interface ms es =>
    rw [Descriptor.markParams_interface h]
    simp only [Descriptor.outline, List.map_map, Function.comp_def, Signature.form_markParams]
  | func ps rs variadic =>
    simp only [Descriptor.markParams, Descriptor.outline, markAllParams_eq_map, List.map_map,
      Function.comp_def]
  | struct fs =>
    simp only [Descriptor.markParams, Descriptor.outline, markFieldParams_eq_map, List.map_map,
      Function.comp_def, Field.markParams_name]
  | _ => rfl

theorem Descriptor.outline_markParams (h : d.OrderedLevel) (hchildren : d.children ≠ []) :
    (d.markParams owner params).outline = d.outline := by
  apply Descriptor.outline_markParams_of_ne h
  rintro name - rfl
  exact hchildren rfl

/-- The type at a place inside. Each number counts the types directly inside the one before. -/
def Descriptor.at? (d : Descriptor) : (place : List Nat) → Option Descriptor
  | [] => some d
  | i :: place => (d.children[i]?).bind fun c ↦ c.at? place

theorem Descriptor.mem_parts_of_at? {x : Descriptor} {place : List Nat}
    (h : d.at? place = some x) : x ∈ d.parts := by
  induction place generalizing d with
  | nil =>
    cases h
    exact Descriptor.self_mem_parts _
  | cons i place ih =>
    obtain ⟨c, hc, hx⟩ := Option.bind_eq_some_iff.1 h
    exact Descriptor.mem_parts.2 (.inr ⟨c, List.mem_of_getElem? hc, ih hx⟩)

/-- A type is what stands at its places, level by level. -/
theorem Descriptor.eq_of_at? (h : ∀ place,
    (d.at? place).map Descriptor.outline = (d'.at? place).map Descriptor.outline) : d = d' := by
  induction d using Descriptor.children_induct generalizing d' with
  | h d ih =>
    apply Descriptor.Alike.eq
    refine ⟨Option.some.inj (h []), ?_⟩
    rw [List.forall₂_eq_eq_eq]
    apply List.ext_getElem?
    intro i
    have hplace (place : List Nat) : ((d.children[i]?).bind (·.at? place)).map Descriptor.outline =
        ((d'.children[i]?).bind (·.at? place)).map Descriptor.outline := h (i :: place)
    cases hc : d.children[i]? with
    | none =>
      cases hc' : d'.children[i]? with
      | none => rfl
      | some c' => simpa [hc, hc', Descriptor.at?] using hplace []
    | some c =>
      cases hc' : d'.children[i]? with
      | none => simpa [hc, hc', Descriptor.at?] using hplace []
      | some c' =>
        rw [hc, hc'] at hplace
        rw [ih c (List.mem_of_getElem? hc) hplace]

theorem Descriptor.Ordered.at?_markParams (h : d.Ordered) (place : List Nat) :
    (d.markParams owner params).at? place =
      (d.at? place).map (Descriptor.markParams owner params) := by
  induction place generalizing d with
  | nil => rfl
  | cons i place ih =>
    obtain ⟨hd, hchildren⟩ := Descriptor.forall_parts.1 h
    rw [Descriptor.at?, Descriptor.at?, Descriptor.children_markParams hd, List.getElem?_map]
    cases hc : d.children[i]? with
    | none => rfl
    | some c => exact ih (hchildren c (List.mem_of_getElem? hc))

/-- Place by place the second type is the first one with `params` as type parameters of `owner`. -/
structure Descriptor.IsMarking (owner : String) (params : List String) (d d' : Descriptor) :
    Prop where
  marked : ∀ place name, name ∈ params → d.at? place = some (.simple name) →
    d'.at? place = some (.param name owner)
  /-- At every other place there is the same type as before, leaving aside the types inside it. -/
  kept : ∀ place, (∀ name ∈ params, d.at? place ≠ some (.simple name)) →
    (d'.at? place).map Descriptor.outline = (d.at? place).map Descriptor.outline

theorem Descriptor.Ordered.isMarking (h : d.Ordered) :
    d.IsMarking owner params (d.markParams owner params) where
  marked place name hname hat := by
    rw [h.at?_markParams, hat, Option.map_some, Descriptor.markParams, if_pos hname]
  kept place hnames := by
    rw [h.at?_markParams]
    cases hat : d.at? place with
    | none => rfl
    | some x =>
      have hx : ∀ name ∈ params, x ≠ .simple name := by
        rintro name hname rfl
        exact hnames name hname hat
      rw [Option.map_some, Option.map_some, Option.map_some,
        Descriptor.outline_markParams_of_ne (h x (Descriptor.mem_parts_of_at? hat)) hx]

theorem Descriptor.IsMarking.unique {e : Descriptor} (h : d.IsMarking owner params d')
    (h' : d.IsMarking owner params e) : d' = e := by
  apply Descriptor.eq_of_at?
  intro place
  by_cases hname : ∃ name ∈ params, d.at? place = some (.simple name)
  · obtain ⟨name, hname, hat⟩ := hname
    rw [h.marked place name hname hat, h'.marked place name hname hat]
  · simp only [not_exists, not_and] at hname
    rw [h.kept place hname, h'.kept place hname]

/-- The second signature has the types of the first one, marked, and is the same otherwise. -/
structure Signature.IsMarking (owner : String) (params : List String) (s s' : Signature) :
    Prop where
  form : s'.form = s.form
  types : List.Forall₂ (Descriptor.IsMarking owner params) s.types s'.types

theorem Signature.isMarking {s : Signature} (h : ∀ d ∈ s.types, d.Ordered) :
    s.IsMarking owner params (s.markParams owner params) where
  form := s.form_markParams
  types := by
    rw [Signature.markParams_types, List.forall₂_map_right_iff, List.forall₂_same]
    exact fun d hd ↦ (h d hd).isMarking

/-- Whether results stand in parentheses depends on what marking keeps. -/
theorem resultsText_map_markParams (rs : List Descriptor) :
    resultsText (rs.map (Descriptor.markParams owner params)) (rs.map Descriptor.render) =
      resultsText rs (rs.map Descriptor.render) := by
  cases rs with
  | nil => rfl
  | cons r rs =>
    rw [List.map_cons, List.map_cons]
    cases r with
    | named name args =>
      cases args with
      | nil =>
        rw [Descriptor.markParams]
        split <;> cases rs <;> rfl
      | cons a as => cases rs <;> rfl
    | _ => cases rs <;> rfl

theorem Signature.render_markParams_of_types {s : Signature}
    (h : ∀ d ∈ s.types, (d.markParams owner params).render = d.render) :
    (s.markParams owner params).render = s.render := by
  obtain ⟨name, ps, rs, variadic⟩ := s
  have hall {ds : List Descriptor} (hds : ∀ d ∈ ds, d ∈ ps ++ rs) :
      (ds.map (Descriptor.markParams owner params)).map Descriptor.render =
        ds.map Descriptor.render := by
    rw [List.map_map]
    exact List.map_congr_left fun d hd ↦ h d (hds d hd)
  rw [Signature.markParams_eq, Signature.render, Signature.render]
  simp only [renderAll_eq_map, hall fun d hd ↦ List.mem_append_left _ hd,
    hall fun d hd ↦ List.mem_append_right _ hd, resultsText_map_markParams]

theorem Descriptor.Ordered.render_markParams (h : d.Ordered) :
    (d.markParams owner params).render = d.render := by
  induction d using Descriptor.children_induct with
  | h d ih =>
    obtain ⟨hd, hchildren⟩ := Descriptor.forall_parts.1 h
    have ih (c : Descriptor) (hc : c ∈ d.children) :
        (c.markParams owner params).render = c.render := ih c hc (hchildren c hc)
    have hall {ds : List Descriptor} (hds : ∀ c ∈ ds, c ∈ d.children) :
        (ds.map (Descriptor.markParams owner params)).map Descriptor.render =
          ds.map Descriptor.render := by
      rw [List.map_map]
      exact List.map_congr_left fun c hc ↦ ih c (hds c hc)
    cases d with
    | named name args =>
      cases args with
      | nil =>
        rw [Descriptor.markParams]
        split <;> rfl
      | cons a as =>
        have hargs : ((a :: as).map (Descriptor.markParams owner params)).map Descriptor.render =
            (a :: as).map Descriptor.render := hall fun c hc ↦ hc
        rw [Descriptor.markParams, Descriptor.render, Descriptor.render]
        simp only [renderAll_eq_map, markAllParams_eq_map, ← List.map_cons, hargs]
    | param name other => rfl
    | pointer e | slice e | array len e | chan dir e =>
      rw [Descriptor.markParams, Descriptor.render, Descriptor.render, ih e List.mem_cons_self]
    | map k v =>
      rw [Descriptor.markParams, Descriptor.render, Descriptor.render, ih k List.mem_cons_self,
        ih v (List.mem_cons_of_mem _ List.mem_cons_self)]
    | func ps rs variadic =>
      rw [Descriptor.markParams, Descriptor.render, Descriptor.render]
      simp only [renderAll_eq_map, markAllParams_eq_map,
        hall fun c hc ↦ List.mem_append_left _ hc, hall fun c hc ↦ List.mem_append_right _ hc,
        resultsText_map_markParams]
    | interface ms es =>
      have hms : (ms.map (Signature.markParams owner params)).map Signature.render =
          ms.map Signature.render := by
        rw [List.map_map]
        refine List.map_congr_left fun s hs ↦ Signature.render_markParams_of_types fun c hc ↦ ?_
        exact ih c (List.mem_append_left _ (List.mem_flatMap.2 ⟨s, hs, hc⟩))
      rw [Descriptor.markParams_interface hd, Descriptor.render, Descriptor.render]
      simp only [renderAll_eq_map, renderSignatures_eq_map, hms,
        hall fun c hc ↦ List.mem_append_right _ hc]
    | struct fs =>
      have hfs : (fs.map (Field.markParams owner params)).map Field.render =
          fs.map Field.render := by
        rw [List.map_map]
        refine List.map_congr_left fun f hf ↦ ?_
        obtain ⟨_ | name, e⟩ := f
        · exact ih e (List.mem_map_of_mem hf)
        · rw [Function.comp_apply, Field.markParams, Field.render, Field.render,
            ih e (List.mem_map_of_mem hf)]
      rw [Descriptor.markParams, Descriptor.render, Descriptor.render]
      simp only [markFieldParams_eq_map, renderFields_eq_map, hfs]

end Conformance

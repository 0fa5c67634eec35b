import Conformance.Proofs.Renaming

namespace Conformance

section

variable (f : String → String)

mutual

/-- The descriptor with other names for the types that have no arguments. -/
def Descriptor.renameTypes : Descriptor → Descriptor
  | .named name [] => .named (f name) []
  | .named name (a :: as) => .named name (a.renameTypes :: renameAllTypes as)
  | .param name owner => .param name owner
  | .pointer e => .pointer e.renameTypes
  | .slice e => .slice e.renameTypes
  | .array len e => .array len e.renameTypes
  | .map k v => .map k.renameTypes v.renameTypes
  | .chan dir e => .chan dir e.renameTypes
  | .func ps rs variadic => .func (renameAllTypes ps) (renameAllTypes rs) variadic
  | .interface ms es => .interface (renameSignatureTypes ms) (renameAllTypes es)
  | .struct fs => .struct (renameFieldTypes fs)

def renameAllTypes : List Descriptor → List Descriptor
  | [] => []
  | d :: ds => d.renameTypes :: renameAllTypes ds

def Signature.renameTypes : Signature → Signature
  | ⟨name, ps, rs, variadic⟩ => ⟨name, renameAllTypes ps, renameAllTypes rs, variadic⟩

def renameSignatureTypes : List Signature → List Signature
  | [] => []
  | s :: ss => s.renameTypes :: renameSignatureTypes ss

def Field.renameTypes : Field → Field
  | ⟨name, d⟩ => ⟨name, d.renameTypes⟩

def renameFieldTypes : List Field → List Field
  | [] => []
  | f :: fs => f.renameTypes :: renameFieldTypes fs

end

@[simp]
theorem renameAllTypes_eq_map (ds : List Descriptor) :
    renameAllTypes f ds = ds.map (Descriptor.renameTypes f) := by
  induction ds with
  | nil => rfl
  | cons d ds ih => simp only [renameAllTypes, ih, List.map_cons]

theorem Signature.renameTypes_eq (s : Signature) : s.renameTypes f =
    ⟨s.name, s.params.map (Descriptor.renameTypes f), s.results.map (Descriptor.renameTypes f),
      s.variadic⟩ := by
  cases s
  simp only [Signature.renameTypes, renameAllTypes_eq_map]

@[simp]
theorem Signature.renameTypes_name (s : Signature) : (s.renameTypes f).name = s.name := by
  rw [Signature.renameTypes_eq]

theorem Signature.renameTypes_types (s : Signature) :
    (s.renameTypes f).types = s.types.map (Descriptor.renameTypes f) := by
  rw [Signature.renameTypes_eq, Signature.types, Signature.types, List.map_append]

@[simp]
theorem renameSignatureTypes_eq_map (ss : List Signature) :
    renameSignatureTypes f ss = ss.map (Signature.renameTypes f) := by
  induction ss with
  | nil => rfl
  | cons s ss ih => simp only [renameSignatureTypes, ih, List.map_cons]

@[simp]
theorem renameFieldTypes_eq_map (fs : List Field) :
    renameFieldTypes f fs = fs.map (Field.renameTypes f) := by
  induction fs with
  | nil => rfl
  | cons g fs ih => simp only [renameFieldTypes, ih, List.map_cons]

theorem Field.renameTypes_eq (g : Field) : g.renameTypes f = ⟨g.name, g.type.renameTypes f⟩ := by
  cases g
  simp only [Field.renameTypes]

theorem Descriptor.children_renameTypes (d : Descriptor) :
    (d.renameTypes f).children = d.children.map (Descriptor.renameTypes f) := by
  cases d with
  | named name args =>
    cases args with
    | nil => rfl
    | cons a as => simp only [Descriptor.renameTypes, renameAllTypes_eq_map]; rfl
  | interface ms es =>
    simp only [Descriptor.renameTypes, renameSignatureTypes_eq_map, renameAllTypes_eq_map,
      Descriptor.children, List.flatMap_map, List.map_append, List.map_flatMap,
      Signature.renameTypes_types]
  | func ps rs variadic =>
    simp only [Descriptor.renameTypes, renameAllTypes_eq_map, Descriptor.children, List.map_append]
  | struct fs =>
    simp only [Descriptor.renameTypes, renameFieldTypes_eq_map, Descriptor.children, List.map_map,
      Function.comp_def, Field.renameTypes_eq]
  | _ => rfl

theorem Descriptor.eq_named_of_renameTypes {d : Descriptor} {name : String}
    {args : List Descriptor} (h : d.renameTypes f = .named name args) :
    (∃ n, d = .named n [] ∧ name = f n ∧ args = []) ∨ ∃ a as, d = .named name (a :: as) := by
  cases d with
  | named n as =>
    cases as with
    | nil =>
      obtain ⟨rfl, rfl⟩ := named.inj h
      exact .inl ⟨n, rfl, rfl, rfl⟩
    | cons a as =>
      obtain ⟨rfl, -⟩ := named.inj h
      exact .inr ⟨a, as, rfl⟩
  | _ => cases h

theorem Signature.exists_of_mem_parts_renameTypes {s : Signature} {x : Descriptor}
    (hx : x ∈ (s.renameTypes f).parts) : ∃ y ∈ s.parts, y.renameTypes f = x := by
  obtain ⟨d', hd', hx⟩ := Signature.mem_parts.1 hx
  rw [Signature.renameTypes_types] at hd'
  obtain ⟨d, hd, rfl⟩ := List.mem_map.1 hd'
  have hchildren (d c : Descriptor) (hc : c ∈ (d.renameTypes f).children) :
      ∃ c' ∈ d.children, c'.renameTypes f = c := by
    rw [Descriptor.children_renameTypes] at hc
    exact List.mem_map.1 hc
  obtain ⟨y, hy, he⟩ := Descriptor.exists_of_mem_parts_map hchildren hx
  exact ⟨y, Signature.mem_parts.2 ⟨d, hd, hy⟩, he⟩

end

def renamed (old new name : String) : String := if name = old then new else name

/-- The type parameters of `owner` belong to `owner'`, and `old` is called `new`. -/
def Renaming.ofParam (owner owner' old new : String) : Renaming :=
  ((Equiv.swap owner owner').prodCongr (.refl _)).trans (Equiv.swap (owner', old) (owner', new))

section

variable {owner owner' old new : String}

theorem renamed_old : renamed old new old = new := if_pos rfl

theorem renamed_of_ne {name : String} (h : name ≠ old) : renamed old new name = name := if_neg h

theorem mem_map_renamed_iff {name : String} {params : List String} (hold : name ≠ old)
    (hnew : name ≠ new) : name ∈ params.map (renamed old new) ↔ name ∈ params := by
  rw [List.mem_map]
  constructor
  · rintro ⟨param, hparam, rfl⟩
    have hne : param ≠ old := fun he ↦ hnew (he ▸ renamed_old)
    rwa [renamed_of_ne hne]
  · intro hname
    exact ⟨name, hname, renamed_of_ne hold⟩

theorem Renaming.ofParam_old : ofParam owner owner' old new (owner, old) = (owner', new) := by
  simp [ofParam]

theorem Renaming.ofParam_of_ne {name : String} (hold : name ≠ old) (hnew : name ≠ new) :
    ofParam owner owner' old new (owner, name) = (owner', name) := by
  simp [ofParam, Equiv.swap_apply_of_ne_of_ne, hold, hnew]

theorem Renaming.ofParam_of_owner_ne {other name : String} (h : other ≠ owner)
    (h' : other ≠ owner') : ofParam owner owner' old new (other, name) = (other, name) := by
  simp [ofParam, Equiv.swap_apply_of_ne_of_ne, h, h']

end

theorem Descriptor.renameParams_ofElements (ρ : Renaming) (ms : List Signature)
    (es : List Descriptor) : (ofElements ms es).renameParams ρ =
      .ofElements (ms.map (Signature.renameParams ρ)) (es.map (Descriptor.renameParams ρ)) := by
  rw [ofElements, ofElements, Descriptor.renameParams_interface]
  refine congrArg (interface · _) (List.map_mergeSort fun s _ t _ ↦ ?_)
  rw [Signature.renameParams_name, Signature.renameParams_name]

section

variable {owner owner' old new : String} {params : List String}

theorem Descriptor.markParams_renameTypes_simple {name : String} (hold : old ∈ params)
    (hne : name ≠ new) :
    ((simple name).renameTypes (renamed old new)).markParams owner' (params.map (renamed old new)) =
      ((simple name).markParams owner params).renameParams (.ofParam owner owner' old new) := by
  rw [Descriptor.renameTypes, Descriptor.markParams, Descriptor.markParams]
  by_cases he : name = old
  · rw [he, renamed_old, if_pos hold, if_pos (List.mem_map.2 ⟨old, hold, renamed_old⟩),
      Descriptor.renameParams, Descriptor.subst, Renaming.ofParam_old]
  · rw [renamed_of_ne he]
    by_cases hmem : name ∈ params
    · rw [if_pos hmem, if_pos ((mem_map_renamed_iff he hne).2 hmem),
        Descriptor.renameParams, Descriptor.subst, Renaming.ofParam_of_ne he hne]
    · rw [if_neg hmem, if_neg (mt (mem_map_renamed_iff he hne).1 hmem)]
      rfl

theorem Signature.markParams_renameTypes_of_types {s : Signature} (h : ∀ d ∈ s.types,
    (d.renameTypes (renamed old new)).markParams owner' (params.map (renamed old new)) =
      (d.markParams owner params).renameParams (.ofParam owner owner' old new)) :
    (s.renameTypes (renamed old new)).markParams owner' (params.map (renamed old new)) =
      (s.markParams owner params).renameParams (.ofParam owner owner' old new) := by
  cases s
  simp only [Signature.renameTypes_eq, Signature.markParams_eq, Signature.renameParams,
    Signature.subst_eq, List.map_map, Signature.mk.injEq, true_and, and_true]
  exact ⟨List.map_congr_left fun d hd ↦ h d (List.mem_append_left _ hd),
    List.map_congr_left fun d hd ↦ h d (List.mem_append_right _ hd)⟩

/-- If a type parameter gets a name that does not occur, the marked type follows. -/
theorem Descriptor.markParams_renameTypes {d : Descriptor} (hold : old ∈ params)
    (hd : d.mentionsParam = false) (hnew : .named new [] ∉ d.parts) :
    (d.renameTypes (renamed old new)).markParams owner' (params.map (renamed old new)) =
      (d.markParams owner params).renameParams (.ofParam owner owner' old new) := by
  induction d using Descriptor.children_induct with
  | h d ih =>
    have ih (c : Descriptor) (hc : c ∈ d.children) :=
      ih c hc (Descriptor.mentionsParam_of_mem_children hd hc)
        fun hx ↦ hnew (Descriptor.mem_parts.2 (.inr ⟨c, hc, hx⟩))
    have hall {ds : List Descriptor} (hds : ∀ c ∈ ds, c ∈ d.children) :
        (ds.map (renameTypes (renamed old new))).map
            (markParams owner' (params.map (renamed old new))) =
          (ds.map (markParams owner params)).map
            (renameParams (.ofParam owner owner' old new)) := by
      rw [List.map_map, List.map_map]
      exact List.map_congr_left fun c hc ↦ ih c (hds c hc)
    cases d with
    | named name args =>
      cases args with
      | nil =>
        exact markParams_renameTypes_simple hold fun he ↦ hnew (he ▸ Descriptor.self_mem_parts _)
      | cons a as =>
        simp only [Descriptor.renameTypes, Descriptor.markParams, renameAllTypes_eq_map,
          markAllParams_eq_map, Descriptor.renameParams, Descriptor.subst, substAll_eq_map]
        exact congrArg (named name) (hall fun c hc ↦ hc)
    | param name other => cases hd
    | pointer e | slice e | array len e | chan dir e =>
      simp only [Descriptor.renameTypes, Descriptor.markParams, ih e List.mem_cons_self]
      rfl
    | map k v =>
      simp only [Descriptor.renameTypes, Descriptor.markParams, ih k List.mem_cons_self,
        ih v (List.mem_cons_of_mem _ List.mem_cons_self)]
      rfl
    | func ps rs variadic =>
      simp only [Descriptor.renameTypes, Descriptor.markParams, renameAllTypes_eq_map,
        markAllParams_eq_map, hall fun c hc ↦ List.mem_append_left _ hc,
        hall fun c hc ↦ List.mem_append_right _ hc, Descriptor.renameParams, Descriptor.subst,
        substAll_eq_map]
      rfl
    | interface ms es =>
      have hms : (ms.map (Signature.renameTypes (renamed old new))).map
            (Signature.markParams owner' (params.map (renamed old new))) =
          (ms.map (Signature.markParams owner params)).map
            (Signature.renameParams (.ofParam owner owner' old new)) := by
        rw [List.map_map, List.map_map]
        refine List.map_congr_left fun s hs ↦ ?_
        exact Signature.markParams_renameTypes_of_types fun c hc ↦
          ih c (List.mem_append_left _ (List.mem_flatMap.2 ⟨s, hs, hc⟩))
      rw [Descriptor.renameTypes, Descriptor.markParams, Descriptor.markParams,
        Descriptor.renameParams_ofElements, renameSignatureTypes_eq_map, renameAllTypes_eq_map,
        markSignatureParams_eq_map, markSignatureParams_eq_map, markAllParams_eq_map,
        markAllParams_eq_map, hms, hall fun c hc ↦ List.mem_append_right _ hc]
    | struct fs =>
      have hfs : (fs.map (Field.renameTypes (renamed old new))).map
            (Field.markParams owner' (params.map (renamed old new))) =
          (fs.map (Field.markParams owner params)).map
            (Field.subst fun k ↦ .param (Renaming.ofParam owner owner' old new k).2
              (Renaming.ofParam owner owner' old new k).1) := by
        rw [List.map_map, List.map_map]
        refine List.map_congr_left fun g hg ↦ ?_
        obtain ⟨name, e⟩ := g
        have he := ih e (List.mem_map_of_mem hg)
        simp only [Function.comp_apply, Field.renameTypes, Field.markParams, Field.subst, he]
        rfl
      simp only [Descriptor.renameTypes, Descriptor.markParams, renameFieldTypes_eq_map,
        markFieldParams_eq_map, hfs, Descriptor.renameParams, Descriptor.subst,
        substFields_eq_map]

theorem Descriptor.owner_of_mem_parts_markParams {d : Descriptor} (hd : d.mentionsParam = false)
    {name other : String} (hx : .param name other ∈ (d.markParams owner params).parts) :
    other = owner := by
  obtain ⟨y, hy, he⟩ := Descriptor.exists_of_mem_parts_markParams hx
  cases y with
  | named n args =>
    cases args with
    | nil =>
      rw [Descriptor.markParams] at he
      split at he
      · exact (param.inj he).2.symm
      · cases he
    | cons a as => cases he
  | param n k => cases Descriptor.mentionsParam_of_mem_parts hd hy
  | _ => cases he

theorem Descriptor.length_le_one_of_mem_parts_markParams {d : Descriptor}
    (hd : ∀ ms es, .interface ms es ∈ d.parts → es.length ≤ 1) :
    ∀ ms es, .interface ms es ∈ (d.markParams owner params).parts → es.length ≤ 1 := by
  intro ms es hx
  obtain ⟨y, hy, he⟩ := Descriptor.exists_of_mem_parts_markParams hx
  cases y with
  | interface ns fs =>
    rw [Descriptor.markParams, markAllParams_eq_map] at he
    obtain ⟨-, rfl⟩ := interface.inj he
    rw [List.length_map]
    exact hd ns fs hy
  | named n args =>
    cases args with
    | nil =>
      rw [Descriptor.markParams] at he
      split at he <;> cases he
    | cons a as => cases he
  | _ => cases he

theorem Descriptor.renameParams_markParams_of_ne {other : String} {d : Descriptor}
    (hd : d.mentionsParam = false) (h : other ≠ owner) (h' : other ≠ owner') :
    (d.markParams other params).renameParams (.ofParam owner owner' old new) =
      d.markParams other params := by
  refine Descriptor.subst_eq_self fun name k hx ↦ ?_
  rw [Descriptor.owner_of_mem_parts_markParams hd hx, Renaming.ofParam_of_owner_ne h h']

end

end Conformance

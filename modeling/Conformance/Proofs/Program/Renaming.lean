import Conformance.Proofs.Program.Edges
import Conformance.Proofs.Renaming.Marking

namespace Conformance

open Relation

namespace InterfaceDecl

def renameParam (old new : String) (d : InterfaceDecl) : InterfaceDecl :=
  { d with
    typeParams := d.typeParams.map (renamed old new)
    methods := d.methods.map (Signature.renameTypes (renamed old new)) }

/-- What becomes of the type parameters, which belong to the display name. -/
abbrev paramRenaming (d : InterfaceDecl) (old new : String) : Renaming :=
  .ofParam d.displayName (d.renameParam old new).displayName old new

theorem displayName_of_name {d : InterfaceDecl} {name : String} (h : d.name = some name) :
    d.displayName = name := by
  rw [displayName, h]

theorem brace_mem_displayName {d : InterfaceDecl} (h : d.name = none) :
    '{' ∈ d.displayName.toList := by
  rw [displayName, h]
  simp only [String.toList_append, List.mem_append]
  exact .inl (.inl (by decide))

end InterfaceDecl

theorem map_modify_of_eq {α β : Type} {f : α → β} {g : α → α} (h : ∀ x, f (g x) = f x)
    (xs : List α) (i : Nat) : (xs.modify i g).map f = xs.map f := by
  apply List.ext_getElem?
  intro j
  rw [List.getElem?_map, List.getElem?_map, List.getElem?_modify]
  cases xs[j]? with
  | none => rfl
  | some x =>
    simp only [Option.map_eq_map, Option.map_some]
    split
    · rw [h]
    · rfl

namespace Program

def renameParam (p : Program) (i : InterfaceId) (old new : String) : Program :=
  { p with interfaces := p.interfaces.modify i (.renameParam old new) }

section

variable {p : Program} {i j : InterfaceId} {old new : String}

theorem getElem?_renameParam_iff {d : InterfaceDecl} :
    (p.renameParam i old new).interfaces[j]? = some d ↔ ∃ e, p.interfaces[j]? = some e ∧
      (if i = j then e.renameParam old new else e) = d := by
  rw [renameParam, List.getElem?_modify, Option.map_eq_map, Option.map_eq_some_iff]

theorem getElem?_renameParam_of_ne (h : j ≠ i) :
    (p.renameParam i old new).interfaces[j]? = p.interfaces[j]? := by
  ext d
  simp [getElem?_renameParam_iff, h.symm]

theorem getElem?_renameParam_self {d : InterfaceDecl} (h : p.interfaces[i]? = some d) :
    (p.renameParam i old new).interfaces[i]? = some (d.renameParam old new) :=
  getElem?_renameParam_iff.2 ⟨d, h, if_pos rfl⟩

theorem length_interfaces_renameParam :
    (p.renameParam i old new).interfaces.length = p.interfaces.length :=
  List.length_modify ..

theorem map_interfaces_renameParam {α : Type} {f : InterfaceDecl → α}
    (h : ∀ d : InterfaceDecl, f (d.renameParam old new) = f d) :
    (p.renameParam i old new).interfaces.map f = p.interfaces.map f :=
  map_modify_of_eq h _ _

theorem names_renameParam : (p.renameParam i old new).names = p.names := by
  have hdeclared (q : Program) : q.names.declared =
      (q.interfaces.map (·.name)).zipIdx.filterMap
          (fun x ↦ x.1.map fun name ↦ (name, Symbol.interface x.2)) ++
        q.types.zipIdx.map fun x ↦ (x.1.name, .type x.2) := by
    rw [List.zipIdx_map, List.filterMap_map]
    rfl
  have hsame : (p.renameParam i old new).names.declared = p.names.declared := by
    rw [hdeclared, hdeclared, map_interfaces_renameParam fun _ ↦ rfl]
    rfl
  exact congrArg (Names.mk · p.externals) hsame

theorem declaredNames_renameParam : (p.renameParam i old new).declaredNames = p.declaredNames := by
  rw [← map_fst_declared, ← map_fst_declared, names_renameParam]

theorem knows_renameParam {name : String} :
    (p.renameParam i old new).Knows name ↔ p.Knows name := by
  rw [Knows, Knows, declaredNames_renameParam]
  rfl

theorem candidates_renameParam : (p.renameParam i old new).candidates = p.candidates := by
  rw [candidates, candidates, attachments, attachments, names_renameParam]
  rfl

theorem exists_interface_renameParam_iff {α : Type} {f : InterfaceDecl → α}
    (hf : ∀ d : InterfaceDecl, f (d.renameParam old new) = f d) {x : α} :
    (∃ d, (p.renameParam i old new).interfaces[j]? = some d ∧ f d = x) ↔
      ∃ d, p.interfaces[j]? = some d ∧ f d = x := by
  rw [← Option.map_eq_some_iff, ← List.getElem?_map, map_interfaces_renameParam hf,
    List.getElem?_map, Option.map_eq_some_iff]

theorem mem_map_renameParam_iff {α : Type} {f : InterfaceDecl → α}
    (hf : ∀ d : InterfaceDecl, f (d.renameParam old new) = f d) {x : α} :
    (∃ d ∈ (p.renameParam i old new).interfaces, f d = x) ↔ ∃ d ∈ p.interfaces, f d = x := by
  rw [← List.mem_map, map_interfaces_renameParam hf, List.mem_map]

theorem namesEmbedded_renameParam :
    (p.renameParam i old new).NamesEmbedded = p.NamesEmbedded := by
  funext j k
  have hshown (q : Program) : q.NamesEmbedded j k ↔
      ∃ embeds name, (∃ d, q.interfaces[j]? = some d ∧ d.embeds = embeds) ∧
        (∃ e, q.interfaces[k]? = some e ∧ e.name = some name) ∧ name ∈ embeds := by
    constructor
    · rintro ⟨d, e, name, hd, he, hname, hmem⟩
      exact ⟨_, name, ⟨d, hd, rfl⟩, ⟨e, he, hname⟩, hmem⟩
    · rintro ⟨_, name, ⟨d, hd, rfl⟩, ⟨e, he, hname⟩, hmem⟩
      exact ⟨d, e, name, hd, he, hname, hmem⟩
  simp only [hshown, exists_interface_renameParam_iff (f := (·.embeds)) fun _ ↦ rfl,
    exists_interface_renameParam_iff (f := (·.name)) fun _ ↦ rfl]

/-- The interface has this name and no type parameters, so that inline interfaces expand it. -/
def Expands (p : Program) (name : String) (j : InterfaceId) : Prop :=
  ∃ d, p.interfaces[j]? = some d ∧ d.name = some name ∧ d.typeParams = []

theorem mem_shapes_iff_expands {name : String} {ms : List Signature} : (name, ms) ∈ p.shapes ↔
    ∃ j, p.Expands name j ∧ p.requiredSets[j]? = some (some ms) := by
  rw [mem_shapes]
  simp only [Expands, ← exists_and_right, and_assoc]

theorem expands_renameParam_iff {name : String} :
    (p.renameParam i old new).Expands name j ↔ p.Expands name j := by
  have hshown (q : Program) : q.Expands name j ↔ ∃ d, q.interfaces[j]? = some d ∧
      (d.name, d.typeParams.isEmpty) = (some name, true) := by
    simp [Expands]
  rw [hshown, hshown]
  refine exists_interface_renameParam_iff (f := fun d ↦ (d.name, d.typeParams.isEmpty)) fun d ↦ ?_
  rw [InterfaceDecl.renameParam, List.isEmpty_map]

end

/-- `old` is a type parameter of the interface, and `new` is no type in its methods. The names of
interfaces look different from inline interfaces, and no type parameter is marked yet. -/
structure CanRename (p : Program) (i : InterfaceId) (d : InterfaceDecl) (old new : String) :
    Prop where
  interface : p.interfaces[i]? = some d
  param : old ∈ d.typeParams
  fresh : ∀ s ∈ d.methods, .named new [] ∉ s.parts
  ground : ∀ s ∈ p.signatures, s.mentionsParam = false
  names : ∀ e ∈ p.interfaces, ∀ name, e.name = some name → '{' ∉ name.toList

def DeclaresRenamed (ρ : Renaming) (p p' : Program) (j : InterfaceId) : Prop :=
  ∀ s', Declares p'.resolvedInterfaces j s' ↔
    ∃ s, Declares p.resolvedInterfaces j s ∧ s.renameParams ρ = s'

/-- Where texts decide in the methods of the interface, they keep their order. -/
def KeepsTextOrders (ρ : Renaming) (p : Program) (j : InterfaceId) : Prop :=
  ∀ s, Declares p.resolvedInterfaces j s → ∀ x ∈ s.types, x.KeepsTextOrders p.shapes ρ

def NamedOr (p : Program) (k j : InterfaceId) : Prop :=
  ∀ e, p.interfaces[j]? = some e → j = k ∨ e.name ≠ none

theorem NamedOr.of_reaches {p : Program} {j k l : InterfaceId} (h : p.NamedOr k l)
    (hlj : ReflTransGen p.NamesEmbedded l j) : p.NamedOr k j := by
  intro e he
  rcases ReflTransGen.cases_tail hlj with rfl | ⟨m, -, c, e', name, -, he', hname, -⟩
  · exact h e he
  · right
    rw [Option.some.inj (he.symm.trans he'), hname]
    exact Option.some_ne_none name

theorem Expands.namedOr {p : Program} {name : String} {j k : InterfaceId}
    (h : p.Expands name j) : p.NamedOr k j := by
  obtain ⟨d, hd, hname, -⟩ := h
  intro e he
  right
  rw [Option.some.inj (he.symm.trans hd), hname]
  exact Option.some_ne_none name

theorem namedOr_self {p : Program} {k : InterfaceId} : p.NamedOr k k :=
  fun _ _ ↦ .inl rfl

section

variable {p : Program} {i j : InterfaceId} {old new : String} {ρ : Renaming}

theorem declaresRenamed_of_fixed (hj : j ≠ i)
    (hfixed : ∀ s, Declares p.resolvedInterfaces j s → ∀ x ∈ s.types, x.renameParams ρ = x) :
    DeclaresRenamed ρ p (p.renameParam i old new) j := by
  intro s'
  rw [declares_iff, getElem?_renameParam_of_ne hj, ← declares_iff]
  constructor
  · intro hs
    exact ⟨s', hs, Signature.subst_eq_self (hfixed s' hs)⟩
  · rintro ⟨s, hs, rfl⟩
    rwa [Signature.renameParams, Signature.subst_eq_self (hfixed s hs)]

theorem keepsTextOrders_of_fixed
    (hfixed : ∀ s, Declares p.resolvedInterfaces j s → ∀ x ∈ s.types, x.renameParams ρ = x) :
    KeepsTextOrders ρ p j :=
  fun s hs x hx ↦ keepsTextOrders_of_renameParams_eq (hfixed s hs x hx)

end

namespace CanRename

variable {p : Program} {i j k : InterfaceId} {d e : InterfaceDecl} {old new : String}
  (h : p.CanRename i d old new)

include h

theorem displayName_ne (hp : p.Valid) (he : p.interfaces[j]? = some e) (hj : j ≠ i)
    (hnamed : d.name ≠ none ∨ e.name ≠ none) :
    e.displayName ≠ d.displayName ∧ e.displayName ≠ (d.renameParam old new).displayName := by
  -- An interface without a name shows its elements in braces.
  have hbrace {c c' : InterfaceDecl} {name : String} (hc : c ∈ p.interfaces)
      (hname : c.name = some name) (hnone : c'.name = none) : c.displayName ≠ c'.displayName := by
    intro hshown
    rw [InterfaceDecl.displayName_of_name hname] at hshown
    exact h.names c hc name hname (hshown ▸ InterfaceDecl.brace_mem_displayName hnone)
  have hdmem := List.mem_of_getElem? h.interface
  have hemem := List.mem_of_getElem? he
  cases hd : d.name with
  | none =>
    cases hen : e.name with
    | none => exact absurd (hnamed.resolve_left fun hne ↦ hne hd) fun hne ↦ hne hen
    | some name => exact ⟨hbrace hemem hen hd, hbrace hemem hen hd⟩
  | some name =>
    have hd' : (d.renameParam old new).name = some name := hd
    rw [InterfaceDecl.displayName_of_name hd, InterfaceDecl.displayName_of_name hd', and_self]
    cases hen : e.name with
    | none =>
      rw [← InterfaceDecl.displayName_of_name hd]
      exact (hbrace hdmem hd hen).symm
    | some name' =>
      rw [InterfaceDecl.displayName_of_name hen]
      rintro rfl
      -- Both have the same name, and names are declared once.
      have hji := (interface?_iff hp.declaredNames).2 ⟨e, he, hen⟩
      rw [(interface?_iff hp.declaredNames).2 ⟨d, h.interface, hd⟩] at hji
      exact hj (Option.some.inj hji).symm

theorem mentionsParam (he : p.interfaces[j]? = some e) {s : Signature} (hs : s ∈ e.methods)
    {x : Descriptor} (hx : x ∈ s.types) : x.mentionsParam = false :=
  Signature.mentionsParam_eq_false_iff.1
    (h.ground s (mem_signatures_of_interface (List.mem_of_getElem? he) hs)) x hx

theorem declaresRenamed_self :
    DeclaresRenamed (d.paramRenaming old new) p (p.renameParam i old new) i := by
  have hrenamed {s : Signature} (hs : s ∈ d.methods) :
      (d.renameParam old new).resolveMethod (s.renameTypes (renamed old new)) =
        (d.resolveMethod s).renameParams (d.paramRenaming old new) := by
    refine Signature.markParams_renameTypes_of_types fun x hx ↦ ?_
    refine Descriptor.markParams_renameTypes h.param (h.mentionsParam h.interface hs hx) ?_
    exact fun hnew ↦ h.fresh s hs (Signature.mem_parts.2 ⟨x, hx, hnew⟩)
  intro s'
  rw [declares_iff, getElem?_renameParam_self h.interface]
  simp only [declares_iff, h.interface, Option.some.injEq, exists_eq_left']
  constructor
  · rintro ⟨t', ht', rfl⟩
    obtain ⟨t, ht, rfl⟩ := List.mem_map.1 ht'
    exact ⟨_, ⟨t, ht, rfl⟩, (hrenamed ht).symm⟩
  · rintro ⟨_, ⟨t, ht, rfl⟩, rfl⟩
    exact ⟨_, List.mem_map_of_mem ht, hrenamed ht⟩

theorem renameParams_of_declares (hp : p.Valid) (hj : j ≠ i)
    (hnamed : ∀ e, p.interfaces[j]? = some e → d.name ≠ none ∨ e.name ≠ none) (s : Signature)
    (hs : Declares p.resolvedInterfaces j s) :
    ∀ x ∈ s.types, x.renameParams (d.paramRenaming old new) = x := by
  obtain ⟨e, he, t, ht, rfl⟩ := declares_iff.1 hs
  obtain ⟨hne, hne'⟩ := h.displayName_ne hp he hj (hnamed e he)
  intro x hx
  rw [Signature.markParams_types] at hx
  obtain ⟨y, hy, rfl⟩ := List.mem_map.1 hx
  exact Descriptor.renameParams_markParams_of_ne (h.mentionsParam he ht hy) hne hne'

/-- One renaming leads to the methods that `k` and all named interfaces declare. -/
theorem exists_paramRenaming (hp : p.Valid) (k : InterfaceId) : ∃ ρ, ∀ j, p.NamedOr k j →
    DeclaresRenamed ρ p (p.renameParam i old new) j ∧
      (KeepsTextOrders (d.paramRenaming old new) p i → KeepsTextOrders ρ p j) := by
  -- An interface without a name is embedded nowhere, so nothing is renamed away from it.
  by_cases hdk : d.name = none ∧ k ≠ i
  · refine ⟨.refl _, fun j hj ↦ ?_⟩
    have hji : j ≠ i := by
      rintro rfl
      rcases hj d h.interface with rfl | hnamed
      · exact hdk.2 rfl
      · exact hnamed hdk.1
    have hfixed : ∀ s, Declares p.resolvedInterfaces j s → ∀ x ∈ s.types,
        x.renameParams (.refl _) = x :=
      fun s _ x _ ↦ Descriptor.subst_eq_self fun name owner _ ↦ rfl
    exact ⟨declaresRenamed_of_fixed hji hfixed, fun _ ↦ keepsTextOrders_of_fixed hfixed⟩
  · refine ⟨d.paramRenaming old new, fun j hj ↦ ?_⟩
    by_cases hji : j = i
    · rw [hji]
      exact ⟨h.declaresRenamed_self, id⟩
    · have hfixed := h.renameParams_of_declares hp hji fun e he ↦ by
        rcases hj e he with rfl | hnamed
        · exact .inl fun hnone ↦ hdk ⟨hnone, hji⟩
        · exact .inr hnamed
      exact ⟨declaresRenamed_of_fixed hji hfixed, fun _ ↦ keepsTextOrders_of_fixed hfixed⟩

theorem interfaceTypes (hp : p.Valid) {s : Signature} (hs : s ∈ d.methods) {name : String}
    {args : List Descriptor}
    (hx : .named name args ∈ (s.renameTypes (renamed old new)).parts) :
    (args = [] ∧ name ∈ (d.renameParam old new).typeParams) ∨ p.Knows name := by
  have hknown := hp.interfaceTypes d (List.mem_of_getElem? h.interface) s hs
  obtain ⟨y, hy, hyx⟩ := Signature.exists_of_mem_parts_renameTypes _ hx
  rcases Descriptor.eq_named_of_renameTypes _ hyx with ⟨n, rfl, rfl, rfl⟩ | ⟨a, as, rfl⟩
  · by_cases hn : n = old
    · rw [hn]
      exact .inl ⟨rfl, List.mem_map_of_mem h.param⟩
    · have hsame : renamed old new n = n := renamed_of_ne hn
      refine (hknown n [] hy).imp (fun hparam ↦ ⟨rfl, ?_⟩) fun hk ↦ by rwa [hsame]
      exact List.mem_map_of_mem hparam.2
  · exact .inr ((hknown name (a :: as) hy).resolve_left fun hnil ↦ List.cons_ne_nil _ _ hnil.1)

theorem valid (hp : p.Valid) : (p.renameParam i old new).Valid where
  declaredNames := by
    rw [declaredNames_renameParam]
    exact hp.declaredNames
  receivers := hp.receivers
  methods := hp.methods
  interfaceTypes := by
    intro d' hd' s' hs' name args hx
    obtain ⟨j, hj⟩ := List.mem_iff_getElem?.1 hd'
    rw [knows_renameParam]
    by_cases hji : j = i
    · rw [hji, getElem?_renameParam_self h.interface] at hj
      obtain rfl := Option.some.inj hj
      obtain ⟨s, hs, rfl⟩ := List.mem_map.1 hs'
      exact h.interfaceTypes hp hs hx
    · rw [getElem?_renameParam_of_ne hji] at hj
      exact hp.interfaceTypes d' (List.mem_of_getElem? hj) s' hs' name args hx
  methodTypes m hm name args hx := knows_renameParam.2 (hp.methodTypes m hm name args hx)
  embeds := by
    intro d' hd' name hname
    obtain ⟨d, hd, hembeds⟩ := (mem_map_renameParam_iff (f := (·.embeds)) fun _ ↦ rfl).1
      ⟨d', hd', rfl⟩
    refine (mem_map_renameParam_iff (f := (·.name)) fun _ ↦ rfl).2 ?_
    exact hp.embeds d hd name (hembeds ▸ hname)
  acyclic := by
    rw [namesEmbedded_renameParam]
    exact hp.acyclic
  declaredOnce := by
    intro d' hd'
    have hnames (d : InterfaceDecl) : (d.renameParam old new).methods.map (·.name) =
        d.methods.map (·.name) := by
      simp only [InterfaceDecl.renameParam, List.map_map, Function.comp_def,
        Signature.renameTypes_name]
    obtain ⟨d, hd, hsame⟩ := (mem_map_renameParam_iff (f := (·.methods.map (·.name))) hnames).1
      ⟨d', hd', rfl⟩
    exact hsame ▸ hp.declaredOnce d hd
  agree := by
    intro l j k d' e' hlj hlk hd' he' s' hs' t' ht' hname
    rw [namesEmbedded_renameParam] at hlj hlk
    -- Both methods come from ones that agreed before, by the same renaming.
    obtain ⟨ρ, hρ⟩ := h.exists_paramRenaming hp l
    obtain ⟨u, hu, hus⟩ := ((hρ j (namedOr_self.of_reaches hlj)).1 _).1
      (declares_iff.2 ⟨d', hd', s', hs', rfl⟩)
    obtain ⟨v, hv, hvt⟩ := ((hρ k (namedOr_self.of_reaches hlk)).1 _).1
      (declares_iff.2 ⟨e', he', t', ht', rfl⟩)
    obtain ⟨d, hd, s, hs, rfl⟩ := declares_iff.1 hu
    obtain ⟨e, he, t, ht, rfl⟩ := declares_iff.1 hv
    have hnames : s.name = t.name := by
      have hs := congrArg Signature.name hus
      have ht := congrArg Signature.name hvt
      simp only [Signature.renameParams_name, Signature.markParams_name] at hs ht
      rw [hs, ht, hname]
    rw [← hus, ← hvt, hp.agree l j k d e hlj hlk hd he s hs t ht hnames]

end CanRename

end Program

end Conformance

import Conformance.Program.Resolution

/-!
Induction over descriptors. The types inside a descriptor stand in lists, in signatures and in
fields: `Descriptor.induct` gives the hypothesis for all of them at once, and the list companion of
each recursive function is a `map`, `any` or `flatMap` of it. `Descriptor.parts` are all the types
inside, `Descriptor.depth` is how deep they nest.
-/

namespace Conformance

/-- What holds of a descriptor if it holds of the types inside holds of all descriptors. -/
@[elab_as_elim, induction_eliminator]
theorem Descriptor.induct {P : Descriptor → Prop}
    (named : ∀ name args, (∀ a ∈ args, P a) → P (.named name args))
    (param : ∀ name owner, P (.param name owner))
    (pointer : ∀ e, P e → P (.pointer e))
    (slice : ∀ e, P e → P (.slice e))
    (array : ∀ len e, P e → P (.array len e))
    (map : ∀ k v, P k → P v → P (.map k v))
    (chan : ∀ dir e, P e → P (.chan dir e))
    (func : ∀ ps rs variadic, (∀ d ∈ ps, P d) → (∀ d ∈ rs, P d) → P (.func ps rs variadic))
    (interface : ∀ ms es, (∀ s ∈ ms, ∀ d ∈ s.types, P d) → (∀ d ∈ es, P d) →
      P (.interface ms es))
    (struct : ∀ fs, (∀ f ∈ fs, P f.type) → P (.struct fs)) (d : Descriptor) : P d := by
  refine @Descriptor.rec P (fun s ↦ ∀ d ∈ s.types, P d) (fun f ↦ P f.type)
    (fun ds ↦ ∀ d ∈ ds, P d) (fun ss ↦ ∀ s ∈ ss, ∀ d ∈ s.types, P d) (fun fs ↦ ∀ f ∈ fs, P f.type)
    named param pointer slice array map chan func interface struct
    (fun _ _ _ _ hp hr ↦ List.forall_mem_append.2 ⟨hp, hr⟩) (fun _ _ h ↦ h)
    ?_ ?_ ?_ ?_ ?_ ?_ d
  · exact List.forall_mem_nil _
  · exact fun _ _ h hs ↦ List.forall_mem_cons.2 ⟨h, hs⟩
  · exact List.forall_mem_nil _
  · exact fun _ _ h hs ↦ List.forall_mem_cons.2 ⟨h, hs⟩
  · exact List.forall_mem_nil _
  · exact fun _ _ h hs ↦ List.forall_mem_cons.2 ⟨h, hs⟩

@[simp]
theorem anyMentionsParam_eq_any (ds : List Descriptor) :
    anyMentionsParam ds = ds.any Descriptor.mentionsParam := by
  induction ds with
  | nil => rfl
  | cons d ds ih => simp only [anyMentionsParam, ih, List.any_cons]

@[simp]
theorem Signature.mentionsParam_eq_any (s : Signature) :
    s.mentionsParam = s.types.any Descriptor.mentionsParam := by
  cases s
  simp only [Signature.mentionsParam, anyMentionsParam_eq_any, Signature.types, List.any_append]

@[simp]
theorem anySignatureMentionsParam_eq_any (ss : List Signature) :
    anySignatureMentionsParam ss = ss.any Signature.mentionsParam := by
  induction ss with
  | nil => rfl
  | cons s ss ih => simp only [anySignatureMentionsParam, ih, List.any_cons]

@[simp]
theorem anyFieldMentionsParam_eq_any (fs : List Field) :
    anyFieldMentionsParam fs = fs.any (·.type.mentionsParam) := by
  induction fs with
  | nil => rfl
  | cons f fs ih =>
    cases f
    simp only [anyFieldMentionsParam, Field.mentionsParam, ih, List.any_cons]

section

variable (owner : String) (params : List String)

@[simp]
theorem markAllParams_eq_map (ds : List Descriptor) :
    markAllParams owner params ds = ds.map (Descriptor.markParams owner params) := by
  induction ds with
  | nil => rfl
  | cons d ds ih => simp only [markAllParams, ih, List.map_cons]

theorem Signature.markParams_eq (s : Signature) :
    s.markParams owner params =
      ⟨s.name, s.params.map (Descriptor.markParams owner params),
        s.results.map (Descriptor.markParams owner params), s.variadic⟩ := by
  cases s
  simp only [Signature.markParams, markAllParams_eq_map]

@[simp]
theorem Signature.markParams_name (s : Signature) : (s.markParams owner params).name = s.name := by
  rw [Signature.markParams_eq]

@[simp]
theorem Signature.markParams_types (s : Signature) :
    (s.markParams owner params).types = s.types.map (Descriptor.markParams owner params) := by
  rw [Signature.markParams_eq, Signature.types, Signature.types, List.map_append]

@[simp]
theorem markSignatureParams_eq_map (ss : List Signature) :
    markSignatureParams owner params ss = ss.map (Signature.markParams owner params) := by
  induction ss with
  | nil => rfl
  | cons s ss ih => simp only [markSignatureParams, ih, List.map_cons]

@[simp]
theorem markFieldParams_eq_map (fs : List Field) :
    markFieldParams owner params fs = fs.map (Field.markParams owner params) := by
  induction fs with
  | nil => rfl
  | cons f fs ih => simp only [markFieldParams, ih, List.map_cons]

@[simp]
theorem Field.markParams_type (f : Field) :
    (f.markParams owner params).type = f.type.markParams owner params := by
  cases f
  simp only [Field.markParams]

@[simp]
theorem Field.markParams_name (f : Field) : (f.markParams owner params).name = f.name := by
  cases f
  simp only [Field.markParams]

@[simp]
theorem allOccurring_eq_flatMap (ds : List Descriptor) :
    allOccurring params ds = ds.flatMap (Descriptor.occurring params) := by
  induction ds with
  | nil => rfl
  | cons d ds ih => simp only [allOccurring, ih, List.flatMap_cons]

@[simp]
theorem Signature.occurring_eq_flatMap (s : Signature) :
    s.occurring params = s.types.flatMap (Descriptor.occurring params) := by
  cases s
  simp only [Signature.occurring, allOccurring_eq_flatMap, Signature.types, List.flatMap_append]

@[simp]
theorem signaturesOccurring_eq_flatMap (ss : List Signature) :
    signaturesOccurring params ss = ss.flatMap (Signature.occurring params) := by
  induction ss with
  | nil => rfl
  | cons s ss ih => simp only [signaturesOccurring, ih, List.flatMap_cons]

@[simp]
theorem fieldsOccurring_eq_flatMap (fs : List Field) :
    fieldsOccurring params fs = fs.flatMap (·.type.occurring params) := by
  induction fs with
  | nil => rfl
  | cons f fs ih =>
    cases f
    simp only [fieldsOccurring, Field.occurring, ih, List.flatMap_cons]

end

mutual

def Descriptor.parts : Descriptor → List Descriptor
  | .named name args => .named name args :: allParts args
  | .param name owner => [.param name owner]
  | .pointer e => .pointer e :: e.parts
  | .slice e => .slice e :: e.parts
  | .array len e => .array len e :: e.parts
  | .map k v => .map k v :: (k.parts ++ v.parts)
  | .chan dir e => .chan dir e :: e.parts
  | .func ps rs variadic => .func ps rs variadic :: (allParts ps ++ allParts rs)
  | .interface ms es => .interface ms es :: (signaturesParts ms ++ allParts es)
  | .struct fs => .struct fs :: fieldsParts fs

def allParts : List Descriptor → List Descriptor
  | [] => []
  | d :: ds => d.parts ++ allParts ds

def Signature.parts : Signature → List Descriptor
  | ⟨_, ps, rs, _⟩ => allParts ps ++ allParts rs

def signaturesParts : List Signature → List Descriptor
  | [] => []
  | s :: ss => s.parts ++ signaturesParts ss

def Field.parts : Field → List Descriptor
  | ⟨_, d⟩ => d.parts

def fieldsParts : List Field → List Descriptor
  | [] => []
  | f :: fs => f.parts ++ fieldsParts fs

end

@[simp]
theorem mem_allParts {x : Descriptor} {ds : List Descriptor} :
    x ∈ allParts ds ↔ ∃ d ∈ ds, x ∈ d.parts := by
  induction ds with
  | nil => simp [allParts]
  | cons d ds ih => simp [allParts, ih]

@[simp]
theorem Signature.mem_parts {x : Descriptor} {s : Signature} :
    x ∈ s.parts ↔ ∃ d ∈ s.types, x ∈ d.parts := by
  cases s
  simp [Signature.parts, Signature.types, or_and_right, exists_or]

@[simp]
theorem mem_signaturesParts {x : Descriptor} {ss : List Signature} :
    x ∈ signaturesParts ss ↔ ∃ s ∈ ss, x ∈ s.parts := by
  induction ss with
  | nil => simp [signaturesParts]
  | cons s ss ih => simp [signaturesParts, ih]

@[simp]
theorem mem_fieldsParts {x : Descriptor} {fs : List Field} :
    x ∈ fieldsParts fs ↔ ∃ f ∈ fs, x ∈ f.type.parts := by
  induction fs with
  | nil => simp [fieldsParts]
  | cons f fs ih =>
    cases f
    simp [fieldsParts, Field.parts, ih]

theorem Descriptor.self_mem_parts (d : Descriptor) : d ∈ d.parts := by
  cases d <;> simp [Descriptor.parts]

def Descriptor.children : Descriptor → List Descriptor
  | .named _ args => args
  | .param _ _ => []
  | .pointer e | .slice e | .array _ e | .chan _ e => [e]
  | .map k v => [k, v]
  | .func ps rs _ => ps ++ rs
  | .interface ms es => ms.flatMap Signature.types ++ es
  | .struct fs => fs.map (·.type)

theorem Descriptor.mem_parts {x d : Descriptor} :
    x ∈ d.parts ↔ x = d ∨ ∃ c ∈ d.children, x ∈ c.parts := by
  cases d with
  | interface ms es =>
    simp only [Descriptor.parts, Descriptor.children, List.mem_cons, List.mem_append,
      mem_signaturesParts, Signature.mem_parts, mem_allParts, List.mem_flatMap]
    grind
  | struct fs =>
    simp only [Descriptor.parts, Descriptor.children, List.mem_cons, mem_fieldsParts, List.mem_map]
    grind
  | _ => simp [Descriptor.parts, Descriptor.children, or_and_right, exists_or]

/-- What holds of a descriptor if it holds of its children holds of all descriptors. -/
theorem Descriptor.children_induct {P : Descriptor → Prop}
    (h : ∀ d, (∀ c ∈ d.children, P c) → P d) (d : Descriptor) : P d := by
  induction d with
  | named name args ih => exact h _ ih
  | param name owner => exact h _ (List.forall_mem_nil _)
  | pointer e ih | slice e ih | array len e ih | chan dir e ih =>
    exact h _ (List.forall_mem_singleton.2 ih)
  | map k v ihk ihv => exact h _ (List.forall_mem_cons.2 ⟨ihk, List.forall_mem_singleton.2 ihv⟩)
  | func ps rs variadic ihp ihr => exact h _ (List.forall_mem_append.2 ⟨ihp, ihr⟩)
  | interface ms es ihm ihe =>
    refine h _ (List.forall_mem_append.2 ⟨fun c hc ↦ ?_, ihe⟩)
    obtain ⟨s, hs, hc⟩ := List.mem_flatMap.1 hc
    exact ihm s hs c hc
  | struct fs ih => exact h _ (List.forall_mem_map.2 ih)

theorem Descriptor.mem_parts_trans {x y d : Descriptor} (hx : x ∈ d.parts) (hy : y ∈ x.parts) :
    y ∈ d.parts := by
  induction d using Descriptor.children_induct with
  | h d ih =>
    rcases Descriptor.mem_parts.1 hx with rfl | ⟨c, hc, hx⟩
    · exact hy
    · exact Descriptor.mem_parts.2 (.inr ⟨c, hc, ih c hc hx⟩)

/-- If a function takes children to children, it takes parts to parts. -/
theorem Descriptor.exists_of_mem_parts_map {f : Descriptor → Descriptor}
    (hf : ∀ d, ∀ c ∈ (f d).children, ∃ c' ∈ d.children, f c' = c) {x d : Descriptor}
    (hx : x ∈ (f d).parts) : ∃ y ∈ d.parts, f y = x := by
  induction d using Descriptor.children_induct with
  | h d ih =>
    rcases Descriptor.mem_parts.1 hx with rfl | ⟨c, hc, hx⟩
    · exact ⟨d, d.self_mem_parts, rfl⟩
    · obtain ⟨c', hc', rfl⟩ := hf d c hc
      obtain ⟨y, hy, he⟩ := ih c' hc' hx
      exact ⟨y, Descriptor.mem_parts.2 (.inr ⟨c', hc', hy⟩), he⟩

theorem Descriptor.forall_parts {Q : Descriptor → Prop} {d : Descriptor} :
    (∀ x ∈ d.parts, Q x) ↔ Q d ∧ ∀ c ∈ d.children, ∀ x ∈ c.parts, Q x := by
  constructor
  · intro h
    exact ⟨h d d.self_mem_parts, fun c hc x hx ↦ h x (Descriptor.mem_parts.2 (.inr ⟨c, hc, hx⟩))⟩
  · rintro ⟨hself, hchildren⟩ x hx
    rcases Descriptor.mem_parts.1 hx with rfl | ⟨c, hc, hxc⟩
    · exact hself
    · exact hchildren c hc x hxc

theorem Descriptor.mem_children_markParams {owner : String} {params : List String}
    {c d : Descriptor} :
    c ∈ (d.markParams owner params).children ↔
      ∃ c' ∈ d.children, c'.markParams owner params = c := by
  cases d with
  | named name args =>
    cases args with
    | nil => rw [Descriptor.markParams]; split <;> simp [Descriptor.children]
    | cons a as => simp [Descriptor.markParams, Descriptor.children, eq_comm]
  | interface ms es =>
    simp only [Descriptor.markParams, Descriptor.ofElements, Descriptor.children,
      markSignatureParams_eq_map, markAllParams_eq_map, List.mem_append, List.mem_flatMap,
      List.mem_mergeSort, List.mem_map]
    constructor
    · rintro (⟨_, ⟨s, hs, rfl⟩, hc⟩ | ⟨e, he, rfl⟩)
      · rw [Signature.markParams_types] at hc
        obtain ⟨c', hc', rfl⟩ := List.mem_map.1 hc
        exact ⟨c', .inl ⟨s, hs, hc'⟩, rfl⟩
      · exact ⟨e, .inr he, rfl⟩
    · rintro ⟨c', ⟨s, hs, hc'⟩ | he, rfl⟩
      · refine .inl ⟨_, ⟨s, hs, rfl⟩, ?_⟩
        rw [Signature.markParams_types]
        exact List.mem_map_of_mem hc'
      · exact .inr ⟨c', he, rfl⟩
  | struct fs =>
    simp only [Descriptor.markParams, Descriptor.children, markFieldParams_eq_map, List.mem_map]
    grind [Field.markParams_type]
  | func ps rs variadic =>
    simp [Descriptor.markParams, Descriptor.children, or_and_right, exists_or]
  | _ => simp [Descriptor.markParams, Descriptor.children, eq_comm]

theorem Descriptor.exists_of_mem_parts_markParams {owner : String} {params : List String}
    {x d : Descriptor}
    (hx : x ∈ (d.markParams owner params).parts) : ∃ y ∈ d.parts, y.markParams owner params = x :=
  Descriptor.exists_of_mem_parts_map (fun _ _ ↦ Descriptor.mem_children_markParams.1) hx

theorem Descriptor.mentionsParam_eq_any {d : Descriptor} (h : ∀ name owner, d ≠ .param name owner) :
    d.mentionsParam = d.children.any Descriptor.mentionsParam := by
  cases d with
  | param name owner => exact absurd rfl (h name owner)
  | interface ms es =>
    have htypes : Signature.mentionsParam = fun s ↦ s.types.any Descriptor.mentionsParam :=
      funext Signature.mentionsParam_eq_any
    simp [Descriptor.mentionsParam, Descriptor.children, List.any_flatMap, htypes]
  | _ => simp [Descriptor.mentionsParam, Descriptor.children, Function.comp_def]

theorem Descriptor.mentionsParam_of_mem_children {d c : Descriptor} (h : d.mentionsParam = false)
    (hc : c ∈ d.children) : c.mentionsParam = false := by
  have hparam : ∀ name owner, d ≠ .param name owner := by
    intro name owner hd
    rw [hd] at h
    cases h
  rw [Descriptor.mentionsParam_eq_any hparam, List.any_eq_false] at h
  simpa using h c hc

theorem Descriptor.mentionsParam_of_mem_parts {d x : Descriptor} (h : d.mentionsParam = false)
    (hx : x ∈ d.parts) : x.mentionsParam = false := by
  induction d using Descriptor.children_induct with
  | h d ih =>
    rcases Descriptor.mem_parts.1 hx with rfl | ⟨c, hc, hx⟩
    · exact h
    · exact ih c hc (Descriptor.mentionsParam_of_mem_children h hc) hx

theorem Signature.mentionsParam_eq_false_iff {s : Signature} :
    s.mentionsParam = false ↔ ∀ d ∈ s.types, d.mentionsParam = false := by
  rw [Signature.mentionsParam_eq_any, List.any_eq_false]
  simp

theorem Descriptor.param_notMem_parts {d : Descriptor} (h : d.mentionsParam = false)
    (name owner : String) : .param name owner ∉ d.parts := by
  intro hx
  cases Descriptor.mentionsParam_of_mem_parts h hx

mutual

def Descriptor.depth : Descriptor → Nat
  | .named _ args => depthOfAll args + 1
  | .param _ _ => 1
  | .pointer e | .slice e | .array _ e | .chan _ e => e.depth + 1
  | .map k v => max k.depth v.depth + 1
  | .func ps rs _ => max (depthOfAll ps) (depthOfAll rs) + 1
  | .interface ms es => max (depthOfSignatures ms) (depthOfAll es) + 1
  | .struct fs => depthOfFields fs + 1

def depthOfAll : List Descriptor → Nat
  | [] => 0
  | d :: ds => max d.depth (depthOfAll ds)

def Signature.depth : Signature → Nat
  | ⟨_, ps, rs, _⟩ => max (depthOfAll ps) (depthOfAll rs)

def depthOfSignatures : List Signature → Nat
  | [] => 0
  | s :: ss => max s.depth (depthOfSignatures ss)

def Field.depth : Field → Nat
  | ⟨_, d⟩ => d.depth

def depthOfFields : List Field → Nat
  | [] => 0
  | f :: fs => max f.depth (depthOfFields fs)

end

@[simp]
theorem depthOfAll_le {ds : List Descriptor} {n : Nat} :
    depthOfAll ds ≤ n ↔ ∀ d ∈ ds, d.depth ≤ n := by
  induction ds with
  | nil => simp [depthOfAll]
  | cons d ds ih => simp only [depthOfAll, Nat.max_le, ih, List.forall_mem_cons]

@[simp]
theorem Signature.depth_le {s : Signature} {n : Nat} :
    s.depth ≤ n ↔ ∀ d ∈ s.types, d.depth ≤ n := by
  cases s
  simp only [Signature.depth, Signature.types, Nat.max_le, depthOfAll_le, List.forall_mem_append]

@[simp]
theorem depthOfSignatures_le {ss : List Signature} {n : Nat} :
    depthOfSignatures ss ≤ n ↔ ∀ s ∈ ss, s.depth ≤ n := by
  induction ss with
  | nil => simp [depthOfSignatures]
  | cons s ss ih => simp only [depthOfSignatures, Nat.max_le, ih, List.forall_mem_cons]

@[simp]
theorem depthOfFields_le {fs : List Field} {n : Nat} :
    depthOfFields fs ≤ n ↔ ∀ f ∈ fs, f.type.depth ≤ n := by
  induction fs with
  | nil => simp [depthOfFields]
  | cons f fs ih =>
    cases f
    simp only [depthOfFields, Field.depth, Nat.max_le, ih, List.forall_mem_cons]

theorem Descriptor.depth_le {d : Descriptor} {n : Nat} :
    d.depth ≤ n + 1 ↔ ∀ c ∈ d.children, c.depth ≤ n := by
  cases d with
  | interface ms es =>
    simp only [Descriptor.depth, Descriptor.children, Nat.add_le_add_iff_right, Nat.max_le,
      depthOfSignatures_le, Signature.depth_le, depthOfAll_le, List.mem_append, List.mem_flatMap]
    grind
  | func ps rs _ =>
    simp only [Descriptor.depth, Descriptor.children, Nat.add_le_add_iff_right, Nat.max_le,
      depthOfAll_le, List.forall_mem_append]
  | map k v =>
    simp only [Descriptor.depth, Descriptor.children, Nat.add_le_add_iff_right, Nat.max_le,
      List.forall_mem_cons, List.not_mem_nil, false_implies, implies_true, and_true]
  | _ => simp [Descriptor.depth, Descriptor.children]

theorem Descriptor.depth_pos (d : Descriptor) : 0 < d.depth := by
  cases d <;> simp [Descriptor.depth]

theorem Descriptor.depth_lt_of_mem_children {c d : Descriptor} (h : c ∈ d.children) :
    c.depth < d.depth := by
  obtain ⟨n, hn⟩ := Nat.exists_eq_succ_of_ne_zero (Nat.ne_of_gt d.depth_pos)
  have hle : c.depth ≤ n := Descriptor.depth_le.1 (Nat.le_of_eq hn) c h
  omega

theorem Descriptor.depth_le_of_mem_parts {x d : Descriptor} (h : x ∈ d.parts) :
    x.depth ≤ d.depth := by
  induction d using Descriptor.children_induct with
  | h d ih =>
    rcases Descriptor.mem_parts.1 h with rfl | ⟨c, hc, hx⟩
    · exact Nat.le_refl _
    · exact Nat.le_of_lt (Nat.lt_of_le_of_lt (ih c hc hx) (Descriptor.depth_lt_of_mem_children hc))

end Conformance

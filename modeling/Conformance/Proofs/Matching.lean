import Conformance.Proofs.Links
import Conformance.Proofs.MethodSet
import Conformance.Proofs.Marking

/-!
Matching finds substitutions. Types are compared under bindings, and the bindings that come out
agree with just those substitutions that agreed before and turn the required type into the actual
one; where the comparison fails there is no such substitution.
-/

namespace Conformance

/-- The types that type parameters stand for, by owner and name. -/
abbrev Substitution := String × String → Descriptor

section

variable (σ : Substitution)

mutual

def Descriptor.subst : Descriptor → Descriptor
  | .named name args => .named name (substAll args)
  | .param name owner => σ (owner, name)
  | .pointer e => .pointer e.subst
  | .slice e => .slice e.subst
  | .array len e => .array len e.subst
  | .map k v => .map k.subst v.subst
  | .chan dir e => .chan dir e.subst
  | .func ps rs variadic => .func (substAll ps) (substAll rs) variadic
  | .interface ms es => .interface (substSignatures ms) (substAll es)
  | .struct fs => .struct (substFields fs)

def substAll : List Descriptor → List Descriptor
  | [] => []
  | d :: ds => d.subst :: substAll ds

def Signature.subst : Signature → Signature
  | ⟨name, ps, rs, variadic⟩ => ⟨name, substAll ps, substAll rs, variadic⟩

def substSignatures : List Signature → List Signature
  | [] => []
  | s :: ss => s.subst :: substSignatures ss

def Field.subst : Field → Field
  | ⟨name, d⟩ => ⟨name, d.subst⟩

def substFields : List Field → List Field
  | [] => []
  | f :: fs => f.subst :: substFields fs

end

@[simp]
theorem substAll_eq_map (ds : List Descriptor) : substAll σ ds = ds.map (Descriptor.subst σ) := by
  induction ds with
  | nil => rfl
  | cons d ds ih => simp only [substAll, ih, List.map_cons]

theorem Signature.subst_eq (s : Signature) :
    s.subst σ =
      ⟨s.name, s.params.map (Descriptor.subst σ), s.results.map (Descriptor.subst σ), s.variadic⟩ := by
  cases s
  simp only [Signature.subst, substAll_eq_map]

@[simp]
theorem substSignatures_eq_map (ss : List Signature) :
    substSignatures σ ss = ss.map (Signature.subst σ) := by
  induction ss with
  | nil => rfl
  | cons s ss ih => simp only [substSignatures, ih, List.map_cons]

@[simp]
theorem substFields_eq_map (fs : List Field) : substFields σ fs = fs.map (Field.subst σ) := by
  induction fs with
  | nil => rfl
  | cons f fs ih => simp only [substFields, ih, List.map_cons]

theorem Field.subst_eq (f : Field) : f.subst σ = ⟨f.name, f.type.subst σ⟩ := by
  cases f
  simp only [Field.subst]

end

variable {σ : Substitution}

theorem map_subst_eq_self {ds : List Descriptor} (h : ∀ d ∈ ds, d.subst σ = d) :
    ds.map (Descriptor.subst σ) = ds :=
  (List.map_congr_left h).trans (List.map_id' ds)

theorem Signature.subst_eq_self {s : Signature} (h : ∀ d ∈ s.types, d.subst σ = d) :
    s.subst σ = s := by
  cases s
  rw [Signature.subst_eq, map_subst_eq_self fun d hd ↦ h d (List.mem_append_left _ hd),
    map_subst_eq_self fun d hd ↦ h d (List.mem_append_right _ hd)]

theorem Descriptor.subst_eq_self {d : Descriptor} (h : ∀ name owner,
    .param name owner ∈ d.parts → σ (owner, name) = .param name owner) : d.subst σ = d := by
  induction d using Descriptor.children_induct with
  | h d ih =>
    have ih (c : Descriptor) (hc : c ∈ d.children) : c.subst σ = c :=
      ih c hc fun name owner hx ↦ h name owner (Descriptor.mem_parts.2 (.inr ⟨c, hc, hx⟩))
    cases d with
    | named name args =>
      have hargs : args.map (Descriptor.subst σ) = args := map_subst_eq_self ih
      rw [Descriptor.subst, substAll_eq_map, hargs]
    | param name owner => exact h name owner (Descriptor.self_mem_parts _)
    | pointer e | slice e | array len e | chan dir e =>
      rw [Descriptor.subst, ih e List.mem_cons_self]
    | map k v =>
      rw [Descriptor.subst, ih k (by simp [Descriptor.children]),
        ih v (by simp [Descriptor.children])]
    | func ps rs variadic =>
      rw [Descriptor.subst, substAll_eq_map, substAll_eq_map,
        map_subst_eq_self fun d hd ↦ ih d (List.mem_append_left _ hd),
        map_subst_eq_self fun d hd ↦ ih d (List.mem_append_right _ hd)]
    | interface ms es =>
      have hms : ms.map (Signature.subst σ) = ms := by
        refine (List.map_congr_left fun s hs ↦ ?_).trans (List.map_id' ms)
        exact Signature.subst_eq_self fun d hd ↦
          ih d (List.mem_append_left _ (List.mem_flatMap.2 ⟨s, hs, hd⟩))
      rw [Descriptor.subst, substSignatures_eq_map, substAll_eq_map, hms,
        map_subst_eq_self fun e he ↦ ih e (List.mem_append_right _ he)]
    | struct fs =>
      have hfs : fs.map (Field.subst σ) = fs := by
        refine (List.map_congr_left fun f hf ↦ ?_).trans (List.map_id' fs)
        obtain ⟨name, e⟩ := f
        rw [Field.subst_eq, ih e (List.mem_map_of_mem hf)]
      rw [Descriptor.subst, substFields_eq_map, hfs]

theorem Descriptor.subst_of_not_mentionsParam {d : Descriptor} (h : d.mentionsParam = false) :
    d.subst σ = d :=
  Descriptor.subst_eq_self fun name owner hx ↦
    absurd hx (Descriptor.param_notMem_parts h name owner)

theorem Signature.subst_of_not_mentionsParam {s : Signature} (h : s.mentionsParam = false) :
    s.subst σ = s := by
  rw [Signature.mentionsParam_eq_any, List.any_eq_false] at h
  exact Signature.subst_eq_self fun d hd ↦
    Descriptor.subst_of_not_mentionsParam (by simpa using h d hd)

theorem Signature.subst_eq_iff {r a : Signature} :
    r.subst σ = a ↔ (r.name = a.name ∧ r.variadic = a.variadic) ∧
      r.params.map (Descriptor.subst σ) = a.params ∧
        r.results.map (Descriptor.subst σ) = a.results := by
  cases a
  rw [Signature.subst_eq, Signature.mk.injEq]
  grind

/-- The substitution keeps to what is bound. -/
def Bindings.Agrees (σ : Substitution) (b : Bindings) : Prop :=
  ∀ k d, b.lookup k = some d → σ k = d

theorem Bindings.agrees_nil : Bindings.Agrees σ [] := by simp [Bindings.Agrees]

theorem Bindings.exists_agrees (b : Bindings) : ∃ σ, b.Agrees σ :=
  ⟨fun k ↦ (b.lookup k).getD .emptyInterface, fun k d h ↦ by simp [h]⟩

namespace Comparison

/-- The comparison narrows the substitutions that agree with the bindings down to those under a
condition, and fails where there are none. -/
structure Solves (f : Comparison) (condition : Substitution → Prop) : Prop where
  success : ∀ b, (f b).1 = true → ∀ σ, (f b).2.Agrees σ ↔ b.Agrees σ ∧ condition σ
  failure : ∀ b, (f b).1 = false → ∀ σ, b.Agrees σ → ¬ condition σ

variable {f g : Comparison} {condition condition' : Substitution → Prop} {b : Bindings}

theorem andThen_of_true (h : (f b).1 = true) : f.andThen g b = g (f b).2 := by
  unfold andThen
  split
  · rename_i hf
    rw [hf]
  · rename_i hf
    rw [hf] at h
    cases h

theorem andThen_of_false (h : (f b).1 = false) : f.andThen g b = (false, (f b).2) := by
  unfold andThen
  split
  · rename_i hf
    rw [hf] at h
    cases h
  · rename_i hf
    rw [hf]

theorem Solves.congr (h : f.Solves condition) (hc : ∀ σ, condition σ ↔ condition' σ) :
    f.Solves condition' := by
  obtain rfl : condition = condition' := funext fun σ ↦ propext (hc σ)
  exact h

theorem solves_true (h : ∀ σ, condition σ) : (answer true).Solves condition where
  success b _ σ := (and_iff_left (h σ)).symm
  failure b hb := by cases hb

theorem solves_false (h : ∀ σ, ¬ condition σ) : (answer false).Solves condition where
  success b hb := by cases hb
  failure b _ σ _ := h σ

theorem Solves.onlyIf {c : Prop} [Decidable c] (h : c → f.Solves condition) :
    (Comparison.onlyIf c f).Solves fun σ ↦ c ∧ condition σ := by
  by_cases hc : c
  · rw [Comparison.onlyIf, if_pos (decide_eq_true hc)]
    exact (h hc).congr fun σ ↦ (and_iff_right hc).symm
  · rw [Comparison.onlyIf, if_neg (by simpa using hc)]
    exact solves_false fun σ h ↦ hc h.1

theorem Solves.andThen (hf : f.Solves condition) (hg : g.Solves condition') :
    (f.andThen g).Solves fun σ ↦ condition σ ∧ condition' σ where
  success b h σ := by
    cases hb : (f b).1 with
    | true =>
      rw [andThen_of_true hb] at h ⊢
      rw [hg.success _ h, hf.success b hb, and_assoc]
    | false =>
      rw [andThen_of_false hb] at h
      cases h
  failure b h σ hσ hc := by
    cases hb : (f b).1 with
    | true =>
      rw [andThen_of_true hb] at h
      exact hg.failure _ h σ ((hf.success b hb σ).2 ⟨hσ, hc.1⟩) hc.2
    | false => exact hf.failure b hb σ hσ hc.1

theorem solves_pairwise {α : Type} {f : α → α → Comparison} {R : α → α → Substitution → Prop}
    (rs as : List α) (h : ∀ r ∈ rs, ∀ a ∈ as, (f r a).Solves (R r a)) :
    (pairwise f rs as).Solves fun σ ↦ List.Forall₂ (R · · σ) rs as := by
  have hzip (hlength : rs.length = as.length) :
      ((List.zipWith f rs as).foldr Comparison.andThen (answer true)).Solves
        fun σ ↦ List.Forall₂ (R · · σ) rs as := by
    induction rs generalizing as with
    | nil =>
      obtain rfl := List.length_eq_zero_iff.1 hlength.symm
      exact solves_true fun σ ↦ .nil
    | cons r rs ih =>
      obtain ⟨a, as, rfl⟩ := List.exists_cons_of_length_eq_add_one hlength.symm
      have htail := ih as (fun r' hr a' ha ↦ h r' (List.mem_cons_of_mem _ hr) a'
        (List.mem_cons_of_mem _ ha)) (Nat.succ.inj hlength)
      refine ((h r List.mem_cons_self a List.mem_cons_self).andThen htail).congr fun σ ↦ ?_
      rw [List.forall₂_cons]
  exact (Solves.onlyIf hzip).congr fun σ ↦ and_iff_right_of_imp List.Forall₂.length_eq

end Comparison

open Comparison

theorem Bindings.bind_solves (owner name : String) (d : Descriptor) :
    (Bindings.bind owner name d).Solves fun σ ↦ σ (owner, name) = d := by
  refine ⟨fun b h σ ↦ ?_, fun b h σ hσ hd ↦ ?_⟩
  · cases hb : b.lookup (owner, name) with
    | some bound =>
      simp only [Bindings.bind, hb, decide_eq_true_eq] at h ⊢
      exact (and_iff_left_of_imp fun hσ ↦ (hσ _ _ hb).trans h).symm
    | none =>
      simp only [Bindings.bind, hb]
      constructor
      · intro h
        refine ⟨fun k e hk ↦ h k e ?_, h _ _ (by simp)⟩
        have hne : k ≠ (owner, name) := fun he ↦ by simp [he, hb] at hk
        rwa [List.lookup_cons, beq_eq_false_iff_ne.2 hne]
      · rintro ⟨h, hd⟩ k e hk
        by_cases hk' : k = (owner, name)
        · obtain rfl : d = e := by simpa [hk'] using hk
          rw [hk', hd]
        · rw [List.lookup_cons, beq_eq_false_iff_ne.2 hk'] at hk
          exact h k e hk
  · cases hb : b.lookup (owner, name) with
    | some bound =>
      simp only [Bindings.bind, hb, decide_eq_false_iff_not] at h
      exact h ((hσ _ _ hb).symm.trans hd)
    | none => simp [Bindings.bind, hb] at h

/-- The two types are compared: the substitutions that remain are those under the condition. -/
def Compares (u : Descriptor → Descriptor → Comparison)
    (condition : Descriptor → Descriptor → Substitution → Prop) (r a : Descriptor) : Prop :=
  (u r a).Solves (condition r a)

section

variable {u : Descriptor → Descriptor → Comparison}
  {condition : Descriptor → Descriptor → Substitution → Prop}

theorem unifySignature_solves {r a : Signature}
    (h : ∀ r' ∈ r.types, ∀ a' ∈ a.types, Compares u condition r' a') :
    (unifySignature u r a).Solves fun σ ↦ r.Matches (condition · · σ) a := by
  have hparams := solves_pairwise r.params a.params fun r' hr a' ha ↦
    h r' (List.mem_append_left _ hr) a' (List.mem_append_left _ ha)
  have hresults := solves_pairwise r.results a.results fun r' hr a' ha ↦
    h r' (List.mem_append_right _ hr) a' (List.mem_append_right _ ha)
  refine (Solves.onlyIf fun _ ↦ hparams.andThen hresults).congr fun σ ↦ ?_
  rw [Signature.matches_iff]

theorem unifyField_solves {r a : Field} (h : Compares u condition r.type a.type) :
    (unifyField u r a).Solves fun σ ↦ r.name = a.name ∧ condition r.type a.type σ :=
  .onlyIf fun _ ↦ h

theorem unifyLevel_param {shapes : Shapes} {name owner : String} {a : Descriptor} :
    unifyLevel u shapes (.param name owner) a = Bindings.bind owner name a := by
  unfold unifyLevel
  rw [if_neg (by simp [Descriptor.mentionsParam])]

/-- One level is compared as its outline and its types are. Equal types without type parameters are
not looked into. -/
theorem unifyLevel_solves {shapes : Shapes} {r a : Descriptor}
    (hparam : ∀ name owner, r ≠ .param name owner)
    (h : ∀ r' ∈ r.expanded shapes, ∀ a' ∈ a.expanded shapes, Compares u condition r' a')
    (hself : r = a → r.mentionsParam = false → ∀ σ, r.Matches shapes shapes (condition · · σ) a) :
    (unifyLevel u shapes r a).Solves fun σ ↦ r.Matches shapes shapes (condition · · σ) a := by
  unfold unifyLevel
  by_cases hsame : (decide (r = a) && !r.mentionsParam) = true
  · rw [if_pos hsame]
    simp only [Bool.and_eq_true, decide_eq_true_eq, Bool.not_eq_true'] at hsame
    exact solves_true (hself hsame.1 hsame.2)
  rw [if_neg hsame]
  cases r with
  | param name owner => exact absurd rfl (hparam name owner)
  | named m rs =>
    cases a with
    | named n as =>
      refine (Solves.onlyIf fun _ ↦ solves_pairwise rs as h).congr fun σ ↦ ?_
      rw [Descriptor.matches_named]
    | _ => exact solves_false fun σ hm ↦ nomatch hm.outline
  | pointer r =>
    cases a with
    | pointer a =>
      refine (h r List.mem_cons_self a List.mem_cons_self).congr fun σ ↦ ?_
      rw [Descriptor.matches_pointer]
    | _ => exact solves_false fun σ hm ↦ nomatch hm.outline
  | slice r =>
    cases a with
    | slice a =>
      refine (h r List.mem_cons_self a List.mem_cons_self).congr fun σ ↦ ?_
      rw [Descriptor.matches_slice]
    | _ => exact solves_false fun σ hm ↦ nomatch hm.outline
  | array m r =>
    cases a with
    | array n a =>
      refine (Solves.onlyIf fun _ ↦ h r List.mem_cons_self a List.mem_cons_self).congr fun σ ↦ ?_
      rw [Descriptor.matches_array]
    | _ => exact solves_false fun σ hm ↦ nomatch hm.outline
  | map k v =>
    cases a with
    | map l w =>
      have hkey := h k List.mem_cons_self l List.mem_cons_self
      have hvalue := h v (List.mem_cons_of_mem _ List.mem_cons_self) w
        (List.mem_cons_of_mem _ List.mem_cons_self)
      refine (hkey.andThen hvalue).congr fun σ ↦ ?_
      rw [Descriptor.matches_map]
    | _ => exact solves_false fun σ hm ↦ nomatch hm.outline
  | chan m r =>
    cases a with
    | chan n a =>
      refine (Solves.onlyIf fun _ ↦ h r List.mem_cons_self a List.mem_cons_self).congr fun σ ↦ ?_
      rw [Descriptor.matches_chan]
    | _ => exact solves_false fun σ hm ↦ nomatch hm.outline
  | func ps rs v =>
    cases a with
    | func qs as w =>
      have hparams := solves_pairwise ps qs fun r' hr a' ha ↦
        h r' (List.mem_append_left _ hr) a' (List.mem_append_left _ ha)
      have hresults := solves_pairwise rs as fun r' hr a' ha ↦
        h r' (List.mem_append_right _ hr) a' (List.mem_append_right _ ha)
      refine (Solves.onlyIf fun _ ↦ hparams.andThen hresults).congr fun σ ↦ ?_
      rw [Descriptor.matches_func]
    | _ => exact solves_false fun σ hm ↦ nomatch hm.outline
  | interface ms es =>
    cases a with
    | interface ns fs =>
      have hmethods := solves_pairwise (MethodSet.ofElements shapes ms es).methods
        (MethodSet.ofElements shapes ns fs).methods fun s hs t ht ↦
          unifySignature_solves fun s' hs' t' ht' ↦
            h s' (List.mem_append_left _ (List.mem_flatMap.2 ⟨s, hs, hs'⟩)) t'
              (List.mem_append_left _ (List.mem_flatMap.2 ⟨t, ht, ht'⟩))
      have hunexpanded := solves_pairwise (MethodSet.ofElements shapes ms es).unexpanded
        (MethodSet.ofElements shapes ns fs).unexpanded fun r' hr a' ha ↦
          h r' (List.mem_append_right _ hr) a' (List.mem_append_right _ ha)
      refine (hmethods.andThen hunexpanded).congr fun σ ↦ ?_
      rw [Descriptor.matches_interface]
    | _ => exact solves_false fun σ hm ↦ nomatch hm.outline
  | struct fs =>
    cases a with
    | struct gs =>
      have hfields := solves_pairwise fs gs fun f hf g hg ↦
        unifyField_solves (h f.type (List.mem_map_of_mem hf) g.type (List.mem_map_of_mem hg))
      refine hfields.congr fun σ ↦ ?_
      rw [Descriptor.matches_struct]
    | _ => exact solves_false fun σ hm ↦ nomatch hm.outline

end

/-- A type satisfies an interface if and only if one substitution makes every required method match
one that is admitted. -/
theorem satisfy_isSome_iff {shapes : Shapes} (policy : ReceiverPolicy) {cs : List Candidate}
    {ss : List Signature} {condition : Descriptor → Descriptor → Substitution → Prop}
    (compares : ∀ s ∈ ss, ∀ c ∈ cs, ∀ r ∈ s.types, ∀ a ∈ c.signature.types,
      Compares (unify shapes comparisonLimit) condition r a)
    (distinct : ∀ c ∈ cs, ∀ c' ∈ cs, c.signature.name = c'.signature.name → c = c')
    (b : Bindings) :
    (satisfy shapes policy cs b ss).isSome ↔ ∃ σ, b.Agrees σ ∧ ∀ s ∈ ss, ∃ c ∈ cs,
      policy.admits c.form ∧ s.Matches (condition · · σ) c.signature := by
  induction ss generalizing b with
  | nil => simpa [satisfy] using b.exists_agrees
  | cons s ss ih =>
    have ih := ih fun s' hs' ↦ compares s' (List.mem_cons_of_mem _ hs')
    have hsolves {c : Candidate} (hc : c ∈ cs) :=
      unifySignature_solves (compares s List.mem_cons_self c hc)
    constructor
    · intro h
      obtain ⟨found, hfound⟩ := Option.isSome_iff_exists.1 h
      obtain ⟨c, rest, hfind, hadmits, hunify, hrest, -⟩ := satisfy_cons_eq_some_iff.1 hfound
      obtain ⟨hc, -⟩ := (candidateNamed?_eq_some_iff distinct).1 hfind
      obtain ⟨σ, hσ, hss⟩ := (ih _).1 (Option.isSome_iff_exists.2 ⟨rest, hrest⟩)
      obtain ⟨hagrees, hm⟩ := ((hsolves hc).success b hunify σ).1 hσ
      exact ⟨σ, hagrees, List.forall_mem_cons.2 ⟨⟨c, hc, hadmits, hm⟩, hss⟩⟩
    · intro h
      obtain ⟨σ, hσ, hall⟩ := h
      obtain ⟨⟨c, hc, hadmits, hm⟩, hss⟩ := List.forall_mem_cons.1 hall
      have hfind := (candidateNamed?_eq_some_iff distinct).2 ⟨hc, hm.name.symm⟩
      cases hunify : (unifySignature (unify shapes comparisonLimit) s c.signature b).1 with
      | false => exact absurd hm ((hsolves hc).failure b hunify σ hσ)
      | true =>
        have hagrees := ((hsolves hc).success b hunify σ).2 ⟨hσ, hm⟩
        obtain ⟨rest, hrest⟩ := Option.isSome_iff_exists.1 ((ih _).2 ⟨σ, hagrees, hss⟩)
        exact Option.isSome_iff_exists.2
          ⟨_, satisfy_cons_eq_some_iff.2 ⟨c, rest, hfind, hadmits, hunify, hrest, rfl⟩⟩

theorem forall₂_subst_iff {rs as : List Descriptor} :
    List.Forall₂ (fun r a ↦ r.subst σ = a) rs as ↔ rs.map (Descriptor.subst σ) = as := by
  rw [← List.forall₂_eq_eq_eq, List.forall₂_map_left_iff]

theorem Signature.matches_subst_iff {r a : Signature} :
    r.Matches (fun r a ↦ r.subst σ = a) a ↔ r.subst σ = a := by
  rw [Signature.matches_iff, forall₂_subst_iff, forall₂_subst_iff, Signature.subst_eq_iff]

theorem Descriptor.matches_subst_iff {shapes : Shapes} {r a : Descriptor}
    (hparam : ∀ name owner, r ≠ .param name owner) (hr : r.PlainLevel) (ha : a.PlainLevel) :
    r.Matches shapes shapes (fun r a ↦ r.subst σ = a) a ↔ r.subst σ = a := by
  have houtlines {d d' : Descriptor}
      (h : (d.expand shapes).outline ≠ (d'.expand shapes).outline) (h' : d.subst σ ≠ d') :
      d.Matches shapes shapes (fun r a ↦ r.subst σ = a) d' ↔ d.subst σ = d' :=
    ⟨fun hm ↦ absurd hm.outline h, fun he ↦ absurd he h'⟩
  cases r with
  | param name owner => exact absurd rfl (hparam name owner)
  | named m rs =>
    cases a with
    | named n as =>
      rw [Descriptor.matches_named, forall₂_subst_iff, Descriptor.subst, substAll_eq_map,
        Descriptor.named.injEq]
    | _ => exact houtlines nofun (by simp [Descriptor.subst])
  | pointer r =>
    cases a with
    | pointer a => rw [Descriptor.matches_pointer, Descriptor.subst, Descriptor.pointer.injEq]
    | _ => exact houtlines nofun (by simp [Descriptor.subst])
  | slice r =>
    cases a with
    | slice a => rw [Descriptor.matches_slice, Descriptor.subst, Descriptor.slice.injEq]
    | _ => exact houtlines nofun (by simp [Descriptor.subst])
  | array m r =>
    cases a with
    | array n a => rw [Descriptor.matches_array, Descriptor.subst, Descriptor.array.injEq]
    | _ => exact houtlines nofun (by simp [Descriptor.subst])
  | map k v =>
    cases a with
    | map l w => rw [Descriptor.matches_map, Descriptor.subst, Descriptor.map.injEq]
    | _ => exact houtlines nofun (by simp [Descriptor.subst])
  | chan m r =>
    cases a with
    | chan n a => rw [Descriptor.matches_chan, Descriptor.subst, Descriptor.chan.injEq]
    | _ => exact houtlines nofun (by simp [Descriptor.subst])
  | func ps rs v =>
    cases a with
    | func qs as w =>
      rw [Descriptor.matches_func, forall₂_subst_iff, forall₂_subst_iff, Descriptor.subst,
        substAll_eq_map, substAll_eq_map, Descriptor.func.injEq]
      grind
    | _ => exact houtlines nofun (by simp [Descriptor.subst])
  | interface ms es =>
    cases a with
    | interface ns fs =>
      obtain ⟨rfl, hms⟩ := hr
      obtain ⟨rfl, hns⟩ := ha
      have hmethods : List.Forall₂ (Signature.Matches fun r a ↦ r.subst σ = a) ms ns ↔
          ms.map (Signature.subst σ) = ns := by
        have hrel : (Signature.Matches fun r a ↦ r.subst σ = a) = fun s t ↦ s.subst σ = t := by
          funext s t
          exact propext Signature.matches_subst_iff
        rw [hrel, ← List.forall₂_eq_eq_eq, List.forall₂_map_left_iff]
      rw [Descriptor.matches_interface, MethodSet.ofElements_of_sorted hms,
        MethodSet.ofElements_of_sorted hns, hmethods, Descriptor.subst, substSignatures_eq_map,
        substAll_eq_map, Descriptor.interface.injEq]
      simp
    | _ => exact houtlines nofun (by simp [Descriptor.subst])
  | struct fs =>
    cases a with
    | struct gs =>
      have hrel : (fun f g : Field ↦ f.name = g.name ∧ f.type.subst σ = g.type) =
          fun f g ↦ f.subst σ = g := by
        funext f g
        obtain ⟨name, d⟩ := g
        rw [Field.subst_eq, Field.mk.injEq]
      rw [Descriptor.matches_struct, hrel, Descriptor.subst, substFields_eq_map,
        Descriptor.struct.injEq, ← List.forall₂_eq_eq_eq, List.forall₂_map_left_iff]
    | _ => exact houtlines nofun (by simp [Descriptor.subst])

/-- The number of levels suffices for types that are no deeper. -/
theorem unify_compares {shapes : Shapes} {n : Nat} {r a : Descriptor} (hn : r.depth ≤ n)
    (hr : r.Plain) (ha : a.Plain) :
    Compares (unify shapes n) (fun r a σ ↦ r.subst σ = a) r a := by
  induction n generalizing r a with
  | zero => exact absurd hn (Nat.not_le.2 r.depth_pos)
  | succ n ih =>
    obtain ⟨hrlevel, hrs⟩ := Descriptor.forall_parts.1 hr
    obtain ⟨halevel, has⟩ := Descriptor.forall_parts.1 ha
    by_cases hparam : ∃ name owner, r = .param name owner
    · obtain ⟨name, owner, rfl⟩ := hparam
      rw [Compares, unify, unifyLevel_param]
      exact Bindings.bind_solves owner name a
    simp only [not_exists] at hparam
    refine (unifyLevel_solves hparam (fun r' hr' a' ha' ↦ ?_) (fun he hground σ ↦ ?_)).congr
      fun σ ↦ Descriptor.matches_subst_iff hparam hrlevel halevel
    · rw [Descriptor.expanded_of_plainLevel hrlevel] at hr'
      rw [Descriptor.expanded_of_plainLevel halevel] at ha'
      exact ih (Descriptor.depth_le.1 hn r' hr') (hrs r' hr') (has a' ha')
    · rw [Descriptor.matches_subst_iff hparam hrlevel halevel]
      exact (Descriptor.subst_of_not_mentionsParam hground).trans he

end Conformance

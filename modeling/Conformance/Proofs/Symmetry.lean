import Conformance.Proofs.Fitting
import Mathlib.Data.List.Zip

/-!
Comparing types the other way round. Only the required side has type parameters that stand for
something, so a required type that fits an actual one need not be fitted by it. `Encounters` lists
what type parameters meet; a comparison can be turned round just where they meet nothing but other
type parameters.
-/

namespace Conformance

variable {shapes : Shapes} {σ : Substitution} {n : Nat} {r a x : Descriptor} {k : String × String}

abbrev Descriptor.paramOf (k : String × String) : Descriptor := .param k.2 k.1

/-- On the first `n` levels the type parameter `k` of the required type meets the type `x`. -/
def Encounters (shapes : Shapes) :
    Nat → Descriptor → Descriptor → String × String → Descriptor → Prop
  | 0, _, _, _, _ => False
  | n + 1, r, a, k, x => ¬ Identical r a ∧ ((r = .paramOf k ∧ x = a) ∨
      ∃ y ∈ (r.expanded shapes).zip (a.expanded shapes), Encounters shapes n y.1 y.2 k x)

theorem Identical.symm (h : Identical r a) : Identical a r :=
  ⟨h.1.symm, h.1 ▸ h.2⟩

theorem not_identical_paramOf : ¬ Identical (.paramOf k) a := by
  intro h
  cases h.2

theorem encounters_paramOf {l : String × String} :
    Encounters shapes (n + 1) (.paramOf k) a l x ↔ k = l ∧ x = a := by
  have hchildren : (Descriptor.paramOf k).expanded shapes = [] := rfl
  simp only [Encounters, not_identical_paramOf, not_false_eq_true, true_and, hchildren,
    List.zip_nil_left, List.not_mem_nil, false_and, exists_false, or_false, Descriptor.param.injEq]
  grind

theorem meets_iff : Meets shapes σ n r a ↔ ∀ k x, Encounters shapes n r a k x → σ k = x := by
  induction n generalizing r a with
  | zero => exact iff_of_true trivial fun _ _ h ↦ h.elim
  | succ n ih =>
    rw [Meets]
    by_cases hidentical : Identical r a
    · exact iff_of_true (.inl hidentical) fun _ _ h ↦ absurd hidentical h.1
    simp only [hidentical, false_or, Encounters, not_false_eq_true, true_and, ih]
    constructor
    · rintro ⟨hself, hinner⟩ k x (⟨hr, rfl⟩ | ⟨y, hy, hx⟩)
      · exact hself k.2 k.1 hr
      · exact hinner y hy k x hx
    · intro h
      refine ⟨fun name owner hr ↦ h _ _ (.inl ⟨hr, rfl⟩), fun y hy k x hx ↦ ?_⟩
      exact h k x (.inr ⟨y, hy, hx⟩)

theorem mem_zip_comm {α β : Type} {as : List α} {bs : List β} {a : α} {b : β} :
    (a, b) ∈ as.zip bs ↔ (b, a) ∈ bs.zip as := by
  rw [← List.zip_swap, List.mem_map]
  constructor
  · rintro ⟨⟨_, _⟩, hx, he⟩
    cases he
    exact hx
  · intro h
    exact ⟨_, h, rfl⟩

theorem rel_of_mem_zip {α β : Type} {R : α → β → Prop} {as : List α} {bs : List β}
    (h : List.Forall₂ R as bs) {y : α × β} (hy : y ∈ as.zip bs) : R y.1 y.2 :=
  (List.forall₂_iff_zip.1 h).2 hy

theorem forall₂_iff_of_forall₂ {α β : Type} {R : α → β → Prop} {Q : β → α → Prop} {as : List α}
    {bs : List β} (h : List.Forall₂ R as bs) :
    List.Forall₂ Q bs as ↔ ∀ y ∈ as.zip bs, Q y.2 y.1 := by
  rw [List.forall₂_iff_zip, and_iff_right h.length_eq.symm]
  constructor
  · intro hall y hy
    exact hall (mem_zip_comm.1 hy)
  · intro hall b a hba
    exact hall _ (mem_zip_comm.1 hba)

theorem Fits.cases (h : Fits shapes (n + 1) r a) : Identical r a ∨ ¬ Identical r a ∧
    ((∃ k, r = .paramOf k) ∨ (∀ k, r ≠ .paramOf k) ∧ r.Matches shapes shapes (Fits shapes n) a) := by
  by_cases hidentical : Identical r a
  · exact .inl hidentical
  by_cases hparam : ∃ k, r = .paramOf k
  · exact .inr ⟨hidentical, .inl hparam⟩
  refine .inr ⟨hidentical, .inr ⟨not_exists.1 hparam, ?_⟩⟩
  refine (h.resolve_left hidentical).resolve_left ?_
  rintro ⟨name, owner, rfl⟩
  exact hparam ⟨(owner, name), rfl⟩

theorem encounters_of_ne_param (hidentical : ¬ Identical r a) (hparam : ∀ k, r ≠ .paramOf k) :
    Encounters shapes (n + 1) r a k x ↔
      ∃ y ∈ (r.expanded shapes).zip (a.expanded shapes), Encounters shapes n y.1 y.2 k x := by
  simp only [Encounters, hidentical, not_false_eq_true, true_and, hparam, false_and, false_or]

theorem Descriptor.Matches.ne_param (h : r.Matches shapes shapes R a)
    (hparam : ∀ k, r ≠ .paramOf k) (k : String × String) : a ≠ .paramOf k := by
  rintro rfl
  refine hparam k (Descriptor.eq_param_of_matches (R := flip R) ⟨h.outline.symm, ?_⟩)
  exact h.children.flip

theorem Fits.symm_iff_of_matches (hidentical : ¬ Identical r a) (hparam : ∀ k, r ≠ .paramOf k)
    (h : r.Matches shapes shapes (Fits shapes n) a) : Fits shapes (n + 1) a r ↔
      ∀ y ∈ (r.expanded shapes).zip (a.expanded shapes), Fits shapes n y.2 y.1 := by
  rw [← forall₂_iff_of_forall₂ h.children]
  constructor
  · intro hback
    rcases hback.cases with hidentical' | ⟨-, ⟨l, rfl⟩ | ⟨-, hmatches⟩⟩
    · exact absurd hidentical'.symm hidentical
    · exact absurd rfl (h.ne_param hparam l)
    · exact hmatches.children
  · intro hchildren
    exact .inr (.inr ⟨h.outline.symm, hchildren⟩)

theorem fits_paramOf_iff : Fits shapes (n + 1) a (.paramOf k) ↔ ∃ l, a = .paramOf l := by
  constructor
  · intro h
    rcases h.cases with hidentical | ⟨-, hparam | ⟨hparam, hmatches⟩⟩
    · exact absurd hidentical.symm not_identical_paramOf
    · exact hparam
    · exact absurd rfl (hmatches.ne_param hparam k)
  · rintro ⟨l, rfl⟩
    exact .inr (.inl ⟨l.2, l.1, rfl⟩)

/-- The actual type fits the required one as well if type parameters meet only type parameters. -/
theorem Fits.symm_iff (h : Fits shapes n r a) : Fits shapes n a r ↔
    ∀ k x, Encounters shapes n r a k x → ∃ l, x = .paramOf l := by
  induction n generalizing r a with
  | zero => exact h.elim
  | succ n ih =>
    rcases h.cases with hidentical | ⟨hidentical, ⟨k, rfl⟩ | ⟨hparam, hmatches⟩⟩
    · exact iff_of_true (.inl hidentical.symm) fun _ _ hx ↦ absurd hidentical hx.1
    · simp only [encounters_paramOf, fits_paramOf_iff]
      constructor
      · rintro ha _ x ⟨-, rfl⟩
        exact ha
      · intro hall
        exact hall k a ⟨rfl, rfl⟩
    · have hinner {y : Descriptor × Descriptor}
          (hy : y ∈ (r.expanded shapes).zip (a.expanded shapes)) :=
        ih (rel_of_mem_zip hmatches.children hy)
      rw [Fits.symm_iff_of_matches hidentical hparam hmatches]
      simp only [encounters_of_ne_param hidentical hparam]
      constructor
      · rintro hall k x ⟨y, hy, hx⟩
        exact (hinner hy).1 (hall y hy) k x hx
      · intro hall y hy
        exact (hinner hy).2 fun k x hx ↦ hall k x ⟨y, hy, hx⟩

theorem Fits.encounters_symm_iff (h : Fits shapes n r a) (hback : Fits shapes n a r)
    {l : String × String} : Encounters shapes n a r l x ↔
      ∃ k, x = .paramOf k ∧ Encounters shapes n r a k (.paramOf l) := by
  induction n generalizing r a with
  | zero => exact h.elim
  | succ n ih =>
    rcases h.cases with hidentical | ⟨hidentical, ⟨k, rfl⟩ | ⟨hparam, hmatches⟩⟩
    · refine iff_of_false (fun hx ↦ hx.1 hidentical.symm) ?_
      rintro ⟨k, -, hx⟩
      exact hx.1 hidentical
    · obtain ⟨m, rfl⟩ := fits_paramOf_iff.1 hback
      simp only [encounters_paramOf, Descriptor.param.injEq]
      constructor
      · rintro ⟨rfl, rfl⟩
        exact ⟨k, rfl, rfl, rfl, rfl⟩
      · rintro ⟨_, rfl, rfl, hname, howner⟩
        exact ⟨(Prod.ext howner hname).symm, rfl⟩
    · have hparam' := hmatches.ne_param hparam
      have hinner {y : Descriptor × Descriptor}
          (hy : y ∈ (r.expanded shapes).zip (a.expanded shapes)) :=
        ih (rel_of_mem_zip hmatches.children hy)
          ((Fits.symm_iff_of_matches hidentical hparam hmatches).1 hback y hy)
      rw [encounters_of_ne_param (fun h ↦ hidentical h.symm) hparam']
      simp only [encounters_of_ne_param hidentical hparam]
      constructor
      · rintro ⟨y, hy, hx⟩
        have hy' := mem_zip_comm.1 hy
        obtain ⟨k, hk, hx⟩ := (hinner hy').1 hx
        exact ⟨k, hk, (y.2, y.1), hy', hx⟩
      · rintro ⟨k, hk, y, hy, hx⟩
        exact ⟨(y.2, y.1), mem_zip_comm.1 hy, (hinner hy).2 ⟨k, hk, hx⟩⟩

theorem not_encounters_of_not_mentionsParam (hshapes : ParamFree shapes)
    (h : r.mentionsParam = false) : ¬ Encounters shapes n r a k x := by
  intro hx
  -- Any two substitutions agree with the comparison.
  have hmeets (σ : Substitution) : σ k = x :=
    meets_iff.1 (meets_of_not_mentionsParam hshapes h a) k x hx
  have he : Descriptor.emptyInterface = .pointer .emptyInterface :=
    (hmeets fun _ ↦ .emptyInterface).trans (hmeets fun _ ↦ .pointer .emptyInterface).symm
  cases he

def Signature.Encounters (shapes : Shapes) (s t : Signature) (k : String × String)
    (x : Descriptor) : Prop :=
  ∃ y ∈ s.types.zip t.types, Conformance.Encounters shapes comparisonLimit y.1 y.2 k x

/-- The type parameters of the required method meet type parameters, no two of them the same. -/
structure Signature.Exchanges (shapes : Shapes) (s t : Signature) : Prop where
  params : ∀ k x, s.Encounters shapes t k x → ∃ l, x = .paramOf l
  apart : ∀ k l x, s.Encounters shapes t k x → s.Encounters shapes t l x → k = l

theorem exists_substitution_iff {E : String × String → Descriptor → Prop} :
    (∃ σ : Substitution, ∀ k x, E k x → σ k = x) ↔ ∀ k x y, E k x → E k y → x = y := by
  classical
  constructor
  · rintro ⟨σ, hσ⟩ k x y hx hy
    rw [← hσ k x hx, hσ k y hy]
  · intro h
    refine ⟨fun k ↦ if hk : ∃ x, E k x then hk.choose else .emptyInterface, fun k x hx ↦ ?_⟩
    have hk : ∃ x, E k x := ⟨x, hx⟩
    exact (dif_pos hk).trans (h k _ x hk.choose_spec hx)

theorem satisfy_one_isSome_iff (policy : ReceiverPolicy) {c : Candidate} {s : Signature} :
    (satisfy shapes policy [c] [] [s]).isSome ↔ policy.admits c.form ∧
      s.Matches (Fits shapes comparisonLimit) c.signature ∧
      ∀ k x y, s.Encounters shapes c.signature k x → s.Encounters shapes c.signature k y →
        x = y := by
  have hdistinct : ∀ d ∈ [c], ∀ d' ∈ [c], d.signature.name = d'.signature.name → d = d' := by
    intro d hd d' hd' _
    rw [List.mem_singleton.1 hd, List.mem_singleton.1 hd']
  rw [satisfy_isSome_iff_fit policy hdistinct, ← exists_substitution_iff]
  simp only [MethodsFit, ParamsAgree, List.mem_singleton, forall_eq, exists_eq_left, and_assoc,
    meets_iff]
  refine and_congr_right fun _ ↦ and_congr_right fun hm ↦ exists_congr fun σ ↦ ?_
  constructor
  · rintro hall k x ⟨y, hy, hx⟩
    exact hall hm.name y hy k x hx
  · intro hall _ y hy k x hx
    exact hall k x ⟨y, hy, hx⟩

/-- Required and actual method can change places just where the type parameters that meet are in
one-to-one correspondence. -/
theorem Signature.Matches.exchanges_iff {s t : Signature}
    (h : s.Matches (Fits shapes comparisonLimit) t) : s.Exchanges shapes t ↔
      t.Matches (Fits shapes comparisonLimit) s ∧
        ∀ k x y, t.Encounters shapes s k x → t.Encounters shapes s k y → x = y := by
  have hfits {y : Descriptor × Descriptor} (hy : y ∈ s.types.zip t.types) :=
    rel_of_mem_zip h.types hy
  have hmatches : t.Matches (Fits shapes comparisonLimit) s ↔
      ∀ k x, s.Encounters shapes t k x → ∃ l, x = .paramOf l := by
    have htypes := forall₂_iff_of_forall₂ (Q := Fits shapes comparisonLimit) h.types
    constructor
    · rintro hback k x ⟨y, hy, hx⟩
      exact (hfits hy).symm_iff.1 (htypes.1 hback.types y hy) k x hx
    · intro hparams
      refine ⟨h.form.symm, htypes.2 fun y hy ↦ (hfits hy).symm_iff.2 fun k x hx ↦ ?_⟩
      exact hparams k x ⟨y, hy, hx⟩
  have hencounters (hback : t.Matches (Fits shapes comparisonLimit) s) (l : String × String)
      (x : Descriptor) : t.Encounters shapes s l x ↔
        ∃ k, x = .paramOf k ∧ s.Encounters shapes t k (.paramOf l) := by
    have hfits' {y : Descriptor × Descriptor} (hy : y ∈ s.types.zip t.types) :=
      rel_of_mem_zip hback.types (mem_zip_comm.1 hy)
    constructor
    · rintro ⟨y, hy, hx⟩
      have hy' := mem_zip_comm.1 hy
      obtain ⟨k, hk, hx⟩ := ((hfits hy').encounters_symm_iff (hfits' hy')).1 hx
      exact ⟨k, hk, _, hy', hx⟩
    · rintro ⟨k, hk, y, hy, hx⟩
      exact ⟨_, mem_zip_comm.1 hy, ((hfits hy).encounters_symm_iff (hfits' hy)).2 ⟨k, hk, hx⟩⟩
  constructor
  · intro hex
    have hback := hmatches.2 hex.params
    refine ⟨hback, fun l x y hx hy ↦ ?_⟩
    obtain ⟨k, rfl, hk⟩ := (hencounters hback l x).1 hx
    obtain ⟨k', rfl, hk'⟩ := (hencounters hback l y).1 hy
    rw [hex.apart k k' _ hk hk']
  · rintro ⟨hback, hsingle⟩
    refine ⟨hmatches.1 hback, fun k k' x hk hk' ↦ ?_⟩
    obtain ⟨l, rfl⟩ := hmatches.1 hback k x hk
    have he := hsingle l _ _ ((hencounters hback l _).2 ⟨k, rfl, hk⟩)
      ((hencounters hback l _).2 ⟨k', rfl, hk'⟩)
    obtain ⟨hname, howner⟩ := Descriptor.param.inj he
    exact Prod.ext howner hname

end Conformance

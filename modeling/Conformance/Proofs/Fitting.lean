import Conformance.Proofs.Matching

/-!
Matching with embedded interfaces. A required type fits an actual one if they are alike level by
level, type parameters aside; the bindings add that one substitution gives each type parameter
the types it meets. Types that are equal from the start are looked into only for type parameters.
-/

namespace Conformance

variable {shapes shapes' : Shapes} {R : Descriptor → Descriptor → Prop} {σ : Substitution} {n : Nat}
  {r r' a a' : Descriptor}

def Identical (r a : Descriptor) : Prop := r = a ∧ r.mentionsParam = false

/-- Down to `n` levels the required type is like the actual one, type parameters aside. -/
def Fits (shapes : Shapes) : Nat → Descriptor → Descriptor → Prop
  | 0, _, _ => False
  | n + 1, r, a => Identical r a ∨ (∃ name owner, r = .param name owner) ∨
    r.Matches shapes shapes (Fits shapes n) a

/-- Down to `n` levels the substitution gives type parameters the types that they meet. -/
def Meets (shapes : Shapes) (σ : Substitution) : Nat → Descriptor → Descriptor → Prop
  | 0, _, _ => True
  | n + 1, r, a => Identical r a ∨ (∀ name owner, r = .param name owner → σ (owner, name) = a) ∧
    ∀ x ∈ (r.expanded shapes).zip (a.expanded shapes), Meets shapes σ n x.1 x.2

theorem meets_param {name owner : String} :
    Meets shapes σ (n + 1) (.param name owner) a ↔ σ (owner, name) = a := by
  simp [Meets, Identical, Descriptor.mentionsParam, Descriptor.expanded, Descriptor.expand,
    Descriptor.children]

theorem forall₂_and_iff {as bs : List Descriptor} {Q : Descriptor → Descriptor → Prop} :
    List.Forall₂ (fun a b ↦ R a b ∧ Q a b) as bs ↔
      List.Forall₂ R as bs ∧ ∀ x ∈ as.zip bs, Q x.1 x.2 := by
  rw [List.forall₂_iff_zip, List.forall₂_iff_zip]
  constructor
  · intro h
    exact ⟨⟨h.1, fun hx ↦ (h.2 hx).1⟩, fun x hx ↦ (h.2 hx).2⟩
  · intro h
    exact ⟨h.1.1, fun hx ↦ ⟨h.1.2 hx, h.2 _ hx⟩⟩

/-- The comparison of two types succeeds if they fit, with the bindings that they meet. -/
theorem unify_fits (r a : Descriptor) :
    Compares (unify shapes n) (fun r a σ ↦ Fits shapes n r a ∧ Meets shapes σ n r a) r a := by
  induction n generalizing r a with
  | zero => exact Comparison.solves_false fun σ h ↦ h.1
  | succ n ih =>
    rw [Compares, unify]
    by_cases hidentical : Identical r a
    · unfold unifyLevel
      rw [if_pos (by simp [← hidentical.1, hidentical.2])]
      exact Comparison.solves_true fun σ ↦ ⟨.inl hidentical, .inl hidentical⟩
    by_cases hparam : ∃ name owner, r = .param name owner
    · obtain ⟨name, owner, rfl⟩ := hparam
      rw [unifyLevel_param]
      refine (Bindings.bind_solves owner name a).congr fun σ ↦ ?_
      constructor
      · intro h
        refine ⟨.inr (.inl ⟨name, owner, rfl⟩), .inr ⟨?_, fun x hx ↦ absurd hx List.not_mem_nil⟩⟩
        intro _ _ he
        cases he
        exact h
      · intro h
        exact (h.2.resolve_left hidentical).1 name owner rfl
    refine (unifyLevel_solves (fun name owner he ↦ hparam ⟨name, owner, he⟩)
      (fun r' _ a' _ ↦ ih r' a') (fun he hground ↦ absurd ⟨he, hground⟩ hidentical)).congr
      fun σ ↦ ?_
    constructor
    · intro h
      obtain ⟨hfits, hmeets⟩ := forall₂_and_iff.1 h.children
      refine ⟨.inr (.inr ⟨h.outline, hfits⟩), .inr ⟨?_, hmeets⟩⟩
      exact fun name owner he ↦ absurd ⟨name, owner, he⟩ hparam
    · intro h
      have hfits := (h.1.resolve_left hidentical).resolve_left hparam
      have hmeets := (h.2.resolve_left hidentical).2
      exact ⟨hfits.outline, forall₂_and_iff.2 ⟨hfits.children, hmeets⟩⟩

def MethodsFit (F : Descriptor → Descriptor → Prop) (policy : ReceiverPolicy)
    (cs : List Candidate) (ss : List Signature) : Prop :=
  ∀ s ∈ ss, ∃ c ∈ cs, policy.admits c.form ∧ s.Matches F c.signature

/-- Each type parameter meets the same type everywhere in the required methods. -/
def ParamsAgree (shapes : Shapes) (cs : List Candidate) (ss : List Signature) : Prop :=
  ∃ σ, ∀ s ∈ ss, ∀ c ∈ cs, s.name = c.signature.name →
    ∀ x ∈ s.types.zip c.signature.types, Meets shapes σ comparisonLimit x.1 x.2

theorem satisfy_isSome_iff_fit (policy : ReceiverPolicy) {cs : List Candidate}
    {ss : List Signature}
    (distinct : ∀ c ∈ cs, ∀ c' ∈ cs, c.signature.name = c'.signature.name → c = c') :
    (satisfy shapes policy cs [] ss).isSome ↔
      MethodsFit (Fits shapes comparisonLimit) policy cs ss ∧ ParamsAgree shapes cs ss := by
  rw [satisfy_isSome_iff policy (fun s _ c _ r _ a _ ↦ unify_fits r a) distinct]
  constructor
  · intro h
    obtain ⟨σ, -, hall⟩ := h
    refine ⟨fun s hs ↦ ?_, σ, fun s hs c hc hname ↦ ?_⟩
    · obtain ⟨c, hc, hadmits, hm⟩ := hall s hs
      exact ⟨c, hc, hadmits, hm.form, (forall₂_and_iff.1 hm.types).1⟩
    · obtain ⟨c', hc', -, hm⟩ := hall s hs
      rw [distinct c hc c' hc' (hname.symm.trans hm.name)]
      exact (forall₂_and_iff.1 hm.types).2
  · intro h
    obtain ⟨hfit, σ, hmeets⟩ := h
    refine ⟨σ, Bindings.agrees_nil, fun s hs ↦ ?_⟩
    obtain ⟨c, hc, hadmits, hm⟩ := hfit s hs
    exact ⟨c, hc, hadmits, hm.form, forall₂_and_iff.2 ⟨hm.types, hmeets s hs c hc hm.name⟩⟩

/-- What embedded interfaces expand to has no type parameters. -/
def ParamFree (shapes : Shapes) : Prop :=
  ∀ name ms, shapes.lookup name = some ms → ∀ s ∈ ms, s.mentionsParam = false

theorem Descriptor.mentionsParam_of_mem_expanded (hshapes : ParamFree shapes) {d c : Descriptor}
    (h : d.mentionsParam = false) (hc : c ∈ d.expanded shapes) : c.mentionsParam = false := by
  rcases Descriptor.mem_expanded hc with ⟨x, hx, hc⟩ | ⟨name, ms, hname, s, hs, hc⟩
  · exact Descriptor.mentionsParam_of_mem_parts (Descriptor.mentionsParam_of_mem_children h hx) hc
  · exact Signature.mentionsParam_eq_false_iff.1 (hshapes name ms hname s hs) c hc

theorem meets_of_not_mentionsParam (hshapes : ParamFree shapes) (h : r.mentionsParam = false)
    (a : Descriptor) : Meets shapes σ n r a := by
  induction n generalizing r a with
  | zero => trivial
  | succ n ih =>
    refine .inr ⟨?_, fun x hx ↦ ?_⟩
    · intro name owner hr
      rw [hr] at h
      cases h
    · exact ih (Descriptor.mentionsParam_of_mem_expanded hshapes h (List.of_mem_zip hx).1) x.2

theorem paramsAgree_of_not_mentionsParam (hshapes : ParamFree shapes) {cs : List Candidate}
    {ss : List Signature} (h : ∀ s ∈ ss, s.mentionsParam = false) : ParamsAgree shapes cs ss := by
  refine ⟨fun _ ↦ .emptyInterface, fun s hs c _ _ x hx ↦ ?_⟩
  have hr := Signature.mentionsParam_eq_false_iff.1 (h s hs) x.1 (List.of_mem_zip hx).1
  exact meets_of_not_mentionsParam hshapes hr x.2

def Suits (shapes : Shapes) (r a : Descriptor) : Prop := ∃ n, Fits shapes n r a

theorem Fits.succ (h : Fits shapes n r a) : Fits shapes (n + 1) r a := by
  induction n generalizing r a with
  | zero => exact h.elim
  | succ n ih =>
    rcases h with h | h | h
    · exact .inl h
    · exact .inr (.inl h)
    · exact .inr (.inr ⟨h.outline, h.children.imp fun _ _ ↦ ih⟩)

theorem Fits.mono {m : Nat} (h : Fits shapes n r a) (hnm : n ≤ m) : Fits shapes m r a := by
  induction hnm with
  | refl => exact h
  | step _ ih => exact ih.succ

theorem exists_forall₂_fits {rs as : List Descriptor} (h : List.Forall₂ (Suits shapes) rs as) :
    ∃ n, List.Forall₂ (Fits shapes n) rs as := by
  induction h with
  | nil => exact ⟨0, .nil⟩
  | cons hfirst _ ih =>
    obtain ⟨m, hm⟩ := hfirst
    obtain ⟨n, hn⟩ := ih
    refine ⟨max m n, .cons (hm.mono (Nat.le_max_left m n)) ?_⟩
    exact hn.imp fun _ _ h ↦ h.mono (Nat.le_max_right m n)

theorem Suits.of_identical (h : Identical r a) : Suits shapes r a := ⟨1, .inl h⟩

theorem suits_param (name owner : String) (a : Descriptor) : Suits shapes (.param name owner) a :=
  ⟨1, .inr (.inl ⟨name, owner, rfl⟩)⟩

theorem Suits.of_matches (h : r.Matches shapes shapes (Suits shapes) a) : Suits shapes r a := by
  obtain ⟨n, hn⟩ := exists_forall₂_fits h.children
  exact ⟨n + 1, .inr (.inr ⟨h.outline, hn⟩)⟩

/-- Related types are alike on their first level, and the types inside are related again. -/
def Respects (shapes shapes' : Shapes) (R : Descriptor → Descriptor → Prop) : Prop :=
  ∀ d d', R d d' → d.Matches shapes shapes' R d'

theorem Descriptor.eq_param_of_matches {d' : Descriptor} {name owner : String}
    (h : (Descriptor.param name owner).Matches shapes shapes' R d') : d' = .param name owner := by
  cases d' with
  | param name' owner' => exact h.outline.symm
  | _ => cases h.outline

/-- If types are alike, what one of them fits the other one fits as well. Identical types need not
become identical ones, so for these the fit is a hypothesis. -/
theorem Suits.respects (h : Respects shapes shapes' R)
    (hidentical : ∀ d d₁ d₂, d.mentionsParam = false → R d d₁ → R d d₂ → Suits shapes' d₁ d₂)
    (hr : R r r') (ha : R a a') (hsuits : Suits shapes r a) : Suits shapes' r' a' := by
  obtain ⟨n, hfits⟩ := hsuits
  induction n generalizing r r' a a' with
  | zero => exact hfits.elim
  | succ n ih =>
    rcases hfits with hfits | ⟨name, owner, rfl⟩ | hfits
    · obtain ⟨rfl, hground⟩ := hfits
      exact hidentical r r' a' hground hr ha
    · rw [Descriptor.eq_param_of_matches (h _ r' hr)]
      exact suits_param name owner a'
    · have hrmatches := h r r' hr
      have hamatches := h a a' ha
      refine .of_matches ⟨?_, ?_⟩
      · exact hrmatches.outline.symm.trans (hfits.outline.trans hamatches.outline)
      · exact forall₂_trans hrmatches.children hamatches.children hfits.children
          fun hr ha hf ↦ ih hr ha hf

section

variable {F F' : Descriptor → Descriptor → Prop}

theorem Signature.Matches.transport
    (hF : ∀ r r' a a', R r r' → R a a' → F r a → F' r' a') {s s' t t' : Signature}
    (hs : s.Matches R s') (ht : t.Matches R t') (h : s.Matches F t) : s'.Matches F' t' := by
  refine ⟨hs.form.symm.trans (h.form.trans ht.form), ?_⟩
  exact forall₂_trans hs.types ht.types h.types (hF _ _ _ _)

theorem Signature.Matches.flip {s t : Signature} (h : s.Matches R t) : t.Matches (flip R) s :=
  ⟨h.form.symm, h.types.flip⟩

structure Candidate.Matches (R : Descriptor → Descriptor → Prop) (c c' : Candidate) : Prop where
  form : c.form = c'.form
  signature : c.signature.Matches R c'.signature

theorem MethodsFit.transport (hF : ∀ r r' a a', R r r' → R a a' → F r a → F' r' a')
    {policy : ReceiverPolicy} {cs cs' : List Candidate} {ss ss' : List Signature}
    (hcs : ∀ c ∈ cs, ∃ c' ∈ cs', c.Matches R c') (hss : ∀ s' ∈ ss', ∃ s ∈ ss, s.Matches R s')
    (hfit : MethodsFit F policy cs ss) : MethodsFit F' policy cs' ss' := by
  intro s' hs'
  obtain ⟨s, hs, hss'⟩ := hss s' hs'
  obtain ⟨c, hc, hadmits, hfits⟩ := hfit s hs
  obtain ⟨c', hc', hcc'⟩ := hcs c hc
  refine ⟨c', hc', ?_, .transport hF hss' hcc'.signature hfits⟩
  rw [← hcc'.form]
  exact hadmits

end

end Conformance

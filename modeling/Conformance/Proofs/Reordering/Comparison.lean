import Conformance.Proofs.Reordering

namespace Conformance

open Relation

variable {shapes shapes' : Shapes} {view : Descriptor → Descriptor} {d d' : Descriptor}
  {T : Descriptor → Descriptor → Prop}

theorem ShapesMatch.matches_refl (h : ShapesMatch T shapes shapes') (hrefl : ∀ x, T x x)
    (d : Descriptor) : d.Matches shapes shapes' T d := by
  have hsame {ds : List Descriptor} : List.Forall₂ T ds ds := List.forall₂_same.2 fun x _ ↦ hrefl x
  cases d with
  | interface ms es =>
    rw [Descriptor.matches_interface, MethodSet.ofElements_eq, MethodSet.ofElements_eq,
      ← h.unexpanded]
    exact ⟨h.contributes hrefl _ [] [] .nil, hsame⟩
  | _ => exact ⟨rfl, hsame⟩

theorem reordered_respects (h : ShapesMatch (Reordered shapes id) shapes shapes') :
    Respects shapes shapes' (Reordered shapes id) := by
  intro d d' hd
  cases hd with
  | refl => exact h.matches_refl (fun _ ↦ .refl) d
  | single hd =>
    exact hd.matches_of_inner h (fun _ ↦ .refl) (fun _ _ _ hc ↦ .single hc) (Nat.le_succ _)

def SelfFitting (shapes : Shapes) : Prop :=
  ∀ name ms, shapes.lookup name = some ms → ∀ s ∈ ms, ∀ d ∈ s.types, Suits shapes d d

theorem selfFitting_of_paramFree (h : ParamFree shapes) : SelfFitting shapes :=
  fun name ms hname s hs d hd ↦
    .of_identical ⟨rfl, Signature.mentionsParam_eq_false_iff.1 (h name ms hname s hs) d hd⟩

theorem SelfFitting.suits_self (h : SelfFitting shapes) (d : Descriptor) : Suits shapes d d := by
  have hdepth (n : Nat) : ∀ d : Descriptor, d.depth ≤ n → Suits shapes d d := by
    induction n with
    | zero =>
      intro d hd
      exact absurd d.depth_pos (Nat.not_lt.2 hd)
    | succ n ih =>
      intro d hd
      refine .of_matches ⟨rfl, List.forall₂_same.2 fun c hc ↦ ?_⟩
      rcases Descriptor.mem_expanded hc with ⟨x, hx, hc⟩ | ⟨name, ms, hname, s, hs, hc⟩
      · have hle := Descriptor.depth_le_of_mem_parts hc
        have hlt := Descriptor.depth_lt_of_mem_children hx
        exact ih c (by omega)
      · exact h name ms hname s hs c hc
  exact hdepth d.depth d le_rfl

/-- Two types that are one type with embedded elements in different orders fit each other. -/
theorem SelfFitting.suits_of_reordered (h : SelfFitting shapes) {d₁ d₂ : Descriptor}
    (h₁ : Reordered shapes id d d₁) (h₂ : Reordered shapes id d d₂) : Suits shapes d₁ d₂ := by
  -- The induction is on the depth, as reordered types inside are less deep.
  have hdepth (n : Nat) : ∀ d d₁ d₂ : Descriptor, d.depth ≤ n → Reordered shapes id d d₁ →
      Reordered shapes id d d₂ → Suits shapes d₁ d₂ := by
    induction n with
    | zero =>
      intro d d₁ d₂ hd
      exact absurd d.depth_pos (Nat.not_lt.2 hd)
    | succ n ih =>
      intro d d₁ d₂ hd h₁ h₂
      have hmatches {x : Descriptor} (hx : Reordered shapes id d x) : d.Matches shapes shapes
          (fun c y ↦ c = y ∨ c.depth ≤ n ∧ c.Reorders shapes id y) x := by
        have hshapes := shapesMatch_refl
          (T := fun c y ↦ c = y ∨ c.depth ≤ n ∧ c.Reorders shapes id y) (fun _ ↦ .inl rfl) shapes
        cases hx with
        | refl => exact hshapes.matches_refl (fun _ ↦ .inl rfl) d
        | single hx =>
          exact hx.matches_of_inner hshapes (fun _ ↦ .inl rfl)
            (fun c y hc hy ↦ .inr ⟨hc, hy⟩) hd
      have hm₁ := hmatches h₁
      have hm₂ := hmatches h₂
      refine .of_matches ⟨hm₁.outline.symm.trans hm₂.outline, ?_⟩
      have hsame : List.Forall₂ Eq (d.expanded shapes) (d.expanded shapes) :=
        List.forall₂_same.2 fun _ _ ↦ rfl
      refine forall₂_trans hm₁.children hm₂.children hsame fun {c y c' y'} hy hy' he ↦ ?_
      obtain rfl := he
      rcases hy with rfl | ⟨hc, hy⟩
      · rcases hy' with rfl | ⟨hc, hy'⟩
        · exact h.suits_self c
        · exact ih c c y' hc .refl (.single hy')
      · rcases hy' with rfl | ⟨_, hy'⟩
        · exact ih c y c hc (.single hy) .refl
        · exact ih c y y' hc (.single hy) (.single hy')
  exact hdepth d.depth d d₁ d₂ le_rfl h₁ h₂

theorem ShapesMatch.symm (h : ShapesMatch (Reordered shapes id) shapes shapes') :
    ShapesMatch (Reordered shapes' id) shapes' shapes := by
  have hflip {s t : Signature} (hst : s.Matches (Reordered shapes id) t) :
      t.Matches (Reordered shapes' id) s := by
    refine ⟨hst.form.symm, List.Forall₂.flip (hst.types.imp fun _ _ hxy ↦ ?_)⟩
    exact (hxy.transfer h fun _ ↦ .refl).symm
  intro name
  have hname := h name
  generalize shapes.lookup name = o, shapes'.lookup name = o' at hname ⊢
  cases hname with
  | some hms => exact .some (List.Forall₂.flip (hms.imp fun _ _ ↦ hflip))
  | none => exact .none

theorem Suits.reordered_self (h : ShapesMatch (Reordered shapes id) shapes shapes')
    (hd : Reordered shapes id d d') (hsuits : Suits shapes d d) : Suits shapes' d' d' := by
  obtain ⟨n, hfits⟩ := hsuits
  induction n generalizing d d' with
  | zero => exact hfits.elim
  | succ n ih =>
    rcases hfits with hfits | ⟨name, owner, rfl⟩ | hfits
    · exact .of_identical ⟨rfl, hd.mentionsParam_eq.symm.trans hfits.2⟩
    · rw [Descriptor.eq_param_of_matches (reordered_respects h _ d' hd)]
      exact suits_param name owner _
    · refine .of_matches ⟨rfl, List.forall₂_same.2 fun c' hc' ↦ ?_⟩
      have hm := reordered_respects h d d' hd
      obtain ⟨c, hc, hcc'⟩ := exists_of_forall₂_right hm.children c' hc'
      exact ih hcc' (List.forall₂_same.1 hfits.children c hc)

theorem SelfFitting.reordered (h : ShapesMatch (Reordered shapes id) shapes shapes')
    (hself : SelfFitting shapes) : SelfFitting shapes' := by
  intro name ms' hname' s' hs' d' hd'
  have hname := h name
  rw [hname'] at hname
  generalize ho : shapes.lookup name = o at hname
  cases hname with
  | @some ms _ hms =>
    obtain ⟨s, hs, hss'⟩ := exists_of_forall₂_right hms s' hs'
    obtain ⟨d, hd, hdd'⟩ := exists_of_forall₂_right hss'.types d' hd'
    exact (hself name ms ho s hs d hd).reordered_self h hdd'

theorem ParamFree.reordered (h : ShapesMatch (Reordered shapes id) shapes shapes')
    (hfree : ParamFree shapes) : ParamFree shapes' := by
  intro name ms' hname' s' hs'
  have hname := h name
  rw [hname'] at hname
  generalize ho : shapes.lookup name = o at hname
  cases hname with
  | some hms =>
    obtain ⟨s, hs, hss'⟩ := exists_of_forall₂_right hms s' hs'
    rw [← hss'.mentionsParam_eq]
    exact hfree name _ ho s hs

theorem Suits.reordered (h : ShapesMatch (Reordered shapes id) shapes shapes')
    (hself : SelfFitting shapes') {r r' a a' : Descriptor} (hr : Reordered shapes id r r')
    (ha : Reordered shapes id a a') (hsuits : Suits shapes r a) : Suits shapes' r' a' := by
  refine hsuits.respects (reordered_respects h) (fun d d₁ d₂ _ h₁ h₂ ↦ ?_) hr ha
  exact hself.suits_of_reordered (h₁.transfer h fun _ ↦ .refl) (h₂.transfer h fun _ ↦ .refl)

theorem suits_iff_of_reordered (h : ShapesMatch (Reordered shapes id) shapes shapes')
    (hself : SelfFitting shapes) {r r' a a' : Descriptor} (hr : Reordered shapes id r r')
    (ha : Reordered shapes id a a') : Suits shapes r a ↔ Suits shapes' r' a' := by
  have hback {x x' : Descriptor} (hx : Reordered shapes id x x') : Reordered shapes' id x' x :=
    (hx.transfer h fun _ ↦ .refl).symm
  constructor
  · exact Suits.reordered h (hself.reordered h) hr ha
  · exact Suits.reordered h.symm hself (hback hr) (hback ha)

end Conformance

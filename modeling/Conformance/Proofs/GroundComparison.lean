import Conformance.Proofs.Symmetry

namespace Conformance

namespace Comparison

/-- Whatever comes out, the bindings are those from before. -/
def Keeps (f : Comparison) : Prop := ∀ b, (f b).2 = b

variable {f g : Comparison}

theorem keeps_answer (same : Bool) : (answer same).Keeps := fun _ ↦ rfl

theorem Keeps.onlyIf (condition : Bool) (hf : f.Keeps) : (Comparison.onlyIf condition f).Keeps := by
  unfold Comparison.onlyIf
  split
  · exact hf
  · exact keeps_answer false

theorem Keeps.andThen (hf : f.Keeps) (hg : g.Keeps) : (f.andThen g).Keeps := by
  intro b
  cases hb : (f b).1 with
  | true => rw [andThen_of_true hb, hg, hf]
  | false => rw [andThen_of_false hb, hf]

theorem keeps_pairwise {α : Type} {f : α → α → Comparison} (rs as : List α)
    (h : ∀ r ∈ rs, ∀ a, (f r a).Keeps) : (pairwise f rs as).Keeps := by
  refine Keeps.onlyIf _ ?_
  induction rs generalizing as with
  | nil => exact keeps_answer true
  | cons r rs ih =>
    cases as with
    | nil => exact keeps_answer true
    | cons a as =>
      exact (h r List.mem_cons_self a).andThen
        (ih as fun r' hr ↦ h r' (List.mem_cons_of_mem _ hr))

end Comparison

open Comparison

section

variable {u : Descriptor → Descriptor → Comparison}

theorem unifySignature_keeps {r : Signature} (h : ∀ r' ∈ r.types, ∀ a', (u r' a').Keeps)
    (a : Signature) : (unifySignature u r a).Keeps := by
  have hparams := keeps_pairwise r.params a.params fun r' hr ↦ h r' (List.mem_append_left _ hr)
  have hresults := keeps_pairwise r.results a.results fun r' hr ↦
    h r' (List.mem_append_right _ hr)
  exact (hparams.andThen hresults).onlyIf _

theorem unifyLevel_keeps {shapes : Shapes} {r : Descriptor} (hparam : ∀ k, r ≠ .paramOf k)
    (h : ∀ r' ∈ r.expanded shapes, ∀ a, (u r' a).Keeps) (a : Descriptor) :
    (unifyLevel u shapes r a).Keeps := by
  unfold unifyLevel
  split
  · exact keeps_answer true
  · split
    case h_1 => exact absurd rfl (hparam (_, _))
    case h_2 => exact (keeps_pairwise _ _ h).onlyIf _
    case h_3 | h_4 => exact h _ List.mem_cons_self _
    case h_5 | h_7 => exact (h _ List.mem_cons_self _).onlyIf _
    case h_6 =>
      have hkey := h _ List.mem_cons_self
      have hvalue := h _ (List.mem_cons_of_mem _ List.mem_cons_self)
      exact (hkey _).andThen (hvalue _)
    case h_8 =>
      have hparams qs := keeps_pairwise _ qs fun r' hr ↦ h r' (List.mem_append_left _ hr)
      have hresults as := keeps_pairwise _ as fun r' hr ↦ h r' (List.mem_append_right _ hr)
      exact ((hparams _).andThen (hresults _)).onlyIf _
    case h_9 =>
      have hmethods ns := keeps_pairwise _ ns fun s hs ↦ unifySignature_keeps fun r' hr ↦
        h r' (List.mem_append_left _ (List.mem_flatMap.2 ⟨s, hs, hr⟩))
      have hunexpanded fs := keeps_pairwise _ fs fun r' hr ↦ h r' (List.mem_append_right _ hr)
      exact (hmethods _).andThen (hunexpanded _)
    case h_10 =>
      exact keeps_pairwise _ _ fun f hf a ↦ (h f.type (List.mem_map_of_mem hf) a.type).onlyIf _
    case h_11 => exact keeps_answer false

end

variable {shapes : Shapes} {n : Nat} {r a c : Descriptor}

theorem ne_paramOf_of_ground (h : r.mentionsParam = false) (k : String × String) :
    r ≠ .paramOf k := by
  rintro rfl
  cases h

theorem unify_keeps (hshapes : ParamFree shapes) (h : r.mentionsParam = false) (a : Descriptor) :
    (unify shapes n r a).Keeps := by
  induction n generalizing r a with
  | zero => exact keeps_answer false
  | succ n ih =>
    exact unifyLevel_keeps (ne_paramOf_of_ground h)
      (fun r' hr a' ↦ ih (Descriptor.mentionsParam_of_mem_expanded hshapes h hr) a') a

theorem unify_succeeds_iff (hshapes : ParamFree shapes) (h : r.mentionsParam = false)
    (b : Bindings) : (unify shapes n r a b).1 = true ↔ Fits shapes n r a := by
  have hsolves : Compares (unify shapes n) _ r a := unify_fits r a
  obtain ⟨σ, hσ⟩ := b.exists_agrees
  have hmeets : Meets shapes σ n r a := meets_of_not_mentionsParam hshapes h a
  cases hunify : (unify shapes n r a b).1 with
  | false =>
    refine iff_of_false Bool.false_ne_true fun hfits ↦ ?_
    exact hsolves.failure b hunify σ hσ ⟨hfits, hmeets⟩
  | true =>
    have hagrees : (unify shapes n r a b).2.Agrees σ := by rwa [unify_keeps hshapes h a b]
    exact iff_of_true rfl ((hsolves.success b hunify σ).1 hagrees).2.1

theorem Fits.symm_of_ground (hshapes : ParamFree shapes) (hr : r.mentionsParam = false)
    (h : Fits shapes n r a) : Fits shapes n a r :=
  h.symm_iff.2 fun _ _ hx ↦ absurd hx (not_encounters_of_not_mentionsParam hshapes hr)

/-- Where one of the two fits is an equality the other one is the result; where both are level by
level they compose, as they are of the same depth. -/
theorem Fits.trans_of_ground (hshapes : ParamFree shapes) (hr : r.mentionsParam = false)
    (h : Fits shapes n r a) (h' : Fits shapes n a c) : Fits shapes n r c := by
  induction n generalizing r a c with
  | zero => exact h.elim
  | succ n ih =>
    rcases h.cases with hidentical | ⟨-, ⟨k, hk⟩ | ⟨hparam, hmatches⟩⟩
    · rwa [hidentical.1]
    · exact absurd hk (ne_paramOf_of_ground hr k)
    · rcases h'.cases with hidentical' | ⟨-, ⟨k, hk⟩ | ⟨-, hmatches'⟩⟩
      · rwa [← hidentical'.1]
      · exact absurd hk (hmatches.ne_param hparam k)
      · obtain ⟨houtline, hchildren⟩ := hmatches
        obtain ⟨houtline', hchildren'⟩ := hmatches'
        refine .inr (.inr ⟨houtline.trans houtline', List.forall₂_iff_get.2 ?_⟩)
        refine ⟨hchildren.length_eq.trans hchildren'.length_eq, fun i hi hk ↦ ?_⟩
        have hj : i < (a.expanded shapes).length := hchildren.length_eq ▸ hi
        have hground := Descriptor.mentionsParam_of_mem_expanded hshapes hr (List.getElem_mem hi)
        exact ih hground (hchildren.get hi hj) (hchildren'.get hj hk)

abbrev embedding (name : String) : Descriptor := .interface [] [.simple name]

abbrev leading (name : String) : Descriptor := .interface [⟨"Next", [], [embedding name], false⟩] []

def loops : Shapes :=
  [("A", [⟨"Next", [], [embedding "B"], false⟩]), ("B", [⟨"Next", [], [embedding "A"], false⟩])]

theorem loops_paramFree : ParamFree loops := by
  intro name ms hms s hs
  simp only [loops, List.lookup_cons, List.lookup_nil] at hms
  split at hms
  · cases hms
    rw [List.mem_singleton.1 hs]
    rfl
  · split at hms
    · cases hms
      rw [List.mem_singleton.1 hs]
      rfl
    · cases hms

theorem expand_leading (name : String) : (leading name).expand loops = leading name := by
  rw [Descriptor.expand, MethodSet.ofElements_of_sorted (List.pairwise_singleton _ _)]

theorem expand_embedding {name name' : String}
    (h : loops.lookup name = some [⟨"Next", [], [embedding name'], false⟩]) :
    (embedding name).expand loops = leading name' := by
  simp [Descriptor.expand, MethodSet.ofElements, MethodSet.embed, MethodSet.embedAll, h,
    MethodSet.addMethods, insertMethod, MethodSet.canonical, dropRepeats]

theorem expand_loops : (embedding "A").expand loops = leading "B" ∧
    (embedding "B").expand loops = leading "A" :=
  ⟨expand_embedding rfl, expand_embedding rfl⟩

theorem fits_of_fits_embedding {name name' next next' : String} {n : Nat}
    (hexpand : (embedding name).expand loops = leading next)
    (hexpand' : (embedding name').expand loops = leading next') (hne : name ≠ name')
    (h : Fits loops (n + 1) (embedding name) (embedding name')) :
    Fits loops n (embedding next) (embedding next') := by
  rcases h.cases with hidentical | ⟨-, ⟨_, hk⟩ | ⟨-, -, hchildren⟩⟩
  · obtain ⟨he, -⟩ := hidentical
    cases he
    exact absurd rfl hne
  · cases hk
  · rw [hexpand, hexpand'] at hchildren
    exact (List.forall₂_cons.1 hchildren).1

/-- At no depth do the two interfaces that lead to each other fit. -/
theorem not_fits_loops (n : Nat) : ¬ Fits loops n (embedding "A") (embedding "B") ∧
    ¬ Fits loops n (embedding "B") (embedding "A") := by
  obtain ⟨hA, hB⟩ := expand_loops
  induction n with
  | zero => exact ⟨id, id⟩
  | succ n ih =>
    exact ⟨fun h ↦ ih.2 (fits_of_fits_embedding hA hB (by decide) h),
      fun h ↦ ih.1 (fits_of_fits_embedding hB hA (by decide) h)⟩

abbrev GroundType := { d : Descriptor // d.mentionsParam = false }

/-- At every depth the comparison of types without type parameters is an equivalence. It is the same
under all bindings, and whether it succeeds, fails or is cut off, it leaves them as they are. -/
theorem unify_equivalence (hshapes : ParamFree shapes) (n : Nat) :
    ∃ same : GroundType → GroundType → Bool, Equivalence (fun r a ↦ same r a = true) ∧
      ∀ (r a : GroundType) (b : Bindings), unify shapes (n + 1) r.1 a.1 b = (same r a, b) := by
  have hfits (r a : GroundType) (b : Bindings) :
      (unify shapes (n + 1) r.1 a.1 b).1 = true ↔ Fits shapes (n + 1) r.1 a.1 :=
    unify_succeeds_iff hshapes r.2 b
  refine ⟨fun r a ↦ (unify shapes (n + 1) r.1 a.1 []).1, ⟨fun r ↦ ?_, fun {r a} h ↦ ?_,
    fun {r a c} h h' ↦ ?_⟩, fun r a b ↦ Prod.ext (Bool.eq_iff_iff.2 ?_) ?_⟩
  · exact (hfits r r []).2 (.inl ⟨rfl, r.2⟩)
  · exact (hfits a r []).2 (((hfits r a []).1 h).symm_of_ground hshapes r.2)
  · exact (hfits r c []).2 (((hfits r a []).1 h).trans_of_ground hshapes r.2 ((hfits a c []).1 h'))
  · exact (hfits r a b).trans (hfits r a []).symm
  · exact unify_keeps hshapes r.2 a.1 b

/-- An interface and its method set are the same type. Those that lead to each other are compared
until that is cut off, and are not; what is bound then is what was bound before. -/
theorem unify_equivalence_loops : ParamFree loops ∧
    unify loops comparisonLimit (embedding "A") (embedding "B") [(("Box", "T"), .simple "int")] =
      (false, [(("Box", "T"), .simple "int")]) ∧
    unify loops comparisonLimit (embedding "A") (leading "B") [] = (true, []) ∧
    unify loops comparisonLimit (leading "B") (embedding "A") [] = (true, []) := by
  have hspelled : Fits loops comparisonLimit (embedding "A") (leading "B") := by
    refine .inr (.inr ?_)
    rw [Descriptor.Matches, expand_loops.1, expand_leading]
    exact ⟨rfl, .cons (.inl ⟨rfl, rfl⟩) .nil⟩
  obtain ⟨same, hsame, hunify⟩ := unify_equivalence loops_paramFree 511
  have hAB := hunify ⟨embedding "A", rfl⟩ ⟨embedding "B", rfl⟩ [(("Box", "T"), .simple "int")]
  have hspell := hunify ⟨embedding "A", rfl⟩ ⟨leading "B", rfl⟩ []
  have hback := hunify ⟨leading "B", rfl⟩ ⟨embedding "A", rfl⟩ []
  have hloops : same ⟨embedding "A", rfl⟩ ⟨embedding "B", rfl⟩ = false := by
    refine Bool.eq_false_iff.2 fun h ↦ (not_fits_loops comparisonLimit).1 ?_
    exact (unify_succeeds_iff loops_paramFree rfl _).1 ((congrArg Prod.fst hAB).trans h)
  have hmatch : same ⟨embedding "A", rfl⟩ ⟨leading "B", rfl⟩ = true :=
    (congrArg Prod.fst hspell).symm.trans ((unify_succeeds_iff loops_paramFree rfl _).2 hspelled)
  rw [hloops] at hAB
  rw [hmatch] at hspell
  rw [hsame.symm hmatch] at hback
  exact ⟨loops_paramFree, hAB, hspell, hback⟩

end Conformance

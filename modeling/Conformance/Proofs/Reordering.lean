import Conformance.Proofs.Fitting
import Mathlib.Logic.Relation

namespace Conformance

open Relation

variable {shapes shapes' : Shapes} {view : Descriptor → Descriptor} {d d' : Descriptor} {N : Nat}
  {T : Descriptor → Descriptor → Prop}

/-- What two inline interfaces embed without an expansion is the same in the order of the texts, or
is at most one type. -/
def KeepsOrder (shapes : Shapes) (d d' : Descriptor) : Prop :=
  MethodSet.inOrder (d.unexpanded shapes) = MethodSet.inOrder (d'.unexpanded shapes) ∨
    (d.unexpanded shapes).length ≤ 1 ∧ (d'.unexpanded shapes).length ≤ 1

theorem KeepsOrder.symm (h : KeepsOrder shapes d d') : KeepsOrder shapes d' d := by
  rcases h with h | h
  · exact .inl h.symm
  · exact .inr h.symm

/-- One inline interface inside has its embedded elements in another order. Its methods, as `view`
shows them, have different names. -/
inductive Descriptor.Reorders (shapes : Shapes) (view : Descriptor → Descriptor) :
    Descriptor → Descriptor → Prop
  | elements {ms : List Signature} {es es' : List Descriptor} (perm : es.Perm es')
      (distinct : (((view (.interface ms es)).collected shapes).map (·.name)).Nodup)
      (order : KeepsOrder shapes (view (.interface ms es)) (view (.interface ms es'))) :
      Reorders shapes view (.interface ms es) (.interface ms es')
  | inside {d d' c c' : Descriptor} {xs ys : List Descriptor} (outline : d.outline = d'.outline)
      (children : d.children = xs ++ c :: ys) (children' : d'.children = xs ++ c' :: ys)
      (order : KeepsOrder shapes (view d) (view d')) (inner : Reorders shapes view c c') :
      Reorders shapes view d d'

theorem Descriptor.eq_interface_of_outline {ms : List Signature} {es : List Descriptor}
    (h : (interface ms es).outline = d.outline) : ∃ ns fs, d = .interface ns fs := by
  cases d with
  | interface ns fs => exact ⟨ns, fs, rfl⟩
  | _ => cases h

structure Descriptor.Composite (d : Descriptor) : Prop where
  children : d.children ≠ []
  outline : ∀ ms es, d.outline ≠ .interface ms es

theorem Descriptor.interface_or_composite (h : d.children ≠ []) :
    (∃ ms es, d = .interface ms es) ∨ d.Composite := by
  cases d with
  | interface ms es => exact .inl ⟨ms, es, rfl⟩
  | _ => exact .inr ⟨h, by simp [Descriptor.outline]⟩

namespace Descriptor.Composite

theorem expand (h : d.Composite) : d.expand shapes = d := by
  cases d with
  | interface ms es => exact absurd rfl (h.outline _ _)
  | _ => rfl

theorem collected (h : d.Composite) : d.collected shapes = [] := by
  cases d with
  | interface ms es => exact absurd rfl (h.outline _ _)
  | named name args =>
    cases args with
    | nil => exact absurd rfl h.children
    | cons a as => rfl
  | _ => rfl

theorem unexpanded (h : d.Composite) : d.unexpanded shapes = [d] := by
  cases d with
  | interface ms es => exact absurd rfl (h.outline _ _)
  | named name args =>
    cases args with
    | nil => exact absurd rfl h.children
    | cons a as => rfl
  | _ => rfl

end Descriptor.Composite

theorem forall₂_of_one {R : Descriptor → Descriptor → Prop} {c c' : Descriptor}
    {xs ys : List Descriptor} (hrefl : ∀ x, R x x) (h : R c c') :
    List.Forall₂ R (xs ++ c :: ys) (xs ++ c' :: ys) := by
  rw [forall₂_append_iff rfl, List.forall₂_cons]
  exact ⟨List.forall₂_same.2 fun x _ ↦ hrefl x, h, List.forall₂_same.2 fun y _ ↦ hrefl y⟩

/-- The same names expand, and to methods with related types. -/
def ShapesMatch (T : Descriptor → Descriptor → Prop) (shapes shapes' : Shapes) : Prop :=
  ∀ name, Option.Rel (List.Forall₂ (Signature.Matches T)) (shapes.lookup name)
    (shapes'.lookup name)

theorem Signature.matches_refl (hrefl : ∀ x, T x x) (s : Signature) : s.Matches T s :=
  ⟨rfl, List.forall₂_same.2 fun x _ ↦ hrefl x⟩

theorem forall₂_matches_refl (hrefl : ∀ x, T x x) (ss : List Signature) :
    List.Forall₂ (Signature.Matches T) ss ss :=
  List.forall₂_same.2 fun s _ ↦ s.matches_refl hrefl

theorem shapesMatch_refl (hrefl : ∀ x, T x x) (shapes : Shapes) : ShapesMatch T shapes shapes := by
  intro name
  cases shapes.lookup name with
  | none => exact .none
  | some ms => exact .some (forall₂_matches_refl hrefl ms)

theorem ShapesMatch.isSome (h : ShapesMatch T shapes shapes') (name : String) :
    (shapes.lookup name).isSome = (shapes'.lookup name).isSome := by
  have hname := h name
  generalize shapes.lookup name = o, shapes'.lookup name = o' at hname ⊢
  cases hname with
  | some _ => rfl
  | none => rfl

theorem ShapesMatch.unexpanded (h : ShapesMatch T shapes shapes') (d : Descriptor) :
    d.unexpanded shapes = d.unexpanded shapes' := by
  induction d with
  | named name args _ =>
    cases args with
    | nil => rw [Descriptor.unexpanded, Descriptor.unexpanded, h.isSome]
    | cons a as => rfl
  | interface ms es _ ih =>
    rw [Descriptor.unexpanded, Descriptor.unexpanded, allUnexpanded_eq_flatMap,
      allUnexpanded_eq_flatMap]
    exact List.flatMap_congr ih
  | _ => rfl

theorem ShapesMatch.collected (h : ShapesMatch T shapes shapes') (hrefl : ∀ x, T x x)
    (d : Descriptor) :
    List.Forall₂ (Signature.Matches T) (d.collected shapes) (d.collected shapes') := by
  induction d with
  | named name args _ =>
    cases args with
    | nil =>
      have hname := h name
      rw [Descriptor.collected, Descriptor.collected]
      generalize shapes.lookup name = o, shapes'.lookup name = o' at hname ⊢
      cases hname with
      | some hms => exact hms
      | none => exact .nil
    | cons a as => exact .nil
  | interface ms es _ ih =>
    rw [Descriptor.collected, Descriptor.collected, allCollected_eq_flatMap,
      allCollected_eq_flatMap]
    refine List.rel_append (forall₂_matches_refl hrefl ms) ?_
    clear * - ih
    induction es with
    | nil => exact .nil
    | cons e es ihes =>
      obtain ⟨he, hes⟩ := List.forall_mem_cons.1 ih
      exact List.rel_append he (ihes hes)
  | _ => exact .nil

theorem ShapesMatch.collected_names (h : ShapesMatch T shapes shapes') (hrefl : ∀ x, T x x)
    (d : Descriptor) :
    (d.collected shapes).map (·.name) = (d.collected shapes').map (·.name) := by
  have hcollected := h.collected hrefl d
  generalize d.collected shapes = ss, d.collected shapes' = ss' at hcollected
  induction hcollected with
  | nil => rfl
  | cons hs _ ih => rw [List.map_cons, List.map_cons, hs.name, ih]

/-- Types that bring related methods along, whatever related methods are there already. -/
def Contributes (T : Descriptor → Descriptor → Prop) (shapes shapes' : Shapes)
    (d d' : Descriptor) : Prop :=
  ∀ ms ms', List.Forall₂ (Signature.Matches T) ms ms' → List.Forall₂ (Signature.Matches T)
    (insertMethods ms (d.collected shapes)) (insertMethods ms' (d'.collected shapes'))

theorem insertMethods_append (ms ns ns' : List Signature) :
    insertMethods ms (ns ++ ns') = insertMethods (insertMethods ms ns) ns' := List.foldl_append

theorem ShapesMatch.contributes (h : ShapesMatch T shapes shapes') (hrefl : ∀ x, T x x)
    (d : Descriptor) : Contributes T shapes shapes' d d :=
  fun _ _ hms ↦ insertMethods_matches hms (h.collected hrefl d)

theorem contributes_interface {ms ns : List Signature} {es fs : List Descriptor}
    (hms : List.Forall₂ (Signature.Matches T) ms ns)
    (hes : List.Forall₂ (Contributes T shapes shapes') es fs) :
    Contributes T shapes shapes' (.interface ms es) (.interface ns fs) := by
  intro us us' hus
  rw [Descriptor.collected, Descriptor.collected, allCollected_eq_flatMap, allCollected_eq_flatMap,
    insertMethods_append, insertMethods_append]
  have hown := insertMethods_matches hus hms
  generalize insertMethods us ms = us, insertMethods us' ns = us' at hown
  clear hus hms
  induction hes generalizing us us' with
  | nil => exact hown
  | cons he _ ih =>
    rw [List.flatMap_cons, List.flatMap_cons, insertMethods_append, insertMethods_append]
    exact ih _ _ (he us us' hown)

theorem unexpanded_interface {ms ns : List Signature} {es fs : List Descriptor}
    (hes : List.Forall₂ (fun x y ↦ (x.unexpanded shapes).length ≤ 1 →
      List.Forall₂ T (x.unexpanded shapes) (y.unexpanded shapes)) es fs)
    (hone : ((Descriptor.interface ms es).unexpanded shapes).length ≤ 1) :
    List.Forall₂ T ((Descriptor.interface ms es).unexpanded shapes)
      ((Descriptor.interface ns fs).unexpanded shapes) := by
  rw [Descriptor.unexpanded, allUnexpanded_eq_flatMap] at hone ⊢
  rw [Descriptor.unexpanded, allUnexpanded_eq_flatMap]
  induction hes with
  | nil => exact .nil
  | cons he _ ih =>
    rw [List.flatMap_cons, List.length_append] at hone
    rw [List.flatMap_cons, List.flatMap_cons]
    exact List.rel_append (he (by omega)) (ih (by omega))

theorem eq_of_perm_of_length_le_one {as bs : List Descriptor} (h : as.Perm bs)
    (hone : as.length ≤ 1) : as = bs := by
  match as, hone with
  | [], _ => exact (List.nil_perm.1 h).symm
  | [a], _ => exact List.singleton_perm.1 h

theorem MethodSet.inOrder_of_length_le_one {ds : List Descriptor} (hone : ds.length ≤ 1) :
    inOrder ds = ds := by
  match ds, hone with
  | [], _ => simp [inOrder, dropRepeats]
  | [d], _ => simp [inOrder, dropRepeats]

namespace Descriptor.Reorders

theorem order (hd : d.Reorders shapes view d') : KeepsOrder shapes (view d) (view d') := by
  cases hd with
  | elements _ _ order => exact order
  | inside _ _ _ order _ => exact order

theorem exists_interface {ms : List Signature} {es : List Descriptor}
    (hd : (interface ms es).Reorders shapes view d') : ∃ ns fs, d' = .interface ns fs := by
  cases hd with
  | elements _ _ _ => exact ⟨_, _, rfl⟩
  | inside outline _ _ _ _ => exact Descriptor.eq_interface_of_outline outline

theorem contributes (h : ShapesMatch T shapes shapes') (hrefl : ∀ x, T x x)
    (hinner : ∀ c c', c.depth ≤ N → c.Reorders shapes id c' → T c c')
    (hd : d.Reorders shapes id d') (hN : d.depth ≤ N + 1) : Contributes T shapes shapes' d d' := by
  induction hd with
  | @elements ms es es' perm distinct _ =>
    have hperm : ((interface ms es).collected shapes).Perm
        ((interface ms es').collected shapes) := by
      rw [Descriptor.collected, Descriptor.collected, allCollected_eq_flatMap,
        allCollected_eq_flatMap]
      exact (perm.flatMap_right _).append_left ms
    intro us us' hus
    rw [insertMethods_perm hperm distinct us]
    exact h.contributes hrefl _ us us' hus
  | @inside d d' c c' xs ys outline children children' _ inner ih =>
    have hc : c.depth ≤ N := Descriptor.depth_le.1 hN c (by simp [children])
    rcases Descriptor.interface_or_composite (d := d) (by simp [children]) with ⟨ms, es, rfl⟩ | hd
    · obtain ⟨ns, fs, rfl⟩ := Descriptor.eq_interface_of_outline outline
      have hchildren : List.Forall₂ (fun x y ↦ T x y ∧ Contributes T shapes shapes' x y)
          (interface ms es).children (interface ns fs).children := by
        rw [children, children']
        apply forall₂_of_one
        · exact fun x ↦ ⟨hrefl x, h.contributes hrefl x⟩
        · exact ⟨hinner c c' hc inner, ih (Nat.le_succ_of_le hc)⟩
      obtain ⟨hms, hes⟩ := Descriptor.alike_interface.1 ⟨outline, hchildren⟩
      apply contributes_interface
      · exact hms.imp fun s t hst ↦ ⟨hst.form, hst.types.imp fun _ _ hxy ↦ hxy.1⟩
      · exact hes.imp fun _ _ hxy ↦ hxy.2
    · have hd' : d'.Composite := ⟨by simp [children'], outline ▸ hd.outline⟩
      intro us us' hus
      rw [hd.collected, hd'.collected]
      exact hus

/-- If there is one type without an expansion, it stays what it is or changes inside. -/
theorem unexpanded (hrefl : ∀ x, T x x)
    (hinner : ∀ c c', c.depth ≤ N → c.Reorders shapes id c' → T c c')
    (hd : d.Reorders shapes id d')
    (hN : d.depth ≤ N ∨ (∃ ms es, d = .interface ms es) ∧ d.depth ≤ N + 1)
    (hone : (d.unexpanded shapes).length ≤ 1) :
    List.Forall₂ T (d.unexpanded shapes) (d'.unexpanded shapes) := by
  induction hd with
  | @elements ms es es' perm distinct _ =>
    have hperm : ((interface ms es).unexpanded shapes).Perm
        ((interface ms es').unexpanded shapes) := by
      rw [Descriptor.unexpanded, Descriptor.unexpanded, allUnexpanded_eq_flatMap,
        allUnexpanded_eq_flatMap]
      exact perm.flatMap_right _
    rw [eq_of_perm_of_length_le_one hperm hone]
    exact List.forall₂_same.2 fun x _ ↦ hrefl x
  | @inside d d' c c' xs ys outline children children' order inner ih =>
    rcases Descriptor.interface_or_composite (d := d) (by simp [children]) with ⟨ms, es, rfl⟩ | hd
    · have hc : c.depth ≤ N := by
        have hlt : c.depth < (interface ms es).depth :=
          Descriptor.depth_lt_of_mem_children (by simp [children])
        omega
      obtain ⟨ns, fs, rfl⟩ := Descriptor.eq_interface_of_outline outline
      have hchildren : List.Forall₂ (fun x y ↦ (x.unexpanded shapes).length ≤ 1 →
          List.Forall₂ T (x.unexpanded shapes) (y.unexpanded shapes))
          (interface ms es).children (interface ns fs).children := by
        rw [children, children']
        apply forall₂_of_one
        · exact fun x _ ↦ List.forall₂_same.2 fun y _ ↦ hrefl y
        · exact ih (.inl hc)
      obtain ⟨-, hes⟩ := Descriptor.alike_interface.1 ⟨outline, hchildren⟩
      exact unexpanded_interface hes hone
    · have hd' : d'.Composite := ⟨by simp [children'], outline ▸ hd.outline⟩
      have hdepth : d.depth ≤ N := by
        refine hN.resolve_right fun hinterface ↦ ?_
        obtain ⟨⟨ms, es, rfl⟩, -⟩ := hinterface
        exact hd.outline _ _ rfl
      rw [hd.unexpanded, hd'.unexpanded]
      exact .cons (hinner d d' hdepth (.inside outline children children' order inner)) .nil

/-- A reordered type is on the first level what it was; inside there are the same types, types that
come from declared interfaces, and reordered types that are less deep. -/
theorem matches_of_inner (h : ShapesMatch T shapes shapes') (hrefl : ∀ x, T x x)
    (hinner : ∀ c c', c.depth ≤ N → c.Reorders shapes id c' → T c c')
    (hd : d.Reorders shapes id d') (hN : d.depth ≤ N + 1) : d.Matches shapes shapes' T d' := by
  by_cases hinterface : ∃ ms es, d = .interface ms es
  · obtain ⟨ms, es, rfl⟩ := hinterface
    obtain ⟨ns, fs, rfl⟩ := hd.exists_interface
    rw [Descriptor.matches_interface, MethodSet.ofElements_eq, MethodSet.ofElements_eq,
      ← h.unexpanded]
    refine ⟨hd.contributes h hrefl hinner hN [] [] .nil, ?_⟩
    have horder : KeepsOrder shapes (interface ms es) (interface ns fs) := hd.order
    rcases horder with horder | ⟨hone, hone'⟩
    · rw [horder]
      exact List.forall₂_same.2 fun x _ ↦ hrefl x
    · rw [MethodSet.inOrder_of_length_le_one hone, MethodSet.inOrder_of_length_le_one hone']
      exact hd.unexpanded hrefl hinner (.inr ⟨⟨ms, es, rfl⟩, hN⟩) hone
  · cases hd with
    | elements perm distinct order => exact absurd ⟨_, _, rfl⟩ hinterface
    | @inside _ _ c c' xs ys outline children children' order inner =>
      have hc : c.depth ≤ N := Descriptor.depth_le.1 hN c (by simp [children])
      have hd : d.Composite := (Descriptor.interface_or_composite (by simp [children])).resolve_left
        hinterface
      have hd' : d'.Composite := ⟨by simp [children'], outline ▸ hd.outline⟩
      rw [Descriptor.Matches, hd.expand, hd'.expand]
      refine ⟨outline, ?_⟩
      rw [children, children']
      exact forall₂_of_one hrefl (hinner c c' hc inner)

theorem symm (hd : d.Reorders shapes id d') : d'.Reorders shapes id d := by
  induction hd with
  | @elements ms es es' perm distinct order =>
    have hperm : (((interface ms es').collected shapes).map (·.name)).Perm
        (((interface ms es).collected shapes).map (·.name)) := by
      rw [Descriptor.collected, Descriptor.collected, allCollected_eq_flatMap,
        allCollected_eq_flatMap]
      exact ((perm.symm.flatMap_right _).append_left ms).map _
    exact .elements perm.symm (hperm.nodup_iff.2 distinct) order.symm
  | inside outline children children' order _ ih =>
    exact .inside outline.symm children' children order.symm ih

/-- The order and the names do not depend on the types in the methods of declared interfaces. -/
theorem transfer (h : ShapesMatch T shapes shapes') (hrefl : ∀ x, T x x)
    (hd : d.Reorders shapes view d') : d.Reorders shapes' view d' := by
  have horder {x y : Descriptor} (horder : KeepsOrder shapes x y) : KeepsOrder shapes' x y := by
    rw [KeepsOrder, ← h.unexpanded, ← h.unexpanded]
    exact horder
  induction hd with
  | elements perm distinct order =>
    refine .elements perm ?_ (horder order)
    rw [← h.collected_names hrefl]
    exact distinct
  | inside outline children children' order _ ih =>
    exact .inside outline children children' (horder order) ih

theorem mentionsParam_eq (hd : d.Reorders shapes view d') :
    d.mentionsParam = d'.mentionsParam := by
  induction hd with
  | @elements ms es es' perm _ _ =>
    rw [Descriptor.mentionsParam_eq_any (by simp), Descriptor.mentionsParam_eq_any (by simp)]
    exact (perm.append_left (ms.flatMap Signature.types)).any_eq
  | @inside d d' c c' xs ys outline children children' _ _ ih =>
    have hparam {x : Descriptor} (hx : x.children ≠ []) (name owner : String) :
        x ≠ .param name owner := by
      intro he
      rw [he] at hx
      exact hx rfl
    rw [Descriptor.mentionsParam_eq_any (hparam (by simp [children])),
      Descriptor.mentionsParam_eq_any (hparam (by simp [children'])), children, children',
      List.any_append, List.any_append, List.any_cons, List.any_cons, ih]

end Descriptor.Reorders

abbrev Reordered (shapes : Shapes) (view : Descriptor → Descriptor) :
    Descriptor → Descriptor → Prop :=
  ReflGen (Descriptor.Reorders shapes view)

theorem Reordered.symm (h : Reordered shapes id d d') : Reordered shapes id d' d := by
  cases h with
  | refl => exact .refl
  | single h => exact .single h.symm

theorem Reordered.transfer (hshapes : ShapesMatch T shapes shapes') (hrefl : ∀ x, T x x)
    (h : Reordered shapes view d d') : Reordered shapes' view d d' := by
  cases h with
  | refl => exact .refl
  | single h => exact .single (h.transfer hshapes hrefl)

theorem Reordered.mentionsParam_eq (h : Reordered shapes view d d') :
    d.mentionsParam = d'.mentionsParam := by
  cases h with
  | refl => rfl
  | single h => exact h.mentionsParam_eq

theorem Signature.Matches.mentionsParam_eq {s s' : Signature}
    (h : s.Matches (Reordered shapes view) s') : s.mentionsParam = s'.mentionsParam := by
  have hmentions : s.types.map Descriptor.mentionsParam = s'.types.map Descriptor.mentionsParam :=
    map_eq_of_forall₂ h.types fun _ _ hd ↦ hd.mentionsParam_eq
  have hany (ds : List Descriptor) :
      ds.any Descriptor.mentionsParam = (ds.map Descriptor.mentionsParam).any id := by
    rw [List.any_map]
    rfl
  rw [Signature.mentionsParam_eq_any, Signature.mentionsParam_eq_any, hany, hany, hmentions]

end Conformance

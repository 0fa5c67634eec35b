import Conformance.Proofs.Expansion
import Conformance.Proofs.Marking

namespace Conformance

theorem insertMethod_last {s : Signature} {ms : List Signature} (h : ∀ t ∈ ms, t.name < s.name) :
    insertMethod s ms = ms ++ [s] := by
  induction ms with
  | nil => rfl
  | cons t ts ih =>
    have ht : t.name < s.name := h t List.mem_cons_self
    have hne : s.name ≠ t.name := fun he ↦ String.lt_irrefl s.name (he ▸ ht)
    rw [insertMethod, if_neg (String.lt_asymm ht), if_neg hne,
      ih fun v hv ↦ h v (List.mem_cons_of_mem _ hv), List.cons_append]

theorem foldl_insertMethod_of_sorted (ms ns : List Signature) (h : SortedByName (ms ++ ns)) :
    ns.foldl (fun set s ↦ insertMethod s set) ms = ms ++ ns := by
  induction ns generalizing ms with
  | nil => simp
  | cons s ns ih =>
    have hs : ∀ t ∈ ms, t.name < s.name := fun t ht ↦
      (List.pairwise_append.1 h).2.2 t ht s List.mem_cons_self
    rw [List.foldl_cons, insertMethod_last hs, ih _ (by simpa using h), List.append_assoc,
      List.singleton_append]

theorem insertMethod_comm {s t : Signature} (h : s.name ≠ t.name) (ms : List Signature) :
    insertMethod s (insertMethod t ms) = insertMethod t (insertMethod s ms) := by
  have hlt : s.name < t.name ∨ t.name < s.name := by grind
  induction ms with
  | nil =>
    have hsymm : t.name ≠ s.name := h.symm
    rcases hlt with hlt | hlt
    · have hgt : ¬ t.name < s.name := String.lt_asymm hlt
      simp [insertMethod, hlt, hgt, hsymm]
    · have hgt : ¬ s.name < t.name := String.lt_asymm hlt
      simp [insertMethod, hlt, hgt, h]
  | cons u us ih =>
    simp only [insertMethod]
    grind [insertMethod]

def insertMethods (ms ns : List Signature) : List Signature :=
  ns.foldl (fun ms s ↦ insertMethod s ms) ms

theorem insertMethods_perm {ns ns' : List Signature} (hperm : ns.Perm ns')
    (hnames : (ns.map (·.name)).Nodup) (ms : List Signature) :
    insertMethods ms ns = insertMethods ms ns' := by
  apply List.Perm.foldl_eq' hperm
  intro s hs t ht ms
  by_cases hst : s = t
  · rw [hst]
  · apply insertMethod_comm
    intro hname
    exact hst (List.inj_on_of_nodup_map hnames hs ht hname.symm)

theorem mem_insertMethods {s : Signature} {ms ns : List Signature} (h : s ∈ insertMethods ms ns) :
    s ∈ ms ∨ s ∈ ns := by
  induction ns generalizing ms with
  | nil => exact .inl h
  | cons t ns ih =>
    rcases ih h with h | h
    · rcases insertMethod_subset h with rfl | h
      · exact .inr List.mem_cons_self
      · exact .inl h
    · exact .inr (List.mem_cons_of_mem _ h)

theorem sortedByName_insertMethods {ms ns : List Signature} (h : SortedByName ms) :
    SortedByName (insertMethods ms ns) := by
  induction ns generalizing ms with
  | nil => exact h
  | cons s ns ih => exact ih h.insert

theorem mem_insertMethods_of_agree {s : Signature} {ms ns : List Signature}
    (h : ∀ t ∈ ms ++ ns, ∀ u ∈ ms ++ ns, t.name = u.name → t = u) :
    s ∈ insertMethods ms ns ↔ s ∈ ms ∨ s ∈ ns := by
  induction ns generalizing ms with
  | nil => simp [insertMethods]
  | cons t ns ih =>
    have hinsert (u : Signature) : u ∈ insertMethod t ms ↔ u = t ∨ u ∈ ms :=
      mem_insertMethod_of_agree fun u hu ↦ h u (by simp [hu]) t (by simp)
    have hmem (u : Signature) : u ∈ insertMethod t ms ++ ns ↔ u ∈ ms ++ t :: ns := by
      rw [List.mem_append, hinsert, List.mem_append, List.mem_cons, or_assoc, or_left_comm]
    have hmore : s ∈ insertMethods (insertMethod t ms) ns ↔ s ∈ insertMethod t ms ∨ s ∈ ns :=
      ih fun u hu v hv ↦ h u ((hmem u).1 hu) v ((hmem v).1 hv)
    rw [insertMethods, List.foldl_cons, ← insertMethods, hmore, hinsert, List.mem_cons, or_assoc,
      or_left_comm]

section

variable {R : Descriptor → Descriptor → Prop}

theorem insertMethod_matches {s s' : Signature} {ms ms' : List Signature} (hs : s.Matches R s')
    (hms : List.Forall₂ (Signature.Matches R) ms ms') :
    List.Forall₂ (Signature.Matches R) (insertMethod s ms) (insertMethod s' ms') := by
  induction hms with
  | nil => exact .cons hs .nil
  | @cons t t' ms ms' ht hms ih =>
    rw [insertMethod, insertMethod, ← hs.name, ← ht.name]
    split
    · exact .cons hs (.cons ht hms)
    · split
      · exact .cons ht hms
      · exact .cons ht ih

theorem insertMethods_matches {ms ms' ns ns' : List Signature}
    (hms : List.Forall₂ (Signature.Matches R) ms ms')
    (hns : List.Forall₂ (Signature.Matches R) ns ns') :
    List.Forall₂ (Signature.Matches R) (insertMethods ms ns) (insertMethods ms' ns') := by
  induction hns generalizing ms ms' with
  | nil => exact hms
  | cons hs _ ih => exact ih (insertMethod_matches hs hms)

end

section

variable (shapes : Shapes)

mutual

def Descriptor.collected : Descriptor → List Signature
  | .interface ms es => ms ++ allCollected es
  | .named name [] => (shapes.lookup name).getD []
  | _ => []

def allCollected : List Descriptor → List Signature
  | [] => []
  | d :: ds => d.collected ++ allCollected ds

end

mutual

def Descriptor.unexpanded : Descriptor → List Descriptor
  | .interface _ es => allUnexpanded es
  | .named name [] => if (shapes.lookup name).isSome then [] else [.named name []]
  | d => [d]

def allUnexpanded : List Descriptor → List Descriptor
  | [] => []
  | d :: ds => d.unexpanded ++ allUnexpanded ds

end

@[simp]
theorem allCollected_eq_flatMap (ds : List Descriptor) :
    allCollected shapes ds = ds.flatMap (Descriptor.collected shapes) := by
  induction ds with
  | nil => rfl
  | cons d ds ih => simp only [allCollected, ih, List.flatMap_cons]

@[simp]
theorem allUnexpanded_eq_flatMap (ds : List Descriptor) :
    allUnexpanded shapes ds = ds.flatMap (Descriptor.unexpanded shapes) := by
  induction ds with
  | nil => rfl
  | cons d ds ih => simp only [allUnexpanded, ih, List.flatMap_cons]

end

namespace MethodSet

variable {shapes : Shapes}

theorem embed_eq (d : Descriptor) (set : MethodSet) : embed shapes set d =
    ⟨insertMethods set.methods (d.collected shapes), set.unexpanded ++ d.unexpanded shapes⟩ := by
  induction d generalizing set with
  | interface ms es _ ih =>
    have hall (ds : List Descriptor) (hds : ∀ d ∈ ds, ∀ set, embed shapes set d =
        ⟨insertMethods set.methods (d.collected shapes), set.unexpanded ++ d.unexpanded shapes⟩)
        (set : MethodSet) : embedAll shapes set ds =
          ⟨insertMethods set.methods (ds.flatMap (Descriptor.collected shapes)),
            set.unexpanded ++ ds.flatMap (Descriptor.unexpanded shapes)⟩ := by
      induction ds generalizing set with
      | nil => simp [embedAll, insertMethods]
      | cons d ds ihds =>
        rw [embedAll, hds d List.mem_cons_self,
          ihds (fun d' hd' ↦ hds d' (List.mem_cons_of_mem _ hd'))]
        simp [insertMethods, List.foldl_append]
    rw [embed, hall es ih]
    simp [addMethods, insertMethods, List.foldl_append, Descriptor.collected, Descriptor.unexpanded]
  | named name args ih =>
    cases args with
    | nil =>
      rw [embed]
      cases hname : shapes.lookup name with
      | none => simp [addUnexpanded, Descriptor.collected, Descriptor.unexpanded, hname, insertMethods]
      | some ms => simp [addMethods, Descriptor.collected, Descriptor.unexpanded, hname, insertMethods]
    | cons a as => rfl
  | _ => rfl

/-- The elements of an inline interface in the order of their texts, each once. -/
def inOrder (ds : List Descriptor) : List Descriptor :=
  dropRepeats (ds.mergeSort fun a b ↦ decide (a.render ≤ b.render))

theorem ofElements_eq (ms : List Signature) (es : List Descriptor) :
    ofElements shapes ms es = ⟨insertMethods [] (Descriptor.collected shapes (.interface ms es)),
      inOrder (Descriptor.unexpanded shapes (.interface ms es))⟩ := by
  rw [ofElements, embed_eq, canonical, List.nil_append]
  rfl

theorem mem_dropRepeats {d : Descriptor} {ds : List Descriptor} : d ∈ dropRepeats ds ↔ d ∈ ds := by
  fun_induction dropRepeats ds with grind

theorem mem_inOrder {d : Descriptor} {ds : List Descriptor} : d ∈ inOrder ds ↔ d ∈ ds :=
  mem_dropRepeats.trans List.mem_mergeSort

theorem pairwise_dropRepeats {ds : List Descriptor}
    (htexts : ∀ d ∈ ds, ∀ d' ∈ ds, d.render = d'.render → d = d')
    (h : ds.Pairwise (·.render ≤ ·.render)) : (dropRepeats ds).Pairwise (·.render < ·.render) := by
  fun_induction dropRepeats ds with
  | case1 => exact .nil
  | case2 d => exact List.pairwise_singleton _ _
  | case3 d ds ih =>
    exact ih (fun x hx y hy ↦ htexts x (.tail _ hx) y (.tail _ hy)) (List.pairwise_cons.1 h).2
  | case4 d e ds hne ih =>
    obtain ⟨hd, he⟩ := List.pairwise_cons.1 h
    refine List.pairwise_cons.2 ⟨fun x hx ↦ ?_,
      ih (fun x hx y hy ↦ htexts x (.tail _ hx) y (.tail _ hy)) he⟩
    have hlt : d.render < e.render := Std.lt_of_le_of_ne (hd e List.mem_cons_self) fun hrender ↦
      hne (htexts d List.mem_cons_self e (by simp) hrender)
    have hle : e.render ≤ x.render := by
      rcases List.mem_cons.1 (mem_dropRepeats.1 hx) with rfl | hx
      · exact String.le_refl _
      · exact (List.pairwise_cons.1 he).1 x hx
    exact Std.lt_of_lt_of_le hlt hle

/-- Where texts tell the types apart, each type stands there once, in the order of its text. -/
theorem pairwise_inOrder {ds : List Descriptor}
    (htexts : ∀ d ∈ ds, ∀ d' ∈ ds, d.render = d'.render → d = d') :
    (inOrder ds).Pairwise (·.render < ·.render) := by
  apply pairwise_dropRepeats
  · intro d hd d' hd'
    exact htexts d (List.mem_mergeSort.1 hd) d' (List.mem_mergeSort.1 hd')
  · exact pairwise_mergeSort_key Descriptor.render ds

theorem inOrder_congr {ds ds' : List Descriptor} (hmem : ∀ d, d ∈ ds ↔ d ∈ ds')
    (htexts : ∀ d ∈ ds, ∀ d' ∈ ds, d.render = d'.render → d = d') : inOrder ds = inOrder ds' := by
  have htexts' : ∀ d ∈ ds', ∀ d' ∈ ds', d.render = d'.render → d = d' := fun d hd d' hd' ↦
    htexts d ((hmem d).2 hd) d' ((hmem d').2 hd')
  apply eq_of_pairwise_key Descriptor.render (pairwise_inOrder htexts) (pairwise_inOrder htexts')
  intro d
  rw [mem_inOrder, mem_inOrder, hmem]

theorem inOrder_pair {a b : Descriptor} (hlt : a.render < b.render) :
    inOrder [a, b] = [a, b] ∧ inOrder [b, a] = [a, b] := by
  have hne : a.render ≠ b.render := fun he ↦ String.lt_irrefl _ (he ▸ hlt)
  have hle : a.render ≤ b.render := String.not_lt.1 (String.lt_asymm hlt)
  have hsorted : inOrder [a, b] = [a, b] := by
    rw [inOrder, List.mergeSort_of_pairwise (by simpa using hle), dropRepeats,
      if_neg fun he ↦ hne (congrArg Descriptor.render he), dropRepeats]
  have htexts : ∀ d ∈ [b, a], ∀ d' ∈ [b, a], d.render = d'.render → d = d' := by
    simp [hne, hne.symm]
  exact ⟨hsorted, (inOrder_congr (by simp [or_comm]) htexts).trans hsorted⟩

end MethodSet

section

variable {shapes : Shapes} {d : Descriptor}

/-- A collected method stands inside the type, or a declared interface requires it. -/
theorem Descriptor.mem_collected {s : Signature} (hs : s ∈ d.collected shapes) :
    (∀ c ∈ s.types, ∃ x ∈ d.children, c ∈ x.parts) ∨
      ∃ name ms, shapes.lookup name = some ms ∧ s ∈ ms := by
  induction d with
  | named name args _ =>
    cases args with
    | nil =>
      rw [Descriptor.collected] at hs
      cases hname : shapes.lookup name with
      | none =>
        rw [hname] at hs
        cases hs
      | some ms =>
        rw [hname] at hs
        exact .inr ⟨name, ms, hname, hs⟩
    | cons a as => cases hs
  | interface ms es _ ih =>
    rw [Descriptor.collected, allCollected_eq_flatMap, List.mem_append, List.mem_flatMap] at hs
    rcases hs with hs | ⟨e, he, hs⟩
    · left
      intro c hc
      exact ⟨c, List.mem_append_left _ (List.mem_flatMap.2 ⟨s, hs, hc⟩), c.self_mem_parts⟩
    · rcases ih e he hs with hinner | hdeclared
      · left
        intro c hc
        exact ⟨e, List.mem_append_right _ he, Descriptor.mem_parts.2 (.inr (hinner c hc))⟩
      · exact .inr hdeclared
  | _ => cases hs

theorem Descriptor.mem_parts_of_mem_unexpanded {x : Descriptor} (hx : x ∈ d.unexpanded shapes) :
    x ∈ d.parts := by
  induction d with
  | named name args _ =>
    cases args with
    | nil =>
      rw [Descriptor.unexpanded] at hx
      split at hx
      · cases hx
      · rw [List.mem_singleton.1 hx]
        exact Descriptor.self_mem_parts _
    | cons a as =>
      rw [List.mem_singleton.1 hx]
      exact Descriptor.self_mem_parts _
  | interface ms es _ ih =>
    rw [Descriptor.unexpanded, allUnexpanded_eq_flatMap, List.mem_flatMap] at hx
    obtain ⟨e, he, hx⟩ := hx
    exact Descriptor.mem_parts.2 (.inr ⟨e, List.mem_append_right _ he, ih e he hx⟩)
  | _ =>
    rw [List.mem_singleton.1 hx]
    exact Descriptor.self_mem_parts _

theorem Descriptor.mem_expanded {c : Descriptor} (hc : c ∈ d.expanded shapes) :
    (∃ x ∈ d.children, c ∈ x.parts) ∨
      ∃ name ms, shapes.lookup name = some ms ∧ ∃ s ∈ ms, c ∈ s.types := by
  cases d with
  | interface ms es =>
    rw [Descriptor.expanded, Descriptor.expand, MethodSet.ofElements_eq] at hc
    rcases List.mem_append.1 hc with hc | hc
    · obtain ⟨s, hs, hc⟩ := List.mem_flatMap.1 hc
      have hs : s ∈ Descriptor.collected shapes (.interface ms es) :=
        (mem_insertMethods hs).resolve_left List.not_mem_nil
      rcases Descriptor.mem_collected hs with hinner | ⟨name, ms, hname, hs⟩
      · exact .inl (hinner c hc)
      · exact .inr ⟨name, ms, hname, s, hs, hc⟩
    · left
      have hc := MethodSet.mem_inOrder.1 hc
      rw [Descriptor.unexpanded, allUnexpanded_eq_flatMap, List.mem_flatMap] at hc
      obtain ⟨e, he, hc⟩ := hc
      exact ⟨e, List.mem_append_right _ he, Descriptor.mem_parts_of_mem_unexpanded hc⟩
  | _ => exact .inl ⟨c, hc, c.self_mem_parts⟩

end

theorem MethodSet.ofElements_of_sorted {shapes : Shapes} {ms : List Signature}
    (h : SortedByName ms) : MethodSet.ofElements shapes ms [] = ⟨ms, []⟩ := by
  have hfold := foldl_insertMethod_of_sorted [] ms h
  simp only [List.nil_append] at hfold
  simp [MethodSet.ofElements, MethodSet.embed, MethodSet.embedAll, MethodSet.addMethods, hfold,
    MethodSet.canonical, dropRepeats]

theorem Descriptor.expanded_of_plainLevel {shapes : Shapes} {d : Descriptor} (h : d.PlainLevel) :
    d.expanded shapes = d.children := by
  cases d with
  | interface ms es =>
    obtain ⟨rfl, hms⟩ := h
    rw [Descriptor.expanded, Descriptor.expand, MethodSet.ofElements_of_sorted hms]
  | _ => rfl

end Conformance

import Conformance.Proofs.Descriptor
import Conformance.Proofs.Embedding

namespace Conformance

def Descriptor.OrderedLevel : Descriptor → Prop
  | .interface ms _ => ms.Pairwise (·.name ≤ ·.name)
  | _ => True

def Descriptor.Ordered (d : Descriptor) : Prop := ∀ x ∈ d.parts, x.OrderedLevel

/-- An inline interface without embedded types that has each method once. -/
def Descriptor.PlainLevel : Descriptor → Prop
  | .interface ms es => es = [] ∧ SortedByName ms
  | _ => True

def Descriptor.Plain (d : Descriptor) : Prop := ∀ x ∈ d.parts, x.PlainLevel

theorem SortedByName.le {ms : List Signature} (h : SortedByName ms) :
    ms.Pairwise (·.name ≤ ·.name) :=
  h.imp fun hlt ↦ String.not_lt.1 (String.lt_asymm hlt)

theorem pairwise_mergeSort_key {α : Type} (key : α → String) (xs : List α) :
    (xs.mergeSort fun a b ↦ decide (key a ≤ key b)).Pairwise (key · ≤ key ·) := by
  have htrans (a b c : α) (hab : decide (key a ≤ key b)) (hbc : decide (key b ≤ key c)) :
      decide (key a ≤ key c) := by
    simp only [decide_eq_true_eq] at hab hbc ⊢
    exact String.le_trans hab hbc
  have htotal (a b : α) : decide (key a ≤ key b) || decide (key b ≤ key a) := by
    simpa using String.le_total (key a) (key b)
  exact (List.pairwise_mergeSort htrans htotal xs).imp of_decide_eq_true

theorem ofElements_of_pairwise {ms : List Signature} (h : ms.Pairwise (·.name ≤ ·.name))
    (es : List Descriptor) : Descriptor.ofElements ms es = .interface ms es := by
  rw [Descriptor.ofElements, List.mergeSort_of_pairwise (h.imp fun hle ↦ decide_eq_true hle)]

theorem Descriptor.Plain.ordered {d : Descriptor} (h : d.Plain) : d.Ordered := by
  intro x hx
  have hx := h x hx
  cases x with
  | interface ms es => exact hx.2.le
  | _ => trivial

variable {owner : String} {params : List String}

theorem Descriptor.markParams_mem_parts {x d : Descriptor} (hx : x ∈ d.parts) :
    x.markParams owner params ∈ (d.markParams owner params).parts := by
  induction d using Descriptor.children_induct with
  | h d ih =>
    rcases Descriptor.mem_parts.1 hx with rfl | ⟨c, hc, hx⟩
    · exact Descriptor.self_mem_parts _
    · have hmarked : c.markParams owner params ∈ (d.markParams owner params).children :=
        Descriptor.mem_children_markParams.2 ⟨c, hc, rfl⟩
      exact Descriptor.mem_parts.2 (.inr ⟨_, hmarked, ih c hc hx⟩)

theorem Descriptor.depth_markParams (d : Descriptor) :
    (d.markParams owner params).depth = d.depth := by
  refine eq_of_forall_ge_iff fun n ↦ ?_
  induction n generalizing d with
  | zero =>
    exact iff_of_false (Nat.not_le.2 (depth_pos _)) (Nat.not_le.2 d.depth_pos)
  | succ n ih =>
    simp only [depth_le, mem_children_markParams, forall_exists_index, and_imp,
      forall_apply_eq_imp_iff₂, ih]

theorem Descriptor.depth_markParams_le {d : Descriptor} {n : Nat} (h : d.depth ≤ n) :
    (d.markParams owner params).depth ≤ n :=
  d.depth_markParams.trans_le h

theorem Signature.depth_markParams (s : Signature) :
    (s.markParams owner params).depth = s.depth := by
  refine eq_of_forall_ge_iff fun n ↦ ?_
  simp only [Signature.depth_le, Signature.markParams_types, List.forall_mem_map,
    Descriptor.depth_markParams]

theorem sortedByName_markParams {ms : List Signature} (h : SortedByName ms) :
    SortedByName (ms.map (Signature.markParams owner params)) := by
  refine List.pairwise_map.2 (h.imp fun {s t} hlt ↦ ?_)
  rwa [Signature.markParams_name, Signature.markParams_name]

theorem Descriptor.Plain.markParams {d : Descriptor} (h : d.Plain) :
    (d.markParams owner params).Plain := by
  induction d using Descriptor.children_induct with
  | h d ih =>
    obtain ⟨hd, hchildren⟩ := Descriptor.forall_parts.1 h
    refine Descriptor.forall_parts.2 ⟨?_, fun c hc ↦ ?_⟩
    · cases d with
      | named name args =>
        cases args with
        | nil => rw [Descriptor.markParams]; split <;> trivial
        | cons a as => trivial
      | interface ms es =>
        obtain ⟨rfl, hms⟩ := hd
        have hms : SortedByName (ms.map (Signature.markParams owner params)) :=
          sortedByName_markParams hms
        rw [Descriptor.markParams, markSignatureParams_eq_map, ofElements_of_pairwise hms.le]
        exact ⟨rfl, hms⟩
      | _ => trivial
    · obtain ⟨c', hc', rfl⟩ := Descriptor.mem_children_markParams.1 hc
      exact ih c' hc' (hchildren c' hc')

theorem map_markParams_eq_self {ds : List Descriptor}
    (h : ∀ d ∈ ds, d.markParams owner params = d) :
    ds.map (Descriptor.markParams owner params) = ds :=
  (List.map_congr_left h).trans (List.map_id' ds)

theorem Signature.markParams_eq_self {s : Signature}
    (h : ∀ d ∈ s.types, d.markParams owner params = d) : s.markParams owner params = s := by
  cases s
  rw [Signature.markParams_eq, map_markParams_eq_self fun d hd ↦ h d (List.mem_append_left _ hd),
    map_markParams_eq_self fun d hd ↦ h d (List.mem_append_right _ hd)]

theorem Descriptor.Ordered.markParams_eq_self {d : Descriptor} (h : d.Ordered)
    (hnames : ∀ name ∈ params, .simple name ∉ d.parts) : d.markParams owner params = d := by
  induction d using Descriptor.children_induct with
  | h d ih =>
    obtain ⟨hd, hchildren⟩ := Descriptor.forall_parts.1 h
    have ih (c : Descriptor) (hc : c ∈ d.children) : c.markParams owner params = c :=
      ih c hc (hchildren c hc) fun name hname hx ↦
        hnames name hname (Descriptor.mem_parts.2 (.inr ⟨c, hc, hx⟩))
    cases d with
    | named name args =>
      cases args with
      | nil =>
        have hname : name ∉ params := fun hname ↦ hnames name hname (Descriptor.self_mem_parts _)
        rw [Descriptor.markParams, if_neg hname]
      | cons a as =>
        have hmap : (a :: as).map (Descriptor.markParams owner params) = a :: as :=
          map_markParams_eq_self ih
        rw [Descriptor.markParams, markAllParams_eq_map, ← List.map_cons, hmap]
    | param name owner => rfl
    | pointer e | slice e | array len e | chan dir e =>
      rw [Descriptor.markParams, ih e List.mem_cons_self]
    | map k v =>
      rw [Descriptor.markParams, ih k (by simp [Descriptor.children]),
        ih v (by simp [Descriptor.children])]
    | func ps rs variadic =>
      rw [Descriptor.markParams, markAllParams_eq_map, markAllParams_eq_map,
        map_markParams_eq_self fun d hd ↦ ih d (List.mem_append_left _ hd),
        map_markParams_eq_self fun d hd ↦ ih d (List.mem_append_right _ hd)]
    | interface ms es =>
      have hms : ms.map (Signature.markParams owner params) = ms := by
        refine (List.map_congr_left fun s hs ↦ ?_).trans (List.map_id' ms)
        exact Signature.markParams_eq_self fun d hd ↦
          ih d (List.mem_append_left _ (List.mem_flatMap.2 ⟨s, hs, hd⟩))
      rw [Descriptor.markParams, markSignatureParams_eq_map, markAllParams_eq_map, hms,
        map_markParams_eq_self fun e he ↦ ih e (List.mem_append_right _ he),
        ofElements_of_pairwise hd]
    | struct fs =>
      have hfs : fs.map (Field.markParams owner params) = fs := by
        refine (List.map_congr_left fun f hf ↦ ?_).trans (List.map_id' fs)
        obtain ⟨name, e⟩ := f
        rw [Field.markParams, ih e (List.mem_map_of_mem hf)]
      rw [Descriptor.markParams, markFieldParams_eq_map, hfs]

theorem Descriptor.Ordered.markParams_nil {d : Descriptor} (h : d.Ordered) :
    d.markParams owner [] = d :=
  h.markParams_eq_self nofun

theorem Descriptor.Ordered.markParams_eq_self_of_not_mentionsParam {d : Descriptor}
    (h : d.Ordered) (hparams : (d.markParams owner params).mentionsParam = false) :
    d.markParams owner params = d := by
  apply h.markParams_eq_self
  intro name hname hx
  have hmarked : (simple name).markParams owner params ∈ (d.markParams owner params).parts :=
    Descriptor.markParams_mem_parts hx
  rw [Descriptor.markParams, if_pos hname] at hmarked
  exact Descriptor.param_notMem_parts hparams name owner hmarked

theorem Descriptor.mentionsParam_markParams_nil {d : Descriptor}
    (h : d.mentionsParam = false) : (d.markParams owner []).mentionsParam = false := by
  induction d using Descriptor.children_induct with
  | h d ih =>
    have hparam : ∀ name other, d.markParams owner [] ≠ .param name other := by
      intro name other he
      cases d with
      | named n args => cases args <;> simp [Descriptor.markParams] at he
      | param n other => cases h
      | _ => simp [Descriptor.markParams, Descriptor.ofElements] at he
    rw [Descriptor.mentionsParam_eq_any hparam, List.any_eq_false]
    intro c hc
    obtain ⟨c', hc', rfl⟩ := Descriptor.mem_children_markParams.1 hc
    rw [ih c' hc' (Descriptor.mentionsParam_of_mem_children h hc')]
    exact Bool.false_ne_true

theorem Signature.mentionsParam_markParams_nil {s : Signature}
    (h : s.mentionsParam = false) : (s.markParams owner []).mentionsParam = false := by
  rw [Signature.mentionsParam_eq_false_iff, Signature.markParams_types] at *
  intro d hd
  obtain ⟨d', hd', rfl⟩ := List.mem_map.1 hd
  exact Descriptor.mentionsParam_markParams_nil (h d' hd')

end Conformance

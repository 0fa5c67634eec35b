import Conformance.Program.Flattening
import Mathlib.Data.List.Sort
import Mathlib.Logic.Relation

namespace Conformance

open Relation

/-- Each name once, in ascending order. -/
def SortedByName (ms : List Signature) : Prop := ms.Pairwise (·.name < ·.name)

theorem SortedByName.eq_of_name {ms : List Signature} (h : SortedByName ms) {s t : Signature}
    (hs : s ∈ ms) (ht : t ∈ ms) (he : s.name = t.name) : s = t := by
  induction ms with
  | nil => cases hs
  | cons u us ih =>
    obtain ⟨hu, hus⟩ := List.pairwise_cons.1 h
    rcases List.mem_cons.1 hs with hsu | hs' <;> rcases List.mem_cons.1 ht with htu | ht'
    · rw [hsu, htu]
    · have hlt := hu t ht'
      rw [← hsu, he] at hlt
      exact absurd hlt (String.lt_irrefl _)
    · have hlt := hu s hs'
      rw [← htu, he] at hlt
      exact absurd hlt (String.lt_irrefl _)
    · exact ih hus hs' ht'

/-- Two lists in strictly ascending order of a text are the same if their members are. -/
theorem eq_of_pairwise_key {α : Type} (key : α → String) {xs ys : List α}
    (hxs : xs.Pairwise (key · < key ·)) (hys : ys.Pairwise (key · < key ·))
    (h : ∀ x, x ∈ xs ↔ x ∈ ys) : xs = ys := by
  have : Std.Irrefl fun x y : α ↦ key x < key y := ⟨fun x ↦ String.lt_irrefl (key x)⟩
  have : Std.Antisymm fun x y : α ↦ key x < key y :=
    ⟨fun _ _ hxy hyx ↦ absurd hyx (String.lt_asymm hxy)⟩
  exact List.Pairwise.eq_of_mem_iff hxs hys h

theorem SortedByName.ext {ms ns : List Signature} (hm : SortedByName ms) (hn : SortedByName ns)
    (h : ∀ s, s ∈ ms ↔ s ∈ ns) : ms = ns :=
  eq_of_pairwise_key Signature.name hm hn h

theorem mem_insertMethod_of_agree {s t : Signature} {ms : List Signature}
    (h : ∀ u ∈ ms, u.name = s.name → u = s) : t ∈ insertMethod s ms ↔ t = s ∨ t ∈ ms := by
  induction ms with
  | nil => simp [insertMethod]
  | cons u us ih =>
    obtain ⟨hu, hus⟩ := List.forall_mem_cons.1 h
    rw [insertMethod]
    split
    · simp only [List.mem_cons]
    · split
      · rename_i hname
        rw [hu hname.symm, List.mem_cons, or_self_left]
      · rw [List.mem_cons, List.mem_cons, ih hus, or_left_comm]

theorem mem_insertMethod {s t : Signature} {ms : List Signature} (h : ∀ u ∈ ms, u.name ≠ s.name) :
    t ∈ insertMethod s ms ↔ t = s ∨ t ∈ ms :=
  mem_insertMethod_of_agree fun u hu hname ↦ absurd hname (h u hu)

theorem insertMethod_subset {s t : Signature} {ms : List Signature} (h : t ∈ insertMethod s ms) :
    t = s ∨ t ∈ ms := by
  induction ms with
  | nil => simpa [insertMethod] using h
  | cons u us ih =>
    rw [insertMethod] at h
    split at h
    · simpa only [List.mem_cons] using h
    · split at h
      · exact .inr h
      · rcases List.mem_cons.1 h with rfl | h
        · exact .inr List.mem_cons_self
        · exact (ih h).imp_right (List.mem_cons_of_mem _)

theorem SortedByName.insert {s : Signature} {ms : List Signature} (h : SortedByName ms) :
    SortedByName (insertMethod s ms) := by
  induction ms with
  | nil => exact List.pairwise_singleton _ _
  | cons u us ih =>
    obtain ⟨hu, hus⟩ := List.pairwise_cons.1 h
    rw [insertMethod]
    split
    · rename_i hlt
      refine List.pairwise_cons.2 ⟨fun v hv ↦ ?_, h⟩
      rcases List.mem_cons.1 hv with rfl | hv
      · exact hlt
      · exact String.lt_trans hlt (hu v hv)
    · split
      · exact h
      · rename_i hlt hne
        have hgt : u.name < s.name := by grind
        refine List.pairwise_cons.2 ⟨fun v hv ↦ ?_, ih hus⟩
        rcases insertMethod_subset hv with rfl | hv
        · exact hgt
        · exact hu v hv

section

variable (is : List ResolvedInterface)

def Embeds (i j : InterfaceId) : Prop := ∃ r, is[i]? = some r ∧ j ∈ r.embeds

abbrev Reaches : InterfaceId → InterfaceId → Prop := ReflTransGen (Embeds is)

def Declares (i : InterfaceId) (s : Signature) : Prop := ∃ r, is[i]? = some r ∧ s ∈ r.methods

/-- The method is declared by an interface that `i` reaches. -/
def Requires (i : InterfaceId) (s : Signature) : Prop := ∃ j, Reaches is i j ∧ Declares is j s

structure Coherent (i : InterfaceId) : Prop where
  acyclic : ∀ j, Reaches is i j → ¬ TransGen (Embeds is) j j
  declaredOnce : ∀ j r, Reaches is i j → is[j]? = some r → (r.methods.map (·.name)).Nodup
  agree : ∀ s t, Requires is i s → Requires is i t → s.name = t.name → s = t

/-- The methods are those that `i` requires, in the order of their names. -/
structure IsRequiredSet (i : InterfaceId) (ms : List Signature) : Prop where
  sorted : SortedByName ms
  mem_iff : ∀ s, s ∈ ms ↔ Requires is i s

def EmbedsInRange : Prop := ∀ r ∈ is, ∀ e ∈ r.embeds, e < is.length

end

variable {is : List ResolvedInterface} {i j : InterfaceId} {r : ResolvedInterface} {s : Signature}

theorem reaches_iff (hr : is[i]? = some r) :
    Reaches is i j ↔ i = j ∨ ∃ e ∈ r.embeds, Reaches is e j := by
  refine ReflTransGen.cases_head_iff.trans (or_congr_right ?_)
  refine exists_congr fun e ↦ and_congr_left fun _ ↦ ?_
  exact ⟨fun ⟨r', hr', he⟩ ↦ Option.some.inj (hr.symm.trans hr') ▸ he, fun he ↦ ⟨r, hr, he⟩⟩

theorem requires_iff (hr : is[i]? = some r) :
    Requires is i s ↔ s ∈ r.methods ∨ ∃ e ∈ r.embeds, Requires is e s := by
  constructor
  · intro h
    obtain ⟨j, hj, hd⟩ := h
    rcases (reaches_iff hr).1 hj with rfl | ⟨e, he, hej⟩
    · obtain ⟨r', hr', hs⟩ := hd
      exact .inl (Option.some.inj (hr.symm.trans hr') ▸ hs)
    · exact .inr ⟨e, he, j, hej, hd⟩
  · rintro (hs | ⟨e, he, j, hej, hd⟩)
    · exact ⟨i, .refl, r, hr, hs⟩
    · exact ⟨j, .head ⟨r, hr, he⟩ hej, hd⟩

theorem Coherent.embedded (h : Coherent is i) (hij : Embeds is i j) : Coherent is j where
  acyclic k hk := h.acyclic k (.head hij hk)
  declaredOnce k r hk := h.declaredOnce k r (.head hij hk)
  agree s t hs ht := by
    obtain ⟨k, hk, hs⟩ := hs
    obtain ⟨l, hl, ht⟩ := ht
    exact h.agree s t ⟨k, .head hij hk, hs⟩ ⟨l, .head hij hl, ht⟩

/-- An interface is coherent if what it embeds is, and the methods together are. A cycle through it
would be one that an embedded interface reaches. -/
theorem Coherent.of_embedded (hr : is[i]? = some r) (own : (r.methods.map (·.name)).Nodup)
    (embedded : ∀ e ∈ r.embeds, Coherent is e)
    (agree : ∀ s t, Requires is i s → Requires is i t → s.name = t.name → s = t) :
    Coherent is i where
  acyclic j hij hjj := by
    rcases (reaches_iff hr).1 hij with rfl | ⟨e, he, hej⟩
    · obtain ⟨e, ⟨r', hr', he⟩, hei⟩ := TransGen.head'_iff.1 hjj
      obtain rfl := Option.some.inj (hr.symm.trans hr')
      exact (embedded e he).acyclic e .refl (TransGen.tail' hei ⟨r, hr, he⟩)
    · exact (embedded e he).acyclic j hej hjj
  declaredOnce j r' hij hr' := by
    rcases (reaches_iff hr).1 hij with rfl | ⟨e, he, hej⟩
    · exact Option.some.inj (hr.symm.trans hr') ▸ own
    · exact (embedded e he).declaredOnce j r' hej hr'
  agree := agree

theorem IsRequiredSet.unique {ms ns : List Signature} (hm : IsRequiredSet is i ms)
    (hn : IsRequiredSet is i ns) : ms = ns :=
  hm.sorted.ext hn.sorted fun s ↦ (hm.mem_iff s).trans (hn.mem_iff s).symm

end Conformance

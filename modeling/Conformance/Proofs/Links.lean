import Conformance.Matching
import Mathlib.Data.List.Basic
import Mathlib.Data.Option.Basic

/-!
What a satisfaction says. Bindings decide whether candidates satisfy required methods, but the links
follow from the names alone: each required method is linked to the candidate of its name. So a
satisfaction of some required methods is part of a satisfaction of more of them.
-/

namespace Conformance

def candidateNamed? (cs : List Candidate) (name : String) : Option Candidate :=
  cs.find? (·.signature.name == name)

theorem candidateNamed?_eq_some_iff {cs : List Candidate} {name : String} {c : Candidate}
    (distinct : ∀ c ∈ cs, ∀ c' ∈ cs, c.signature.name = c'.signature.name → c = c') :
    candidateNamed? cs name = some c ↔ c ∈ cs ∧ c.signature.name = name := by
  constructor
  · intro h
    exact ⟨List.mem_of_find?_eq_some h, by simpa using List.find?_some h⟩
  · rintro ⟨hc, rfl⟩
    obtain ⟨c', hc'⟩ : ∃ c', candidateNamed? cs c.signature.name = some c' := by
      refine Option.isSome_iff_exists.1 (List.find?_isSome.2 ⟨c, hc, ?_⟩)
      exact beq_self_eq_true _
    have hname : c'.signature.name = c.signature.name := by simpa using List.find?_some hc'
    rw [hc', distinct c' (List.mem_of_find?_eq_some hc') c hc hname]

def linked (cs : List Candidate) (ss : List Signature) : List (Signature × Candidate) :=
  ss.filterMap fun s ↦ (candidateNamed? cs s.name).map fun c ↦ (s, c)

def Link.ofPair (x : Signature × Candidate) : Link := ⟨x.1.name, x.2.id⟩

def Satisfaction.ofPairs (xs : List (Signature × Candidate)) : Satisfaction where
  needsPointer := xs.any (·.2.form == .pointer)
  links := xs.map Link.ofPair

theorem satisfy_cons {shapes : Shapes} {policy : ReceiverPolicy} {cs : List Candidate}
    {b : Bindings} {s : Signature} {ss : List Signature} :
    satisfy shapes policy cs b (s :: ss) = (candidateNamed? cs s.name).bind fun c ↦
      let compared := unifySignature (unify shapes comparisonLimit) s c.signature b
      if policy.admits c.form ∧ compared.1 then
        (satisfy shapes policy cs compared.2 ss).map (.cons s c)
      else none := by
  rw [satisfy, candidateNamed?]
  cases cs.find? (·.signature.name == s.name) with
  | none => rfl
  | some c =>
    rw [Option.bind_eq_bind, Option.bind_some, Option.bind_some]
    cases policy.admits c.form with
    | false => rfl
    | true =>
      obtain ⟨same, b'⟩ := unifySignature (unify shapes comparisonLimit) s c.signature b
      cases same with
      | false => rfl
      | true =>
        dsimp only
        rw [if_pos ⟨rfl, rfl⟩, Option.map_eq_bind]
        rfl

theorem satisfy_cons_eq_some_iff {shapes : Shapes} {policy : ReceiverPolicy} {cs : List Candidate}
    {b : Bindings} {s : Signature} {ss : List Signature} {found : Satisfaction} :
    satisfy shapes policy cs b (s :: ss) = some found ↔
      ∃ c rest, candidateNamed? cs s.name = some c ∧ policy.admits c.form ∧
        (unifySignature (unify shapes comparisonLimit) s c.signature b).1 ∧
        satisfy shapes policy cs
          (unifySignature (unify shapes comparisonLimit) s c.signature b).2 ss = some rest ∧
        rest.cons s c = found := by
  rw [satisfy_cons, Option.bind_eq_some_iff]
  refine exists_congr fun c ↦ ?_
  simp only [Option.ite_none_right_eq_some, Option.map_eq_some_iff, exists_and_left, and_assoc]

theorem linked_cons {cs : List Candidate} {s : Signature} {ss : List Signature} {c : Candidate}
    (h : candidateNamed? cs s.name = some c) : linked cs (s :: ss) = (s, c) :: linked cs ss :=
  List.filterMap_cons_some (by rw [h, Option.map_some])

theorem satisfy_eq_some {shapes : Shapes} {policy : ReceiverPolicy} {cs : List Candidate}
    {b : Bindings} {ss : List Signature} {found : Satisfaction}
    (h : satisfy shapes policy cs b ss = some found) : found = .ofPairs (linked cs ss) := by
  induction ss generalizing b found with
  | nil =>
    rw [satisfy, Option.some.injEq] at h
    rw [← h]
    rfl
  | cons s ss ih =>
    obtain ⟨c, rest, hc, -, -, hrest, rfl⟩ := satisfy_cons_eq_some_iff.1 h
    rw [ih hrest, linked_cons hc]
    rfl

theorem map_fst_linked {shapes : Shapes} {policy : ReceiverPolicy} {cs : List Candidate}
    {b : Bindings} {ss : List Signature} {found : Satisfaction}
    (h : satisfy shapes policy cs b ss = some found) : (linked cs ss).map (·.1) = ss := by
  induction ss generalizing b found with
  | nil => rfl
  | cons s ss ih =>
    obtain ⟨c, rest, hc, -, -, hrest, -⟩ := satisfy_cons_eq_some_iff.1 h
    rw [linked_cons hc, List.map_cons, ih hrest]

theorem mem_linked {cs : List Candidate} {ss : List Signature} {x : Signature × Candidate} :
    x ∈ linked cs ss ↔ x.1 ∈ ss ∧ candidateNamed? cs x.1.name = some x.2 := by
  obtain ⟨s, c⟩ := x
  simp only [linked, List.mem_filterMap, Option.map_eq_some_iff, Prod.mk.injEq]
  constructor
  · intro h
    obtain ⟨s, hs, c, hc, rfl, rfl⟩ := h
    exact ⟨hs, hc⟩
  · intro h
    exact ⟨s, h.1, c, h.2, rfl, rfl⟩

theorem linked_filter (cs : List Candidate) (ss : List Signature) (keep : String → Bool) :
    linked cs (ss.filter fun s ↦ keep s.name) = (linked cs ss).filter fun x ↦ keep x.1.name := by
  rw [linked, linked, List.filterMap_filter, List.filter_filterMap]
  refine List.filterMap_congr fun s _ ↦ ?_
  cases candidateNamed? cs s.name with
  | none => simp
  | some c => simp [Option.filter]

theorem Satisfaction.ofPairs_filter (xs : List (Signature × Candidate)) (keep : String → Bool) :
    (ofPairs (xs.filter fun x ↦ keep x.1.name)).links =
      (ofPairs xs).links.filter fun l ↦ keep l.required := by
  rw [ofPairs, ofPairs, List.filter_map]
  rfl

theorem Satisfaction.needsPointer_ofPairs_filter {xs : List (Signature × Candidate)}
    (keep : Signature × Candidate → Bool) (h : (ofPairs xs).needsPointer = false) :
    (ofPairs (xs.filter keep)).needsPointer = false := by
  simp only [ofPairs, List.any_eq_false] at h ⊢
  exact fun x hx ↦ h x ((List.mem_filter.1 hx).1)

def Candidate.renumber (number : MethodId → MethodId) (c : Candidate) : Candidate :=
  { c with id := number c.id }

def Link.renumber (number : MethodId → MethodId) (l : Link) : Link :=
  { l with method := number l.method }

def Satisfaction.renumber (number : MethodId → MethodId) (found : Satisfaction) : Satisfaction :=
  { found with links := found.links.map (.renumber number) }

/-- Numbers take no part in matching, so a satisfaction carries over to other numbers. -/
theorem satisfy_renumber {shapes : Shapes} {policy : ReceiverPolicy} {cs cs' : List Candidate}
    {number : MethodId → MethodId}
    (h : ∀ name, candidateNamed? cs' name = (candidateNamed? cs name).map (.renumber number))
    (b : Bindings) (ss : List Signature) :
    satisfy shapes policy cs' b ss = (satisfy shapes policy cs b ss).map (.renumber number) := by
  induction ss generalizing b with
  | nil => rfl
  | cons s ss ih =>
    rw [satisfy_cons, satisfy_cons, h]
    cases candidateNamed? cs s.name with
    | none => rfl
    | some c =>
      simp only [Option.map_some, Option.bind_some, Candidate.renumber, ih]
      split
      · rw [Option.map_map, Option.map_map]
        rfl
      · rfl

/-- A satisfaction goes by the candidates that it links, so it is none the worse for more of them. -/
theorem satisfy_of_more_candidates {shapes : Shapes} {policy : ReceiverPolicy}
    {cs cs' : List Candidate} {number : MethodId → MethodId}
    (h : ∀ name c, candidateNamed? cs name = some c →
      candidateNamed? cs' name = some (c.renumber number))
    {b : Bindings} {ss : List Signature} {found : Satisfaction}
    (hfound : satisfy shapes policy cs b ss = some found) :
    satisfy shapes policy cs' b ss = some (found.renumber number) := by
  induction ss generalizing b found with
  | nil =>
    rw [satisfy, Option.some.injEq] at hfound
    rw [← hfound]
    rfl
  | cons s ss ih =>
    obtain ⟨c, rest, hc, hadmits, hunify, hrest, rfl⟩ := satisfy_cons_eq_some_iff.1 hfound
    exact satisfy_cons_eq_some_iff.2
      ⟨c.renumber number, rest.renumber number, h s.name c hc, hadmits, hunify, ih hrest, rfl⟩

end Conformance

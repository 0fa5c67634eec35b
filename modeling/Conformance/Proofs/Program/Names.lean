import Conformance.Program.Names
import Mathlib.Data.List.Nodup

namespace Conformance

namespace Program

def declaredNames (p : Program) : List String :=
  p.interfaces.filterMap (·.name) ++ p.types.map (·.name)

variable {p : Program} {name : String}

theorem mem_declared_interface {id : InterfaceId} :
    (name, .interface id) ∈ p.names.declared ↔
      ∃ d, p.interfaces[id]? = some d ∧ d.name = some name := by
  simp only [names, List.mem_append, List.mem_filterMap, List.mem_map, Prod.exists,
    List.mem_zipIdx_iff_getElem?, Option.map_eq_some_iff]
  grind

theorem mem_declared_type {id : TypeId} :
    (name, .type id) ∈ p.names.declared ↔ ∃ t, p.types[id]? = some t ∧ t.name = name := by
  simp only [names, List.mem_append, List.mem_filterMap, List.mem_map, Prod.exists,
    List.mem_zipIdx_iff_getElem?, Option.map_eq_some_iff]
  grind

theorem map_fst_declared (p : Program) : p.names.declared.map (·.1) = p.declaredNames := by
  conv_rhs =>
    rw [declaredNames, ← List.zipIdx_map_fst 0 p.interfaces, ← List.zipIdx_map_fst 0 p.types,
      List.filterMap_map, List.map_map]
  rw [names, List.map_append, List.map_filterMap, List.map_map]
  refine congrArg₂ (· ++ ·) (List.filterMap_congr fun x _ ↦ ?_) rfl
  cases hx : x.1.name with
  | none => simp only [hx, Function.comp_apply, Option.map_none]
  | some name => simp only [hx, Function.comp_apply, Option.map_some]

theorem mem_of_lookup {s : Symbol} (h : p.names.lookup? name = some s) :
    (name, s) ∈ p.names.declared := by
  obtain ⟨l, r, he, -⟩ := List.lookup_eq_some_iff.1 h
  rw [he]
  exact List.mem_append_right _ List.mem_cons_self

theorem lookup_of_mem (hp : p.declaredNames.Nodup) {s : Symbol}
    (h : (name, s) ∈ p.names.declared) : p.names.lookup? name = some s := by
  rw [← map_fst_declared] at hp
  obtain ⟨l, r, he⟩ := List.append_of_mem h
  rw [Names.lookup?, List.lookup_eq_some_iff]
  refine ⟨l, r, he, fun x hx ↦ ?_⟩
  rw [he, List.map_append, List.map_cons] at hp
  have hne : x.1 ≠ name :=
    (List.nodup_append.1 hp).2.2 x.1 (List.mem_map_of_mem hx) name List.mem_cons_self
  simpa using hne.symm

theorem isSome_lookup : (p.names.lookup? name).isSome ↔ name ∈ p.declaredNames := by
  rw [← map_fst_declared, Option.isSome_iff_exists]
  constructor
  · intro hx
    obtain ⟨s, hs⟩ := hx
    exact List.mem_map_of_mem (mem_of_lookup hs)
  · intro h
    by_contra hn
    rw [← Option.isSome_iff_exists, Option.not_isSome_iff_eq_none, Names.lookup?,
      List.lookup_eq_none_iff] at hn
    obtain ⟨x, hx, he⟩ := List.mem_map.1 h
    exact absurd he.symm (by simpa using hn x hx)

theorem interface?_eq_some {id : InterfaceId} :
    p.names.interface? name = some id ↔ p.names.lookup? name = some (.interface id) := by
  unfold Names.interface?
  split <;> simp_all

theorem type?_eq_some {id : TypeId} :
    p.names.type? name = some id ↔ p.names.lookup? name = some (.type id) := by
  unfold Names.type?
  split <;> simp_all

theorem declaration_of_interface? {id : InterfaceId} (h : p.names.interface? name = some id) :
    ∃ d, p.interfaces[id]? = some d ∧ d.name = some name :=
  mem_declared_interface.1 (mem_of_lookup (interface?_eq_some.1 h))

theorem declaration_of_type? {id : TypeId} (h : p.names.type? name = some id) :
    ∃ t, p.types[id]? = some t ∧ t.name = name :=
  mem_declared_type.1 (mem_of_lookup (type?_eq_some.1 h))

theorem interface?_iff (hp : p.declaredNames.Nodup) {id : InterfaceId} :
    p.names.interface? name = some id ↔ ∃ d, p.interfaces[id]? = some d ∧ d.name = some name :=
  ⟨declaration_of_interface?, fun h ↦
    interface?_eq_some.2 (lookup_of_mem hp (mem_declared_interface.2 h))⟩

theorem type?_iff (hp : p.declaredNames.Nodup) {id : TypeId} :
    p.names.type? name = some id ↔ ∃ t, p.types[id]? = some t ∧ t.name = name :=
  ⟨declaration_of_type?, fun h ↦ type?_eq_some.2 (lookup_of_mem hp (mem_declared_type.2 h))⟩

section

variable (p : Program) (name : String)

def NamesInterface : Prop := ∃ d ∈ p.interfaces, d.name = some name

/-- Interfaces are declared before types, and the first declaration of a name keeps it. -/
def NamesType : Prop := (∃ t ∈ p.types, t.name = name) ∧ ¬ p.NamesInterface name

end

theorem exists_lookup_of_mem {α : Type} {xs : List (String × α)} {a : α} (h : (name, a) ∈ xs) :
    ∃ b, (name, b) ∈ xs ∧ ∀ ys, (xs ++ ys).lookup name = some b := by
  have hsome : xs.lookup name ≠ none := fun hnone ↦
    absurd (List.lookup_eq_none_iff.1 hnone _ h) (by simp)
  obtain ⟨b, hb⟩ := Option.ne_none_iff_exists'.1 hsome
  obtain ⟨l, r, rfl, -⟩ := List.lookup_eq_some_iff.1 hb
  refine ⟨b, List.mem_append_right l List.mem_cons_self, fun ys ↦ ?_⟩
  rw [List.lookup_append, hb, Option.some_or]

/-- The interfaces stand before all types, so a name that an interface has is found among them. -/
theorem exists_interface?_iff :
    (∃ id, p.names.interface? name = some id) ↔ p.NamesInterface name := by
  constructor
  · intro h
    obtain ⟨id, hid⟩ := h
    obtain ⟨d, hd, hname⟩ := declaration_of_interface? hid
    exact ⟨d, List.mem_of_getElem? hd, hname⟩
  · intro h
    obtain ⟨d, hd, hname⟩ := h
    obtain ⟨k, hk⟩ := List.mem_iff_getElem?.1 hd
    have hmem : (name, Symbol.interface k) ∈ p.interfaces.zipIdx.filterMap
        fun x ↦ x.1.name.map fun name ↦ (name, .interface x.2) :=
      List.mem_filterMap.2 ⟨(d, k), List.mem_zipIdx_iff_getElem?.2 hk, by rw [hname]; rfl⟩
    obtain ⟨s, hs, hlookup⟩ := exists_lookup_of_mem hmem
    obtain ⟨⟨e, id⟩, -, hpair⟩ := List.mem_filterMap.1 hs
    obtain ⟨n, -, hn⟩ := Option.map_eq_some_iff.1 hpair
    obtain ⟨-, rfl⟩ := Prod.mk.inj hn
    exact ⟨id, interface?_eq_some.2 (hlookup _)⟩

theorem exists_type?_iff : (∃ id, p.names.type? name = some id) ↔ p.NamesType name := by
  constructor
  · intro h
    obtain ⟨id, hid⟩ := h
    obtain ⟨t, ht, hname⟩ := declaration_of_type? hid
    refine ⟨⟨t, List.mem_of_getElem? ht, hname⟩, fun hi ↦ ?_⟩
    obtain ⟨k, hk⟩ := exists_interface?_iff.2 hi
    cases Option.some.inj ((type?_eq_some.1 hid).symm.trans (interface?_eq_some.1 hk))
  · intro h
    obtain ⟨⟨t, ht, hname⟩, hi⟩ := h
    have hdeclared : name ∈ p.declaredNames :=
      List.mem_append_right _ (hname ▸ List.mem_map_of_mem ht)
    obtain ⟨s, hs⟩ := Option.isSome_iff_exists.1 (isSome_lookup.2 hdeclared)
    cases s with
    | interface k => exact absurd (exists_interface?_iff.1 ⟨k, interface?_eq_some.2 hs⟩) hi
    | type id => exact ⟨id, type?_eq_some.2 hs⟩

theorem repeatedNames_eq_nil_iff {seen ns : List String} :
    repeatedNames seen ns = [] ↔ ns.Nodup ∧ ∀ n ∈ ns, n ∉ seen := by
  induction ns generalizing seen with
  | nil => simp [repeatedNames]
  | cons n ns ih =>
    rw [repeatedNames]
    split
    · rename_i hn
      simp [hn]
    · rename_i hn
      rw [ih]
      simp only [List.nodup_cons, List.mem_cons, forall_eq_or_imp, not_or]
      constructor
      · intro h
        obtain ⟨hnd, hall⟩ := h
        exact ⟨⟨fun hmem ↦ (hall n hmem).1 rfl, hnd⟩, hn, fun m hm ↦ (hall m hm).2⟩
      · intro h
        obtain ⟨⟨hmem, hnd⟩, -, hall⟩ := h
        exact ⟨hnd, fun m hm ↦ ⟨fun he ↦ hmem (he ▸ hm), hall m hm⟩⟩

def attachment? (ns : Names) (x : MethodDecl × MethodId) : Option Attachment :=
  (ns.type? x.1.receiver).map fun t ↦ ⟨t, x.2, x.1.signature.name⟩

/-- No method has the type and the name of another. -/
def Apart (ns : Names) (m n : MethodDecl) : Prop :=
  ns.type? m.receiver = ns.type? n.receiver → m.signature.name ≠ n.signature.name

theorem attach_problems_eq_nil_iff {ns : Names} {attached : List Attachment}
    {xs : List (MethodDecl × MethodId)} :
    (attach ns attached xs).2 = [] ↔
      (∀ x ∈ xs, (ns.type? x.1.receiver).isSome) ∧
      (∀ x ∈ xs, ∀ a ∈ attached,
        ns.type? x.1.receiver = some a.type → a.name ≠ x.1.signature.name) ∧
      xs.Pairwise fun x y ↦ Apart ns x.1 y.1 := by
  induction xs generalizing attached with
  | nil => simp [attach]
  | cons x xs ih =>
    obtain ⟨m, id⟩ := x
    cases ht : ns.type? m.receiver with
    | none => simp [attach, ht]
    | some t =>
      simp only [attach, ht]
      split
      · rename_i hany
        obtain ⟨a, ha, he⟩ := List.any_eq_true.1 hany
        simp only [Bool.and_eq_true, beq_iff_eq] at he
        simp only [reduceCtorEq, false_iff]
        intro h
        obtain ⟨-, hfree, -⟩ := h
        exact hfree (m, id) List.mem_cons_self a ha (by rw [ht, he.1]) he.2
      · rename_i hany
        have hfree : ∀ a ∈ attached, a.type = t → a.name ≠ m.signature.name := by
          intro a ha hat han
          exact hany (List.any_eq_true.2 ⟨a, ha, by simp [hat, han]⟩)
        rw [ih]
        simp only [List.forall_mem_cons, List.pairwise_cons, ht, Option.isSome_some, true_and,
          List.forall_mem_append, List.mem_singleton, forall_eq, Option.some.injEq, Apart, forall_and]
        constructor
        · intro h
          obtain ⟨hsome, ⟨hall, hnew⟩, hpair⟩ := h
          exact ⟨hsome, ⟨fun a ha hat ↦ hfree a ha hat.symm, hall⟩,
            fun y hy he ↦ hnew y hy he.symm, hpair⟩
        · intro h
          obtain ⟨hsome, ⟨-, hall⟩, hnew, hpair⟩ := h
          exact ⟨hsome, ⟨hall, fun y hy he ↦ hnew y hy he.symm⟩, hpair⟩

theorem attach_eq_of_problems_nil {ns : Names} {attached : List Attachment}
    {xs : List (MethodDecl × MethodId)} (h : (attach ns attached xs).2 = []) :
    (attach ns attached xs).1 = attached ++ xs.filterMap (attachment? ns) := by
  induction xs generalizing attached with
  | nil => simp [attach]
  | cons x xs ih =>
    obtain ⟨m, id⟩ := x
    cases ht : ns.type? m.receiver with
    | none => simp [attach, ht] at h
    | some t =>
      simp only [attach, ht] at h ⊢
      split at h
      · simp at h
      · rename_i hany
        rw [if_neg hany, ih h]
        simp [attachment?, ht]

end Program

end Conformance

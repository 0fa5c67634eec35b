import Conformance.Proofs.MethodSet
import Conformance.Proofs.Program.Edges
import Conformance.Proofs.Program.Merging
import Mathlib.Logic.Equiv.Basic

/-!
Programs whose declarations stand in another order. Every phase of matching refers to declarations
by their places, but what it finds depends on names and on membership alone. So the edges of the
rearranged program are the same, at the new places.
-/

namespace Conformance

open Relation

section

variable {α : Type} {xs ys : List α} {place : Equiv.Perm ℕ}

def Moves (place : Equiv.Perm ℕ) (xs ys : List α) : Prop := ∀ k, ys[place k]? = xs[k]?

theorem Moves.symm (h : Moves place xs ys) : Moves place.symm ys xs := by
  intro k
  rw [← h, Equiv.apply_symm_apply]

theorem Moves.mem_iff (h : Moves place xs ys) {x : α} : x ∈ ys ↔ x ∈ xs := by
  simp only [List.mem_iff_getElem?]
  constructor
  · rintro ⟨k, hk⟩
    exact ⟨place.symm k, (h.symm k).trans hk⟩
  · rintro ⟨k, hk⟩
    exact ⟨place k, (h k).trans hk⟩

theorem filterMap_range_getElem? (xs : List α) :
    (List.range xs.length).filterMap (xs[·]?) = xs := by
  induction xs with
  | nil => rfl
  | cons x xs ih =>
    have hfirst : (x :: xs)[0]? = some x := rfl
    rw [List.length_cons, List.range_succ_eq_map, List.filterMap_cons, hfirst, List.filterMap_map]
    exact congrArg (x :: ·) ih

theorem Moves.perm (h : Moves place xs ys) : xs.Perm ys := by
  have hplaces : ((List.range xs.length).map place).Perm (List.range ys.length) := by
    refine (List.perm_ext_iff_of_nodup ?_ List.nodup_range).2 fun k ↦ ?_
    · exact List.nodup_range.map place.injective
    · have hlt : k < ys.length ↔ place.symm k < xs.length := by
        rw [← not_le, ← not_le, ← List.getElem?_eq_none_iff, ← List.getElem?_eq_none_iff, h.symm]
      rw [List.mem_range, hlt, List.mem_map]
      constructor
      · rintro ⟨j, hj, rfl⟩
        rwa [place.symm_apply_apply, ← List.mem_range]
      · intro hk
        exact ⟨_, List.mem_range.2 hk, place.apply_symm_apply k⟩
  have hxs : ((List.range xs.length).map place).filterMap (ys[·]?) = xs := by
    rw [List.filterMap_map]
    exact (List.filterMap_congr fun k _ ↦ h k).trans (filterMap_range_getElem? xs)
  rw [← hxs]
  exact (hplaces.filterMap _).trans (.of_eq (filterMap_range_getElem? ys))

def shifted (place : Equiv.Perm ℕ) : Equiv.Perm ℕ where
  toFun
    | 0 => 0
    | k + 1 => place k + 1
  invFun
    | 0 => 0
    | k + 1 => place.symm k + 1
  left_inv k := by cases k <;> simp
  right_inv k := by cases k <;> simp

theorem moves_swap (x y : α) (xs : List α) : Moves (Equiv.swap 0 1) (x :: y :: xs) (y :: x :: xs)
  | 0 => rfl
  | 1 => rfl
  | k + 2 => by
    rw [Equiv.swap_apply_of_ne_of_ne (by omega) (by omega)]
    rfl

theorem exists_moves (h : xs.Perm ys) : ∃ place, Moves place xs ys := by
  induction h with
  | nil => exact ⟨.refl ℕ, fun _ ↦ rfl⟩
  | cons x _ ih =>
    obtain ⟨place, hplace⟩ := ih
    refine ⟨shifted place, fun k ↦ ?_⟩
    cases k with
    | zero => rfl
    | succ k => exact hplace k
  | swap x y xs => exact ⟨_, moves_swap y x xs⟩
  | trans _ _ ih ih' =>
    obtain ⟨place, hplace⟩ := ih
    obtain ⟨place', hplace'⟩ := ih'
    exact ⟨place.trans place', fun k ↦ (hplace' _).trans (hplace k)⟩

end

section

variable {shapes shapes' : Shapes} (h : ∀ name, shapes'.lookup name = shapes.lookup name)

include h

theorem collected_congr (d : Descriptor) : d.collected shapes' = d.collected shapes := by
  induction d with
  | interface ms es _ ih =>
    rw [Descriptor.collected, Descriptor.collected, allCollected_eq_flatMap,
      allCollected_eq_flatMap, List.flatMap_congr ih]
  | named name args _ =>
    cases args with
    | nil => rw [Descriptor.collected, Descriptor.collected, h]
    | cons a as => rfl
  | _ => rfl

theorem unexpanded_congr (d : Descriptor) : d.unexpanded shapes' = d.unexpanded shapes := by
  induction d with
  | interface ms es _ ih =>
    rw [Descriptor.unexpanded, Descriptor.unexpanded, allUnexpanded_eq_flatMap,
      allUnexpanded_eq_flatMap, List.flatMap_congr ih]
  | named name args _ =>
    cases args with
    | nil => rw [Descriptor.unexpanded, Descriptor.unexpanded, h]
    | cons a as => rfl
  | _ => rfl

theorem unify_congr (n : Nat) : unify shapes' n = unify shapes n := by
  have hset : MethodSet.ofElements shapes' = MethodSet.ofElements shapes := by
    funext ms es
    rw [MethodSet.ofElements_eq, MethodSet.ofElements_eq, collected_congr h, unexpanded_congr h]
  induction n with
  | zero => rfl
  | succ n ih =>
    funext r a
    rw [unify, unify, ih]
    unfold unifyLevel
    rw [hset]

theorem satisfy_congr (policy : ReceiverPolicy) (cs : List Candidate) (b : Bindings)
    (ss : List Signature) : satisfy shapes' policy cs b ss = satisfy shapes policy cs b ss := by
  induction ss generalizing b with
  | nil => rfl
  | cons s ss ih => simp only [satisfy_cons, unify_congr h, ih]

end

namespace Program

/-- Where the declarations of the first program stand in the second one. -/
structure Rearrangement (p p' : Program) where
  interface : Equiv.Perm InterfaceId
  type : Equiv.Perm TypeId
  method : Equiv.Perm MethodId
  interfaces : Moves interface p.interfaces p'.interfaces
  types : Moves type p.types p'.types
  methods : Moves method p.methods p'.methods
  externals : ∀ name, name ∈ p'.externals ↔ name ∈ p.externals

variable {p p' : Program}

theorem nonempty_rearrangement_iff : Nonempty (p.Rearrangement p') ↔
    p.interfaces.Perm p'.interfaces ∧ p.types.Perm p'.types ∧ p.methods.Perm p'.methods ∧
      ∀ name, name ∈ p'.externals ↔ name ∈ p.externals := by
  constructor
  · rintro ⟨r⟩
    exact ⟨r.interfaces.perm, r.types.perm, r.methods.perm, r.externals⟩
  · rintro ⟨hi, ht, hm, hx⟩
    obtain ⟨interface, hi⟩ := exists_moves hi
    obtain ⟨type, ht⟩ := exists_moves ht
    obtain ⟨method, hm⟩ := exists_moves hm
    exact ⟨⟨interface, type, method, hi, ht, hm, hx⟩⟩

theorem nonempty_rearrangement_merge (p q : Program) :
    Nonempty ((p.merge q).Rearrangement (q.merge p)) := by
  refine nonempty_rearrangement_iff.2 ⟨List.perm_append_comm, List.perm_append_comm,
    List.perm_append_comm, fun name ↦ ?_⟩
  rw [merge, merge, mem_addExternals, mem_addExternals, or_comm]

namespace Rearrangement

def symm (r : p.Rearrangement p') : p'.Rearrangement p where
  interface := r.interface.symm
  type := r.type.symm
  method := r.method.symm
  interfaces := r.interfaces.symm
  types := r.types.symm
  methods := r.methods.symm
  externals name := (r.externals name).symm

def edge (r : p.Rearrangement p') (e : Edge) : Edge where
  interface := r.interface e.interface
  type := r.type e.type
  needsPointer := e.needsPointer
  links := e.links.map (.renumber r.method)

variable (r : p.Rearrangement p')

theorem edge_symm_edge (e : Edge) : r.edge (r.symm.edge e) = e := by
  have hlink : Link.renumber r.method ∘ Link.renumber r.method.symm = id := by
    funext l
    simp [Link.renumber]
  simp [edge, symm, hlink]

include r

theorem declaredNames_perm : p.declaredNames.Perm p'.declaredNames :=
  (r.interfaces.perm.filterMap _).append (r.types.perm.map _)

theorem knows_iff {name : String} : p'.Knows name ↔ p.Knows name := by
  rw [Knows, Knows, r.declaredNames_perm.mem_iff, r.externals]

theorem namesEmbedded {i j : InterfaceId} (h : p.NamesEmbedded i j) :
    p'.NamesEmbedded (r.interface i) (r.interface j) := by
  obtain ⟨d, e, name, hd, he, hname, hmem⟩ := h
  exact ⟨d, e, name, (r.interfaces i).trans hd, (r.interfaces j).trans he, hname, hmem⟩

theorem valid (hp : p.Valid) : p'.Valid where
  declaredNames := r.declaredNames_perm.nodup hp.declaredNames
  receivers m hm := by
    obtain ⟨t, ht, hname⟩ := hp.receivers m (r.methods.mem_iff.1 hm)
    exact ⟨t, r.types.mem_iff.2 ht, hname⟩
  methods := by
    refine r.methods.perm.pairwise hp.methods fun hmn hr hname ↦ ?_
    exact hmn hr.symm hname.symm
  interfaceTypes d hd s hs name args hx :=
    (hp.interfaceTypes d (r.interfaces.mem_iff.1 hd) s hs name args hx).imp_right r.knows_iff.2
  methodTypes m hm name args hx :=
    r.knows_iff.2 (hp.methodTypes m (r.methods.mem_iff.1 hm) name args hx)
  embeds d hd name hname := by
    obtain ⟨e, he, hen⟩ := hp.embeds d (r.interfaces.mem_iff.1 hd) name hname
    exact ⟨e, r.interfaces.mem_iff.2 he, hen⟩
  acyclic i hi := hp.acyclic _ (hi.lift r.symm.interface fun _ _ ↦ r.symm.namesEmbedded)
  declaredOnce d hd := hp.declaredOnce d (r.interfaces.mem_iff.1 hd)
  agree i j k d e hij hik hd he := by
    have hlift {i j : InterfaceId} (hij : ReflTransGen p'.NamesEmbedded i j) :
        ReflTransGen p.NamesEmbedded (r.symm.interface i) (r.symm.interface j) :=
      hij.lift r.symm.interface fun _ _ ↦ r.symm.namesEmbedded
    exact hp.agree _ _ _ d e (hlift hij) (hlift hik) ((r.symm.interfaces j).trans hd)
      ((r.symm.interfaces k).trans he)

theorem reaches (hp : p.Valid) {i j : InterfaceId} (h : Reaches p.resolvedInterfaces i j) :
    Reaches p'.resolvedInterfaces (r.interface i) (r.interface j) := by
  rw [Reaches, embeds_eq hp.declaredNames] at h
  rw [Reaches, embeds_eq (r.valid hp).declaredNames]
  exact h.lift r.interface fun _ _ ↦ r.namesEmbedded

theorem requires (hp : p.Valid) {i : InterfaceId} {s : Signature}
    (h : Requires p.resolvedInterfaces i s) :
    Requires p'.resolvedInterfaces (r.interface i) s := by
  obtain ⟨j, hij, hs⟩ := h
  obtain ⟨d, hd, hs⟩ := declares_iff.1 hs
  exact ⟨r.interface j, r.reaches hp hij, declares_iff.2 ⟨d, (r.interfaces j).trans hd, hs⟩⟩

/-- A required set goes by what is reached, so it is the same at the new place. -/
theorem requiredSet (hp : p.Valid) {i : InterfaceId} {required : List Signature}
    (h : p.requiredSets[i]? = some (some required)) :
    p'.requiredSets[r.interface i]? = some (some required) := by
  have hi : r.interface i < p'.interfaces.length := by
    rw [← not_le, ← List.getElem?_eq_none_iff, r.interfaces, List.getElem?_eq_none_iff, not_le]
    exact lt_length_of_requiredSets h
  have hset : IsRequiredSet p.resolvedInterfaces i required := hp.isRequiredSet h
  obtain ⟨ns, hns, hset'⟩ := (r.valid hp).exists_requiredSet hi
  have he : ns = required := by
    refine hset'.sorted.ext hset.sorted fun s ↦ ?_
    rw [hset.mem_iff, hset'.mem_iff]
    constructor
    · intro hs
      have hs := r.symm.requires (r.valid hp) hs
      rwa [symm, Equiv.symm_apply_apply] at hs
    · exact r.requires hp
  rw [hns, he]

theorem shapes_subset (hp : p.Valid) {name : String} {ms : List Signature}
    (h : (name, ms) ∈ p.shapes) : (name, ms) ∈ p'.shapes := by
  obtain ⟨i, d, hd, hname, hparams, hi⟩ := mem_shapes.1 h
  exact mem_shapes.2
    ⟨r.interface i, d, (r.interfaces i).trans hd, hname, hparams, r.requiredSet hp hi⟩

theorem lookup_shapes (hp : p.Valid) (name : String) :
    p'.shapes.lookup name = p.shapes.lookup name := by
  ext ms
  rw [lookup_shapes_iff hp, lookup_shapes_iff (r.valid hp)]
  exact ⟨r.symm.shapes_subset (r.valid hp), r.shapes_subset hp⟩

theorem mem_candidates (hp : p.Valid) {t : TypeId} {T : TypeDecl} (hT : p.types[t]? = some T)
    {cs cs' : List Candidate} (hcs : p.candidates[t]? = some cs)
    (hcs' : p'.candidates[r.type t]? = some cs') {c : Candidate} (hc : c ∈ cs) :
    c.renumber r.method ∈ cs' := by
  have hT' : p'.types[r.type t]? = some T := (r.types t).trans hT
  obtain ⟨id, m, hm, hreceiver, rfl⟩ := (Program.mem_candidates hp hT hcs).1 hc
  exact (Program.mem_candidates (r.valid hp) hT' hcs').2
    ⟨r.method id, m, (r.methods id).trans hm, hreceiver, rfl⟩

theorem candidateNamed? (hp : p.Valid) {t : TypeId} {T : TypeDecl} (hT : p.types[t]? = some T)
    {cs cs' : List Candidate} (hcs : p.candidates[t]? = some cs)
    (hcs' : p'.candidates[r.type t]? = some cs') (name : String) :
    candidateNamed? cs' name = (candidateNamed? cs name).map (.renumber r.method) := by
  have hT' : p'.types[r.type t]? = some T := (r.types t).trans hT
  ext c'
  rw [candidateNamed?_eq_some_iff (candidates_distinct (r.valid hp) hT' hcs'),
    Option.map_eq_some_iff]
  simp only [candidateNamed?_eq_some_iff (candidates_distinct hp hT hcs)]
  constructor
  · rintro ⟨hc', rfl⟩
    have hback : p.candidates[r.symm.type (r.type t)]? = some cs := by
      rwa [symm, Equiv.symm_apply_apply]
    have hc := r.symm.mem_candidates (r.valid hp) hT' hcs' hback hc'
    refine ⟨_, ⟨hc, rfl⟩, ?_⟩
    rw [Candidate.renumber, Candidate.renumber, symm, Equiv.apply_symm_apply]
  · rintro ⟨c, ⟨hc, rfl⟩, rfl⟩
    exact ⟨r.mem_candidates hp hT hcs hcs' hc, rfl⟩

theorem edge_mem (hp : p.Valid) {policy : ReceiverPolicy} {es es' : EdgeSet}
    (hes : p.edges policy = .ok es) (hes' : p'.edges policy = .ok es') {e : Edge}
    (he : e ∈ es.edges) : r.edge e ∈ es'.edges := by
  obtain ⟨required, cs, hrequired, hcs, hfound⟩ := (mem_edges_iff hes).1 he
  obtain ⟨T, hT⟩ := exists_type_of_candidates hcs
  have hcs' := getElem?_candidates ((r.types e.type).trans hT)
  refine (mem_edges_iff hes').2 ⟨required, _, r.requiredSet hp hrequired, hcs', ?_⟩
  rw [satisfy_congr (r.lookup_shapes hp), satisfy_renumber (r.candidateNamed? hp hT hcs hcs'),
    hfound]
  rfl

end Rearrangement

/-- Declarations in another order are still valid, and have the same edges at their new places. -/
theorem edges_of_rearrangement (hp : p.problems = []) (r : p.Rearrangement p') :
    p'.problems = [] ∧ ∀ policy, ∃ es es', p.edges policy = .ok es ∧ p'.edges policy = .ok es' ∧
      ∀ e', e' ∈ es'.edges ↔ ∃ e ∈ es.edges, r.edge e = e' := by
  have hvalid : p.Valid := problems_eq_nil_iff.1 hp
  have hp' : p'.problems = [] := problems_eq_nil_iff.2 (r.valid hvalid)
  refine ⟨hp', fun policy ↦ ?_⟩
  have hes := edges_eq_edgeSet policy hp
  have hes' := edges_eq_edgeSet policy hp'
  refine ⟨_, _, hes, hes', fun e' ↦ ⟨fun he' ↦ ?_, ?_⟩⟩
  · exact ⟨_, r.symm.edge_mem (r.valid hvalid) hes' hes he', r.edge_symm_edge e'⟩
  · rintro ⟨e, he, rfl⟩
    exact r.edge_mem hvalid hes hes' he

def reading : Program where
  interfaces := [⟨some "Reader", [], [⟨"Read", [], [], false⟩], [], none, []⟩]
  methods := [⟨"File", .value, ⟨"Read", [], [], false⟩, none⟩]

def closing : Program where
  interfaces := [⟨some "ReadCloser", [], [⟨"Close", [], [], false⟩], ["Reader"], none, []⟩]
  types := [⟨"File", none⟩]
  methods := [⟨"File", .pointer, ⟨"Close", [], [], false⟩, none⟩]

def readingAfterClosing : (reading.merge closing).Rearrangement (closing.merge reading) where
  interface := Equiv.swap 0 1
  type := .refl _
  method := Equiv.swap 0 1
  interfaces := moves_swap _ _ []
  types _ := rfl
  methods := moves_swap _ _ []
  externals _ := .rfl

/-- The file is a reader that can be closed, whichever of the two is read first. -/
theorem edges_of_rearrangement_reading : (reading.merge closing).problems = [] ∧
    ∃ es es', (reading.merge closing).edges .union = .ok es ∧
      (closing.merge reading).edges .union = .ok es' ∧
      ⟨1, 0, true, [⟨"Close", 1⟩, ⟨"Read", 0⟩]⟩ ∈ es.edges ∧
      ⟨0, 0, true, [⟨"Close", 0⟩, ⟨"Read", 1⟩]⟩ ∈ es'.edges := by
  have hproblems : (reading.merge closing).problems = [] := by decide
  obtain ⟨-, hmain⟩ := edges_of_rearrangement hproblems readingAfterClosing
  obtain ⟨es, es', hes, hes', hedges⟩ := hmain .union
  have hedge : (⟨1, 0, true, [⟨"Close", 1⟩, ⟨"Read", 0⟩]⟩ : Edge) ∈ es.edges :=
    (mem_edges_iff hes).2 ⟨_, _, rfl, rfl, by decide +kernel⟩
  exact ⟨hproblems, es, es', hes, hes', hedge, (hedges _).2 ⟨_, hedge, rfl⟩⟩

end Program

end Conformance

import Conformance.Proofs.Program.WellFormed
import Mathlib.Data.Finset.Card

namespace Conformance

open Relation

theorem lookup_filterMap_map {β : Type} (f : String → Option β) {ss : List Signature} {m : String}
    (hm : m ∈ ss.map (·.name)) :
    (ss.filterMap fun s ↦ (f s.name).map fun b ↦ (s.name, b)).lookup m = f m := by
  have hmem {x : String × β} (hx : x ∈ ss.filterMap fun s ↦ (f s.name).map fun b ↦ (s.name, b)) :
      f x.1 = some x.2 := by
    obtain ⟨s, -, hs⟩ := List.mem_filterMap.1 hx
    obtain ⟨b, hb, rfl⟩ := Option.map_eq_some_iff.1 hs
    exact hb
  cases hfound : f m with
  | none =>
    refine List.lookup_eq_none_iff.2 fun x hx ↦ ?_
    have hne : m ≠ x.1 := by
      rintro rfl
      cases hfound.symm.trans (hmem hx)
    simpa using hne
  | some b =>
    obtain ⟨s, hs, rfl⟩ := List.mem_map.1 hm
    have hpair : (s.name, b) ∈ ss.filterMap fun s ↦ (f s.name).map fun b ↦ (s.name, b) :=
      List.mem_filterMap.2 ⟨s, hs, by rw [hfound, Option.map_some]⟩
    obtain ⟨c, hc⟩ := Option.isSome_iff_exists.1
      (List.lookup_isSome_iff.2 ⟨_, hpair, beq_self_eq_true _⟩)
    obtain ⟨l, r, he, -⟩ := List.lookup_eq_some_iff.1 hc
    have hfound' : f s.name = some c := hmem (he ▸ List.mem_append_right _ List.mem_cons_self)
    rw [hc, ← hfound', hfound]

def InterfaceDecl.DeclaresName (d : InterfaceDecl) (m : String) : Prop := ∃ s ∈ d.methods, s.name = m

theorem InterfaceDecl.declaresName_iff {d : InterfaceDecl} {m : String} :
    d.DeclaresName m ↔ d.methods.any (·.name == m) := by
  simp [DeclaresName]

namespace Program

section

variable (p : Program) (m : String)

def EmbedsAt (i : InterfaceId) (k : Nat) (j : InterfaceId) : Prop :=
  ∃ d e name, p.interfaces[i]? = some d ∧ d.embeds[k]? = some name ∧ p.interfaces[j]? = some e ∧
    e.name = some name

/-- The search from an interface ends with this outcome, however deep it goes. -/
inductive Searches : InterfaceId → Option Location → Prop
  | own {i d} (hd : p.interfaces[i]? = some d) (hm : d.DeclaresName m) :
    Searches i (d.methodLocation? m)
  | found {i d before j after l} (hd : p.interfaces[i]? = some d) (hm : ¬ d.DeclaresName m)
    (hembeds : (d.resolve p.names).embeds = before ++ j :: after)
    (hbefore : ∀ j' ∈ before, Searches j' none) (hj : Searches j (some l)) : Searches i (some l)
  | missed {i d} (hd : p.interfaces[i]? = some d) (hm : ¬ d.DeclaresName m)
    (hembeds : ∀ j ∈ (d.resolve p.names).embeds, Searches j none) : Searches i none

/-- The embeddings at these places lead to an interface that declares the method and has this
position for it. No interface on the way there declares the method. -/
inductive LocatedBy : InterfaceId → List Nat → Location → Prop
  | here {i d l} (hd : p.interfaces[i]? = some d) (hm : d.DeclaresName m)
    (hl : d.methodLocation? m = some l) : LocatedBy i [] l
  | there {i d k j path l} (hd : p.interfaces[i]? = some d) (hm : ¬ d.DeclaresName m)
    (hk : p.EmbedsAt i k j) (hj : LocatedBy j path l) : LocatedBy i (k :: path) l

/-- The position that the first path to a position leads to. -/
def FirstLocated (i : InterfaceId) (l : Location) : Prop :=
  ∃ path, p.LocatedBy m i path l ∧
    ∀ path' l', p.LocatedBy m i path' l' → path' = path ∨ List.Lex (· < ·) path path'

def IsFirst (i : InterfaceId) : Option Location → Prop
  | some l => p.FirstLocated m i l
  | none => ∀ path l, ¬ p.LocatedBy m i path l

open Classical in
noncomputable def below (i : InterfaceId) : Finset InterfaceId :=
  {j ∈ Finset.range p.interfaces.length | TransGen p.NamesEmbedded i j}

end

variable {p : Program} {policy : ReceiverPolicy} {m : String} {i j : InterfaceId}
  {d : InterfaceDecl} {o : Option Location} {l : Location}

theorem mem_below : j ∈ p.below i ↔ j < p.interfaces.length ∧ TransGen p.NamesEmbedded i j := by
  simp only [below, Finset.mem_filter, Finset.mem_range]

theorem card_below_lt (hp : p.Valid) (hij : p.NamesEmbedded i j) :
    (p.below j).card < (p.below i).card := by
  have hsub : p.below j ⊆ p.below i := fun k hk ↦
    mem_below.2 ⟨(mem_below.1 hk).1, .head hij (mem_below.1 hk).2⟩
  have hj : j < p.interfaces.length := by
    obtain ⟨_, e, _, _, he, -⟩ := hij
    exact (List.getElem?_eq_some_iff.1 he).1
  apply Finset.card_lt_card
  rw [Finset.ssubset_iff_of_subset hsub]
  exact ⟨j, mem_below.2 ⟨hj, .single hij⟩, fun hjj ↦ hp.acyclic j (mem_below.1 hjj).2⟩

theorem card_below_lt_length (hp : p.Valid) (hi : i < p.interfaces.length) :
    (p.below i).card < p.interfaces.length := by
  have hsub : p.below i ⊆ Finset.range p.interfaces.length := fun k hk ↦
    Finset.mem_range.2 (mem_below.1 hk).1
  have hssub : p.below i ⊂ Finset.range p.interfaces.length := by
    rw [Finset.ssubset_iff_of_subset hsub]
    exact ⟨i, Finset.mem_range.2 hi, fun hii ↦ hp.acyclic i (mem_below.1 hii).2⟩
  simpa using Finset.card_lt_card hssub

theorem searches_iff_of_declares (hd : p.interfaces[i]? = some d) (hm : d.DeclaresName m) :
    p.Searches m i o ↔ d.methodLocation? m = o := by
  constructor
  · intro h
    cases h with
    | own hd' => rw [Option.some.inj (hd.symm.trans hd')]
    | found hd' hm' | missed hd' hm' =>
      obtain rfl := Option.some.inj (hd.symm.trans hd')
      exact absurd hm hm'
  · rintro rfl
    exact .own hd hm

theorem searches_none_iff (hd : p.interfaces[i]? = some d) (hm : ¬ d.DeclaresName m) :
    p.Searches m i none ↔ ∀ j ∈ (d.resolve p.names).embeds, p.Searches m j none := by
  constructor
  · intro h
    generalize ho : (none : Option Location) = o at h
    cases h with
    | own hd' hm' =>
      obtain rfl := Option.some.inj (hd.symm.trans hd')
      exact absurd hm' hm
    | found => cases ho
    | missed hd' _ hembeds =>
      obtain rfl := Option.some.inj (hd.symm.trans hd')
      exact hembeds
  · exact .missed hd hm

theorem searches_some_iff (hd : p.interfaces[i]? = some d) (hm : ¬ d.DeclaresName m) :
    p.Searches m i (some l) ↔ ∃ before j after,
      (d.resolve p.names).embeds = before ++ j :: after ∧ p.Searches m j (some l) ∧
        ∀ j' ∈ before, p.Searches m j' none := by
  constructor
  · intro h
    generalize ho : some l = o at h
    cases h with
    | own hd' hm' =>
      obtain rfl := Option.some.inj (hd.symm.trans hd')
      exact absurd hm' hm
    | found hd' _ hembeds hbefore hj =>
      obtain rfl := Option.some.inj (hd.symm.trans hd')
      cases ho
      exact ⟨_, _, _, hembeds, hj, hbefore⟩
    | missed => cases ho
  · intro h
    obtain ⟨before, j, after, hembeds, hj, hbefore⟩ := h
    exact .found hd hm hembeds hbefore hj

theorem declaredLocation?_of_declares (hd : p.interfaces[i]? = some d) (hm : d.DeclaresName m)
    (depth : Nat) :
    p.declaredLocation? p.resolvedInterfaces m (depth + 1) i = d.methodLocation? m := by
  rw [declaredLocation?, hd, getElem?_resolvedInterfaces.2 ⟨d, hd, rfl⟩]
  exact if_pos (InterfaceDecl.declaresName_iff.1 hm)

theorem declaredLocation?_of_not_declares (hd : p.interfaces[i]? = some d)
    (hm : ¬ d.DeclaresName m) (depth : Nat) :
    p.declaredLocation? p.resolvedInterfaces m (depth + 1) i =
      (d.resolve p.names).embeds.findSome?
        (p.declaredLocation? p.resolvedInterfaces m depth) := by
  rw [declaredLocation?, hd, getElem?_resolvedInterfaces.2 ⟨d, hd, rfl⟩]
  exact if_neg fun h ↦ hm (InterfaceDecl.declaresName_iff.2 h)

/-- A depth above the number of interfaces further down does not cut off the search. -/
theorem searches_iff (hp : p.Valid) {depth : Nat} (hdepth : (p.below i).card < depth)
    (hi : i < p.interfaces.length) :
    p.Searches m i o ↔ p.declaredLocation? p.resolvedInterfaces m depth i = o := by
  induction depth generalizing i o with
  | zero => exact absurd hdepth (Nat.not_lt_zero _)
  | succ depth ih =>
    obtain ⟨d, hd⟩ : ∃ d, p.interfaces[i]? = some d := ⟨_, List.getElem?_eq_getElem hi⟩
    by_cases hm : d.DeclaresName m
    · rw [searches_iff_of_declares hd hm, declaredLocation?_of_declares hd hm]
    have hinner : ∀ j ∈ (d.resolve p.names).embeds, ∀ o, p.Searches m j o ↔
        p.declaredLocation? p.resolvedInterfaces m depth j = o := by
      intro j hj o
      have hij : p.NamesEmbedded i j := (embeds_iff hp.declaredNames).1
        ⟨_, getElem?_resolvedInterfaces.2 ⟨d, hd, rfl⟩, hj⟩
      have hcard := card_below_lt hp hij
      have hj' : j < p.interfaces.length := by
        have hlength : p.resolvedInterfaces.length = p.interfaces.length := List.length_map _
        exact hlength ▸ p.embedsInRange _ (List.mem_map_of_mem (List.mem_of_getElem? hd)) j hj
      exact ih (by omega) hj'
    rw [declaredLocation?_of_not_declares hd hm]
    cases o with
    | none =>
      rw [searches_none_iff hd hm, List.findSome?_eq_none_iff]
      exact forall₂_congr fun j hj ↦ hinner j hj none
    | some l =>
      rw [searches_some_iff hd hm, List.findSome?_eq_some_iff]
      refine exists₃_congr fun before j after ↦ and_congr_right fun hembeds ↦ ?_
      rw [hembeds, List.forall_mem_append, List.forall_mem_cons] at hinner
      exact and_congr (hinner.2.1 (some l)) (forall₂_congr fun j' hj' ↦ hinner.1 j' hj' none)

theorem locatedBy_iff_of_declares (hd : p.interfaces[i]? = some d) (hm : d.DeclaresName m)
    {path : List Nat} : p.LocatedBy m i path l ↔ path = [] ∧ d.methodLocation? m = some l := by
  constructor
  · intro h
    cases h with
    | here hd' _ hl =>
      obtain rfl := Option.some.inj (hd.symm.trans hd')
      exact ⟨rfl, hl⟩
    | there hd' hm' =>
      obtain rfl := Option.some.inj (hd.symm.trans hd')
      exact absurd hm hm'
  · intro h
    obtain ⟨rfl, hl⟩ := h
    exact .here hd hm hl

theorem locatedBy_iff_of_not_declares (hd : p.interfaces[i]? = some d) (hm : ¬ d.DeclaresName m)
    {path : List Nat} : p.LocatedBy m i path l ↔
      ∃ k j rest, path = k :: rest ∧ p.EmbedsAt i k j ∧ p.LocatedBy m j rest l := by
  constructor
  · intro h
    cases h with
    | here hd' hm' =>
      obtain rfl := Option.some.inj (hd.symm.trans hd')
      exact absurd hm' hm
    | there _ _ hk hj => exact ⟨_, _, _, rfl, hk, hj⟩
  · intro h
    obtain ⟨k, j, rest, rfl, hk, hj⟩ := h
    exact .there hd hm hk hj

/-- Every embedded name is that of an interface, so no place is skipped. -/
theorem getElem?_embeds_iff (hp : p.Valid) (hd : p.interfaces[i]? = some d) {k : Nat} :
    (d.resolve p.names).embeds[k]? = some j ↔ p.EmbedsAt i k j := by
  have hsome : ∀ name ∈ d.embeds, (p.names.interface? name).isSome := by
    intro name hname
    rw [Option.isSome_iff_exists, exists_interface?_iff]
    exact hp.embeds d (List.mem_of_getElem? hd) name hname
  rw [InterfaceDecl.resolve, getElem?_filterMap_of_isSome hsome, Option.bind_eq_some_iff]
  simp only [interface?_iff hp.declaredNames]
  constructor
  · intro h
    obtain ⟨name, hname, e, he, hen⟩ := h
    exact ⟨d, e, name, hd, hname, he, hen⟩
  · intro h
    obtain ⟨d', e, name, hd', hname, he, hen⟩ := h
    obtain rfl := Option.some.inj (hd.symm.trans hd')
    exact ⟨name, hname, e, he, hen⟩

theorem Searches.isFirst (hp : p.Valid) (h : p.Searches m i o) : p.IsFirst m i o := by
  induction h with
  | @own i d hd hm =>
    cases hl : d.methodLocation? m with
    | none =>
      intro path l hpath
      cases hl.symm.trans ((locatedBy_iff_of_declares hd hm).1 hpath).2
    | some l =>
      exact ⟨[], .here hd hm hl, fun path' l' hpath' ↦
        .inl ((locatedBy_iff_of_declares hd hm).1 hpath').1⟩
  | @found i d before j after l hd hm hembeds _ _ ihbefore ihj =>
    obtain ⟨path, hpath, hfirst⟩ := ihj
    have hplace : (before ++ j :: after)[before.length]? = some j := by simp
    have hk : p.EmbedsAt i before.length j :=
      (getElem?_embeds_iff hp hd).1 (by rw [hembeds, hplace])
    refine ⟨before.length :: path, .there hd hm hk hpath, fun path' l' hpath' ↦ ?_⟩
    obtain ⟨k, j', rest, rfl, hk', hrest⟩ := (locatedBy_iff_of_not_declares hd hm).1 hpath'
    rw [← getElem?_embeds_iff hp hd, hembeds] at hk'
    rcases Nat.lt_trichotomy k before.length with hlt | rfl | hgt
    · rw [List.getElem?_append_left hlt] at hk'
      exact absurd hrest (ihbefore j' (List.mem_of_getElem? hk') rest l')
    · obtain rfl := Option.some.inj (hplace.symm.trans hk')
      rcases hfirst rest l' hrest with rfl | hlex
      · exact .inl rfl
      · exact .inr (.cons hlex)
    · exact .inr (.rel hgt)
  | @missed i d hd hm _ ih =>
    intro path l hpath
    obtain ⟨k, j, rest, rfl, hk, hrest⟩ := (locatedBy_iff_of_not_declares hd hm).1 hpath
    exact ih j (List.mem_of_getElem? ((getElem?_embeds_iff hp hd).2 hk)) rest l hrest

theorem lookup_methodLocations {I : InterfaceNode} (hI : p.interfaceNodes[i]? = some I)
    (hm : m ∈ I.required.map (·.name)) : I.methodLocations.lookup m =
      p.declaredLocation? p.resolvedInterfaces m p.interfaces.length i := by
  rw [interfaceNodes, List.getElem?_map, List.getElem?_zipIdx, Nat.zero_add, Option.map_map,
    Option.map_eq_some_iff] at hI
  obtain ⟨⟨d, required⟩, -, rfl⟩ := hI
  exact lookup_filterMap_map (p.declaredLocation? p.resolvedInterfaces · p.interfaces.length i) hm

/-- The position of a required method is what the search ends with: the position on the interface
itself if it declares the method, and the first one that embeddings lead to otherwise. -/
theorem declared_locations {es : EdgeSet} (h : p.edges policy = .ok es) {I : InterfaceNode}
    (hI : es.interfaces[i]? = some I) (hm : m ∈ I.required.map (·.name)) :
    (∀ o, p.Searches m i o ↔ I.methodLocations.lookup m = o) ∧
      ((I.methodLocations.lookup m).isSome ↔ ∃ path l, p.LocatedBy m i path l) ∧
      (∀ l, I.methodLocations.lookup m = some l → p.FirstLocated m i l) ∧
      ∀ d, p.interfaces[i]? = some d → d.DeclaresName m →
        I.methodLocations.lookup m = d.methodLocation? m := by
  obtain ⟨hproblems, rfl⟩ := edges_eq_ok_iff.1 h
  have hp : p.Valid := problems_eq_nil_iff.1 hproblems
  have hi : i < p.interfaces.length :=
    p.length_interfaceNodes ▸ (List.getElem?_eq_some_iff.1 hI).1
  have hsearch (o : Option Location) : p.Searches m i o ↔ I.methodLocations.lookup m = o := by
    rw [lookup_methodLocations hI hm]
    exact searches_iff hp (card_below_lt_length hp hi) hi
  have hfirst := ((hsearch _).2 rfl).isFirst hp
  refine ⟨hsearch, ?_, fun l hl ↦ ?_, fun d hd hdeclares ↦ ?_⟩
  · cases hl : I.methodLocations.lookup m with
    | none =>
      rw [hl] at hfirst
      refine iff_of_false nofun ?_
      rintro ⟨path, l, hpath⟩
      exact hfirst path l hpath
    | some l =>
      rw [hl] at hfirst
      obtain ⟨path, hpath, -⟩ := hfirst
      exact iff_of_true rfl ⟨path, l, hpath⟩
  · rwa [hl] at hfirst
  · exact ((searches_iff_of_declares hd hdeclares).1 ((hsearch _).2 rfl)).symm

def diamond : Program where
  interfaces :=
    [⟨some "Closer", [], [⟨"Close", [], [], false⟩], [], none, []⟩,
      ⟨some "Left", [], [], ["Closer"], none, []⟩,
      ⟨some "Right", [], [⟨"Close", [], [], false⟩], ["Closer"], none, [("Close", ⟨"io.go", 7⟩)]⟩,
      ⟨some "Both", [], [], ["Left", "Right"], none, []⟩]

theorem exists_node_diamond {i : InterfaceId} {o : Option Location}
    (h : (diamond.interfaceNodes[i]?).any fun I ↦
      decide ("Close" ∈ I.required.map (·.name)) && I.methodLocations.lookup "Close" == o) :
    ∃ I, (diamond.edgeSet .union).interfaces[i]? = some I ∧ "Close" ∈ I.required.map (·.name) ∧
      I.methodLocations.lookup "Close" = o := by
  obtain ⟨I, hI, h⟩ := (Option.any_eq_true _ _).1 h
  rw [Bool.and_eq_true, decide_eq_true_eq, beq_iff_eq] at h
  exact ⟨I, hI, h⟩

/-- The search from the top passes the left side and ends on the right one. -/
theorem declared_locations_diamond : diamond.edges .union = .ok (diamond.edgeSet .union) ∧
    diamond.Searches "Close" 1 none ∧ diamond.FirstLocated "Close" 3 ⟨"io.go", 7⟩ := by
  have hes : diamond.edges .union = .ok (diamond.edgeSet .union) :=
    edges_eq_edgeSet .union (by decide +kernel)
  obtain ⟨left, hleft, hleftmem, hleftnone⟩ :=
    exists_node_diamond (i := 1) (o := none) (by decide +kernel)
  obtain ⟨both, hboth, hbothmem, hbothsome⟩ :=
    exists_node_diamond (i := 3) (o := some ⟨"io.go", 7⟩) (by decide +kernel)
  obtain ⟨hsearches, -⟩ := declared_locations hes hleft hleftmem
  obtain ⟨-, -, hfirst, -⟩ := declared_locations hes hboth hbothmem
  exact ⟨hes, (hsearches none).2 hleftnone, hfirst _ hbothsome⟩

end Program

end Conformance

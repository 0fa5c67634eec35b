import Conformance.Proofs.Flattening.Course
import Mathlib.Data.List.Chain

/-!
Cycles of embeddings. The entered interfaces are a path of the graph, so one that is met again
closes a cycle. An interface is left only after all that it embeds is left or reported, which
carries over to everything it leads to: no component with a cycle is left without a report.
-/

namespace Conformance

open Relation

def Problem.cycle? : Problem → Option (String × List String)
  | .cyclicComposition interface cycle => some (interface, cycle)
  | _ => none

theorem Problem.cycle?_eq_some {p : Problem} {c : String × List String} :
    p.cycle? = some c ↔ p = .cyclicComposition c.1 c.2 := by
  cases p <;> simp [Problem.cycle?, Prod.ext_iff]

section

variable (is : List ResolvedInterface)

def SameComponent (i j : InterfaceId) : Prop := Reaches is i j ∧ Reaches is j i

/-- Each interface embeds the next one, the last one embeds the first, and none stands twice. -/
structure IsCycle (i : InterfaceId) (others : List InterfaceId) : Prop where
  chain : (i :: others ++ [i]).IsChain (Embeds is)
  nodup : (i :: others).Nodup

end

variable {is : List ResolvedInterface} {i j k m : InterfaceId} {others path : List InterfaceId}

theorem SameComponent.trans (h : SameComponent is i j) (h' : SameComponent is j k) :
    SameComponent is i k :=
  ⟨h.1.trans h'.1, h'.2.trans h.2⟩

theorem IsCycle.sameComponent (h : IsCycle is i others) (hm : m ∈ i :: others) :
    SameComponent is i m := by
  have hpairs : (i :: others ++ [i]).Pairwise (Reaches is) :=
    (h.chain.imp fun _ _ ↦ ReflTransGen.single).pairwise
  refine ⟨?_, (List.pairwise_append.1 hpairs).2.2 m hm i (List.mem_singleton_self i)⟩
  rcases List.mem_cons.1 hm with rfl | hm
  · exact .refl
  · exact List.rel_of_pairwise_cons hpairs (List.mem_append_left _ hm)

theorem Embeds.lt_length (h : Embeds is i j) : i < is.length := by
  obtain ⟨r, hr, -⟩ := h
  exact (List.getElem?_eq_some_iff.1 hr).1

theorem Embeds.lt_length_right (hrange : EmbedsInRange is) (h : Embeds is i j) :
    j < is.length := by
  obtain ⟨r, hr, hj⟩ := h
  exact hrange r (List.mem_of_getElem? hr) j hj

theorem IsCycle.lt_length (h : IsCycle is i others) (hm : m ∈ i :: others) : m < is.length := by
  have hnext := List.isChain_cons_append_singleton_iff_forall₂.1 h.chain
  obtain ⟨k, hk, rfl⟩ := List.getElem_of_mem hm
  exact Embeds.lt_length (hnext.get hk (hnext.length_eq ▸ hk))

theorem IsCycle.transGen (h : IsCycle is i others) : TransGen (Embeds is) i i := by
  have hpairs : (i :: others ++ [i]).Pairwise (TransGen (Embeds is)) :=
    (h.chain.imp fun _ _ ↦ TransGen.single).pairwise
  exact List.rel_of_pairwise_cons hpairs (List.mem_append_right _ (List.mem_singleton_self i))

/-- A path whose end leads back to one of its interfaces ends in a cycle. -/
theorem isCycle_of_path (hchain : path.IsChain (Embeds is)) (hnodup : path.Nodup)
    (hlast : ∀ j ∈ path.getLast?, Embeds is j i) (hi : i ∈ path) :
    ∃ others, path.dropWhile (· != i) = i :: others ∧ IsCycle is i others := by
  obtain ⟨before, others, rfl⟩ := List.append_of_mem hi
  have hbefore : ∀ j ∈ before, (j != i) = true := fun j hj ↦
    bne_iff_ne.2 ((List.nodup_append.1 hnodup).2.2 j hj i List.mem_cons_self)
  refine ⟨others, ?_, ?_, (List.nodup_append.1 hnodup).2.1⟩
  · rw [List.dropWhile_append_of_pos hbefore, List.dropWhile_cons_of_neg (by simp)]
  · refine List.isChain_append.2 ⟨(List.isChain_append.1 hchain).2.1, .singleton i, ?_⟩
    intro j hj k hk
    obtain rfl : i = k := by simpa using hk
    refine hlast j ?_
    rw [List.getLast?_append, hj]
    rfl

namespace Flattening

def cycleReport (names : List String) : List InterfaceId → String × List String
  | [] => ("", [])
  | i :: others => (nameOf names i, (i :: others ++ [i]).map (nameOf names))

def Walk.IsDone (w : Walk) (i : InterfaceId) : Prop :=
  ∃ required, w.statuses[i]? = some (.done required)

section

variable (names : List String) (is : List ResolvedInterface)

/-- A cycle in the component of the interface has been reported. -/
def Walk.Reports (w : Walk) (i : InterfaceId) : Prop :=
  ∃ ms ∈ w.reported, ∀ m ∈ ms, SameComponent is i m

/-- The interface is left, or it is still entered and a cycle through it has been reported. -/
def Walk.Settles (w : Walk) (i : InterfaceId) : Prop :=
  w.IsDone i ∨ i ∈ w.path ∧ w.Reports is i

structure Walk.Tracks (w : Walk) : Prop where
  length : w.statuses.length = is.length
  entered : ∀ i, w.statuses[i]? = some .entered ↔ i ∈ w.path
  chain : w.path.IsChain (Embeds is)
  nodup : w.path.Nodup
  cycles : ∀ ms ∈ w.reported, ∃ i others, ms = i :: others ∧ IsCycle is i others
  apart : w.reported.Pairwise fun ms ns ↦ ¬ ∀ m, m ∈ ms ↔ m ∈ ns
  problems : w.problems.filterMap Problem.cycle? = w.reported.map (cycleReport names)
  onward : ∀ i j, w.IsDone i → Embeds is i j → w.Settles is j
  closed : ∀ i, w.IsDone i → TransGen (Embeds is) i i → w.Reports is i

structure Walk.Continues (w w' : Walk) : Prop where
  path : w'.path = w.path
  unvisited : w'.unvisited ≤ w.unvisited
  done : ∀ i, w.IsDone i → w'.IsDone i
  reported : ∀ ms ∈ w.reported, ms ∈ w'.reported

end

variable {names : List String} {w w' v : Walk} {r : ResolvedInterface} {depth : Nat}
  {g : Gathered}

theorem Walk.Continues.refl (w : Walk) : w.Continues w :=
  ⟨rfl, le_rfl, fun _ ↦ id, fun _ ↦ id⟩

theorem Walk.Continues.trans {w₁ w₂ w₃ : Walk} (h : w₁.Continues w₂) (h' : w₂.Continues w₃) :
    w₁.Continues w₃ :=
  ⟨h'.path.trans h.path, h'.unvisited.trans h.unvisited, fun i ↦ h'.done i ∘ h.done i,
    fun ms ↦ h'.reported ms ∘ h.reported ms⟩

theorem Walk.Reports.mono (h : w.Reports is i) (hw : ∀ ms ∈ w.reported, ms ∈ w'.reported) :
    w'.Reports is i := by
  obtain ⟨ms, hms, hm⟩ := h
  exact ⟨ms, hw ms hms, hm⟩

theorem Walk.Reports.of_sameComponent (h : w.Reports is i) (hij : SameComponent is j i) :
    w.Reports is j := by
  obtain ⟨ms, hms, hm⟩ := h
  exact ⟨ms, hms, fun m hmem ↦ hij.trans (hm m hmem)⟩

theorem Walk.Settles.mono (h : w.Settles is i) (hw : w.Continues w') : w'.Settles is i :=
  h.imp (hw.done i) fun h ↦ ⟨hw.path ▸ h.1, h.2.mono hw.reported⟩

theorem Walk.Tracks.not_isDone (hw : w.Tracks names is) (hi : i ∈ w.path) : ¬ w.IsDone i := by
  intro h
  obtain ⟨required, hd⟩ := h
  rw [(hw.entered i).2 hi] at hd
  cases hd

theorem Walk.Blames.tracks (h : w.Blames w') (hw : w.Tracks names is) : w'.Tracks names is := by
  obtain ⟨ds, rfl⟩ := h
  refine ⟨hw.length, hw.entered, hw.chain, hw.nodup, hw.cycles, hw.apart, ?_, hw.onward, hw.closed⟩
  have hnone : (ds.map Problem.duplicateDeclaration).filterMap Problem.cycle? = [] := by
    simp [Problem.cycle?]
  rw [List.filterMap_append, hnone, List.append_nil, hw.problems]

theorem Walk.Blames.continues (h : w.Blames w') : w.Continues w' := by
  obtain ⟨ds, rfl⟩ := h
  exact ⟨rfl, le_rfl, fun _ ↦ id, fun _ ↦ id⟩

theorem sameMembers_iff {xs ys : List InterfaceId} :
    sameMembers xs ys ↔ ∀ m, m ∈ xs ↔ m ∈ ys := by
  simp only [sameMembers, Bool.and_eq_true, List.all_eq_true, List.contains_iff_mem]
  exact ⟨fun h m ↦ ⟨h.1 m, h.2 m⟩, fun h ↦ ⟨fun m ↦ (h m).1, fun m ↦ (h m).2⟩⟩

variable (names) in
/-- An entered interface that is met again closes a cycle, which has been or is now reported. -/
theorem Walk.Tracks.reportCycle (hw : w.Tracks names is) (hi : i ∈ w.path)
    (hlast : ∀ j ∈ w.path.getLast?, Embeds is j i) :
    (w.reportCycle names i).Tracks names is ∧ w.Continues (w.reportCycle names i) ∧
      (w.reportCycle names i).Reports is i := by
  obtain ⟨others, hmembers, hcycle⟩ := isCycle_of_path hw.chain hw.nodup hlast hi
  unfold Walk.reportCycle
  rw [hmembers]
  by_cases hany : w.reported.any (sameMembers (i :: others)) = true
  · obtain ⟨ms, hms, hsame⟩ := List.any_eq_true.1 hany
    rw [if_pos hany]
    refine ⟨hw, .refl w, ms, hms, fun m hm ↦ ?_⟩
    exact hcycle.sameComponent ((sameMembers_iff.1 hsame m).2 hm)
  · rw [if_neg hany]
    have hnew : ∀ ms ∈ w.reported, ¬ ∀ m, m ∈ ms ↔ m ∈ i :: others := fun ms hms hsame ↦
      hany (List.any_eq_true.2 ⟨ms, hms, sameMembers_iff.2 fun m ↦ (hsame m).symm⟩)
    have hkept : ∀ ms ∈ w.reported, ms ∈ w.reported ++ [i :: others] := fun ms hms ↦
      List.mem_append_left _ hms
    have hcontinues : w.Continues { w with
        reported := w.reported ++ [i :: others]
        problems := w.problems ++
          [.cyclicComposition (nameOf names i) ((i :: others ++ [i]).map (nameOf names))] } :=
      ⟨rfl, le_rfl, fun _ ↦ id, hkept⟩
    refine ⟨⟨hw.length, hw.entered, hw.chain, hw.nodup, ?_, ?_, ?_, ?_, ?_⟩, hcontinues,
      i :: others, List.mem_append_right _ (List.mem_singleton_self _),
      fun m ↦ hcycle.sameComponent⟩
    · refine List.forall_mem_append.2 ⟨hw.cycles, fun ms hms ↦ ?_⟩
      exact ⟨i, others, List.mem_singleton.1 hms, hcycle⟩
    · refine List.pairwise_append.2 ⟨hw.apart, List.pairwise_singleton _ _, fun ms hms ns hns ↦ ?_⟩
      exact List.mem_singleton.1 hns ▸ hnew ms hms
    · have hreport : [Problem.cyclicComposition (nameOf names i)
          ((i :: others ++ [i]).map (nameOf names))].filterMap Problem.cycle? =
            [i :: others].map (cycleReport names) := rfl
      rw [List.filterMap_append, hw.problems, hreport, ← List.map_append]
    · exact fun j k hj hjk ↦ (hw.onward j k hj hjk).mono hcontinues
    · exact fun j hj hc ↦ (hw.closed j hj hc).mono hkept

theorem isDone_enter (hs : w.statuses[i]? = some .unvisited) :
    (w.enter i).IsDone j ↔ w.IsDone j := by
  obtain ⟨hi, he⟩ := List.getElem?_eq_some_iff.1 hs
  by_cases hij : i = j
  · subst hij
    simp [Walk.IsDone, Walk.enter, hi, he]
  · simp only [Walk.IsDone, Walk.enter, List.getElem?_set_ne hij]

theorem Walk.Tracks.enter (hw : w.Tracks names is) (hs : w.statuses[i]? = some .unvisited)
    (hlast : ∀ j ∈ w.path.getLast?, Embeds is j i) : (w.enter i).Tracks names is := by
  have hi : i < w.statuses.length := (List.getElem?_eq_some_iff.1 hs).1
  have hnot : i ∉ w.path := by
    rw [← hw.entered, hs]
    simp
  refine ⟨by simpa [Walk.enter] using hw.length, fun j ↦ ?_, ?_, ?_, hw.cycles, hw.apart,
    hw.problems, fun j k hj hjk ↦ ?_, fun j hj ↦ hw.closed j ((isDone_enter hs).1 hj)⟩
  · by_cases hij : i = j
    · subst hij
      simp [Walk.enter, hi]
    · simp [Walk.enter, List.getElem?_set_ne hij, hw.entered, Ne.symm hij]
  · refine List.isChain_append.2 ⟨hw.chain, .singleton i, fun j hj k hk ↦ ?_⟩
    obtain rfl : i = k := by simpa using hk
    exact hlast j hj
  · refine List.nodup_append.2 ⟨hw.nodup, List.nodup_singleton i, fun j hj k hk ↦ ?_⟩
    rw [List.mem_singleton.1 hk]
    exact fun he ↦ hnot (he ▸ hj)
  · exact (hw.onward j k ((isDone_enter hs).1 hj) hjk).imp (isDone_enter hs).2 fun h ↦
      ⟨List.mem_append_left _ h.1, h.2⟩

/-- An interface on a cycle leads to what is settled, and so back to an interface that was met while
it was entered. -/
theorem Walk.Tracks.reports_of_cyclic (hv : v.Tracks names is) (hi : i ∈ v.path)
    (honward : ∀ j, Embeds is i j → v.Settles is j) (hc : TransGen (Embeds is) i i) :
    v.Reports is i := by
  have hahead : ∀ x, Reaches is x i → Reaches is i x → v.Settles is x → v.Reports is i := by
    intro x hxi
    induction hxi using ReflTransGen.head_induction_on with
    | refl =>
      intro _ hset
      exact (hset.resolve_left (hv.not_isDone hi)).2
    | head hxy hyi ih =>
      intro hix hset
      rcases hset with hdone | ⟨-, hreports⟩
      · exact ih (hix.tail hxy) (hv.onward _ _ hdone hxy)
      · exact hreports.of_sameComponent ⟨hix, .head hxy hyi⟩
  obtain ⟨x, hix, hxi⟩ := TransGen.head'_iff.1 hc
  exact hahead x hxi (.single hix) (honward x hix)

theorem isDone_leave {required : Option (List Signature)} (hi : i < v.statuses.length) :
    (v.leave i required).IsDone j ↔ j = i ∨ v.IsDone j := by
  by_cases hij : i = j
  · subst hij
    simp [Walk.IsDone, Walk.leave, hi]
  · simp [Walk.IsDone, Walk.leave, List.getElem?_set_ne hij, Ne.symm hij]

/-- An interface is left when everything that it embeds is settled. -/
theorem Walk.Tracks.leave (hv : v.Tracks names is) (hi : i < is.length)
    (hpath : v.path = path ++ [i]) (honward : ∀ j, Embeds is i j → v.Settles is j)
    (required : Option (List Signature)) : (v.leave i required).Tracks names is := by
  have hlt : i < v.statuses.length := hv.length ▸ hi
  have hmem : i ∈ v.path := hpath ▸ List.mem_append_right _ (List.mem_singleton_self i)
  have hpath' : (v.leave i required).path = path := by
    rw [Walk.leave, hpath, List.dropLast_concat]
  have hnot : i ∉ path := fun h ↦
    (List.nodup_append.1 (hpath ▸ hv.nodup)).2.2 i h i (List.mem_singleton_self i) rfl
  have hsettles {j : InterfaceId} (h : v.Settles is j) : (v.leave i required).Settles is j := by
    unfold Walk.Settles
    rw [isDone_leave hlt, hpath']
    rcases h with hdone | ⟨hj, hreports⟩
    · exact .inl (.inr hdone)
    · rw [hpath, List.mem_append, List.mem_singleton] at hj
      exact hj.elim (fun hj ↦ .inr ⟨hj, hreports⟩) fun hj ↦ .inl (.inl hj)
  refine ⟨by simpa [Walk.leave] using hv.length, fun j ↦ ?_, ?_, ?_, hv.cycles, hv.apart,
    hv.problems, fun j k hj hjk ↦ ?_, fun j hj hc ↦ ?_⟩
  · rw [hpath']
    by_cases hij : i = j
    · subst hij
      simp [Walk.leave, hlt, hnot]
    · simp [Walk.leave, List.getElem?_set_ne hij, hv.entered, hpath, Ne.symm hij]
  · exact hpath' ▸ (List.isChain_append.1 (hpath ▸ hv.chain)).1
  · exact hpath' ▸ (List.nodup_append.1 (hpath ▸ hv.nodup)).1
  · rcases (isDone_leave hlt).1 hj with rfl | hj
    · exact hsettles (honward k hjk)
    · exact hsettles (hv.onward j k hj hjk)
  · rcases (isDone_leave hlt).1 hj with rfl | hj
    · exact hv.reports_of_cyclic hmem honward hc
    · exact hv.closed j hj hc

/-- What visits down to `depth` do, as long as `depth` exceeds the number of interfaces that have
not been visited. The interface that was entered last embeds the one that is visited. -/
def TracksBelow (names : List String) (is : List ResolvedInterface) (depth : Nat) : Prop :=
  ∀ w i, w.Tracks names is → i < is.length → w.unvisited < depth →
    (∀ j ∈ w.path.getLast?, Embeds is j i) →
    (visit names is depth w i).2.Tracks names is ∧ w.Continues (visit names is depth w i).2 ∧
      (visit names is depth w i).2.Settles is i

theorem embed_tracks (hv : TracksBelow names is depth) (hrange : EmbedsInRange is)
    (hr : is[i]? = some r) (hpath : w.path.getLast? = some i) (hw : w.unvisited < depth)
    (hg : g.walk.Tracks names is) (hc : w.Continues g.walk) {e : InterfaceId}
    (he : e ∈ r.embeds) :
    (g.embed names is depth i e).walk.Tracks names is ∧
      g.walk.Continues (g.embed names is depth i e).walk ∧
      (g.embed names is depth i e).walk.Settles is e := by
  have hlast : ∀ j ∈ g.walk.path.getLast?, Embeds is j e := by
    intro j hj
    obtain rfl : i = j := by simpa [hc.path, hpath] using hj
    exact ⟨r, hr, he⟩
  obtain ⟨htracks, hcontinues, hsettles⟩ := hv g.walk e hg
    (hrange r (List.mem_of_getElem? hr) e he) (hc.unvisited.trans_lt hw) hlast
  have hblames : (visit names is depth g.walk e).2.Blames (g.embed names is depth i e).walk :=
    g.embed_blames e
  exact ⟨hblames.tracks htracks, hcontinues.trans hblames.continues,
    hsettles.mono hblames.continues⟩

theorem embed_all_tracks (hv : TracksBelow names is depth) (hrange : EmbedsInRange is)
    (hr : is[i]? = some r) (hpath : w.path.getLast? = some i) (hw : w.unvisited < depth)
    (hg : g.walk.Tracks names is) (hc : w.Continues g.walk) {es : List InterfaceId}
    (hes : ∀ e ∈ es, e ∈ r.embeds) :
    (es.foldl (Gathered.embed names is depth i) g).walk.Tracks names is ∧
      g.walk.Continues (es.foldl (Gathered.embed names is depth i) g).walk ∧
      ∀ e ∈ es, (es.foldl (Gathered.embed names is depth i) g).walk.Settles is e := by
  induction es generalizing g with
  | nil => exact ⟨hg, .refl _, by simp⟩
  | cons e es ih =>
    obtain ⟨htracks, hstep, hsettles⟩ :=
      embed_tracks hv hrange hr hpath hw hg hc (hes e List.mem_cons_self)
    obtain ⟨htracks', hrest, hall⟩ := ih htracks (hc.trans hstep)
      fun f hf ↦ hes f (List.mem_cons_of_mem _ hf)
    rw [List.foldl_cons]
    exact ⟨htracks', hstep.trans hrest, List.forall_mem_cons.2 ⟨hsettles.mono hrest, hall⟩⟩

theorem gather_tracks (hv : TracksBelow names is depth) (hrange : EmbedsInRange is)
    (hr : is[i]? = some r) (hpath : w.path.getLast? = some i) (hw : w.unvisited < depth)
    (ht : w.Tracks names is) :
    (gather names is depth w i r).walk.Tracks names is ∧
      w.Continues (gather names is depth w i r).walk ∧
      ∀ j, Embeds is i j → (gather names is depth w i r).walk.Settles is j := by
  have hown : w.Blames (r.methods.foldl (Gathered.declare names i) { walk := w }).walk :=
    foldl_blames Gathered.declare_blames r.methods { walk := w }
  obtain ⟨htracks, hcontinues, hsettles⟩ := embed_all_tracks hv hrange hr hpath hw
    (hown.tracks ht) hown.continues fun _ he ↦ he
  refine ⟨htracks, hown.continues.trans hcontinues, fun j hj ↦ ?_⟩
  obtain ⟨r', hr', hj⟩ := hj
  obtain rfl := Option.some.inj (hr.symm.trans hr')
  exact hsettles j hj

theorem tracksBelow (names : List String) (hrange : EmbedsInRange is) (depth : Nat) :
    TracksBelow names is depth := by
  induction depth with
  | zero => exact fun w i _ _ hu _ ↦ absurd hu (Nat.not_lt_zero _)
  | succ depth ih =>
    intro w i hw hi hu hlast
    obtain ⟨r, hr⟩ : ∃ r, is[i]? = some r := ⟨_, List.getElem?_eq_getElem hi⟩
    obtain ⟨st, hs⟩ : ∃ st, w.statuses[i]? = some st :=
      ⟨_, List.getElem?_eq_getElem (hw.length ▸ hi)⟩
    cases st with
    | done required =>
      simp only [visit, hs]
      exact ⟨hw, .refl w, .inl ⟨required, hs⟩⟩
    | entered =>
      have hmem := (hw.entered i).1 hs
      obtain ⟨htracks, hcontinues, hreports⟩ := hw.reportCycle names hmem hlast
      simp only [visit, hs]
      exact ⟨htracks, hcontinues, .inr ⟨hcontinues.path ▸ hmem, hreports⟩⟩
    | unvisited =>
      rw [visit_unvisited hs hr]
      have henter := Walk.unvisited_enter hs
      have hpath : (w.enter i).path.getLast? = some i := List.getLast?_concat
      obtain ⟨htracks, hcontinues, honward⟩ :=
        gather_tracks ih hrange hr hpath (by omega) (hw.enter hs hlast)
      generalize gather names is depth (w.enter i) i r = g at htracks hcontinues honward ⊢
      have hlt : i < g.walk.statuses.length := htracks.length ▸ hi
      refine ⟨htracks.leave hi hcontinues.path honward _, ⟨?_, ?_, fun j hj ↦ ?_,
        hcontinues.reported⟩, .inl ((isDone_leave hlt).2 (.inl rfl))⟩
      · show g.walk.path.dropLast = w.path
        rw [hcontinues.path, Walk.enter, List.dropLast_concat]
      · have hleave := g.walk.unvisited_leave i g.required
        have hgather := hcontinues.unvisited
        show (g.walk.leave i g.required).unvisited ≤ w.unvisited
        omega
      · exact (isDone_leave hlt).2 (.inr (hcontinues.done j ((isDone_enter hs).2 hj)))

theorem visitAll_tracks (names : List String) (hrange : EmbedsInRange is) {ids : List InterfaceId}
    (hids : ∀ i ∈ ids, i < is.length) (hw : w.Tracks names is) (hp : w.path = []) :
    (visitAll names is (is.length + 1) w ids).2.Tracks names is ∧
      w.Continues (visitAll names is (is.length + 1) w ids).2 ∧
      ∀ i ∈ ids, (visitAll names is (is.length + 1) w ids).2.IsDone i := by
  induction ids generalizing w with
  | nil => exact ⟨hw, .refl w, by simp⟩
  | cons i ids ih =>
    have hu : w.unvisited < is.length + 1 :=
      Nat.lt_succ_of_le (hw.length ▸ List.countP_le_length)
    obtain ⟨htracks, hcontinues, hsettles⟩ := tracksBelow names hrange (is.length + 1) w i hw
      (hids i List.mem_cons_self) hu (by simp [hp])
    have hp' := hcontinues.path.trans hp
    have hdone := hsettles.resolve_right fun h ↦ by simp [hp'] at h
    obtain ⟨htracks', hcontinues', hall⟩ :=
      ih (fun j hj ↦ hids j (List.mem_cons_of_mem _ hj)) htracks hp'
    exact ⟨htracks', hcontinues.trans hcontinues',
      List.forall_mem_cons.2 ⟨hcontinues'.done i hdone, hall⟩⟩

theorem Walk.tracks_start : ({ statuses := is.map fun _ ↦ .unvisited } : Walk).Tracks names is := by
  have hs : ∀ (i : InterfaceId) (st : Status),
      (is.map fun _ ↦ Status.unvisited)[i]? = some st → st = .unvisited := by
    intro i st h
    obtain ⟨r, -, rfl⟩ := List.mem_map.1 (List.mem_of_getElem? h)
    rfl
  have hdone (i : InterfaceId) :
      ¬ ({ statuses := is.map fun _ ↦ .unvisited } : Walk).IsDone i := by
    intro h
    obtain ⟨required, h⟩ := h
    cases hs i _ h
  refine ⟨List.length_map _, fun i ↦ ⟨fun h ↦ ?_, fun h ↦ absurd h List.not_mem_nil⟩, .nil, .nil,
    by simp, .nil, rfl, fun i _ h ↦ absurd h (hdone i), fun i h ↦ absurd h (hdone i)⟩
  cases hs i _ h

theorem Walk.Tracks.mem_problems_iff (hw : w.Tracks names is) {c : String × List String} :
    .cyclicComposition c.1 c.2 ∈ w.problems ↔ ∃ ms ∈ w.reported, cycleReport names ms = c := by
  rw [← List.mem_map, ← hw.problems, List.mem_filterMap]
  simp only [Problem.cycle?_eq_some, exists_eq_right]

end Flattening

section

open Flattening

variable {names : List String}

/-- An interface of the first name embeds one of the second name. -/
def NameEmbeds (names : List String) (is : List ResolvedInterface) (a b : String) : Prop :=
  ∃ i j, names[i]? = some a ∧ names[j]? = some b ∧ Embeds is i j

theorem getElem?_nameOf (hi : i < names.length) : names[i]? = some (nameOf names i) := by
  rw [nameOf, List.getD_eq_getElem?_getD, List.getElem?_eq_getElem hi, Option.getD_some]

theorem nameOf_inj (hnames : names.Nodup) (hi : i < names.length) (hj : j < names.length)
    (h : nameOf names i = nameOf names j) : i = j :=
  (List.getElem?_inj hi hnames).1 (by rw [getElem?_nameOf hi, getElem?_nameOf hj, h])

theorem mem_cycleReport {n : String} :
    n ∈ (cycleReport names (i :: others)).2 ↔ ∃ m ∈ i :: others, nameOf names m = n := by
  rw [cycleReport, List.mem_map]
  refine exists_congr fun m ↦ and_congr_left fun _ ↦ ?_
  rw [List.mem_append, List.mem_singleton]
  exact or_iff_left_of_imp fun h ↦ h ▸ List.mem_cons_self

theorem IsCycle.isChain_map_nameOf (h : IsCycle is i others) (hrange : EmbedsInRange is)
    (hlength : names.length = is.length) :
    ((i :: others ++ [i]).map (nameOf names)).IsChain (NameEmbeds names is) := by
  refine (List.isChain_map _).2 (h.chain.imp fun a b hab ↦ ⟨a, b, ?_, ?_, hab⟩)
  · exact getElem?_nameOf (hlength ▸ hab.lt_length)
  · exact getElem?_nameOf (hlength ▸ hab.lt_length_right hrange)

theorem IsCycle.nodup_map_nameOf (h : IsCycle is i others) (hlength : names.length = is.length)
    (hnames : names.Nodup) : ((i :: others).map (nameOf names)).Nodup :=
  h.nodup.map_on fun _ ha _ hb ↦
    nameOf_inj hnames (hlength ▸ h.lt_length ha) (hlength ▸ h.lt_length hb)

theorem mem_iff_of_mem_cycleReport_iff {others' : List InterfaceId} (h : IsCycle is i others)
    (h' : IsCycle is j others') (hlength : names.length = is.length) (hnames : names.Nodup)
    (hsame : ∀ n, n ∈ (cycleReport names (i :: others)).2 ↔
      n ∈ (cycleReport names (j :: others')).2) (m : InterfaceId) :
    m ∈ i :: others ↔ m ∈ j :: others' := by
  simp only [mem_cycleReport] at hsame
  constructor
  · intro hm
    obtain ⟨m', hm', hname⟩ := (hsame _).1 ⟨m, hm, rfl⟩
    rwa [← nameOf_inj hnames (hlength ▸ h'.lt_length hm') (hlength ▸ h.lt_length hm) hname]
  · intro hm
    obtain ⟨m', hm', hname⟩ := (hsame _).2 ⟨m, hm, rfl⟩
    rwa [← nameOf_inj hnames (hlength ▸ h.lt_length hm') (hlength ▸ h'.lt_length hm) hname]

theorem flatten_tracked (names : List String) (hrange : EmbedsInRange is) :
    ∃ w : Walk, w.Tracks names is ∧ (flatten names is).2 = w.problems ∧
      ∀ i < is.length, w.IsDone i := by
  obtain ⟨htracks, -, hdone⟩ := visitAll_tracks names hrange
    (fun i hi ↦ List.mem_range.1 hi) Walk.tracks_start rfl
  exact ⟨_, htracks, rfl, fun i hi ↦ hdone i (List.mem_range.2 hi)⟩

/-- Every reported cycle is one: each name embeds the next, and the interface it is reported for
stands at both ends and no name elsewhere twice. No two reports have the same members, each component
with a cycle has a report of its own, and so there is one if and only if the embeddings are cyclic.
-/
theorem flatten_cycles (hrange : EmbedsInRange is) (hlength : names.length = is.length)
    (hnames : names.Nodup) :
    (∀ interface cycle, .cyclicComposition interface cycle ∈ (flatten names is).2 →
      ∃ others, cycle = interface :: others ++ [interface] ∧ (interface :: others).Nodup ∧
        cycle.IsChain (NameEmbeds names is)) ∧
    ((flatten names is).2.filterMap Problem.cycle?).Pairwise
      (fun c d ↦ ¬ ∀ n, n ∈ c.2 ↔ n ∈ d.2) ∧
    (∀ i, TransGen (Embeds is) i i → ∃ interface cycle,
      .cyclicComposition interface cycle ∈ (flatten names is).2 ∧
        ∀ n ∈ cycle, ∃ j, names[j]? = some n ∧ SameComponent is i j) ∧
    ((∃ interface cycle, .cyclicComposition interface cycle ∈ (flatten names is).2) ↔
      ∃ i, TransGen (Embeds is) i i) := by
  obtain ⟨w, hw, hproblems, hdone⟩ := flatten_tracked names hrange
  have hcycle {interface : String} {cycle : List String}
      (h : .cyclicComposition interface cycle ∈ w.problems) : ∃ i others, IsCycle is i others ∧
        interface = nameOf names i ∧ cycle = (i :: others ++ [i]).map (nameOf names) := by
    obtain ⟨ms, hms, he⟩ := (hw.mem_problems_iff (c := (interface, cycle))).1 h
    obtain ⟨i, others, rfl, hc⟩ := hw.cycles ms hms
    obtain ⟨rfl, rfl⟩ := Prod.mk.inj he
    exact ⟨i, others, hc, rfl, rfl⟩
  have hreport : ∀ i, TransGen (Embeds is) i i → ∃ interface cycle,
      .cyclicComposition interface cycle ∈ w.problems ∧
        ∀ n ∈ cycle, ∃ j, names[j]? = some n ∧ SameComponent is i j := by
    intro i hi
    obtain ⟨k, hk, -⟩ := TransGen.head'_iff.1 hi
    obtain ⟨ms, hms, hsame⟩ := hw.closed i (hdone i hk.lt_length) hi
    refine ⟨_, _, hw.mem_problems_iff.2 ⟨ms, hms, rfl⟩, fun n hn ↦ ?_⟩
    obtain ⟨j, others, rfl, hc⟩ := hw.cycles ms hms
    obtain ⟨m, hm, rfl⟩ := mem_cycleReport.1 hn
    exact ⟨m, getElem?_nameOf (hlength ▸ hc.lt_length hm), hsame m hm⟩
  rw [hproblems]
  refine ⟨fun interface cycle h ↦ ?_, ?_, hreport, fun h ↦ ?_, fun h ↦ ?_⟩
  · obtain ⟨i, others, hc, rfl, rfl⟩ := hcycle h
    exact ⟨others.map (nameOf names), by simp, hc.nodup_map_nameOf hlength hnames,
      hc.isChain_map_nameOf hrange hlength⟩
  · rw [hw.problems]
    refine List.pairwise_map.2 (hw.apart.imp_of_mem fun {ms ns} hms hns hne hsame ↦ hne ?_)
    obtain ⟨i, others, rfl, hc⟩ := hw.cycles ms hms
    obtain ⟨j, others', rfl, hc'⟩ := hw.cycles ns hns
    exact mem_iff_of_mem_cycleReport_iff hc hc' hlength hnames hsame
  · obtain ⟨interface, cycle, h⟩ := h
    obtain ⟨i, others, hc, -, -⟩ := hcycle h
    exact ⟨i, hc.transGen⟩
  · obtain ⟨i, hi⟩ := h
    obtain ⟨interface, cycle, h, -⟩ := hreport i hi
    exact ⟨interface, cycle, h⟩

theorem flatten_cycles_entangled :
    (EmbedsInRange entangled ∧ entangledNames.length = entangled.length ∧ entangledNames.Nodup) ∧
    (flatten entangledNames entangled).2 =
      [.cyclicComposition "Loop" ["Loop", "Back", "Loop"]] ∧
    ["Loop", "Back", "Loop"].IsChain (NameEmbeds entangledNames entangled) ∧
    ∃ i, TransGen (Embeds entangled) i i := by
  have hrange : EmbedsInRange entangled := by unfold EmbedsInRange; decide
  have hlength : entangledNames.length = entangled.length := rfl
  have hnames : entangledNames.Nodup := by decide
  have hproblems : (flatten entangledNames entangled).2 =
      [.cyclicComposition "Loop" ["Loop", "Back", "Loop"]] := by decide +kernel
  have hmem : .cyclicComposition "Loop" ["Loop", "Back", "Loop"] ∈
      (flatten entangledNames entangled).2 := by
    rw [hproblems]
    exact List.mem_singleton_self _
  obtain ⟨hsound, -, -, hiff⟩ := flatten_cycles hrange hlength hnames
  obtain ⟨_, -, -, hchain⟩ := hsound _ _ hmem
  exact ⟨⟨hrange, hlength, hnames⟩, hproblems, hchain, hiff.1 ⟨_, _, hmem⟩⟩

end

end Conformance

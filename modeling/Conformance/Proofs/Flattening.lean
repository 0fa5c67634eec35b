import Conformance.Proofs.Embedding

namespace Conformance

open Relation

namespace Flattening

def Status.isUnvisited : Status → Bool
  | .unvisited => true
  | _ => false

def Walk.unvisited (w : Walk) : Nat := w.statuses.countP Status.isUnvisited

section

variable (names : List String) (is : List ResolvedInterface)

structure Walk.Sound (w : Walk) : Prop where
  length : w.statuses.length = is.length
  entered : ∀ i, w.statuses[i]? = some .entered ↔ i ∈ w.path
  done : ∀ i ms, w.statuses[i]? = some (.done (some ms)) → Coherent is i ∧ IsRequiredSet is i ms
  broken : ∀ i, w.statuses[i]? = some (.done none) → ¬ Coherent is i ∧ w.problems ≠ []
  reported : w.reported ≠ [] → w.problems ≠ []
  blamed : w.problems ≠ [] → ∃ i < is.length, ¬ Coherent is i

structure Walk.Leads (w w' : Walk) : Prop where
  path : w'.path = w.path
  unvisited : w'.unvisited ≤ w.unvisited
  problems : w.problems ≠ [] → w'.problems ≠ []

def Outcome (i : InterfaceId) (w : Walk) : Option (List Signature) → Prop
  | some ms => Coherent is i ∧ IsRequiredSet is i ms
  | none => ¬ Coherent is i ∧ w.problems ≠ []

def Walk.enter (w : Walk) (i : InterfaceId) : Walk :=
  { w with statuses := w.statuses.set i .entered, path := w.path ++ [i] }

def Walk.leave (w : Walk) (i : InterfaceId) (required : Option (List Signature)) : Walk :=
  { w with statuses := w.statuses.set i (.done required), path := w.path.dropLast }

def Gathered.embed (depth : Nat) (owner : InterfaceId) (g : Gathered) (e : InterfaceId) :
    Gathered :=
  match visit names is depth g.walk e with
  | (none, w) => { g with complete := false, walk := w }
  | (some inherited, w) => inherited.foldl (Gathered.inherit names owner) { g with walk := w }

def gather (depth : Nat) (w : Walk) (i : InterfaceId) (r : ResolvedInterface) : Gathered :=
  r.embeds.foldl (Gathered.embed names is depth i)
    (r.methods.foldl (Gathered.declare names i) { walk := w })

def Gathered.required (g : Gathered) : Option (List Signature) :=
  if g.complete then some g.methods else none

end

variable {names : List String} {is : List ResolvedInterface} {w w' : Walk} {i : InterfaceId}
  {r : ResolvedInterface} {depth : Nat}

theorem visit_unvisited (hs : w.statuses[i]? = some .unvisited) (hr : is[i]? = some r) :
    visit names is (depth + 1) w i =
      let g := gather names is depth (w.enter i) i r
      (g.required, g.walk.leave i g.required) := by
  rw [visit]
  simp only [hs, hr]
  rfl

theorem Walk.Leads.refl (w : Walk) : w.Leads w := ⟨rfl, le_rfl, id⟩

theorem Walk.Leads.trans {w₁ w₂ w₃ : Walk} (h : w₁.Leads w₂) (h' : w₂.Leads w₃) : w₁.Leads w₃ :=
  ⟨h'.path.trans h.path, h'.unvisited.trans h.unvisited, h'.problems ∘ h.problems⟩

theorem Outcome.mono {required : Option (List Signature)} (h : Outcome is i w required)
    (hp : w.problems ≠ [] → w'.problems ≠ []) : Outcome is i w' required := by
  cases required with
  | none => exact ⟨h.1, hp h.2⟩
  | some ms => exact h

theorem Walk.Sound.report (hw : w.Sound is) {p : Problem} (hi : ∃ i < is.length, ¬ Coherent is i) :
    ({ w with problems := w.problems ++ [p] } : Walk).Sound is where
  length := hw.length
  entered := hw.entered
  done := hw.done
  broken i hb := ⟨(hw.broken i hb).1, by simp⟩
  reported _ := by simp
  blamed _ := hi

variable (names) in
theorem Walk.Sound.reportCycle (hw : w.Sound is) (hi : i < is.length) (hc : ¬ Coherent is i) :
    (w.reportCycle names i).Sound is ∧ w.Leads (w.reportCycle names i) ∧
      (w.reportCycle names i).problems ≠ [] := by
  by_cases hany : w.reported.any (sameMembers (w.path.dropWhile (· != i))) = true
  · have he : w.reportCycle names i = w := if_pos hany
    have hne : w.reported ≠ [] := by
      intro hnil
      simp [hnil] at hany
    rw [he]
    exact ⟨hw, .refl w, hw.reported hne⟩
  · rw [show w.reportCycle names i = _ from if_neg hany]
    refine ⟨⟨hw.length, hw.entered, hw.done, fun j hb ↦ ⟨(hw.broken j hb).1, ?_⟩, fun _ ↦ ?_,
      fun _ ↦ ⟨i, hi, hc⟩⟩, ⟨rfl, le_rfl, fun _ ↦ ?_⟩, ?_⟩ <;> simp

theorem Walk.Sound.enter (hw : w.Sound is) (hs : w.statuses[i]? = some .unvisited) :
    (w.enter i).Sound is := by
  have hi : i < w.statuses.length := (List.getElem?_eq_some_iff.1 hs).1
  refine ⟨by simpa [Walk.enter] using hw.length, fun j ↦ ?_, fun j ms hd ↦ ?_, fun j hb ↦ ?_,
    hw.reported, hw.blamed⟩
  · by_cases hij : i = j
    · subst hij
      simp [Walk.enter, hi]
    · have hji : j ≠ i := Ne.symm hij
      simp [Walk.enter, List.getElem?_set_ne hij, hw.entered, hji]
  · by_cases hij : i = j
    · subst hij
      simp [Walk.enter, hi] at hd
    · exact hw.done j ms (by simpa [Walk.enter, List.getElem?_set_ne hij] using hd)
  · by_cases hij : i = j
    · subst hij
      simp [Walk.enter, hi] at hb
    · exact hw.broken j (by simpa [Walk.enter, List.getElem?_set_ne hij] using hb)

theorem Walk.unvisited_enter (hs : w.statuses[i]? = some .unvisited) :
    (w.enter i).unvisited + 1 = w.unvisited := by
  obtain ⟨hi, he⟩ := List.getElem?_eq_some_iff.1 hs
  have hpos : 0 < w.statuses.countP Status.isUnvisited :=
    List.countP_pos_iff.2 ⟨_, List.getElem_mem hi, by rw [he]; rfl⟩
  simp only [Walk.unvisited, Walk.enter, List.countP_set hi, he, Status.isUnvisited]
  simp only [if_true, Bool.false_eq_true, if_false, Nat.add_zero]
  omega

theorem Walk.Sound.leave {v : Walk} (hv : v.Sound is) (hw : w.Sound is)
    (hs : w.statuses[i]? = some .unvisited) (hpath : v.path = w.path ++ [i])
    {required : Option (List Signature)} (ho : Outcome is i v required) :
    (v.leave i required).Sound is := by
  have hi : i < v.statuses.length := by
    rw [hv.length, ← hw.length]
    exact (List.getElem?_eq_some_iff.1 hs).1
  have hnot : i ∉ w.path := by
    rw [← hw.entered, hs]
    simp
  refine ⟨by simpa [Walk.leave] using hv.length, fun j ↦ ?_, fun j ms hd ↦ ?_, fun j hb ↦ ?_,
    hv.reported, hv.blamed⟩
  · by_cases hij : i = j
    · subst hij
      simp [Walk.leave, hi, hpath, hnot]
    · have hji : j ≠ i := Ne.symm hij
      simp [Walk.leave, List.getElem?_set_ne hij, hv.entered, hpath, hji]
  · by_cases hij : i = j
    · subst hij
      simp only [Walk.leave, List.getElem?_set_self hi, Option.some.injEq, Status.done.injEq] at hd
      subst hd
      exact ho
    · exact hv.done j ms (by simpa [Walk.leave, List.getElem?_set_ne hij] using hd)
  · by_cases hij : i = j
    · subst hij
      simp only [Walk.leave, List.getElem?_set_self hi, Option.some.injEq, Status.done.injEq] at hb
      subst hb
      exact ho
    · exact hv.broken j (by simpa [Walk.leave, List.getElem?_set_ne hij] using hb)

theorem Walk.unvisited_leave (w : Walk) (i : InterfaceId) (required : Option (List Signature)) :
    (w.leave i required).unvisited ≤ w.unvisited := by
  by_cases hi : i < w.statuses.length
  · simp only [Walk.unvisited, Walk.leave, List.countP_set hi, Status.isUnvisited]
    simp only [Bool.false_eq_true, if_false, Nat.add_zero]
    omega
  · simp [Walk.unvisited, Walk.leave, List.set_eq_of_length_le (Nat.le_of_not_lt hi)]

variable (is) in
/-- What holds of the methods of interface `i` while they are gathered on a walk that began as `w`.
-/
structure Gathered.Sound (w : Walk) (i : InterfaceId) (g : Gathered) : Prop where
  walk : g.walk.Sound is
  leads : w.Leads g.walk
  sorted : SortedByName g.methods
  required : ∀ s ∈ g.methods, Requires is i s
  incomplete : g.complete = false → ¬ Coherent is i ∧ g.walk.problems ≠ []

variable {g : Gathered} {s : Signature}

theorem Gathered.Sound.conflict (hg : g.Sound is w i) (hi : i < is.length)
    (hc : ¬ Coherent is i) : (g.conflict names i s).Sound is w i where
  walk := hg.walk.report ⟨i, hi, hc⟩
  leads := hg.leads.trans ⟨rfl, le_rfl, fun _ ↦ by simp [Gathered.conflict]⟩
  sorted := hg.sorted
  required := hg.required
  incomplete _ := ⟨hc, by simp [Gathered.conflict]⟩

theorem Gathered.Sound.insert (hg : g.Sound is w i) (hs : Requires is i s) :
    ({ g with methods := insertMethod s g.methods } : Gathered).Sound is w i where
  walk := hg.walk
  leads := hg.leads
  sorted := hg.sorted.insert
  required t ht := by
    rcases insertMethod_subset ht with rfl | ht
    · exact hs
    · exact hg.required t ht
  incomplete := hg.incomplete

variable (names) in
/-- The own methods: `seen` are those gathered before. -/
theorem declare_all (hr : is[i]? = some r) (seen rest : List Signature)
    (hseen : seen ++ rest = r.methods) (hg : g.Sound is w i) (hsub : ∀ s ∈ g.methods, s ∈ seen)
    (hall : g.complete = true → (seen.map (·.name)).Nodup ∧ ∀ s ∈ seen, s ∈ g.methods) :
    (rest.foldl (Gathered.declare names i) g).Sound is w i ∧
      ((rest.foldl (Gathered.declare names i) g).complete = true →
        (r.methods.map (·.name)).Nodup ∧
          ∀ s ∈ r.methods, s ∈ (rest.foldl (Gathered.declare names i) g).methods) := by
  induction rest generalizing seen g with
  | nil =>
    rw [List.append_nil] at hseen
    exact ⟨hg, hseen ▸ hall⟩
  | cons s rest ih =>
    have hsr : s ∈ r.methods := by simp [← hseen]
    have hstep : seen ++ [s] ++ rest = r.methods := by simpa using hseen
    rw [List.foldl_cons]
    by_cases hany : g.methods.any (·.name == s.name) = true
    · -- The name stands twice among the own methods.
      obtain ⟨t, ht, hts⟩ := List.any_eq_true.1 hany
      have hc : ¬ Coherent is i := fun hc ↦ by
        have hnd := hc.declaredOnce i r .refl hr
        rw [← hseen, List.map_append, List.map_cons] at hnd
        have hdis := (List.nodup_append.1 hnd).2.2
        exact hdis t.name (List.mem_map_of_mem (hsub t ht)) s.name List.mem_cons_self
          (by simpa using hts)
      have hd : g.declare names i s = g.conflict names i s := if_pos hany
      rw [hd]
      refine ih (seen ++ [s]) hstep
        (hg.conflict (List.getElem?_eq_some_iff.1 hr).1 hc) (fun t ht ↦ ?_) (fun h ↦ ?_)
      · exact List.mem_append_left _ (hsub t ht)
      · simp [Gathered.conflict] at h
    · have hne : ∀ t ∈ g.methods, t.name ≠ s.name := by simpa using hany
      have hd : g.declare names i s = { g with methods := insertMethod s g.methods } :=
        if_neg hany
      rw [hd]
      refine ih (seen ++ [s]) hstep (hg.insert ⟨i, .refl, r, hr, hsr⟩) (fun t ht ↦ ?_) (fun h ↦ ?_)
      · rcases insertMethod_subset ht with rfl | ht
        · simp
        · exact List.mem_append_left _ (hsub t ht)
      · obtain ⟨hnd, hmem⟩ := hall h
        refine ⟨?_, fun t ht ↦ ?_⟩
        · rw [List.map_append, List.map_singleton, List.nodup_append]
          refine ⟨hnd, List.nodup_singleton _, fun a ha b hb ↦ ?_⟩
          obtain ⟨t, ht, rfl⟩ := List.mem_map.1 ha
          rw [List.mem_singleton.1 hb]
          exact hne t (hmem t ht)
        · rw [mem_insertMethod hne]
          rcases List.mem_append.1 ht with ht | ht
          · exact .inr (hmem t ht)
          · exact .inl (List.mem_singleton.1 ht)

variable (names) in
/-- The methods of an embedded interface: none is lost as long as the set stays complete. -/
theorem inherit_all (hi : i < is.length) {ms : List Signature} (hms : ∀ s ∈ ms, Requires is i s)
    (hg : g.Sound is w i) :
    (ms.foldl (Gathered.inherit names i) g).Sound is w i ∧
      ((ms.foldl (Gathered.inherit names i) g).complete = true → g.complete = true ∧
        ∀ s, s ∈ g.methods ∨ s ∈ ms → s ∈ (ms.foldl (Gathered.inherit names i) g).methods) := by
  induction ms generalizing g with
  | nil => exact ⟨hg, fun h ↦ ⟨h, fun s hs ↦ by simpa using hs⟩⟩
  | cons s ms ih =>
    have hs := hms s List.mem_cons_self
    have hrest : ∀ t ∈ ms, Requires is i t := fun t ht ↦ hms t (List.mem_cons_of_mem _ ht)
    rw [List.foldl_cons]
    cases hf : g.methods.find? (·.name == s.name) with
    | none =>
      have hne : ∀ t ∈ g.methods, t.name ≠ s.name := by simpa using hf
      have hd : g.inherit names i s = { g with methods := insertMethod s g.methods } := by
        simp only [Gathered.inherit, hf]
      rw [hd]
      obtain ⟨hsound, hcov⟩ := ih hrest (hg.insert hs)
      refine ⟨hsound, fun h ↦ ?_⟩
      obtain ⟨hc, hmem⟩ := hcov h
      refine ⟨hc, fun t ht ↦ hmem t ?_⟩
      rw [mem_insertMethod hne]
      rcases ht with ht | ht
      · exact .inl (.inr ht)
      · rcases List.mem_cons.1 ht with rfl | ht
        · exact .inl (.inl rfl)
        · exact .inr ht
    | some t =>
      have ht : t ∈ g.methods := List.mem_of_find?_eq_some hf
      have hname : t.name = s.name := by simpa using List.find?_some hf
      by_cases hts : t = s
      · have hd : g.inherit names i s = g := by simp only [Gathered.inherit, hf, if_pos hts]
        rw [hd]
        obtain ⟨hsound, hcov⟩ := ih hrest hg
        refine ⟨hsound, fun h ↦ ?_⟩
        obtain ⟨hc, hmem⟩ := hcov h
        refine ⟨hc, fun u hu ↦ hmem u ?_⟩
        rcases hu with hu | hu
        · exact .inl hu
        · rcases List.mem_cons.1 hu with rfl | hu
          · exact .inl (hts ▸ ht)
          · exact .inr hu
      · -- Two different methods of one name are required.
        have hc : ¬ Coherent is i := fun hc ↦ hts (hc.agree t s (hg.required t ht) hs hname)
        have hd : g.inherit names i s = g.conflict names i s := by
          simp only [Gathered.inherit, hf, if_neg hts]
        rw [hd]
        obtain ⟨hsound, hcov⟩ := ih hrest (hg.conflict hi hc)
        refine ⟨hsound, fun h ↦ ?_⟩
        have := (hcov h).1
        simp [Gathered.conflict] at this

variable (names is) in
/-- What visits down to `depth` do, as long as `depth` exceeds the number of interfaces that have
not been visited. Interfaces that have been entered lead to the one that is visited. -/
def VisitsBelow (depth : Nat) : Prop :=
  ∀ w i, w.Sound is → i < is.length → w.unvisited < depth →
    (∀ j ∈ w.path, TransGen (Embeds is) j i) →
    (visit names is depth w i).2.Sound is ∧ w.Leads (visit names is depth w i).2 ∧
      Outcome is i (visit names is depth w i).2 (visit names is depth w i).1

theorem embed_sound (hv : VisitsBelow names is depth) (hrange : EmbedsInRange is)
    (hr : is[i]? = some r) {e : InterfaceId} (he : e ∈ r.embeds) (hw : w.unvisited < depth)
    (hpath : ∀ j ∈ w.path, j = i ∨ TransGen (Embeds is) j i) (hg : g.Sound is w i) :
    (g.embed names is depth i e).Sound is w i ∧
      ((g.embed names is depth i e).complete = true → g.complete = true ∧ Coherent is e ∧
        ∀ s, s ∈ g.methods ∨ Requires is e s → s ∈ (g.embed names is depth i e).methods) := by
  have hie : Embeds is i e := ⟨r, hr, he⟩
  have hlt : e < is.length := hrange r (List.mem_of_getElem? hr) e he
  have hlead : ∀ j ∈ g.walk.path, TransGen (Embeds is) j e := by
    intro j hj
    rw [hg.leads.path] at hj
    rcases hpath j hj with rfl | hji
    · exact .single hie
    · exact hji.tail hie
  obtain ⟨hsound, hleads, hout⟩ :=
    hv g.walk e hg.walk hlt (lt_of_le_of_lt hg.leads.unvisited hw) hlead
  unfold Gathered.embed
  rcases hvis : visit names is depth g.walk e with ⟨_ | inherited, v⟩
  · rw [hvis] at hsound hleads hout
    refine ⟨⟨hsound, hg.leads.trans hleads, hg.sorted, hg.required, fun _ ↦
      ⟨fun hc ↦ hout.1 (hc.embedded hie), hout.2⟩⟩, fun h ↦ ?_⟩
    simp at h
  · rw [hvis] at hsound hleads hout
    obtain ⟨hce, hset⟩ := hout
    have hms : ∀ s ∈ inherited, Requires is i s := fun s hs ↦
      (requires_iff hr).2 (.inr ⟨e, he, (hset.mem_iff s).1 hs⟩)
    have hg' : ({ g with walk := v } : Gathered).Sound is w i :=
      ⟨hsound, hg.leads.trans hleads, hg.sorted, hg.required, fun h ↦
        ⟨(hg.incomplete h).1, hleads.problems (hg.incomplete h).2⟩⟩
    obtain ⟨hsound', hcov⟩ :=
      inherit_all names (List.getElem?_eq_some_iff.1 hr).1 hms hg'
    refine ⟨hsound', fun h ↦ ⟨(hcov h).1, hce, fun s hs ↦ (hcov h).2 s ?_⟩⟩
    exact hs.imp_right (hset.mem_iff s).2

theorem embed_all (hv : VisitsBelow names is depth) (hrange : EmbedsInRange is)
    (hr : is[i]? = some r) (hw : w.unvisited < depth)
    (hpath : ∀ j ∈ w.path, j = i ∨ TransGen (Embeds is) j i) {es : List InterfaceId}
    (hes : ∀ e ∈ es, e ∈ r.embeds) (hg : g.Sound is w i) :
    (es.foldl (Gathered.embed names is depth i) g).Sound is w i ∧
      ((es.foldl (Gathered.embed names is depth i) g).complete = true → g.complete = true ∧
        (∀ e ∈ es, Coherent is e) ∧ ∀ s, s ∈ g.methods ∨ (∃ e ∈ es, Requires is e s) →
          s ∈ (es.foldl (Gathered.embed names is depth i) g).methods) := by
  induction es generalizing g with
  | nil => exact ⟨hg, fun h ↦ ⟨h, by simp, fun s hs ↦ by simpa using hs⟩⟩
  | cons e es ih =>
    rw [List.foldl_cons]
    obtain ⟨hsound, hcov⟩ := embed_sound hv hrange hr (hes e List.mem_cons_self) hw hpath hg
    obtain ⟨hsound', hcov'⟩ := ih (fun f hf ↦ hes f (List.mem_cons_of_mem _ hf)) hsound
    refine ⟨hsound', fun h ↦ ?_⟩
    obtain ⟨hc', hco', hmem'⟩ := hcov' h
    obtain ⟨hc, hco, hmem⟩ := hcov hc'
    refine ⟨hc, List.forall_mem_cons.2 ⟨hco, hco'⟩, fun s hs ↦ hmem' s ?_⟩
    rcases hs with hs | ⟨f, hf, hs⟩
    · exact .inl (hmem s (.inl hs))
    · rcases List.mem_cons.1 hf with rfl | hf
      · exact .inl (hmem s (.inr hs))
      · exact .inr ⟨f, hf, hs⟩

/-- Gathering on a walk that has entered the interface: the set is complete if and only if the
interface is coherent, and then it is the required set. -/
theorem gather_sound (hv : VisitsBelow names is depth) (hrange : EmbedsInRange is)
    (hw : w.Sound is) (hr : is[i]? = some r) (hu : w.unvisited < depth)
    (hpath : ∀ j ∈ w.path, j = i ∨ TransGen (Embeds is) j i) :
    (gather names is depth w i r).walk.Sound is ∧ w.Leads (gather names is depth w i r).walk ∧
      Outcome is i (gather names is depth w i r).walk (gather names is depth w i r).required := by
  have hstart : ({ walk := w } : Gathered).Sound is w i :=
    ⟨hw, .refl w, .nil, by simp, fun h ↦ by simp at h⟩
  obtain ⟨hown, hown'⟩ := declare_all names hr [] r.methods rfl hstart (by simp) (by simp)
  obtain ⟨hall, hall'⟩ := embed_all hv hrange hr hu hpath (fun _ he ↦ he) hown
  refine ⟨hall.walk, hall.leads, ?_⟩
  by_cases hc : (gather names is depth w i r).complete = true
  · obtain ⟨hc', hco, hmem⟩ := hall' hc
    obtain ⟨hnd, hdecl⟩ := hown' hc'
    have hset : IsRequiredSet is i (gather names is depth w i r).methods := by
      refine ⟨hall.sorted, fun s ↦ ⟨hall.required s, fun hs ↦ hmem s ?_⟩⟩
      exact ((requires_iff hr).1 hs).imp_left (hdecl s)
    rw [Gathered.required, if_pos hc]
    refine ⟨.of_embedded hr hnd hco fun s t hs ht he ↦ ?_, hset⟩
    exact hset.sorted.eq_of_name ((hset.mem_iff s).2 hs) ((hset.mem_iff t).2 ht) he
  · rw [Gathered.required, if_neg hc]
    exact hall.incomplete (Bool.eq_false_iff.2 hc)

variable (names) in
theorem visitsBelow (hrange : EmbedsInRange is) (depth : Nat) : VisitsBelow names is depth := by
  induction depth with
  | zero => exact fun w i _ _ hu _ ↦ absurd hu (Nat.not_lt_zero _)
  | succ depth ih =>
    intro w i hw hi hu hpath
    obtain ⟨r, hr⟩ : ∃ r, is[i]? = some r := ⟨_, List.getElem?_eq_getElem hi⟩
    obtain ⟨st, hs⟩ : ∃ st, w.statuses[i]? = some st :=
      ⟨_, List.getElem?_eq_getElem (hw.length ▸ hi)⟩
    cases st with
    | done required =>
      have he : visit names is (depth + 1) w i = (required, w) := by simp only [visit, hs]
      rw [he]
      refine ⟨hw, .refl w, ?_⟩
      cases required with
      | none => exact hw.broken i hs
      | some ms => exact hw.done i ms hs
    | entered =>
      -- The interface leads to itself.
      have he : visit names is (depth + 1) w i = (none, w.reportCycle names i) := by
        simp only [visit, hs]
      have hc : ¬ Coherent is i := fun hc ↦ hc.acyclic i .refl (hpath i ((hw.entered i).1 hs))
      obtain ⟨hsound, hleads, hne⟩ := hw.reportCycle names hi hc
      rw [he]
      exact ⟨hsound, hleads, hc, hne⟩
    | unvisited =>
      rw [visit_unvisited hs hr]
      have hcount := Walk.unvisited_enter hs
      have hpath' : ∀ j ∈ (w.enter i).path, j = i ∨ TransGen (Embeds is) j i := by
        intro j hj
        rcases List.mem_append.1 hj with hj | hj
        · exact .inr (hpath j hj)
        · exact .inl (List.mem_singleton.1 hj)
      obtain ⟨hsound, hleads, hout⟩ := gather_sound ih hrange (hw.enter hs) hr (by omega) hpath'
      generalize gather names is depth (w.enter i) i r = g at hsound hleads hout ⊢
      refine ⟨hsound.leave hw hs hleads.path hout, ⟨?_, ?_, hleads.problems⟩,
        hout.mono id⟩
      · show g.walk.path.dropLast = w.path
        rw [hleads.path, Walk.enter, List.dropLast_concat]
      · have := g.walk.unvisited_leave i g.required
        have := hleads.unvisited
        show (g.walk.leave i g.required).unvisited ≤ w.unvisited
        omega

variable (names) in
theorem visitAll_sound (hrange : EmbedsInRange is) {ids : List InterfaceId}
    (hids : ∀ i ∈ ids, i < is.length) (hw : w.Sound is) (hp : w.path = []) :
    (visitAll names is (is.length + 1) w ids).2.Sound is ∧
      w.Leads (visitAll names is (is.length + 1) w ids).2 ∧
      List.Forall₂
        (fun i required ↦ Outcome is i (visitAll names is (is.length + 1) w ids).2 required) ids
        (visitAll names is (is.length + 1) w ids).1 := by
  induction ids generalizing w with
  | nil => exact ⟨hw, .refl w, .nil⟩
  | cons i ids ih =>
    have hu : w.unvisited < is.length + 1 :=
      Nat.lt_succ_of_le (hw.length ▸ List.countP_le_length)
    obtain ⟨hsound, hleads, hout⟩ := visitsBelow names hrange (is.length + 1) w i hw
      (hids i List.mem_cons_self) hu (by simp [hp])
    obtain ⟨hsound', hleads', houts⟩ := ih (fun j hj ↦ hids j (List.mem_cons_of_mem _ hj)) hsound
      (hleads.path.trans hp)
    exact ⟨hsound', hleads.trans hleads', .cons (hout.mono hleads'.problems) houts⟩

theorem Walk.sound_start : ({ statuses := is.map fun _ ↦ .unvisited } : Walk).Sound is := by
  have hs : ∀ (i : InterfaceId) (st : Status),
      (is.map fun _ ↦ Status.unvisited)[i]? = some st → st = .unvisited := by
    intro i st h
    obtain ⟨r, -, rfl⟩ := List.mem_map.1 (List.mem_of_getElem? h)
    rfl
  refine ⟨List.length_map _, fun i ↦ ⟨fun h ↦ ?_, fun h ↦ absurd h List.not_mem_nil⟩,
    fun i ms h ↦ ?_, fun i h ↦ ?_, fun h ↦ absurd rfl h, fun h ↦ absurd rfl h⟩
  all_goals cases hs i _ h

end Flattening

variable {is : List ResolvedInterface} {names : List String} {i : InterfaceId}

theorem flatten_visited (names : List String) (hrange : EmbedsInRange is) :
    ∃ w : Flattening.Walk, w.Sound is ∧ (flatten names is).2 = w.problems ∧
      List.Forall₂ (fun i required ↦ Flattening.Outcome is i w required)
        (List.range is.length) (flatten names is).1 := by
  obtain ⟨hsound, -, houts⟩ := Flattening.visitAll_sound names hrange
    (fun i hi ↦ List.mem_range.1 hi) Flattening.Walk.sound_start rfl
  exact ⟨_, hsound, rfl, houts⟩

theorem flatten_outcome (names : List String) (hrange : EmbedsInRange is)
    {required : Option (List Signature)} (h : (flatten names is).1[i]? = some required) :
    match required with
    | some ms => Coherent is i ∧ IsRequiredSet is i ms
    | none => ¬ Coherent is i := by
  obtain ⟨w, -, -, houts⟩ := flatten_visited names hrange
  obtain ⟨hlen, hget⟩ := List.forall₂_iff_get.1 houts
  obtain ⟨hi, hg⟩ := List.getElem?_eq_some_iff.1 h
  have hout := hget i (hlen ▸ hi) hi
  simp only [List.get_eq_getElem, List.getElem_range, hg] at hout
  cases required with
  | none => exact hout.1
  | some ms => exact hout

theorem length_flatten (names : List String) (hrange : EmbedsInRange is) :
    (flatten names is).1.length = is.length := by
  obtain ⟨w, -, -, houts⟩ := flatten_visited names hrange
  simpa using houts.length_eq.symm

theorem flatten_problems_eq_nil_iff (names : List String) (hrange : EmbedsInRange is) :
    (flatten names is).2 = [] ↔ ∀ i < is.length, Coherent is i := by
  obtain ⟨w, hsound, hproblems, houts⟩ := flatten_visited names hrange
  rw [hproblems]
  constructor
  · intro hnil i hi
    obtain ⟨hlen, hget⟩ := List.forall₂_iff_get.1 houts
    have hi' : i < (List.range is.length).length := by simpa using hi
    have hout := hget i hi' (hlen ▸ hi')
    simp only [List.get_eq_getElem, List.getElem_range] at hout
    cases hr : (flatten names is).1[i] with
    | none =>
      rw [hr] at hout
      exact absurd hnil hout.2
    | some ms =>
      rw [hr] at hout
      exact hout.1
  · intro hall
    by_contra hne
    obtain ⟨i, hi, hc⟩ := hsound.blamed hne
    exact hc (hall i hi)

theorem Coherent.exists_requiredSet (hrange : EmbedsInRange is) (hi : i < is.length)
    (hc : Coherent is i) :
    ∃ ms, (flatten names is).1[i]? = some (some ms) ∧ IsRequiredSet is i ms := by
  obtain ⟨required, hr⟩ : ∃ required, (flatten names is).1[i]? = some required :=
    ⟨_, List.getElem?_eq_getElem (length_flatten names hrange ▸ hi)⟩
  have hout := flatten_outcome names hrange hr
  cases required with
  | none => exact absurd hc hout
  | some ms => exact ⟨ms, hr, hout.2⟩

end Conformance

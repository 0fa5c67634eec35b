import Conformance.Proofs.Flattening

namespace Conformance

namespace Flattening

/-- The walk with the duplicate declarations that gathering methods brings up. -/
def Walk.Blames (w w' : Walk) : Prop :=
  ∃ duplicates : List String,
    w' = { w with problems := w.problems ++ duplicates.map .duplicateDeclaration }

variable {names : List String} {is : List ResolvedInterface} {w w' : Walk} {i : InterfaceId}
  {r : ResolvedInterface} {depth depth' n : Nat} {g : Gathered}

theorem Walk.Blames.refl (w : Walk) : w.Blames w := ⟨[], by simp⟩

theorem Walk.Blames.trans {w₁ w₂ w₃ : Walk} (h : w₁.Blames w₂) (h' : w₂.Blames w₃) :
    w₁.Blames w₃ := by
  obtain ⟨ds, rfl⟩ := h
  obtain ⟨es, rfl⟩ := h'
  exact ⟨ds ++ es, by simp⟩

theorem Walk.Blames.unvisited_eq (h : w.Blames w') : w'.unvisited = w.unvisited := by
  obtain ⟨_, rfl⟩ := h
  rfl

theorem Gathered.conflict_blames (g : Gathered) (s : Signature) :
    g.walk.Blames (g.conflict names i s).walk :=
  ⟨[nameOf names i ++ "." ++ s.name], rfl⟩

theorem Gathered.declare_blames (g : Gathered) (s : Signature) :
    g.walk.Blames (g.declare names i s).walk := by
  unfold Gathered.declare
  split
  · exact g.conflict_blames s
  · exact .refl _

theorem foldl_blames {step : Gathered → Signature → Gathered}
    (h : ∀ (g : Gathered) s, g.walk.Blames (step g s).walk) (ss : List Signature) (g : Gathered) :
    g.walk.Blames (ss.foldl step g).walk := by
  induction ss generalizing g with
  | nil => exact .refl _
  | cons s ss ih => exact (h g s).trans (ih (step g s))

theorem foldl_declare_blames (names : List String) (w : Walk) (i : InterfaceId)
    (ss : List Signature) :
    w.Blames (ss.foldl (Gathered.declare names i) { walk := w }).walk :=
  foldl_blames Gathered.declare_blames ss { walk := w }

theorem Gathered.inherit_blames (g : Gathered) (s : Signature) :
    g.walk.Blames (g.inherit names i s).walk := by
  unfold Gathered.inherit
  split
  · split
    · exact .refl _
    · exact g.conflict_blames s
  · exact .refl _

theorem Gathered.embed_blames (g : Gathered) (e : InterfaceId) :
    (visit names is depth g.walk e).2.Blames (g.embed names is depth i e).walk := by
  unfold Gathered.embed
  rcases visit names is depth g.walk e with ⟨_ | inherited, v⟩
  · exact .refl v
  · exact foldl_blames Gathered.inherit_blames inherited { g with walk := v }

theorem foldl_embed_keeps {P : Walk → Prop} (hblames : ∀ w w', w.Blames w' → P w → P w')
    (hv : ∀ w e, P w → P (visit names is depth w e).2) (es : List InterfaceId) (h : P g.walk) :
    P (es.foldl (Gathered.embed names is depth i) g).walk := by
  induction es generalizing g with
  | nil => exact h
  | cons e es ih => exact ih (hblames _ _ (g.embed_blames e) (hv g.walk e h))

/-- No step of a walk makes the property false. -/
structure StepsKeep (names : List String) (P : Walk → Prop) : Prop where
  cycle : ∀ w i, P w → P (w.reportCycle names i)
  blames : ∀ w w', w.Blames w' → P w → P w'
  enter : ∀ w i, w.statuses[i]? = some .unvisited → P w → P (w.enter i)
  leave : ∀ w i required, P w → P (w.leave i required)

variable {P Q : Walk → Prop}

theorem StepsKeep.and (hP : StepsKeep names P) (hQ : StepsKeep names Q) :
    StepsKeep names fun w ↦ P w ∧ Q w where
  cycle w i h := ⟨hP.cycle w i h.1, hQ.cycle w i h.2⟩
  blames w w' hw h := ⟨hP.blames w w' hw h.1, hQ.blames w w' hw h.2⟩
  enter w i hs h := ⟨hP.enter w i hs h.1, hQ.enter w i hs h.2⟩
  leave w i required h := ⟨hP.leave w i required h.1, hQ.leave w i required h.2⟩

variable (names) in
theorem stepsKeep_unvisited_le (n : Nat) : StepsKeep names (·.unvisited ≤ n) where
  cycle w i h := by
    unfold Walk.reportCycle
    dsimp only
    split <;> exact h
  blames w w' hw h := hw.unvisited_eq.trans_le h
  enter w i hs h := by
    have henter := Walk.unvisited_enter hs
    omega
  leave w i required h := (w.unvisited_leave i required).trans h

/-- A visit goes deeper only from an interface that it enters, so it gets no deeper than there are
unvisited ones. What its steps keep it keeps then, as it is not cut off. -/
theorem StepsKeep.visit (hP : StepsKeep names P) (hdepth : w.unvisited < depth) (i : InterfaceId)
    (h : P w) : P (visit names is depth w i).2 := by
  induction depth generalizing P w i with
  | zero => exact absurd hdepth (Nat.not_lt_zero _)
  | succ depth ih =>
    rcases hs : w.statuses[i]? with _ | _ | _ | required <;> rcases hr : is[i]? with _ | r
    case some.unvisited.some =>
      have henter := Walk.unvisited_enter hs
      -- the visits inside keep the property together with the number that bounds their depth
      have hboth := hP.and (stepsKeep_unvisited_le names (w.enter i).unvisited)
      have hown := hboth.blames _ _ (foldl_declare_blames names (w.enter i) i r.methods)
        ⟨hP.enter w i hs h, le_rfl⟩
      have hall := foldl_embed_keeps (i := i) hboth.blames
        (fun v e hv ↦ ih hboth (hv.2.trans_lt (by omega)) e hv) r.embeds hown
      rw [visit_unvisited hs hr]
      exact hP.leave _ i _ hall.1
    case some.entered.none | some.entered.some =>
      simpa only [Flattening.visit, hs, hr] using hP.cycle w i h
    all_goals simpa only [Flattening.visit, hs, hr] using h

theorem unvisited_visit_le (h : w.unvisited < depth) (i : InterfaceId) :
    (visit names is depth w i).2.unvisited ≤ w.unvisited :=
  (stepsKeep_unvisited_le names w.unvisited).visit h i le_rfl

theorem StepsKeep.visitAll (hP : StepsKeep names P) (hdepth : w.unvisited < depth)
    (ids : List InterfaceId) (h : P w) : P (visitAll names is depth w ids).2 := by
  induction ids generalizing w with
  | nil => exact h
  | cons i ids ih =>
    exact ih ((unvisited_visit_le hdepth i).trans_lt hdepth) (hP.visit hdepth i h)

theorem stepsKeep_not_cutOff : StepsKeep names (·.cutOff = false) where
  cycle w i h := by
    unfold Walk.reportCycle
    dsimp only
    split <;> exact h
  blames w w' hw h := by
    obtain ⟨_, rfl⟩ := hw
    exact h
  enter _ _ _ h := h
  leave _ _ _ h := h

theorem foldl_embed_eq (hdepth : n < depth')
    (hv : ∀ w e, w.unvisited ≤ n → visit names is depth w e = visit names is depth' w e)
    (es : List InterfaceId) (hg : g.walk.unvisited ≤ n) :
    es.foldl (Gathered.embed names is depth i) g =
      es.foldl (Gathered.embed names is depth' i) g := by
  induction es generalizing g with
  | nil => rfl
  | cons e es ih =>
    have hstep : g.embed names is depth i e = g.embed names is depth' i e := by
      unfold Gathered.embed
      rw [hv g.walk e hg]
    have hle : (g.embed names is depth' i e).walk.unvisited ≤ n := by
      rw [(g.embed_blames e).unvisited_eq]
      exact (unvisited_visit_le (hg.trans_lt hdepth) e).trans hg
    rw [List.foldl_cons, List.foldl_cons, hstep, ih hle]

/-- Two bounds that exceed the number of unvisited interfaces are as good as each other. -/
theorem visit_eq_of_unvisited_lt (h : w.unvisited < depth) (h' : w.unvisited < depth') :
    visit names is depth w i = visit names is depth' w i := by
  induction depth generalizing depth' w i with
  | zero => exact absurd h (Nat.not_lt_zero _)
  | succ depth ih =>
    obtain ⟨depth', rfl⟩ := Nat.exists_eq_succ_of_ne_zero (Nat.ne_zero_of_lt h')
    rcases hs : w.statuses[i]? with _ | _ | _ | required <;> rcases hr : is[i]? with _ | r
    case some.unvisited.some =>
      have henter := Walk.unvisited_enter hs
      have hgather : gather names is depth (w.enter i) i r =
          gather names is depth' (w.enter i) i r :=
        foldl_embed_eq (by omega) (fun v e hv ↦ ih (by omega) (by omega)) r.embeds
          (foldl_declare_blames names (w.enter i) i r.methods).unvisited_eq.le
      rw [visit_unvisited hs hr, visit_unvisited hs hr, hgather]
    all_goals simp only [visit, hs, hr]

theorem visitAll_eq_of_unvisited_lt (h : w.unvisited < depth) (h' : w.unvisited < depth')
    (ids : List InterfaceId) :
    visitAll names is depth w ids = visitAll names is depth' w ids := by
  induction ids generalizing w with
  | nil => rfl
  | cons i ids ih =>
    have hle : (visit names is depth' w i).2.unvisited ≤ w.unvisited := unvisited_visit_le h' i
    have hvisit : visit names is depth w i = visit names is depth' w i :=
      visit_eq_of_unvisited_lt h h'
    simp only [visitAll, hvisit, ih (hle.trans_lt h) (hle.trans_lt h')]

variable (is) in
theorem unvisited_start_le :
    ({ statuses := is.map fun _ ↦ .unvisited } : Walk).unvisited ≤ is.length :=
  List.countP_le_length.trans_eq (List.length_map _)

end Flattening

variable {is : List ResolvedInterface}

/-- Whatever the embeddings are, the walk ends: with any depth beyond the number of interfaces no
visit is cut off, and the answer is the same. It finds a required set for an interface if and only
if the interface is coherent, and then the one sorted list of the methods that it requires. -/
theorem flatten_exact (names : List String) (hrange : EmbedsInRange is) :
    (∀ depth, is.length < depth →
      (Flattening.run names is depth).2.cutOff = false ∧
      flatten names is =
        ((Flattening.run names is depth).1, (Flattening.run names is depth).2.problems)) ∧
    (flatten names is).1.length = is.length ∧
    ∀ i < is.length,
      ((∃ ms, (flatten names is).1[i]? = some (some ms)) ↔ Coherent is i) ∧
      ∀ ms, (flatten names is).1[i]? = some (some ms) → IsRequiredSet is i ms := by
  refine ⟨fun depth hdepth ↦ ?_, length_flatten names hrange,
    fun i hi ↦ ⟨⟨fun h ↦ ?_, fun h ↦ ?_⟩, fun ms hms ↦ (flatten_outcome names hrange hms).2⟩⟩
  · have hstart := Flattening.unvisited_start_le is
    have hrun : Flattening.run names is depth = Flattening.run names is (is.length + 1) :=
      Flattening.visitAll_eq_of_unvisited_lt (by omega) (by omega) _
    refine ⟨Flattening.stepsKeep_not_cutOff.visitAll (by omega) _ rfl, ?_⟩
    rw [hrun, flatten]
  · obtain ⟨ms, hms⟩ := h
    exact (flatten_outcome names hrange hms).1
  · obtain ⟨ms, hms, -⟩ : ∃ ms, (flatten names is).1[i]? = some (some ms) ∧
        IsRequiredSet is i ms := h.exists_requiredSet hrange hi
    exact ⟨ms, hms⟩

def entangled : List ResolvedInterface :=
  [⟨[], [1]⟩, ⟨[], [0, 2]⟩, ⟨[⟨"Read", [], [], false⟩], []⟩, ⟨[⟨"Close", [], [], false⟩], [2, 2]⟩]

def entangledNames : List String := ["Loop", "Back", "Reader", "ReadCloser"]

/-- Two visits inside each other are too few here, any number beyond four is enough. The second
interface has no required set though what it embeds last is a reader. -/
theorem flatten_exact_entangled : EmbedsInRange entangled ∧
    (Flattening.run entangledNames entangled 2).2.cutOff = true ∧
    (Flattening.run entangledNames entangled 9).2.cutOff = false ∧
    flatten entangledNames entangled =
      ((Flattening.run entangledNames entangled 9).1,
        (Flattening.run entangledNames entangled 9).2.problems) ∧
    ¬ Coherent entangled 1 ∧ Coherent entangled 3 ∧
    IsRequiredSet entangled 3 [⟨"Close", [], [], false⟩, ⟨"Read", [], [], false⟩] := by
  have hrange : EmbedsInRange entangled := by unfold EmbedsInRange; decide
  have hsets : (flatten entangledNames entangled).1 =
      [none, none, some [⟨"Read", [], [], false⟩],
        some [⟨"Close", [], [], false⟩, ⟨"Read", [], [], false⟩]] := by decide +kernel
  obtain ⟨hdepth, -, hall⟩ := flatten_exact entangledNames hrange
  have hset := (hall 3 (by decide)).2 _ (by rw [hsets]; rfl)
  obtain ⟨hcut, hflat⟩ := hdepth 9 (by decide)
  refine ⟨hrange, by decide +kernel, hcut, hflat, fun hc ↦ ?_, ?_, hset⟩
  · obtain ⟨ms, hms⟩ := (hall 1 (by decide)).1.2 hc
    rw [hsets] at hms
    cases hms
  · exact (hall 3 (by decide)).1.1 ⟨_, by rw [hsets]; rfl⟩

end Conformance

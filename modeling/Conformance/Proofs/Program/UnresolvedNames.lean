import Conformance.Proofs.Flattening.Course
import Conformance.Proofs.Program.Validity

namespace Conformance

/-- The signature mentions a type of this name, and not as a type parameter among `params`. -/
def Signature.Mentions (params : List String) (name : String) (s : Signature) : Prop :=
  ∃ args, .named name args ∈ s.parts ∧ ¬ (args = [] ∧ name ∈ params)

namespace Program

section

variable (p : Program) (name declaration : String)

def UnresolvedReceiver : Prop :=
  ∃ m ∈ p.methods, m.receiver = name ∧ m.qualifiedName = declaration ∧ ¬ p.NamesType name

def UnresolvedEmbed : Prop :=
  ∃ d ∈ p.interfaces, name ∈ d.embeds ∧ d.displayName = declaration ∧ ¬ p.NamesInterface name

def UnresolvedMention : Prop :=
  ¬ p.Knows name ∧
    ((∃ d ∈ p.interfaces, ∃ s ∈ d.methods,
        d.displayName ++ "." ++ s.name = declaration ∧ s.Mentions d.typeParams name) ∨
      ∃ m ∈ p.methods, m.qualifiedName = declaration ∧ m.signature.Mentions [] name)

end

end Program

/-- From `ps` to `qs` the problem `x` is added just if one of the two is the case; unless it may be
`repeated`, it is added only where it is missing. -/
structure Problem.Gains (x : Problem) (repeated once : Prop) (ps qs : List Problem) : Prop where
  mem : x ∈ qs ↔ x ∈ ps ∨ repeated ∨ once
  count : ¬ repeated → qs.count x ≤ max 1 (ps.count x)

namespace Problem

variable {x : Problem} {r r' o o' : Prop} {ps qs rs : List Problem}

theorem Gains.refl (x : Problem) (ps : List Problem) : x.Gains False False ps ps :=
  ⟨by simp, fun _ ↦ le_max_right _ _⟩

theorem Gains.trans (h : x.Gains r o ps qs) (h' : x.Gains r' o' qs rs) :
    x.Gains (r ∨ r') (o ∨ o') ps rs where
  mem := by
    rw [h'.mem, h.mem]
    tauto
  count hr := by
    rw [not_or] at hr
    have hqs := h.count hr.1
    have hrs := h'.count hr.2
    omega

theorem Gains.congr (h : x.Gains r o ps qs) (hr : r ↔ r') (ho : o ↔ o') : x.Gains r' o' ps qs := by
  rwa [propext hr, propext ho] at h

theorem gains_append (h : x ∈ qs ↔ r) : x.Gains r False ps (ps ++ qs) where
  mem := by rw [List.mem_append, h, or_false]
  count hr := by
    rw [List.count_append, List.count_eq_zero_of_not_mem (mt h.1 hr), Nat.add_zero]
    exact le_max_right _ _

theorem gains_addNew (x y : Problem) (ps : List Problem) : x.Gains False (y = x) ps (addNew ps y) := by
  unfold addNew
  split
  · rename_i hy
    exact ⟨by grind, fun _ ↦ le_max_right _ _⟩
  · rename_i hy
    refine ⟨by grind, fun _ ↦ ?_⟩
    by_cases hx : y = x
    · subst hx
      rw [List.count_append, List.count_eq_zero_of_not_mem hy, List.count_singleton_self]
      exact le_max_left _ _
    · rw [List.count_append, List.count_singleton, if_neg (by simpa using hx), Nat.add_zero]
      exact le_max_right _ _

theorem gains_foldl {α : Type} {step : List Problem → α → List Problem} {R O : α → Prop}
    (h : ∀ ps a, x.Gains (R a) (O a) ps (step ps a)) (as : List α) (ps : List Problem) :
    x.Gains (∃ a ∈ as, R a) (∃ a ∈ as, O a) ps (as.foldl step ps) := by
  induction as generalizing ps with
  | nil => exact (Gains.refl x ps).congr (by simp) (by simp)
  | cons a as ih => exact ((h ps a).trans (ih (step ps a))).congr (by simp) (by simp)

end Problem

section

variable (ns : Names) (name declaration : String) (ps : List Problem)

theorem Signature.reportUnknown_gains (origin : String) (params : List String) (s : Signature) :
    (Problem.unresolvedType name declaration).Gains False
      (¬ ns.isKnown name ∧ origin = declaration ∧ s.Mentions params name) ps
      (s.reportUnknown ns origin params ps) := by
  refine (Problem.gains_foldl (fun ps n ↦ Problem.gains_addNew _ _ ps) _ ps).congr (by simp) ?_
  simp only [List.mem_filter, Problem.unresolvedType.injEq, mem_occurring, Mentions]
  grind

theorem InterfaceDecl.reportUnknown_gains (d : InterfaceDecl) :
    (Problem.unresolvedType name declaration).Gains
      (name ∈ d.embeds ∧ d.displayName = declaration ∧ ¬ ∃ id, ns.interface? name = some id)
      (¬ ns.isKnown name ∧ ∃ s ∈ d.methods,
        d.displayName ++ "." ++ s.name = declaration ∧ s.Mentions d.typeParams name) ps
      (d.reportUnknown ns ps) := by
  have hmethods := Problem.gains_foldl (fun ps s ↦ s.reportUnknown_gains ns name declaration ps
    (d.displayName ++ "." ++ s.name) d.typeParams) d.methods ps
  have hembeds : Problem.unresolvedType name declaration ∈
        (d.embeds.filter fun e ↦ (ns.interface? e).isNone).map
          (Problem.unresolvedType · d.displayName) ↔
      name ∈ d.embeds ∧ d.displayName = declaration ∧ ¬ ∃ id, ns.interface? name = some id := by
    simp only [List.mem_map, List.mem_filter, Problem.unresolvedType.injEq,
      Option.isNone_iff_eq_none, Option.eq_none_iff_forall_ne_some, not_exists, ne_eq]
    grind
  exact (hmethods.trans (Problem.gains_append hembeds)).congr (by simp) (by grind)

theorem MethodDecl.reportUnknown_gains (m : MethodDecl) :
    (Problem.unresolvedType name declaration).Gains False
      (¬ ns.isKnown name ∧ m.qualifiedName = declaration ∧ m.signature.Mentions [] name) ps
      (m.reportUnknown ns ps) :=
  m.signature.reportUnknown_gains ns name declaration ps m.qualifiedName []

end

theorem Flattening.stepsKeep_not_unresolved (names : List String) (name declaration : String) :
    StepsKeep names (.unresolvedType name declaration ∉ ·.problems) where
  cycle w i h := by
    unfold Walk.reportCycle
    dsimp only
    split
    · exact h
    · simpa using h
  blames w w' hw h := by
    obtain ⟨duplicates, rfl⟩ := hw
    simpa using h
  enter _ _ _ h := h
  leave _ _ _ h := h

theorem not_unresolved_flatten (names : List String) (is : List ResolvedInterface)
    (name declaration : String) : .unresolvedType name declaration ∉ (flatten names is).2 :=
  (Flattening.stepsKeep_not_unresolved names name declaration).visitAll
    (Nat.lt_succ_of_le (Flattening.unvisited_start_le is)) _ List.not_mem_nil

namespace Program

variable {p : Program} {name declaration : String}

theorem unresolved_mem_attach {ns : Names} {attached : List Attachment}
    {xs : List (MethodDecl × MethodId)} :
    .unresolvedType name declaration ∈ (attach ns attached xs).2 ↔ ∃ m ∈ xs.map (·.1),
      m.receiver = name ∧ m.qualifiedName = declaration ∧ ns.type? name = none := by
  induction xs generalizing attached with
  | nil => simp [attach]
  | cons x xs ih =>
    obtain ⟨m, id⟩ := x
    rw [List.map_cons, List.exists_mem_cons_iff]
    cases ht : ns.type? m.receiver with
    | none =>
      simp only [attach, ht, List.mem_cons, Problem.unresolvedType.injEq, ih]
      grind
    | some t =>
      have hself : ¬ (m.receiver = name ∧ m.qualifiedName = declaration ∧ ns.type? name = none) := by
        grind
      simp only [attach, ht, hself, false_or]
      split
      · simp only [List.mem_cons, reduceCtorEq, false_or, ih]
      · exact ih

theorem unresolved_mem_namingProblems :
    .unresolvedType name declaration ∈ p.namingProblems ↔
      p.UnresolvedReceiver name declaration := by
  have hmem : .unresolvedType name declaration ∈ p.namingProblems ↔
      .unresolvedType name declaration ∈ (attach p.names [] p.methods.zipIdx).2 := by
    simp [namingProblems]
  have htype : p.names.type? name = none ↔ ¬ p.NamesType name := by
    rw [← exists_type?_iff, not_exists, Option.eq_none_iff_forall_ne_some]
  rw [hmem, unresolved_mem_attach, htype, List.zipIdx_map_fst, UnresolvedReceiver]

variable (p name declaration) in
theorem problems_gains :
    (Problem.unresolvedType name declaration).Gains
      (p.UnresolvedReceiver name declaration ∨ p.UnresolvedEmbed name declaration)
      (p.UnresolvedMention name declaration) [] p.problems := by
  have hnaming : (Problem.unresolvedType name declaration).Gains
      (p.UnresolvedReceiver name declaration) False [] p.namingProblems :=
    Problem.gains_append unresolved_mem_namingProblems
  have hinterfaces := Problem.gains_foldl
    (InterfaceDecl.reportUnknown_gains p.names name declaration) p.interfaces p.namingProblems
  have hmethods := Problem.gains_foldl (MethodDecl.reportUnknown_gains p.names name declaration)
    p.methods (p.interfaces.foldl (InterfaceDecl.reportUnknown p.names) p.namingProblems)
  have hflattening : (Problem.unresolvedType name declaration).Gains False False
      (p.reportUnknown p.namingProblems) p.problems :=
    Problem.gains_append (iff_false_intro (not_unresolved_flatten _ _ name declaration))
  refine (hnaming.trans (hinterfaces.trans (hmethods.trans hflattening))).congr ?_ ?_
  · simp only [UnresolvedEmbed, exists_interface?_iff, and_false, exists_false, or_false]
  · simp only [UnresolvedMention, isKnown_iff, false_or, or_false]
    grind

/-- A name is reported as unresolved just where it is: as the receiver of a method, embedded in an
interface or mentioned in a signature. What only signatures mention is reported once. -/
theorem unresolved_reported (p : Program) (name declaration : String) :
    (.unresolvedType name declaration ∈ p.problems ↔
      p.UnresolvedReceiver name declaration ∨ p.UnresolvedEmbed name declaration ∨
        p.UnresolvedMention name declaration) ∧
    (p.UnresolvedMention name declaration → ¬ p.UnresolvedReceiver name declaration →
      ¬ p.UnresolvedEmbed name declaration →
        p.problems.count (.unresolvedType name declaration) = 1) := by
  have hgains := p.problems_gains name declaration
  have hmem : .unresolvedType name declaration ∈ p.problems ↔
      p.UnresolvedReceiver name declaration ∨ p.UnresolvedEmbed name declaration ∨
        p.UnresolvedMention name declaration := by
    rw [hgains.mem, or_assoc]
    exact or_iff_right List.not_mem_nil
  refine ⟨hmem, fun hmention hreceiver hembed ↦ ?_⟩
  have hle := hgains.count (not_or.2 ⟨hreceiver, hembed⟩)
  have hpos := List.count_pos_iff.2 (hmem.2 (.inr (.inr hmention)))
  rw [List.count_nil] at hle
  omega

def storeroom : Program where
  interfaces :=
    [{ name := some "Shelf", typeParams := ["T"], embeds := ["Rack"],
       methods :=
         [⟨"Put", [.named "T" [], .named "Box" [.named "T" []]], [.slice (.named "Box" [])], false⟩] }]
  methods := [{ receiver := "Crate", form := .value, signature := ⟨"Open", [], [], false⟩ }]

theorem unresolved_reported_storeroom :
    storeroom.problems =
      [.unresolvedType "Crate" "Crate.Open", .unresolvedType "Box" "Shelf.Put",
        .unresolvedType "Rack" "Shelf"] ∧
    storeroom.UnresolvedMention "Box" "Shelf.Put" ∧
    storeroom.problems.count (.unresolvedType "Box" "Shelf.Put") = 1 := by
  have hmention : storeroom.UnresolvedMention "Box" "Shelf.Put" :=
    ⟨isKnown_iff.not.1 (by decide), .inl ⟨_, List.mem_cons_self, _, List.mem_cons_self, rfl, [],
      by decide +kernel, by decide⟩⟩
  have hreceiver : ¬ storeroom.UnresolvedReceiver "Box" "Shelf.Put" := by
    simp [UnresolvedReceiver, storeroom]
  have hembed : ¬ storeroom.UnresolvedEmbed "Box" "Shelf.Put" := by
    simp [UnresolvedEmbed, storeroom]
  exact ⟨by decide +kernel, hmention,
    (unresolved_reported storeroom "Box" "Shelf.Put").2 hmention hreceiver hembed⟩

end Program

end Conformance

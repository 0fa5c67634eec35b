import Conformance.Program.Edges
import Conformance.Proofs.Descriptor
import Conformance.Proofs.Flattening
import Conformance.Proofs.Program.Names

namespace Conformance

open Relation

abbrev InterfaceDecl.resolveMethod (d : InterfaceDecl) (s : Signature) : Signature :=
  s.markParams d.displayName d.typeParams

namespace Program

variable (p : Program)

/-- Names that may stand for a type. -/
def Knows (name : String) : Prop :=
  name ∈ predeclared ∨ name ∈ p.declaredNames ∨ name ∈ p.externals ∨ '.' ∈ name.toList

def NamesEmbedded (i j : InterfaceId) : Prop :=
  ∃ d e name, p.interfaces[i]? = some d ∧ p.interfaces[j]? = some e ∧ e.name = some name ∧
    name ∈ d.embeds

/-- The program declares each name once, refers to nothing unknown and embeds without cycles and
conflicts. -/
structure Valid : Prop where
  declaredNames : p.declaredNames.Nodup
  receivers : ∀ m ∈ p.methods, ∃ t ∈ p.types, t.name = m.receiver
  methods : p.methods.Pairwise fun m n ↦
    m.receiver = n.receiver → m.signature.name ≠ n.signature.name
  interfaceTypes : ∀ d ∈ p.interfaces, ∀ s ∈ d.methods, ∀ name args,
    .named name args ∈ s.parts → (args = [] ∧ name ∈ d.typeParams) ∨ p.Knows name
  methodTypes : ∀ m ∈ p.methods, ∀ name args,
    .named name args ∈ m.signature.parts → p.Knows name
  embeds : ∀ d ∈ p.interfaces, ∀ name ∈ d.embeds, ∃ e ∈ p.interfaces, e.name = some name
  acyclic : ∀ i, ¬ TransGen p.NamesEmbedded i i
  declaredOnce : ∀ d ∈ p.interfaces, (d.methods.map (·.name)).Nodup
  agree : ∀ i j k d e, ReflTransGen p.NamesEmbedded i j → ReflTransGen p.NamesEmbedded i k →
    p.interfaces[j]? = some d → p.interfaces[k]? = some e → ∀ s ∈ d.methods, ∀ t ∈ e.methods,
      s.name = t.name → d.resolveMethod s = e.resolveMethod t

end Program

/-- The descriptor is a type of this name, and no type parameter among `params`. -/
def Descriptor.HasName (params : List String) (name : String) (d : Descriptor) : Prop :=
  ∃ args, d = .named name args ∧ ¬ (args = [] ∧ name ∈ params)

theorem Descriptor.mem_occurring {params : List String} {name : String} {d : Descriptor} :
    name ∈ d.occurring params ↔ ∃ x ∈ d.parts, x.HasName params name := by
  induction d with
  | named n args ih =>
    have hself : (named n args).HasName params name ↔
        name = n ∧ ¬ (args = [] ∧ name ∈ params) := by
      simp only [HasName, named.injEq]
      grind
    rw [Descriptor.parts, List.exists_mem_cons_iff, hself]
    cases args with
    | nil => simp only [Descriptor.occurring, allParts]; split <;> grind
    | cons a as =>
      simp only [Descriptor.occurring, List.mem_cons, List.mem_append, allOccurring_eq_flatMap,
        List.mem_flatMap, mem_allParts]
      grind
  | param n owner => simp [Descriptor.occurring, Descriptor.parts, HasName]
  | pointer e ih | slice e ih | array len e ih | chan dir e ih =>
    simp [Descriptor.occurring, Descriptor.parts, ih, HasName]
  | map k v ihk ihv =>
    simp only [Descriptor.occurring, Descriptor.parts, List.exists_mem_cons_iff, List.mem_append,
      ihk, ihv]
    simp [HasName, or_and_right, exists_or]
  | func ps rs variadic ihp ihr =>
    have hself : ¬ (func ps rs variadic).HasName params name := by simp [HasName]
    simp only [Descriptor.occurring, Descriptor.parts, List.exists_mem_cons_iff, List.mem_append,
      allOccurring_eq_flatMap, List.mem_flatMap, mem_allParts, hself, false_or]
    grind
  | interface ms es ihm ihe =>
    have hself : ¬ (interface ms es).HasName params name := by simp [HasName]
    simp only [Descriptor.occurring, Descriptor.parts, List.exists_mem_cons_iff, List.mem_append,
      allOccurring_eq_flatMap, signaturesOccurring_eq_flatMap, Signature.occurring_eq_flatMap,
      List.mem_flatMap, mem_allParts, mem_signaturesParts, Signature.mem_parts, hself, false_or]
    grind
  | struct fs ih =>
    have hself : ¬ (struct fs).HasName params name := by simp [HasName]
    simp only [Descriptor.occurring, Descriptor.parts, List.exists_mem_cons_iff,
      fieldsOccurring_eq_flatMap, List.mem_flatMap, mem_fieldsParts, hself, false_or]
    grind

theorem Signature.mem_occurring {params : List String} {name : String} {s : Signature} :
    name ∈ s.occurring params ↔
      ∃ args, .named name args ∈ s.parts ∧ ¬ (args = [] ∧ name ∈ params) := by
  simp only [Signature.occurring_eq_flatMap, List.mem_flatMap, Descriptor.mem_occurring,
    Signature.mem_parts, Descriptor.HasName]
  grind

/-- If each step keeps an empty list just for the good elements, so does the fold. -/
theorem foldl_eq_nil_iff {α : Type} {step : List Problem → α → List Problem} {Q : α → Prop}
    (h : ∀ ps x, step ps x = [] ↔ ps = [] ∧ Q x) (xs : List α) (ps : List Problem) :
    xs.foldl step ps = [] ↔ ps = [] ∧ ∀ x ∈ xs, Q x := by
  induction xs generalizing ps with
  | nil => simp
  | cons x xs ih => rw [List.foldl_cons, ih, h, and_assoc, List.forall_mem_cons]

theorem Problem.addNew_ne_nil (ps : List Problem) (p : Problem) : addNew ps p ≠ [] := by
  unfold addNew
  split
  · rename_i hp
    exact List.ne_nil_of_mem hp
  · simp

theorem Signature.reportUnknown_eq_nil_iff {ns : Names} {declaration : String}
    {params : List String} {problems : List Problem} {s : Signature} :
    s.reportUnknown ns declaration params problems = [] ↔
      problems = [] ∧ ∀ name ∈ s.occurring params, ns.isKnown name := by
  rw [Signature.reportUnknown, foldl_eq_nil_iff (Q := fun _ ↦ False)]
  · simp
  · exact fun ps name ↦ by simp [Problem.addNew_ne_nil]

theorem InterfaceDecl.reportUnknown_eq_nil_iff (ns : Names) (problems : List Problem)
    (d : InterfaceDecl) :
    d.reportUnknown ns problems = [] ↔ problems = [] ∧
      (∀ s ∈ d.methods, ∀ name ∈ s.occurring d.typeParams, ns.isKnown name) ∧
      ∀ e ∈ d.embeds, ∃ id, ns.interface? e = some id := by
  have hembeds : (d.embeds.filter fun e ↦ (ns.interface? e).isNone) = [] ↔
      ∀ e ∈ d.embeds, ∃ id, ns.interface? e = some id := by
    simp only [List.filter_eq_nil_iff, Option.isNone_iff_eq_none, Option.ne_none_iff_exists']
  rw [InterfaceDecl.reportUnknown, List.append_eq_nil_iff, List.map_eq_nil_iff, hembeds,
    ← and_assoc]
  refine and_congr_left' (foldl_eq_nil_iff (fun ps s ↦ ?_) d.methods problems)
  exact Signature.reportUnknown_eq_nil_iff

theorem MethodDecl.reportUnknown_eq_nil_iff (ns : Names) (problems : List Problem)
    (m : MethodDecl) :
    m.reportUnknown ns problems = [] ↔
      problems = [] ∧ ∀ name ∈ m.signature.occurring [], ns.isKnown name :=
  Signature.reportUnknown_eq_nil_iff

namespace Program

variable {p : Program}

theorem isKnown_iff {name : String} : p.names.isKnown name ↔ p.Knows name := by
  simp only [Names.isKnown, Knows, Bool.or_eq_true, List.contains_iff_mem, isSome_lookup, or_assoc]
  rfl

theorem reportUnknown_eq_nil_iff {problems : List Problem} :
    p.reportUnknown problems = [] ↔ problems = [] ∧
      (∀ d ∈ p.interfaces,
        (∀ s ∈ d.methods, ∀ name ∈ s.occurring d.typeParams, p.Knows name) ∧
        ∀ e ∈ d.embeds, ∃ id, p.names.interface? e = some id) ∧
      ∀ m ∈ p.methods, ∀ name ∈ m.signature.occurring [], p.Knows name := by
  have hinterfaces := foldl_eq_nil_iff (InterfaceDecl.reportUnknown_eq_nil_iff p.names)
    p.interfaces problems
  have hmethods := foldl_eq_nil_iff (MethodDecl.reportUnknown_eq_nil_iff p.names) p.methods
    (p.interfaces.foldl (InterfaceDecl.reportUnknown p.names) problems)
  rw [reportUnknown, hmethods, hinterfaces, and_assoc]
  simp only [isKnown_iff]

theorem namingProblems_eq_nil_iff :
    p.namingProblems = [] ↔ p.declaredNames.Nodup ∧
      (∀ m ∈ p.methods, ∃ t ∈ p.types, t.name = m.receiver) ∧
      p.methods.Pairwise fun m n ↦ m.receiver = n.receiver → m.signature.name ≠ n.signature.name := by
  rw [namingProblems, List.append_eq_nil_iff, List.map_eq_nil_iff, map_fst_declared,
    repeatedNames_eq_nil_iff, attach_problems_eq_nil_iff]
  simp only [List.not_mem_nil, not_false_eq_true, implies_true, and_true, false_imp_iff, true_and]
  refine and_congr_right fun hp ↦ ?_
  have htype (m : MethodDecl) :
      (p.names.type? m.receiver).isSome ↔ ∃ t ∈ p.types, t.name = m.receiver := by
    rw [Option.isSome_iff_exists]
    simp only [type?_iff hp, List.mem_iff_getElem?]
    grind
  have hmem : (∀ x ∈ p.methods.zipIdx, (p.names.type? x.1.receiver).isSome) ↔
      ∀ m ∈ p.methods, ∃ t ∈ p.types, t.name = m.receiver := by
    simp only [htype, Prod.forall, List.mem_zipIdx_iff_getElem?]
    refine ⟨fun h m hm ↦ ?_, fun h m k hk ↦ h m (List.mem_of_getElem? hk)⟩
    obtain ⟨k, hk⟩ := List.mem_iff_getElem?.1 hm
    exact h m k hk
  rw [hmem]
  refine and_congr_right fun hrec ↦ ?_
  -- Methods have the same type if and only if they have the same receiver.
  have hpair : p.methods.zipIdx.Pairwise (fun x y ↦ Apart p.names x.1 y.1) ↔
      p.methods.Pairwise (Apart p.names) := by
    conv_rhs => rw [← List.zipIdx_map_fst 0 p.methods, List.pairwise_map]
  rw [hpair]
  refine List.Pairwise.iff_of_mem fun {m n} hm hn ↦ ?_
  have hsame : p.names.type? m.receiver = p.names.type? n.receiver ↔ m.receiver = n.receiver := by
    refine ⟨fun h ↦ ?_, fun h ↦ by rw [h]⟩
    obtain ⟨id, hid⟩ := Option.isSome_iff_exists.1 ((htype m).2 (hrec m hm))
    obtain ⟨t, ht, htm⟩ := declaration_of_type? hid
    obtain ⟨u, hu, hun⟩ := declaration_of_type? (h ▸ hid)
    rw [← htm, ← hun, Option.some.inj (ht.symm.trans hu)]
  rw [Apart, hsame]

theorem embedsInRange (p : Program) : EmbedsInRange p.resolvedInterfaces := by
  intro r hr e he
  obtain ⟨d, -, rfl⟩ := List.mem_map.1 hr
  obtain ⟨name, -, hname⟩ := List.mem_filterMap.1 he
  obtain ⟨d', hd', -⟩ := declaration_of_interface? hname
  rw [resolvedInterfaces, List.length_map]
  exact (List.getElem?_eq_some_iff.1 hd').1

theorem getElem?_resolvedInterfaces {i : InterfaceId} {r : ResolvedInterface} :
    p.resolvedInterfaces[i]? = some r ↔ ∃ d, p.interfaces[i]? = some d ∧ d.resolve p.names = r := by
  rw [resolvedInterfaces, List.getElem?_map, Option.map_eq_some_iff]

theorem embeds_iff (hp : p.declaredNames.Nodup) {i j : InterfaceId} :
    Embeds p.resolvedInterfaces i j ↔ p.NamesEmbedded i j := by
  constructor
  · intro h
    obtain ⟨r, hr, hj⟩ := h
    obtain ⟨d, hd, rfl⟩ := getElem?_resolvedInterfaces.1 hr
    obtain ⟨name, hname, hid⟩ := List.mem_filterMap.1 hj
    obtain ⟨e, he, hen⟩ := declaration_of_interface? hid
    exact ⟨d, e, name, hd, he, hen, hname⟩
  · intro h
    obtain ⟨d, e, name, hd, he, hen, hname⟩ := h
    exact ⟨_, getElem?_resolvedInterfaces.2 ⟨d, hd, rfl⟩,
      List.mem_filterMap.2 ⟨name, hname, (interface?_iff hp).2 ⟨e, he, hen⟩⟩⟩

theorem embeds_eq (hp : p.declaredNames.Nodup) :
    Embeds p.resolvedInterfaces = p.NamesEmbedded := by
  funext i j
  exact propext (embeds_iff hp)

theorem declares_iff {i : InterfaceId} {s : Signature} :
    Declares p.resolvedInterfaces i s ↔
      ∃ d, p.interfaces[i]? = some d ∧ ∃ t ∈ d.methods, d.resolveMethod t = s := by
  constructor
  · intro h
    obtain ⟨r, hr, hs⟩ := h
    obtain ⟨d, hd, rfl⟩ := getElem?_resolvedInterfaces.1 hr
    obtain ⟨t, ht, rfl⟩ := List.mem_map.1 hs
    exact ⟨d, hd, t, ht, rfl⟩
  · intro h
    obtain ⟨d, hd, t, ht, rfl⟩ := h
    exact ⟨_, getElem?_resolvedInterfaces.2 ⟨d, hd, rfl⟩, List.mem_map_of_mem ht⟩

/-- A vertex on a cycle reaches itself, so every cycle is one that an interface leads into. -/
theorem coherent_iff (hp : p.declaredNames.Nodup) :
    (∀ i < p.resolvedInterfaces.length, Coherent p.resolvedInterfaces i) ↔
      (∀ i, ¬ TransGen p.NamesEmbedded i i) ∧
      (∀ d ∈ p.interfaces, (d.methods.map (·.name)).Nodup) ∧
      ∀ i j k d e, ReflTransGen p.NamesEmbedded i j → ReflTransGen p.NamesEmbedded i k →
        p.interfaces[j]? = some d → p.interfaces[k]? = some e → ∀ s ∈ d.methods, ∀ t ∈ e.methods,
          s.name = t.name → d.resolveMethod s = e.resolveMethod t := by
  have hnames (d : InterfaceDecl) :
      (d.resolve p.names).methods.map (·.name) = d.methods.map (·.name) := by
    simp only [InterfaceDecl.resolve, List.map_map, Function.comp_def, Signature.markParams_name]
  have hlength : p.resolvedInterfaces.length = p.interfaces.length := List.length_map _
  rw [hlength]
  constructor
  · intro h
    have hlt {i : InterfaceId} {d : InterfaceDecl} (hd : p.interfaces[i]? = some d) :
        i < p.interfaces.length := (List.getElem?_eq_some_iff.1 hd).1
    refine ⟨fun i hi ↦ ?_, fun d hd ↦ ?_, fun i j k d e hij hik hd he s hs t ht hst ↦ ?_⟩
    · obtain ⟨j, ⟨d, _, _, hd, -⟩, -⟩ := TransGen.head'_iff.1 hi
      exact (h i (hlt hd)).acyclic i .refl (embeds_eq hp ▸ hi)
    · obtain ⟨i, hi⟩ := List.mem_iff_getElem?.1 hd
      have hone := (h i (hlt hi)).declaredOnce i _ .refl
        (getElem?_resolvedInterfaces.2 ⟨d, hi, rfl⟩)
      rwa [hnames] at hone
    · have hi : i < p.interfaces.length := by
        rcases ReflTransGen.cases_head hij with rfl | ⟨_, ⟨_, _, _, hi, -⟩, -⟩
        · exact hlt hd
        · exact hlt hi
      refine (h i hi).agree _ _ ⟨j, by rwa [Reaches, embeds_eq hp], ?_⟩
        ⟨k, by rwa [Reaches, embeds_eq hp], ?_⟩ (by simpa using hst)
      · exact declares_iff.2 ⟨d, hd, s, hs, rfl⟩
      · exact declares_iff.2 ⟨e, he, t, ht, rfl⟩
  · rintro ⟨hacyclic, honce, hagree⟩ i -
    refine ⟨fun j _ ↦ embeds_eq hp ▸ hacyclic j, fun j r _ hr ↦ ?_, ?_⟩
    · obtain ⟨d, hd, rfl⟩ := getElem?_resolvedInterfaces.1 hr
      rw [hnames]
      exact honce d (List.mem_of_getElem? hd)
    · rintro s t ⟨j, hij, hs⟩ ⟨k, hik, ht⟩ hst
      rw [Reaches, embeds_eq hp] at hij hik
      obtain ⟨d, hd, s', hs', rfl⟩ := declares_iff.1 hs
      obtain ⟨e, he, t', ht', rfl⟩ := declares_iff.1 ht
      exact hagree i j k d e hij hik hd he s' hs' t' ht' (by simpa using hst)

theorem occurring_known_iff {params : List String} {s : Signature} :
    (∀ name ∈ s.occurring params, p.Knows name) ↔ ∀ name args,
      .named name args ∈ s.parts → (args = [] ∧ name ∈ params) ∨ p.Knows name := by
  simp only [Signature.mem_occurring, forall_exists_index, and_imp]
  refine forall₂_congr fun name args ↦ forall_congr' fun _ ↦ ?_
  rw [or_iff_not_imp_left]

theorem problems_eq_nil_iff : p.problems = [] ↔ p.Valid := by
  rw [problems, List.append_eq_nil_iff, reportUnknown_eq_nil_iff, namingProblems_eq_nil_iff,
    flattening, flatten_problems_eq_nil_iff _ p.embedsInRange]
  constructor
  · intro hx
    obtain ⟨⟨⟨hnames, hreceivers, hmethods⟩, hinterfaces, htypes⟩, hcoherent⟩ := hx
    obtain ⟨hacyclic, honce, hagree⟩ := (coherent_iff hnames).1 hcoherent
    exact {
      declaredNames := hnames
      receivers := hreceivers
      methods := hmethods
      interfaceTypes := fun d hd s hs ↦ occurring_known_iff.1 ((hinterfaces d hd).1 s hs)
      methodTypes := fun m hm name args h ↦
        (occurring_known_iff.1 (htypes m hm) name args h).resolve_left fun h ↦ by cases h.2
      embeds := fun d hd name hname ↦ by
        obtain ⟨id, hid⟩ := (hinterfaces d hd).2 name hname
        obtain ⟨e, he, hen⟩ := declaration_of_interface? hid
        exact ⟨e, List.mem_of_getElem? he, hen⟩
      acyclic := hacyclic
      declaredOnce := honce
      agree := hagree }
  · intro h
    refine ⟨⟨⟨h.declaredNames, h.receivers, h.methods⟩, fun d hd ↦ ⟨fun s hs ↦ ?_, fun name hname ↦ ?_⟩,
      fun m hm ↦ ?_⟩, ?_⟩
    · exact occurring_known_iff.2 (h.interfaceTypes d hd s hs)
    · obtain ⟨e, he, hen⟩ := h.embeds d hd name hname
      obtain ⟨id, hid⟩ := List.mem_iff_getElem?.1 he
      exact ⟨id, (interface?_iff h.declaredNames).2 ⟨e, hid, hen⟩⟩
    · exact occurring_known_iff.2 fun name args hn ↦ .inr (h.methodTypes m hm name args hn)
    · exact (coherent_iff h.declaredNames).2 ⟨h.acyclic, h.declaredOnce, h.agree⟩

theorem edges_eq_ok_iff {policy : ReceiverPolicy} {es : EdgeSet} :
    p.edges policy = .ok es ↔ p.problems = [] ∧ p.edgeSet policy = es := by
  unfold edges
  split <;> rename_i h <;> simp [h]

theorem edges_eq_edgeSet (policy : ReceiverPolicy) (h : p.problems = []) :
    p.edges policy = .ok (p.edgeSet policy) :=
  edges_eq_ok_iff.2 ⟨h, rfl⟩

/-- Checking a program finds nothing if and only if the program is valid, and just then its edges
are computed. -/
theorem problems_nil_and_edges_iff_valid (p : Program) :
    (p.problems = [] ↔ p.Valid) ∧
      ∀ policy, (∃ es, p.edges policy = .ok es) ↔ p.Valid := by
  refine ⟨problems_eq_nil_iff, fun policy ↦ ?_⟩
  simp only [edges_eq_ok_iff, exists_and_left, exists_eq', and_true, problems_eq_nil_iff]

end Program

end Conformance

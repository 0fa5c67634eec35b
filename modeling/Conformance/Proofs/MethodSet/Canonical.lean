import Conformance.Proofs.Grammar.RoundTrip
import Conformance.Proofs.Grammar.UniqueText
import Conformance.Proofs.MethodSet
import Mathlib.Logic.Relation

namespace Conformance

open Relation

variable {shapes : Shapes} {ms ns : List Signature} {es fs : List Descriptor} {d d' x : Descriptor}
  {s : Signature}

/-- The type brings the method along: it is a method of an inline interface, of one nested in it, or
of a declared interface that it embeds. -/
inductive Descriptor.Brings (shapes : Shapes) : Descriptor → Signature → Prop
  | own {ms : List Signature} {es : List Descriptor} {s : Signature} (h : s ∈ ms) :
      Brings shapes (.interface ms es) s
  | embedded {ms : List Signature} {es : List Descriptor} {e : Descriptor} {s : Signature}
      (he : e ∈ es) (h : Brings shapes e s) : Brings shapes (.interface ms es) s
  | declared {name : String} {required : List Signature} {s : Signature}
      (hname : shapes.lookup name = some required) (h : s ∈ required) :
      Brings shapes (.simple name) s

def Descriptor.Unexpandable (shapes : Shapes) : Descriptor → Prop
  | .interface _ _ => False
  | .named name [] => shapes.lookup name = none
  | _ => True

/-- The second type stays in the first one without an expansion. -/
inductive Descriptor.Leaves (shapes : Shapes) : Descriptor → Descriptor → Prop
  | self {d : Descriptor} (h : d.Unexpandable shapes) : Leaves shapes d d
  | embedded {ms : List Signature} {es : List Descriptor} {e x : Descriptor} (he : e ∈ es)
      (h : Leaves shapes e x) : Leaves shapes (.interface ms es) x

theorem Descriptor.brings_interface : (interface ms es).Brings shapes s ↔
    s ∈ ms ∨ ∃ e ∈ es, e.Brings shapes s := by
  constructor
  · intro h
    cases h with
    | own h => exact .inl h
    | embedded he h => exact .inr ⟨_, he, h⟩
  · rintro (h | ⟨e, he, h⟩)
    · exact .own h
    · exact .embedded he h

theorem Descriptor.leaves_interface : (interface ms es).Leaves shapes x ↔
    ∃ e ∈ es, e.Leaves shapes x := by
  constructor
  · intro h
    cases h with
    | self h => exact h.elim
    | embedded he h => exact ⟨_, he, h⟩
  · rintro ⟨e, he, h⟩
    exact .embedded he h

theorem Descriptor.mem_collected_iff : s ∈ d.collected shapes ↔ d.Brings shapes s := by
  induction d with
  | interface ms es _ ih =>
    rw [Descriptor.collected, allCollected_eq_flatMap, List.mem_append, List.mem_flatMap,
      Descriptor.brings_interface]
    exact or_congr_right (exists_congr fun e ↦ and_congr_right fun he ↦ ih e he)
  | named name args _ =>
    cases args with
    | nil =>
      rw [Descriptor.collected]
      constructor
      · intro h
        cases hname : shapes.lookup name with
        | none => simp [hname] at h
        | some required => exact .declared hname (by simpa [hname] using h)
      · intro h
        cases h with
        | declared hname h => simpa [hname] using h
    | cons a as =>
      refine iff_of_false List.not_mem_nil fun h ↦ ?_
      cases h
  | _ =>
    refine iff_of_false List.not_mem_nil fun h ↦ ?_
    cases h

theorem Descriptor.brings_declared {name : String} {required : List Signature}
    (hname : shapes.lookup name = some required) :
    (simple name).Brings shapes s ↔ s ∈ required := by
  rw [← Descriptor.mem_collected_iff, Descriptor.collected, hname, Option.getD_some]

theorem Descriptor.unexpanded_of_unexpandable (h : d.Unexpandable shapes) :
    d.unexpanded shapes = [d] := by
  cases d with
  | interface ms es => exact h.elim
  | named name args =>
    cases args with
    | nil =>
      have hname : shapes.lookup name = none := h
      rw [Descriptor.unexpanded, hname]
      rfl
    | cons a as => rfl
  | _ => rfl

theorem Descriptor.mem_unexpanded_iff : x ∈ d.unexpanded shapes ↔ d.Leaves shapes x := by
  constructor
  · intro hx
    induction d with
    | interface ms es _ ih =>
      rw [Descriptor.unexpanded, allUnexpanded_eq_flatMap, List.mem_flatMap] at hx
      obtain ⟨e, he, hx⟩ := hx
      exact .embedded he (ih e he hx)
    | named name args _ =>
      cases args with
      | nil =>
        rw [Descriptor.unexpanded] at hx
        split at hx
        · cases hx
        · rename_i hname
          rw [List.mem_singleton.1 hx]
          exact .self (Option.not_isSome_iff_eq_none.1 hname)
      | cons a as =>
        rw [List.mem_singleton.1 hx]
        exact .self trivial
    | _ =>
      rw [List.mem_singleton.1 hx]
      exact .self trivial
  · intro h
    induction h with
    | self h => simp [Descriptor.unexpanded_of_unexpandable h]
    | embedded he _ ih =>
      rw [Descriptor.unexpanded, allUnexpanded_eq_flatMap, List.mem_flatMap]
      exact ⟨_, he, ih⟩

theorem Descriptor.not_leaves_declared {name : String} {required : List Signature}
    (hname : shapes.lookup name = some required) : ¬ (simple name).Leaves shapes x := by
  rw [← Descriptor.mem_unexpanded_iff, Descriptor.unexpanded, hname]
  exact List.not_mem_nil

/-- One spelling of an inline interface for another: its elements in another order or another number
of times, those of a nested inline interface among those around it, the methods of a declared
interface in its place, or any of this in a nested inline interface. -/
inductive Descriptor.Regroups (shapes : Shapes) : Descriptor → Descriptor → Prop
  | rearranged {ms ms' : List Signature} {es es' : List Descriptor} (hms : ∀ s, s ∈ ms ↔ s ∈ ms')
      (hes : ∀ e, e ∈ es ↔ e ∈ es') : Regroups shapes (.interface ms es) (.interface ms' es')
  | opened {ms ns : List Signature} {es fs : List Descriptor} :
      Regroups shapes (.interface ms (.interface ns fs :: es)) (.interface (ms ++ ns) (fs ++ es))
  | spelledOut {ms required : List Signature} {es : List Descriptor} {name : String}
      (hname : shapes.lookup name = some required) :
      Regroups shapes (.interface ms (.simple name :: es)) (.interface (ms ++ required) es)
  | nested {ms : List Signature} {es : List Descriptor} {e e' : Descriptor}
      (h : Regroups shapes e e') :
      Regroups shapes (.interface ms (e :: es)) (.interface ms (e' :: es))

/-- The types have the same elements, by changes of spelling in either direction. -/
abbrev Descriptor.Regrouped (shapes : Shapes) : Descriptor → Descriptor → Prop :=
  EqvGen (Descriptor.Regroups shapes)

/-- An embedded element can move into a nested inline interface, or out of it. -/
theorem Descriptor.Regrouped.moved {e : Descriptor} :
    Regrouped shapes (.interface ms (.interface ns (e :: fs) :: es))
      (.interface ms (e :: .interface ns fs :: es)) := by
  have hopened : Regrouped shapes (.interface ms (.interface ns (e :: fs) :: es))
      (.interface (ms ++ ns) (e :: fs ++ es)) := .rel _ _ .opened
  have hrearranged : Regrouped shapes (.interface (ms ++ ns) (e :: fs ++ es))
      (.interface (ms ++ ns) (fs ++ e :: es)) :=
    .rel _ _ (.rearranged (fun _ ↦ .rfl) fun _ ↦ List.perm_middle.mem_iff.symm)
  have hclosed : Regrouped shapes (.interface (ms ++ ns) (fs ++ e :: es))
      (.interface ms (.interface ns fs :: e :: es)) := .symm _ _ (.rel _ _ .opened)
  have hswapped : Regrouped shapes (.interface ms (.interface ns fs :: e :: es))
      (.interface ms (e :: .interface ns fs :: es)) :=
    .rel _ _ (.rearranged (fun _ ↦ .rfl) (by simp [or_left_comm]))
  exact (hopened.trans _ _ _ hrearranged).trans _ _ _ (hclosed.trans _ _ _ hswapped)

structure Descriptor.SameElements (shapes : Shapes) (d d' : Descriptor) : Prop where
  brings : ∀ s, d.Brings shapes s ↔ d'.Brings shapes s
  leaves : ∀ x, d.Leaves shapes x ↔ d'.Leaves shapes x

theorem Descriptor.Regroups.sameElements (h : d.Regroups shapes d') :
    d.SameElements shapes d' := by
  induction h with
  | rearranged hms hes =>
    refine ⟨fun s ↦ ?_, fun x ↦ ?_⟩
    · simp only [Descriptor.brings_interface, hms, hes]
    · simp only [Descriptor.leaves_interface, hes]
  | opened =>
    refine ⟨fun s ↦ ?_, fun x ↦ ?_⟩
    · simp only [Descriptor.brings_interface, List.mem_append, List.mem_cons, or_and_right,
        exists_or, exists_eq_left, or_assoc]
    · simp only [Descriptor.leaves_interface, List.mem_append, List.mem_cons, or_and_right,
        exists_or, exists_eq_left]
  | spelledOut hname =>
    refine ⟨fun s ↦ ?_, fun x ↦ ?_⟩
    · simp only [Descriptor.brings_interface, Descriptor.brings_declared hname, List.mem_append,
        List.mem_cons, or_and_right, exists_or, exists_eq_left, or_assoc]
    · simp only [Descriptor.leaves_interface, Descriptor.not_leaves_declared hname, List.mem_cons,
        or_and_right, exists_or, exists_eq_left, false_or]
  | nested _ ih =>
    refine ⟨fun s ↦ ?_, fun x ↦ ?_⟩
    · simp only [Descriptor.brings_interface, List.mem_cons, or_and_right, exists_or,
        exists_eq_left, ih.brings]
    · simp only [Descriptor.leaves_interface, List.mem_cons, or_and_right, exists_or,
        exists_eq_left, ih.leaves]

theorem Descriptor.Regrouped.sameElements (h : Regrouped shapes d d') :
    d.SameElements shapes d' := by
  induction h with
  | rel _ _ h => exact h.sameElements
  | refl => exact ⟨fun _ ↦ .rfl, fun _ ↦ .rfl⟩
  | symm _ _ _ ih => exact ⟨fun s ↦ (ih.brings s).symm, fun x ↦ (ih.leaves x).symm⟩
  | trans _ _ _ _ _ ih ih' =>
    exact ⟨fun s ↦ (ih.brings s).trans (ih'.brings s), fun x ↦ (ih.leaves x).trans (ih'.leaves x)⟩

/-- The type stands in a text: it is all of it, or a type in a signature whose type parameters are
marked (none of them for a method of a type), or stands inside such a type. -/
inductive Descriptor.FromText : Descriptor → Prop
  | type {text : String} {d : Descriptor} (h : Descriptor.parse text = .ok d) : FromText d
  | signature {text : String} {s : Signature} {d : Descriptor} (owner : String)
      (params : List String) (h : Signature.parse text = .ok s)
      (hd : d ∈ (s.markParams owner params).types) : FromText d
  | inside {d x : Descriptor} (h : FromText d) (hx : x ∈ d.parts) : FromText x

/-- Marking changes only types that mention type parameters, so the others are what was read. -/
theorem Descriptor.FromText.regular (h : d.FromText) (hparams : d.mentionsParam = false) :
    d.Regular := by
  have hparts : ∀ x ∈ d.parts, x.mentionsParam = false → x.Regular := by
    clear hparams
    induction h with
    | type h =>
      intro x hx _ y hy
      exact (Descriptor.readableIn_of_parse h).regular y (Descriptor.mem_parts_trans hx hy)
    | signature owner params h hd =>
      intro x hx hparams
      rw [Signature.markParams_types] at hd
      obtain ⟨d', hd', rfl⟩ := List.mem_map.1 hd
      obtain ⟨y, hy, rfl⟩ := Descriptor.exists_of_mem_parts_markParams hx
      have hregular : y.Regular := fun z hz ↦
        ((Signature.readableIn_of_parse h).2 d' hd').regular z (Descriptor.mem_parts_trans hy hz)
      rwa [hregular.ordered.markParams_eq_self_of_not_mentionsParam hparams]
    | inside _ hx ih => exact fun y hy ↦ ih y (Descriptor.mem_parts_trans hx hy)
  exact hparts d d.self_mem_parts hparams

/-- Methods are told apart by their names and types without an expansion by their texts. -/
structure Descriptor.Unambiguous (shapes : Shapes) (d : Descriptor) : Prop where
  methods : ∀ s t, d.Brings shapes s → d.Brings shapes t → s.name = t.name → s = t
  texts : ∀ x y, d.Leaves shapes x → d.Leaves shapes y → x.render = y.render → x = y

theorem Descriptor.SameElements.unambiguous (h : d.SameElements shapes d')
    (hd : d.Unambiguous shapes) : d'.Unambiguous shapes where
  methods s t hs ht := hd.methods s t ((h.brings s).2 hs) ((h.brings t).2 ht)
  texts x y hx hy := hd.texts x y ((h.leaves x).2 hx) ((h.leaves y).2 hy)

theorem Descriptor.Regular.eq_of_leaves {y : Descriptor} (hd : d.Regular)
    (hx : d.Leaves shapes x) (hy : d.Leaves shapes y) (h : x.render = y.render) : x = y := by
  have hregular (z : Descriptor) (hz : d.Leaves shapes z) : z.Regular := fun w hw ↦
    hd w (Descriptor.mem_parts_trans
      (Descriptor.mem_parts_of_mem_unexpanded (Descriptor.mem_unexpanded_iff.2 hz)) hw)
  exact (hregular x hx).eq_of_render_eq (hregular y hy) h

namespace MethodSet

/-- The set has the methods that the type brings along, in the order of their names, and the types
that it leaves, in the order of their texts. -/
structure IsCanonical (shapes : Shapes) (set : MethodSet) (d : Descriptor) : Prop where
  sorted : SortedByName set.methods
  methods : ∀ s, s ∈ set.methods ↔ d.Brings shapes s
  ascending : set.unexpanded.Pairwise (·.render < ·.render)
  unexpanded : ∀ x, x ∈ set.unexpanded ↔ d.Leaves shapes x

variable {set set' : MethodSet}

theorem IsCanonical.nodup (h : set.IsCanonical shapes d) : set.unexpanded.Nodup := by
  refine h.ascending.imp fun {x y} hlt he ↦ ?_
  rw [he] at hlt
  exact String.lt_irrefl _ hlt

theorem IsCanonical.unique (h : set.IsCanonical shapes d) (h' : set'.IsCanonical shapes d')
    (hsame : d.SameElements shapes d') : set' = set := by
  have hmethods : set'.methods = set.methods := by
    apply SortedByName.ext h'.sorted h.sorted
    intro s
    rw [h'.methods, h.methods, hsame.brings]
  have hunexpanded : set'.unexpanded = set.unexpanded := by
    apply eq_of_pairwise_key Descriptor.render h'.ascending h.ascending
    intro x
    rw [h'.unexpanded, h.unexpanded, hsame.leaves]
  cases set
  cases set'
  exact congrArg₂ MethodSet.mk hmethods hunexpanded

theorem isCanonical_ofElements (h : (Descriptor.interface ms es).Unambiguous shapes) :
    (ofElements shapes ms es).IsCanonical shapes (.interface ms es) := by
  have hcollected : ∀ s ∈ [] ++ (Descriptor.interface ms es).collected shapes,
      ∀ t ∈ [] ++ (Descriptor.interface ms es).collected shapes, s.name = t.name → s = t :=
    fun s hs t ht ↦
      h.methods s t (Descriptor.mem_collected_iff.1 hs) (Descriptor.mem_collected_iff.1 ht)
  rw [ofElements_eq]
  refine ⟨sortedByName_insertMethods .nil, fun s ↦ ?_, pairwise_inOrder fun x hx y hy ↦ ?_,
    fun x ↦ mem_inOrder.trans Descriptor.mem_unexpanded_iff⟩
  · rw [mem_insertMethods_of_agree hcollected, Descriptor.mem_collected_iff,
      or_iff_right List.not_mem_nil]
  · exact h.texts x y (Descriptor.mem_unexpanded_iff.1 hx) (Descriptor.mem_unexpanded_iff.1 hy)

/-- The method set of an inline interface is also that of all other spellings. -/
theorem ofElements_canonical (hread : (Descriptor.interface ms es).FromText)
    (hparams : (Descriptor.interface ms es).mentionsParam = false)
    (hagree : ∀ s t, (Descriptor.interface ms es).Brings shapes s →
      (Descriptor.interface ms es).Brings shapes t → s.name = t.name → s = t) :
    (ofElements shapes ms es).IsCanonical shapes (.interface ms es) ∧
      (ofElements shapes ms es).unexpanded.Nodup ∧
      ∀ ns fs, Descriptor.Regrouped shapes (.interface ms es) (.interface ns fs) →
        ofElements shapes ns fs = ofElements shapes ms es := by
  have hunambiguous : (Descriptor.interface ms es).Unambiguous shapes :=
    ⟨hagree, fun _ _ ↦ (hread.regular hparams).eq_of_leaves⟩
  have hcanonical := isCanonical_ofElements hunambiguous
  refine ⟨hcanonical, hcanonical.nodup, fun ns fs h ↦ ?_⟩
  have hsame := h.sameElements
  exact hcanonical.unique (isCanonical_ofElements (hsame.unambiguous hunambiguous)) hsame

def writerShapes : Shapes := [("Writer", [⟨"Write", [], [.simple "int"], false⟩])]

/-- A type without an expansion stands in a nested inline interface and beside it, and the method of
a declared interface in place of the interface. -/
theorem ofElements_canonical_writer :
    ofElements writerShapes [⟨"Write", [], [.simple "int"], false⟩] [.simple "Closer"] =
      ofElements writerShapes []
        [.interface [] [.simple "Closer", .simple "Writer"], .simple "Closer"] := by
  set d : Descriptor :=
    .interface [] [.interface [] [.simple "Closer", .simple "Writer"], .simple "Closer"] with hd
  have hread : d.FromText := by
    have hcloser {n : Nat} : (Descriptor.simple "Closer").ReadableIn (n + 1) :=
      Descriptor.readableIn_simple (by decide) rfl
    have hwriter {n : Nat} : (Descriptor.simple "Writer").ReadableIn (n + 1) :=
      Descriptor.readableIn_simple (by decide) rfl
    have hinner {n : Nat} : (Descriptor.interface []
        [.simple "Closer", .simple "Writer"]).ReadableIn (n + 2) := by
      refine Descriptor.readableIn_of_children ⟨.nil, List.forall_mem_nil _⟩ ?_
      exact List.forall_mem_cons.2 ⟨hcloser, List.forall_mem_singleton.2 hwriter⟩
    have hreadable : d.ReadableIn nestingLimit := by
      refine Descriptor.readableIn_of_children ⟨.nil, List.forall_mem_nil _⟩ ?_
      exact List.forall_mem_cons.2 ⟨hinner, List.forall_mem_singleton.2 hcloser⟩
    apply Descriptor.FromText.type (hreadable.parse_render_iff.2 ⟨?_, ?_⟩)
    · simp [hd, Descriptor.ChannelsApart, Descriptor.parts, Descriptor.ChannelLevel, or_imp,
        forall_and]
    · simp [hd, Descriptor.FieldsReadable, Descriptor.parts, Descriptor.FieldLevel, or_imp,
        forall_and]
  have hagree : ∀ s t, d.Brings writerShapes s → d.Brings writerShapes t → s.name = t.name →
      s = t := by
    have hbrings (s : Signature) (h : d.Brings writerShapes s) :
        s = ⟨"Write", [], [.simple "int"], false⟩ :=
      List.mem_singleton.1 (Descriptor.mem_collected_iff.2 h)
    exact fun s t hs ht _ ↦ (hbrings s hs).trans (hbrings t ht).symm
  have hmoved : Descriptor.Regrouped writerShapes d
      (.interface [] [.simple "Closer", .interface [] [.simple "Writer"], .simple "Closer"]) :=
    Descriptor.Regrouped.moved
  have hrearranged : Descriptor.Regrouped writerShapes
      (.interface [] [.simple "Closer", .interface [] [.simple "Writer"], .simple "Closer"])
      (.interface [] [.interface [] [.simple "Writer"], .simple "Closer"]) :=
    .rel _ _ (.rearranged (fun _ ↦ .rfl) (by simp))
  have hopened : Descriptor.Regrouped writerShapes
      (.interface [] [.interface [] [.simple "Writer"], .simple "Closer"])
      (.interface [] [.simple "Writer", .simple "Closer"]) := .rel _ _ .opened
  have hspelledOut : Descriptor.Regrouped writerShapes
      (.interface [] [.simple "Writer", .simple "Closer"])
      (.interface [⟨"Write", [], [.simple "int"], false⟩] [.simple "Closer"]) :=
    .rel _ _ (.spelledOut rfl)
  obtain ⟨-, -, hsame⟩ := ofElements_canonical hread rfl hagree
  apply hsame
  exact (hmoved.trans _ _ _ hrearranged).trans _ _ _ (hopened.trans _ _ _ hspelledOut)

end MethodSet

end Conformance

import Conformance.MethodSet
import Conformance.Proofs.Descriptor
import Mathlib.Data.List.Forall2

/-!
One level of a type. `Descriptor.outline` is a type without the types inside; types are alike under
a relation if their outlines are equal and the relation holds between the types inside. They match
if they are alike once their inline interfaces are expanded to the method sets.
-/

namespace Conformance

theorem map_const_eq_iff {α β : Type} {as bs : List α} {b : β} :
    (as.map fun _ ↦ b) = (bs.map fun _ ↦ b) ↔ as.length = bs.length := by
  rw [List.map_const', List.map_const', List.replicate_inj]
  simp

section

variable {α β γ δ : Type} {R : α → β → Prop}

theorem forall₂_append_iff {as as' : List α} {bs bs' : List β} (h : as.length = bs.length) :
    List.Forall₂ R (as ++ as') (bs ++ bs') ↔ List.Forall₂ R as bs ∧ List.Forall₂ R as' bs' := by
  induction as generalizing bs with
  | nil =>
    obtain rfl := List.length_eq_zero_iff.1 h.symm
    simp
  | cons a as ih =>
    cases bs with
    | nil => cases h
    | cons b bs =>
      simp only [List.cons_append, List.forall₂_cons, ih (Nat.succ.inj h), and_assoc]

theorem exists_of_forall₂_right {as : List α} {bs : List β} (h : List.Forall₂ R as bs) :
    ∀ b ∈ bs, ∃ a ∈ as, R a b := by
  induction h with
  | nil => exact List.forall_mem_nil _
  | @cons a b as bs hab _ ih =>
    refine List.forall_mem_cons.2 ⟨⟨a, List.mem_cons_self, hab⟩, fun b' hb' ↦ ?_⟩
    obtain ⟨a', ha', h⟩ := ih b' hb'
    exact ⟨a', List.mem_cons_of_mem _ ha', h⟩

theorem forall₂_trans {T : γ → δ → Prop} {Q : α → γ → Prop} {Q' : β → δ → Prop} {as : List α}
    {bs : List β} {cs : List γ} {ds : List δ} (h : List.Forall₂ R as bs)
    (h' : List.Forall₂ T cs ds) (hq : List.Forall₂ Q as cs)
    (hstep : ∀ {a b c d}, R a b → T c d → Q a c → Q' b d) : List.Forall₂ Q' bs ds := by
  induction h generalizing cs ds with
  | nil =>
    cases hq
    cases h'
    exact .nil
  | cons hab _ ih =>
    cases hq with
    | cons hac hq =>
      cases h' with
      | cons hcd h' => exact .cons (hstep hab hcd hac) (ih h' hq)

end

theorem exists_of_forall₂_left {α β : Type} {R : α → β → Prop} {as : List α} {bs : List β}
    (h : List.Forall₂ R as bs) : ∀ a ∈ as, ∃ b ∈ bs, R a b :=
  exists_of_forall₂_right (List.Forall₂.flip (R := flip R) h)

section

variable {α β : Type} {R Q : α → β → Prop} {as : List α} {bs : List β}

theorem forall₂_imp_of_mem (h : List.Forall₂ R as bs) (himp : ∀ a ∈ as, ∀ b, R a b → Q a b) :
    List.Forall₂ Q as bs := by
  induction h with
  | nil => exact .nil
  | cons hab _ ih =>
    obtain ⟨ha, has⟩ := List.forall_mem_cons.1 himp
    exact .cons (ha _ hab) (ih has)

theorem map_eq_of_forall₂ {γ : Type} {f : α → γ} {g : β → γ} (h : List.Forall₂ R as bs)
    (hfg : ∀ a b, R a b → f a = g b) : as.map f = bs.map g := by
  induction h with
  | nil => rfl
  | cons hab _ ih => rw [List.map_cons, List.map_cons, hfg _ _ hab, ih]

theorem exists_getElem?_of_forall₂ (h : List.Forall₂ R as bs) {i : Nat} {a : α}
    (ha : as[i]? = some a) : ∃ b, bs[i]? = some b ∧ R a b := by
  obtain ⟨hi, rfl⟩ := List.getElem?_eq_some_iff.1 ha
  have hi' : i < bs.length := h.length_eq ▸ hi
  exact ⟨bs[i], List.getElem?_eq_getElem hi', h.get hi hi'⟩

theorem forall₂_lookup {T : β → β → Prop} {xs ys : List (String × β)}
    (h : List.Forall₂ (fun x y ↦ x.1 = y.1 ∧ T x.2 y.2) xs ys) (key : String) :
    Option.Rel T (xs.lookup key) (ys.lookup key) := by
  induction h with
  | nil => exact .none
  | cons hxy _ ih =>
    rw [List.lookup_cons, List.lookup_cons, ← hxy.1]
    split
    · exact .some hxy.2
    · exact ih

theorem forall₂_zip_zip {γ δ : Type} {T : γ → δ → Prop} {cs : List γ} {ds : List δ}
    (h : List.Forall₂ R as bs) (h' : List.Forall₂ T cs ds) :
    List.Forall₂ (fun x y ↦ R x.1 y.1 ∧ T x.2 y.2) (as.zip cs) (bs.zip ds) := by
  induction h generalizing cs ds with
  | nil => exact .nil
  | cons hab _ ih =>
    cases h' with
    | nil => exact .nil
    | cons hcd h' => exact .cons ⟨hab, hcd⟩ (ih h')

end

variable {R : Descriptor → Descriptor → Prop} {s t : Signature}

def Signature.form (s : Signature) : Signature :=
  ⟨s.name, s.params.map fun _ ↦ .emptyInterface, s.results.map fun _ ↦ .emptyInterface, s.variadic⟩

/-- The signatures differ only in their types, and those are related. -/
structure Signature.Matches (R : Descriptor → Descriptor → Prop) (s t : Signature) : Prop where
  form : s.form = t.form
  types : List.Forall₂ R s.types t.types

theorem Signature.form_eq_iff : s.form = t.form ↔ (s.name = t.name ∧ s.variadic = t.variadic) ∧
    s.params.length = t.params.length ∧ s.results.length = t.results.length := by
  rw [Signature.form, Signature.form, Signature.mk.injEq, map_const_eq_iff, map_const_eq_iff]
  grind

theorem Signature.matches_iff : s.Matches R t ↔ (s.name = t.name ∧ s.variadic = t.variadic) ∧
    List.Forall₂ R s.params t.params ∧ List.Forall₂ R s.results t.results := by
  constructor
  · intro h
    obtain ⟨hform, htypes⟩ := h
    obtain ⟨hname, hparams, -⟩ := Signature.form_eq_iff.1 hform
    exact ⟨hname, (forall₂_append_iff hparams).1 htypes⟩
  · intro h
    obtain ⟨hname, hparams, hresults⟩ := h
    exact ⟨Signature.form_eq_iff.2 ⟨hname, hparams.length_eq, hresults.length_eq⟩,
      (forall₂_append_iff hparams.length_eq).2 ⟨hparams, hresults⟩⟩

theorem Signature.Matches.name (h : s.Matches R t) : s.name = t.name :=
  (Signature.matches_iff.1 h).1.1

theorem Signature.Matches.eq (h : s.Matches Eq t) : s = t := by
  obtain ⟨name, ps, rs, variadic⟩ := s
  obtain ⟨name', ps', rs', variadic'⟩ := t
  obtain ⟨⟨hname, hvariadic⟩, hparams, hresults⟩ := Signature.matches_iff.1 h
  rw [List.forall₂_eq_eq_eq] at hparams hresults
  rw [Signature.mk.injEq]
  exact ⟨hname, hparams, hresults, hvariadic⟩

theorem Signature.length_types_of_form (h : s.form = t.form) :
    s.types.length = t.types.length := by
  obtain ⟨-, hparams, hresults⟩ := Signature.form_eq_iff.1 h
  rw [Signature.types, Signature.types, List.length_append, List.length_append, hparams, hresults]

theorem length_flatMap_types_of_forms {ms ns : List Signature}
    (h : ms.map Signature.form = ns.map Signature.form) :
    (ms.flatMap Signature.types).length = (ns.flatMap Signature.types).length := by
  have hsum (ss : List Signature) : (ss.flatMap Signature.types).length =
      ((ss.map Signature.form).map fun s ↦ s.types.length).sum := by
    simp [List.length_flatMap, Signature.form, Signature.types, Function.comp_def]
  rw [hsum, hsum, h]

theorem forall₂_matches_iff {ms ns : List Signature} :
    List.Forall₂ (Signature.Matches R) ms ns ↔ ms.map Signature.form = ns.map Signature.form ∧
      List.Forall₂ R (ms.flatMap Signature.types) (ns.flatMap Signature.types) := by
  induction ms generalizing ns with
  | nil => cases ns <;> simp
  | cons s ms ih =>
    cases ns with
    | nil => simp
    | cons t ns =>
      rw [List.forall₂_cons, ih, List.map_cons, List.map_cons, List.cons.injEq, List.flatMap_cons,
        List.flatMap_cons]
      constructor
      · intro h
        obtain ⟨⟨hform, htypes⟩, hforms, hall⟩ := h
        exact ⟨⟨hform, hforms⟩,
          (forall₂_append_iff (Signature.length_types_of_form hform)).2 ⟨htypes, hall⟩⟩
      · intro h
        obtain ⟨⟨hform, hforms⟩, hall⟩ := h
        obtain ⟨htypes, hall⟩ :=
          (forall₂_append_iff (Signature.length_types_of_form hform)).1 hall
        exact ⟨⟨hform, htypes⟩, hforms, hall⟩

namespace Descriptor

def outline : Descriptor → Descriptor
  | .named name args => .named name (args.map fun _ ↦ .emptyInterface)
  | .param name owner => .param name owner
  | .pointer _ => .pointer .emptyInterface
  | .slice _ => .slice .emptyInterface
  | .array len _ => .array len .emptyInterface
  | .map _ _ => .map .emptyInterface .emptyInterface
  | .chan dir _ => .chan dir .emptyInterface
  | .func ps rs variadic =>
    .func (ps.map fun _ ↦ .emptyInterface) (rs.map fun _ ↦ .emptyInterface) variadic
  | .interface ms es => .interface (ms.map Signature.form) (es.map fun _ ↦ .emptyInterface)
  | .struct fs => .struct (fs.map fun f ↦ ⟨f.name, .emptyInterface⟩)

/-- The types have equal outlines, and the types inside are related. -/
structure Alike (R : Descriptor → Descriptor → Prop) (d d' : Descriptor) : Prop where
  outline : d.outline = d'.outline
  children : List.Forall₂ R d.children d'.children

/-- An inline interface with the elements of its method set; other types stay. -/
def expand (shapes : Shapes) : Descriptor → Descriptor
  | .interface ms es =>
    .interface (MethodSet.ofElements shapes ms es).methods
      (MethodSet.ofElements shapes ms es).unexpanded
  | d => d

abbrev expanded (shapes : Shapes) (d : Descriptor) : List Descriptor := (d.expand shapes).children

abbrev Matches (shapes shapes' : Shapes) (R : Descriptor → Descriptor → Prop)
    (d d' : Descriptor) : Prop := (d.expand shapes).Alike R (d'.expand shapes')

variable {shapes shapes' : Shapes} {d d' : Descriptor}

theorem matches_named {m n : String} {as bs : List Descriptor} :
    (named m as).Matches shapes shapes' R (.named n bs) ↔ m = n ∧ List.Forall₂ R as bs := by
  constructor
  · intro h
    obtain ⟨houtline, hargs⟩ := h
    exact ⟨(named.inj houtline).1, hargs⟩
  · intro h
    obtain ⟨rfl, hargs⟩ := h
    exact ⟨congrArg (named m) (map_const_eq_iff.2 hargs.length_eq), hargs⟩

theorem matches_pointer : (pointer d).Matches shapes shapes' R (.pointer d') ↔ R d d' :=
  ⟨fun h ↦ (List.forall₂_cons.1 h.children).1, fun h ↦ ⟨rfl, .cons h .nil⟩⟩

theorem matches_slice : (slice d).Matches shapes shapes' R (.slice d') ↔ R d d' :=
  ⟨fun h ↦ (List.forall₂_cons.1 h.children).1, fun h ↦ ⟨rfl, .cons h .nil⟩⟩

theorem matches_array {m n : String} :
    (array m d).Matches shapes shapes' R (.array n d') ↔ m = n ∧ R d d' := by
  constructor
  · intro hx
    obtain ⟨houtline, hchildren⟩ := hx
    exact ⟨(array.inj houtline).1, (List.forall₂_cons.1 hchildren).1⟩
  · intro hx
    obtain ⟨rfl, h⟩ := hx
    exact ⟨rfl, .cons h .nil⟩

theorem matches_map {k l v w : Descriptor} :
    (map k v).Matches shapes shapes' R (.map l w) ↔ R k l ∧ R v w := by
  constructor
  · intro h
    obtain ⟨-, hchildren⟩ := h
    obtain ⟨hkey, hvalue⟩ := List.forall₂_cons.1 hchildren
    exact ⟨hkey, (List.forall₂_cons.1 hvalue).1⟩
  · intro h
    obtain ⟨hkey, hvalue⟩ := h
    exact ⟨rfl, .cons hkey (.cons hvalue .nil)⟩

theorem matches_chan {m n : Direction} :
    (chan m d).Matches shapes shapes' R (.chan n d') ↔ m = n ∧ R d d' := by
  constructor
  · intro hx
    obtain ⟨houtline, hchildren⟩ := hx
    exact ⟨(chan.inj houtline).1, (List.forall₂_cons.1 hchildren).1⟩
  · intro hx
    obtain ⟨rfl, h⟩ := hx
    exact ⟨rfl, .cons h .nil⟩

theorem matches_func {ps qs rs as : List Descriptor} {v w : Bool} :
    (func ps rs v).Matches shapes shapes' R (.func qs as w) ↔
      v = w ∧ List.Forall₂ R ps qs ∧ List.Forall₂ R rs as := by
  constructor
  · intro h
    obtain ⟨houtline, hchildren⟩ := h
    obtain ⟨hparams, -, hvariadic⟩ := func.inj houtline
    exact ⟨hvariadic, (forall₂_append_iff (map_const_eq_iff.1 hparams)).1 hchildren⟩
  · intro h
    obtain ⟨rfl, hparams, hresults⟩ := h
    refine ⟨?_, (forall₂_append_iff hparams.length_eq).2 ⟨hparams, hresults⟩⟩
    exact congrArg₂ (func · · v) (map_const_eq_iff.2 hparams.length_eq)
      (map_const_eq_iff.2 hresults.length_eq)

theorem alike_interface {ms ns : List Signature} {es fs : List Descriptor} :
    (interface ms es).Alike R (.interface ns fs) ↔
      List.Forall₂ (Signature.Matches R) ms ns ∧ List.Forall₂ R es fs := by
  rw [forall₂_matches_iff]
  constructor
  · intro h
    obtain ⟨hforms, hembeds⟩ := interface.inj h.outline
    have hlength := length_flatMap_types_of_forms hforms
    obtain ⟨htypes, hall⟩ := (forall₂_append_iff hlength).1 h.children
    exact ⟨⟨hforms, htypes⟩, hall⟩
  · intro h
    obtain ⟨⟨hforms, htypes⟩, hembeds⟩ := h
    refine ⟨?_, (forall₂_append_iff htypes.length_eq).2 ⟨htypes, hembeds⟩⟩
    rw [Descriptor.outline, Descriptor.outline, hforms, map_const_eq_iff.2 hembeds.length_eq]

theorem matches_interface {ms ns : List Signature} {es fs : List Descriptor} :
    (interface ms es).Matches shapes shapes' R (.interface ns fs) ↔
      List.Forall₂ (Signature.Matches R) (MethodSet.ofElements shapes ms es).methods
          (MethodSet.ofElements shapes' ns fs).methods ∧
        List.Forall₂ R (MethodSet.ofElements shapes ms es).unexpanded
          (MethodSet.ofElements shapes' ns fs).unexpanded :=
  alike_interface

theorem matches_struct {fs gs : List Field} :
    (struct fs).Matches shapes shapes' R (.struct gs) ↔
      List.Forall₂ (fun f g ↦ f.name = g.name ∧ R f.type g.type) fs gs := by
  have hfields : List.Forall₂ (fun f g ↦ f.name = g.name ∧ R f.type g.type) fs gs ↔
      (fs.map fun f ↦ (⟨f.name, .emptyInterface⟩ : Field)) =
          (gs.map fun f ↦ ⟨f.name, .emptyInterface⟩) ∧
        List.Forall₂ R (fs.map (·.type)) (gs.map (·.type)) := by
    induction fs generalizing gs with
    | nil => cases gs <;> simp
    | cons f fs ih =>
      cases gs with
      | nil => simp
      | cons g gs =>
        simp only [List.forall₂_cons, ih, List.map_cons, List.cons.injEq, Field.mk.injEq, and_true]
        grind
  rw [hfields]
  constructor
  · intro h
    obtain ⟨houtline, hchildren⟩ := h
    exact ⟨struct.inj houtline, hchildren⟩
  · intro h
    obtain ⟨hnames, htypes⟩ := h
    exact ⟨congrArg struct hnames, htypes⟩

theorem Alike.eq (h : d.Alike Eq d') : d = d' := by
  have houtline := h.outline
  have hchildren := h.children
  rw [List.forall₂_eq_eq_eq] at hchildren
  cases d with
  | named name args =>
    cases d' with
    | named name' args' => exact congrArg₂ named (named.inj houtline).1 hchildren
    | _ => cases houtline
  | func ps rs variadic =>
    cases d' with
    | func ps' rs' variadic' =>
      obtain ⟨hparams, -, rfl⟩ := func.inj houtline
      obtain ⟨rfl, rfl⟩ := List.append_inj hchildren (map_const_eq_iff.1 hparams)
      rfl
    | _ => cases houtline
  | interface ms es =>
    cases d' with
    | interface ns fs =>
      obtain ⟨hmethods, hembeds⟩ := alike_interface.1 h
      have hmethods : List.Forall₂ Eq ms ns := hmethods.imp fun _ _ ↦ Signature.Matches.eq
      rw [List.forall₂_eq_eq_eq] at hmethods hembeds
      rw [hmethods, hembeds]
    | _ => cases houtline
  | struct fs =>
    cases d' with
    | struct gs =>
      have hmatches : (struct fs).Matches [] [] Eq (.struct gs) := h
      have hfields : List.Forall₂ Eq fs gs := by
        refine (matches_struct.1 hmatches).imp fun f g hfield ↦ ?_
        cases f
        cases g
        exact congrArg₂ Field.mk hfield.1 hfield.2
      rw [List.forall₂_eq_eq_eq] at hfields
      rw [hfields]
    | _ => cases houtline
  | _ =>
    cases d' <;> cases houtline
    cases hchildren
    rfl

end Descriptor

end Conformance

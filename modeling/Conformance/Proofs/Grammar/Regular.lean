import Conformance.Grammar.Types
import Conformance.Proofs.Descriptor
import Conformance.Proofs.Grammar.Yield
import Conformance.Proofs.Marking

namespace Conformance

open Token

def IsTypeName (name : String) : Prop :=
  IsIdentifier name ∨ ∃ a b, IsIdentifier a ∧ IsIdentifier b ∧ name = a ++ "." ++ b

structure Signature.Regular (s : Signature) : Prop where
  name : IsIdentifier s.name
  variadic : s.variadic → s.params ≠ []

/-- What a type can be that stands in a struct without a name. -/
def Descriptor.Embeddable : Descriptor → Prop
  | .named _ _ | .pointer _ | .interface [] [] => True
  | _ => False

def Field.Regular : Field → Prop
  | ⟨some name, _⟩ => IsIdentifier name
  | ⟨none, d⟩ => d.Embeddable

/-- A descriptor of this form can be read, leaving aside the types inside. -/
def Descriptor.RegularLevel : Descriptor → Prop
  | .named name args => IsTypeName name ∧ ofName name args = .named name args
  | .param _ _ => False
  | .array len _ => IsNumber len
  | .func ps _ variadic => variadic → ps ≠ []
  | .interface ms _ => ms.Pairwise (·.name ≤ ·.name) ∧ ∀ s ∈ ms, s.Regular
  | .struct fs => ∀ f ∈ fs, f.Regular
  | .pointer _ | .slice _ | .map _ _ | .chan _ _ => True

def Descriptor.Regular (d : Descriptor) : Prop := ∀ x ∈ d.parts, x.RegularLevel

theorem Descriptor.Regular.ordered {d : Descriptor} (h : d.Regular) : d.Ordered := by
  intro x hx
  have hx := h x hx
  cases x with
  | interface ms es => exact hx.1
  | _ => trivial

theorem Descriptor.Regular.level {d : Descriptor} (h : d.Regular) : d.RegularLevel :=
  h d d.self_mem_parts

structure Descriptor.ReadableIn (n : Nat) (d : Descriptor) : Prop where
  regular : d.Regular
  depth : d.depth ≤ n

theorem Descriptor.readableIn_of_children {n : Nat} {d : Descriptor} (hd : d.RegularLevel)
    (h : ∀ c ∈ d.children, c.ReadableIn n) : d.ReadableIn (n + 1) :=
  ⟨Descriptor.forall_parts.2 ⟨hd, fun c hc ↦ (h c hc).regular⟩,
    Descriptor.depth_le.2 fun c hc ↦ (h c hc).depth⟩

theorem Descriptor.readableIn_simple {n : Nat} {name : String} (hname : IsIdentifier name)
    (halias : ofName name [] = simple name) : (simple name).ReadableIn (n + 1) :=
  Descriptor.readableIn_of_children ⟨.inl hname, halias⟩ (List.forall_mem_nil _)

namespace Parser

section

variable {ts rest : List Placed} {type : Parser Descriptor} {Q : Descriptor → Prop}

theorem Yields.signature (h : Yields type Q) :
    Yields (signature type) fun s ↦ s.Regular ∧ ∀ d ∈ s.types, Q d := by
  intro ts s rest hts hs
  simp only [Parser.signature, bind_eq_ok, Prod.exists, pure_eq_ok, Prod.mk.injEq] at hs
  obtain ⟨name, ts₁, h₁, ps, variadic, ts₂, h₂, rs, ts₃, h₃, rfl, rfl⟩ := hs
  obtain ⟨hname, hts₁⟩ := Yields.identifier _ _ _ hts h₁
  obtain ⟨⟨hv, hps⟩, hts₂⟩ := h.parameters _ _ _ hts₁ h₂
  obtain ⟨hrs, hts₃⟩ := h.results _ _ _ hts₂ h₃
  exact ⟨⟨⟨hname, hv⟩, List.forall_mem_append.2 ⟨hps, hrs⟩⟩, hts₃⟩

theorem Yields.typeList (h : Yields type Q) : Yields (typeList type) fun ds ↦ ∀ d ∈ ds, Q d := by
  refine Yields.rounds fun ts x rest hts hx ↦ ?_
  split at hx
  · cases hx
    exact ⟨List.forall_mem_nil _, (wellSpelled_cons.1 hts).2⟩
  · simp only [bind_eq_ok, Prod.exists] at hx
    obtain ⟨d, ts', hd, hx⟩ := hx
    obtain ⟨hq, hts'⟩ := h _ _ _ hts hd
    split at hx
    · cases hx
      exact ⟨by simpa using hq, (wellSpelled_cons.1 hts').2⟩
    · simp only [bind_eq_ok, Prod.exists, pure_eq_ok, Prod.mk.injEq] at hx
      obtain ⟨_, ts'', he, rfl, rfl⟩ := hx
      exact ⟨by simpa using hq, (Yields.expect _ _ _ _ hts' he).2⟩

theorem Yields.typeArguments (h : Yields type Q) :
    Yields (typeArguments type) fun ds ↦ ∀ d ∈ ds, Q d := by
  intro ts ds rest hts hx
  unfold Parser.typeArguments at hx
  split at hx
  · exact h.typeList _ _ _ (wellSpelled_cons.1 hts).2 hx
  · cases hx
    exact ⟨List.forall_mem_nil _, hts⟩

theorem Yields.qualifiedName {name : String} (hname : IsIdentifier name) :
    Yields (qualifiedName name) IsTypeName := by
  intro ts x rest hts hx
  unfold Parser.qualifiedName at hx
  split at hx
  · simp only [bind_eq_ok, Prod.exists, pure_eq_ok, Prod.mk.injEq] at hx
    obtain ⟨member, ts', hm, rfl, rfl⟩ := hx
    obtain ⟨hm, hts'⟩ := Yields.identifier _ _ _ (wellSpelled_cons.1 hts).2 hm
    exact ⟨.inr ⟨name, member, hname, hm, rfl⟩, hts'⟩
  · cases hx
    exact ⟨.inl hname, hts⟩

theorem WellSpelled.skipSemis (h : WellSpelled ts) : WellSpelled (skipSemis ts) := by
  fun_induction Parser.skipSemis ts with
  | case1 start stop ts ih => exact ih (wellSpelled_cons.1 h).2
  | case2 ts => exact h

theorem WellSpelled.skipTag (h : WellSpelled ts) : WellSpelled (skipTag ts) := by
  unfold Parser.skipTag
  split
  · exact (wellSpelled_cons.1 h).2
  · exact h

theorem Yields.endElement : Yields endElement fun _ ↦ True := by
  intro ts x rest hts hx
  unfold Parser.endElement at hx
  split at hx
  · cases hx
    exact ⟨trivial, (wellSpelled_cons.1 hts).2⟩
  · split at hx
    · cases hx
      exact ⟨trivial, hts⟩
    · cases hx

theorem Yields.body {α : Type} {P : α → Prop} {element : Parser (List α)}
    (h : Yields element fun xs ↦ ∀ x ∈ xs, P x) : Yields (body element) fun xs ↦ ∀ x ∈ xs, P x := by
  refine Yields.rounds fun ts x rest hts hx ↦ ?_
  have hts := hts.skipSemis
  split at hx
  · rename_i heq
    rw [heq] at hts
    cases hx
    exact ⟨List.forall_mem_nil _, (wellSpelled_cons.1 hts).2⟩
  · simp only [bind_eq_ok, Prod.exists, pure_eq_ok, Prod.mk.injEq] at hx
    obtain ⟨xs, ts₁, hxs, _, ts₂, he, rfl, rfl⟩ := hx
    obtain ⟨hxs, hts₁⟩ := h _ _ _ hts hxs
    exact ⟨hxs, (Yields.endElement _ _ _ hts₁ he).2⟩

def Element.Holds (Q : Descriptor → Prop) : Element → Prop
  | .method s => s.Regular ∧ ∀ d ∈ s.types, Q d
  | .embed d => Q d

theorem Yields.interfaceElement (h : Yields type Q) :
    Yields (interfaceElement type) fun es ↦ ∀ e ∈ es, e.Holds Q := by
  intro ts es rest hts hx
  unfold Parser.interfaceElement at hx
  split at hx
  · simp only [bind_eq_ok, Prod.exists, pure_eq_ok, Prod.mk.injEq] at hx
    obtain ⟨s, ts', hs, rfl, rfl⟩ := hx
    obtain ⟨hs, hts'⟩ := h.signature _ _ _ hts hs
    exact ⟨List.forall_mem_singleton.2 hs, hts'⟩
  · split at hx
    · cases hx
    · simp only [bind_eq_ok, Prod.exists] at hx
      obtain ⟨d, ts', hd, hx⟩ := hx
      obtain ⟨hq, hts'⟩ := h _ _ _ hts hd
      split at hx
      · cases hx
      · cases hx
        exact ⟨List.forall_mem_singleton.2 hq, hts'⟩

theorem Yields.moreNames : Yields moreNames fun names ↦ ∀ name ∈ names, IsIdentifier name := by
  refine Yields.rounds fun ts x rest hts hx ↦ ?_
  split at hx
  · simp only [bind_eq_ok, Prod.exists, pure_eq_ok, Prod.mk.injEq] at hx
    obtain ⟨name, ts', hname, rfl, rfl⟩ := hx
    obtain ⟨hname, hts'⟩ := Yields.identifier _ _ _ (wellSpelled_cons.1 hts).2 hname
    exact ⟨List.forall_mem_singleton.2 hname, hts'⟩
  · cases hx
    exact ⟨List.forall_mem_nil _, hts⟩

end

def StartsEmbeddable (ts : List Placed) : Prop :=
  ∃ t ts', ts = t :: ts' ∧ ((∃ name, t.token = .ident name) ∨ t.token = .mark .star)

structure ReadsTypes (n : Nat) (type : Parser Descriptor) : Prop where
  yields : Yields type (Descriptor.ReadableIn n)
  embeddable : ∀ ts d rest, StartsEmbeddable ts → type ts = .ok (d, rest) → d.Embeddable

variable {n : Nat} {type : Parser Descriptor}

theorem Yields.interfaceBody (h : Yields type (Descriptor.ReadableIn n)) :
    Yields (interfaceBody type) (Descriptor.ReadableIn (n + 1)) := by
  intro ts d rest hts hx
  simp only [Parser.interfaceBody, bind_eq_ok, Prod.exists, pure_eq_ok, Prod.mk.injEq] at hx
  obtain ⟨elements, ts', he, rfl, rfl⟩ := hx
  obtain ⟨he, hts'⟩ := (Yields.body h.interfaceElement) _ _ _ hts he
  refine ⟨Descriptor.readableIn_of_children ⟨?_, fun s hs ↦ ?_⟩ fun c hc ↦ ?_, hts'⟩
  · exact pairwise_mergeSort_key Signature.name _
  · obtain ⟨e, hmem, hs⟩ := List.mem_filterMap.1 (List.mem_mergeSort.1 hs)
    cases e with
    | method s' => cases hs; exact (he _ hmem).1
    | embed d => cases hs
  · rcases List.mem_append.1 hc with hc | hc
    · obtain ⟨s, hs, hc⟩ := List.mem_flatMap.1 hc
      obtain ⟨e, hmem, hs⟩ := List.mem_filterMap.1 (List.mem_mergeSort.1 hs)
      cases e with
      | method s' => cases hs; exact (he _ hmem).2 c hc
      | embed d => cases hs
    · obtain ⟨e, hmem, hc⟩ := List.mem_filterMap.1 hc
      cases e with
      | method s' => cases hc
      | embed d => cases hc; exact he _ hmem

theorem Yields.structElement (h : ReadsTypes n type) :
    Yields (structElement type) fun fs ↦ ∀ f ∈ fs, f.Regular ∧ f.type.ReadableIn n := by
  intro ts fs rest hts hx
  unfold Parser.structElement at hx
  split at hx
  · rename_i name start stop ts'
    obtain ⟨hname, hts'⟩ := wellSpelled_cons.1 hts
    split at hx
    · simp only [bind_eq_ok, Prod.exists, pure_eq_ok, Prod.mk.injEq] at hx
      obtain ⟨names, ts₁, hnames, d, ts₂, hd, rfl, rfl⟩ := hx
      obtain ⟨hnames, hts₁⟩ := Yields.moreNames _ _ _ hts' hnames
      obtain ⟨hd, hts₂⟩ := h.yields _ _ _ hts₁ hd
      refine ⟨fun f hf ↦ ?_, hts₂.skipTag⟩
      obtain ⟨x, hx, rfl⟩ := List.mem_map.1 hf
      rcases List.mem_cons.1 hx with rfl | hx
      · exact ⟨hname, hd⟩
      · exact ⟨hnames x hx, hd⟩
    · split at hx
      · simp only [bind_eq_ok, Prod.exists, pure_eq_ok, Prod.mk.injEq] at hx
        obtain ⟨d, ts₁, hd, rfl, rfl⟩ := hx
        obtain ⟨hd, hts₁⟩ := h.yields _ _ _ hts' hd
        exact ⟨List.forall_mem_singleton.2 ⟨hname, hd⟩, hts₁.skipTag⟩
      · simp only [bind_eq_ok, Prod.exists, pure_eq_ok, Prod.mk.injEq] at hx
        obtain ⟨d, ts₁, hread, rfl, rfl⟩ := hx
        obtain ⟨hd, hts₁⟩ := h.yields _ _ _ hts hread
        have hembed := h.embeddable _ _ _ ⟨_, _, rfl, .inl ⟨name, rfl⟩⟩ hread
        exact ⟨List.forall_mem_singleton.2 ⟨hembed, hd⟩, hts₁.skipTag⟩
  · split at hx
    · rename_i hstar
      simp only [bind_eq_ok, Prod.exists, pure_eq_ok, Prod.mk.injEq] at hx
      obtain ⟨d, ts₁, hread, rfl, rfl⟩ := hx
      obtain ⟨hd, hts₁⟩ := h.yields _ _ _ hts hread
      have hstarts : StartsEmbeddable ts := by
        cases ts with
        | nil => cases hstar
        | cons t ts => exact ⟨t, ts, rfl, .inr (by simpa [startsWith] using hstar)⟩
      have hembed := h.embeddable _ _ _ hstarts hread
      exact ⟨List.forall_mem_singleton.2 ⟨hembed, hd⟩, hts₁.skipTag⟩
    · cases hx

theorem Yields.structBody (h : ReadsTypes n type) :
    Yields (structBody type) (Descriptor.ReadableIn (n + 1)) := by
  intro ts d rest hts hx
  simp only [Parser.structBody, bind_eq_ok, Prod.exists, pure_eq_ok, Prod.mk.injEq] at hx
  obtain ⟨fields, ts', hf, rfl, rfl⟩ := hx
  obtain ⟨hf, hts'⟩ := (Yields.body (Yields.structElement h)) _ _ _ hts hf
  refine ⟨Descriptor.readableIn_of_children (fun f hmem ↦ (hf f hmem).1) fun c hc ↦ ?_, hts'⟩
  obtain ⟨f, hmem, rfl⟩ := List.mem_map.1 hc
  exact (hf f hmem).2

theorem ofName_cases (name : String) (args : List Descriptor) :
    Descriptor.ofName name args = .named name args ∨
      Descriptor.ofName name args = .simple "uint8" ∨
      Descriptor.ofName name args = .simple "int32" ∨
      Descriptor.ofName name args = .emptyInterface := by
  unfold Descriptor.ofName
  split <;> simp

theorem readableIn_ofName {name : String} {args : List Descriptor} (hname : IsTypeName name)
    (hargs : ∀ d ∈ args, d.ReadableIn n) : (Descriptor.ofName name args).ReadableIn (n + 1) := by
  rcases ofName_cases name args with h | h | h | h <;> rw [h]
  · exact Descriptor.readableIn_of_children ⟨hname, h⟩ hargs
  · have hword : IsWord "uint8" := by decide
    exact Descriptor.readableIn_of_children ⟨.inl ⟨hword, rfl⟩, rfl⟩ (List.forall_mem_nil _)
  · have hword : IsWord "int32" := by decide
    exact Descriptor.readableIn_of_children ⟨.inl ⟨hword, rfl⟩, rfl⟩ (List.forall_mem_nil _)
  · exact Descriptor.readableIn_of_children ⟨.nil, List.forall_mem_nil _⟩ (List.forall_mem_nil _)

theorem embeddable_ofName (name : String) (args : List Descriptor) :
    (Descriptor.ofName name args).Embeddable := by
  rcases ofName_cases name args with h | h | h | h <;> rw [h] <;> trivial

theorem Yields.typeLevel (h : ReadsTypes n type) :
    Yields (typeLevel type) (Descriptor.ReadableIn (n + 1)) := by
  have hmap {d : Descriptor} (hd : d.RegularLevel) (hc : ∀ c ∈ d.children, c.ReadableIn n) :
      d.ReadableIn (n + 1) := Descriptor.readableIn_of_children hd hc
  intro ts d rest hspelled hx
  cases ts with
  | nil => cases hx
  | cons t ts =>
    obtain ⟨token, start, stop⟩ := t
    obtain ⟨htoken, hts⟩ := wellSpelled_cons.1 hspelled
    cases token with
    | int digits => cases hx
    | tag text => cases hx
    | ident name =>
      simp only [Parser.typeLevel, bind_eq_ok, Prod.exists, pure_eq_ok, Prod.mk.injEq] at hx
      obtain ⟨name, ts₁, h₁, args, ts₂, h₂, rfl, rfl⟩ := hx
      obtain ⟨hname, hts₁⟩ := Yields.qualifiedName htoken _ _ _ hts h₁
      obtain ⟨hargs, hts₂⟩ := h.yields.typeArguments _ _ _ hts₁ h₂
      exact ⟨readableIn_ofName hname hargs, hts₂⟩
    | mark m =>
      cases m with
      | star =>
        simp only [Parser.typeLevel, bind_eq_ok, Prod.exists, pure_eq_ok, Prod.mk.injEq] at hx
        obtain ⟨e, ts₁, h₁, rfl, rfl⟩ := hx
        obtain ⟨he, hts₁⟩ := h.yields _ _ _ hts h₁
        exact ⟨hmap trivial (List.forall_mem_singleton.2 he), hts₁⟩
      | lbracket =>
        simp only [Parser.typeLevel] at hx
        split at hx
        · simp only [bind_eq_ok, Prod.exists, pure_eq_ok, Prod.mk.injEq] at hx
          obtain ⟨e, ts₁, h₁, rfl, rfl⟩ := hx
          obtain ⟨he, hts₁⟩ := h.yields _ _ _ (wellSpelled_cons.1 hts).2 h₁
          exact ⟨hmap trivial (List.forall_mem_singleton.2 he), hts₁⟩
        · simp only [bind_eq_ok, Prod.exists, pure_eq_ok, Prod.mk.injEq] at hx
          obtain ⟨_, ts₁, h₁, e, ts₂, h₂, rfl, rfl⟩ := hx
          obtain ⟨hlen, hts'⟩ := wellSpelled_cons.1 hts
          obtain ⟨-, hts₁⟩ := Yields.expect _ _ _ _ hts' h₁
          obtain ⟨he, hts₂⟩ := h.yields _ _ _ hts₁ h₂
          exact ⟨hmap hlen (List.forall_mem_singleton.2 he), hts₂⟩
        · cases hx
      | map =>
        simp only [Parser.typeLevel, bind_eq_ok, Prod.exists, pure_eq_ok, Prod.mk.injEq] at hx
        obtain ⟨_, ts₁, h₁, k, ts₂, h₂, _, ts₃, h₃, v, ts₄, h₄, rfl, rfl⟩ := hx
        obtain ⟨-, hts₁⟩ := Yields.expect _ _ _ _ hts h₁
        obtain ⟨hk, hts₂⟩ := h.yields _ _ _ hts₁ h₂
        obtain ⟨-, hts₃⟩ := Yields.expect _ _ _ _ hts₂ h₃
        obtain ⟨hv, hts₄⟩ := h.yields _ _ _ hts₃ h₄
        exact ⟨hmap trivial (by simp [Descriptor.children, hk, hv]), hts₄⟩
      | chan =>
        simp only [Parser.typeLevel] at hx
        split at hx
        · simp only [bind_eq_ok, Prod.exists, pure_eq_ok, Prod.mk.injEq] at hx
          obtain ⟨e, ts₁, h₁, rfl, rfl⟩ := hx
          obtain ⟨he, hts₁⟩ := h.yields _ _ _ (wellSpelled_cons.1 hts).2 h₁
          exact ⟨hmap trivial (List.forall_mem_singleton.2 he), hts₁⟩
        · simp only [bind_eq_ok, Prod.exists, pure_eq_ok, Prod.mk.injEq] at hx
          obtain ⟨e, ts₁, h₁, rfl, rfl⟩ := hx
          obtain ⟨he, hts₁⟩ := h.yields _ _ _ hts h₁
          exact ⟨hmap trivial (List.forall_mem_singleton.2 he), hts₁⟩
      | arrow =>
        simp only [Parser.typeLevel, bind_eq_ok, Prod.exists, pure_eq_ok, Prod.mk.injEq] at hx
        obtain ⟨_, ts₁, h₁, e, ts₂, h₂, rfl, rfl⟩ := hx
        obtain ⟨-, hts₁⟩ := Yields.expect _ _ _ _ hts h₁
        obtain ⟨he, hts₂⟩ := h.yields _ _ _ hts₁ h₂
        exact ⟨hmap trivial (List.forall_mem_singleton.2 he), hts₂⟩
      | func =>
        simp only [Parser.typeLevel, bind_eq_ok, Prod.exists, pure_eq_ok, Prod.mk.injEq] at hx
        obtain ⟨ps, variadic, ts₁, h₁, rs, ts₂, h₂, rfl, rfl⟩ := hx
        obtain ⟨⟨hvariadic, hps⟩, hts₁⟩ := h.yields.parameters _ _ _ hts h₁
        obtain ⟨hrs, hts₂⟩ := h.yields.results _ _ _ hts₁ h₂
        exact ⟨hmap hvariadic (List.forall_mem_append.2 ⟨hps, hrs⟩), hts₂⟩
      | interface =>
        simp only [Parser.typeLevel, bind_eq_ok, Prod.exists] at hx
        obtain ⟨_, ts₁, h₁, h₂⟩ := hx
        obtain ⟨-, hts₁⟩ := Yields.expect _ _ _ _ hts h₁
        exact h.yields.interfaceBody _ _ _ hts₁ h₂
      | struct =>
        simp only [Parser.typeLevel, bind_eq_ok, Prod.exists] at hx
        obtain ⟨_, ts₁, h₁, h₂⟩ := hx
        obtain ⟨-, hts₁⟩ := Yields.expect _ _ _ _ hts h₁
        exact Yields.structBody h _ _ _ hts₁ h₂
      | lparen =>
        simp only [Parser.typeLevel, bind_eq_ok, Prod.exists, pure_eq_ok, Prod.mk.injEq] at hx
        obtain ⟨d, ts₁, h₁, _, ts₂, h₂, rfl, rfl⟩ := hx
        obtain ⟨hd, hts₁⟩ := h.yields _ _ _ hts h₁
        obtain ⟨-, hts₂⟩ := Yields.expect _ _ _ _ hts₁ h₂
        exact ⟨⟨hd.regular, Nat.le_succ_of_le hd.depth⟩, hts₂⟩
      | _ => cases hx

theorem typeLevel_reads (h : ReadsTypes n type) : ReadsTypes (n + 1) (typeLevel type) where
  yields := Yields.typeLevel h
  embeddable ts d rest hstarts hx := by
    obtain ⟨⟨token, start, stop⟩, ts, rfl, ⟨name, rfl⟩ | rfl⟩ := hstarts
    · simp only [Parser.typeLevel, bind_eq_ok, Prod.exists, pure_eq_ok, Prod.mk.injEq] at hx
      obtain ⟨name, _, -, args, _, -, rfl, rfl⟩ := hx
      exact embeddable_ofName name args
    · simp only [Parser.typeLevel, bind_eq_ok, Prod.exists, pure_eq_ok, Prod.mk.injEq] at hx
      obtain ⟨d, _, -, rfl, rfl⟩ := hx
      trivial

theorem typeUpTo_reads (n : Nat) : ReadsTypes n (typeUpTo n) := by
  induction n with
  | zero => exact ⟨fun _ _ _ _ hx ↦ (nomatch hx), fun _ _ _ _ hx ↦ (nomatch hx)⟩
  | succ n ih => exact typeLevel_reads ih

end Parser

theorem Descriptor.readableIn_of_parse {text : String} {d : Descriptor} (h : parse text = .ok d) :
    d.ReadableIn nestingLimit :=
  (Parser.typeUpTo_reads nestingLimit).yields.run h

theorem Signature.readableIn_of_parse {text : String} {s : Signature} (h : parse text = .ok s) :
    s.Regular ∧ ∀ d ∈ s.types, d.ReadableIn nestingLimit :=
  (Parser.typeUpTo_reads nestingLimit).yields.signature.run h

end Conformance

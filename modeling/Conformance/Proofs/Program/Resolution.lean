import Conformance.Proofs.Grammar.RoundTrip
import Conformance.Proofs.Marking.Places
import Conformance.Proofs.Program.Reordering

namespace Conformance

/-- The second signature is the first one, resolved in the interface. -/
structure InterfaceDecl.Resolves (d : InterfaceDecl) (s s' : Signature) : Prop where
  marking : s.IsMarking d.displayName d.typeParams s'
  text : s'.render = s.render

theorem InterfaceDecl.resolves {s : Signature} (d : InterfaceDecl) (h : ∀ e ∈ s.types, e.Ordered) :
    d.Resolves s (s.markParams d.displayName d.typeParams) where
  marking := Signature.isMarking h
  text := Signature.render_markParams_of_types fun e he ↦ (h e he).render_markParams

theorem MethodDecl.resolve_eq {m : MethodDecl} (h : ∀ d ∈ m.signature.types, d.Ordered) :
    m.resolve = m.signature :=
  Signature.markParams_eq_self fun d hd ↦ (h d hd).markParams_nil

namespace Program

theorem resolved_signatures {p : Program}
    (parsed : ∀ s ∈ p.signatures, ∃ text, Signature.parse text = .ok s) :
    (∀ m ∈ p.methods, m.resolve = m.signature ∧ m.resolve.render = m.signature.render) ∧
      List.Forall₂ (fun d r ↦ List.Forall₂ d.Resolves d.methods r.methods)
        p.interfaces p.resolvedInterfaces := by
  have hordered : p.Ordered := ordered_of_parsed parsed
  constructor
  · intro m hm
    have hresolve : m.resolve = m.signature :=
      MethodDecl.resolve_eq (hordered _ (mem_signatures_of_method hm))
    exact ⟨hresolve, by rw [hresolve]⟩
  · rw [resolvedInterfaces, List.forall₂_map_right_iff, List.forall₂_same]
    intro d hd
    rw [InterfaceDecl.resolve, List.forall₂_map_right_iff, List.forall₂_same]
    intro s hs
    exact d.resolves (hordered s (mem_signatures_of_interface hd hs))

def crates : Program where
  interfaces := [⟨some "Shelf", ["T"],
    [⟨"Put", [.slice (.simple "T"), .simple "Missing"], [], false⟩], [], none, []⟩]
  types := [⟨"Crate", none⟩]
  methods := [⟨"Crate", .pointer, ⟨"Put", [.simple "T"], [], false⟩, none⟩]

theorem resolved_signatures_crates : crates.problems ≠ [] ∧
    (∀ m ∈ crates.methods, m.resolve = m.signature) ∧
    ∀ r ∈ crates.resolvedInterfaces, ∀ s ∈ r.methods,
      s.render = "Put([]T, Missing)" ∧
        ∃ d ∈ s.types, d.at? [0] = some (.param "T" "Shelf") := by
  have hput : Token.IsIdentifier "Put" := by decide
  have hT : Token.IsIdentifier "T" := by decide
  have hparsed : ∀ s ∈ crates.signatures, ∃ text, Signature.parse text = .ok s := by
    refine List.forall_mem_cons.2 ⟨?_, List.forall_mem_singleton.2 ?_⟩
    · have hslice : (Descriptor.slice (.simple "T")).ReadableIn nestingLimit := by
        refine Descriptor.readableIn_of_children trivial ?_
        exact List.forall_mem_singleton.2 (Descriptor.readableIn_simple hT rfl)
      have hmissing : (Descriptor.simple "Missing").ReadableIn nestingLimit :=
        Descriptor.readableIn_simple (by decide) rfl
      have hparse := Signature.parse_render_iff
        (s := ⟨"Put", [.slice (.simple "T"), .simple "Missing"], [], false⟩) ⟨hput, nofun⟩
        (List.forall_mem_cons.2 ⟨hslice, List.forall_mem_singleton.2 hmissing⟩)
      refine ⟨_, hparse.2 ⟨?_, ?_⟩⟩
      · simp [Signature.types, Descriptor.ChannelsApart, Descriptor.parts, Descriptor.ChannelLevel]
      · simp [Signature.types, Descriptor.FieldsReadable, Descriptor.parts, Descriptor.FieldLevel]
    · exact Signature.exists_text_of_simple hput hT rfl
  obtain ⟨hmethods, hinterfaces⟩ := resolved_signatures hparsed
  refine ⟨by decide, fun m hm ↦ (hmethods m hm).1, ?_⟩
  obtain ⟨hshelf, -⟩ := List.forall₂_cons.1 hinterfaces
  obtain ⟨hresolves, -⟩ := List.forall₂_cons.1 hshelf
  obtain ⟨htype, -⟩ := List.forall₂_cons.1 hresolves.marking.types
  intro r hr s hs
  obtain rfl := List.mem_singleton.1 hr
  obtain rfl := List.mem_singleton.1 hs
  refine ⟨hresolves.text, _, List.mem_cons_self, ?_⟩
  exact htype.marked [0] "T" List.mem_cons_self rfl

end Program

end Conformance

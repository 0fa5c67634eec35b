import Conformance.Proofs.Grammar.Recorded.Grammar
import Conformance.Proofs.Grammar.Recorded.Pace

namespace Conformance

inductive Routine : Type → Type where
  | type : Routine Descriptor
  | level : Routine Descriptor
  | signature : Routine Signature
  | parameters : Routine (List Descriptor × Bool)
  | entries : Routine (List Entry)
  | entry : Routine Entry
  | results : Routine (List Descriptor)
  | qualifiedName (name : String) : Routine String
  | typeArguments : Routine (List Descriptor)
  | typeList : Routine (List Descriptor)
  | interfaceBody : Routine Descriptor
  | interfaceElement : Routine (List Parser.Element)
  | structBody : Routine Descriptor
  | structElement : Routine (List Field)
  | moreNames : Routine (List String)
  | endElement : Routine Unit
  | expect (m : Mark) : Routine Unit
  | identifier : Routine String

namespace Routine

open Conformance.Parser (tokens)
open Conformance.Recorded (Paced Follows Level Agrees Within)

variable {α : Type}

def parser (type : Parser Descriptor) : Routine α → Parser α
  | .type => type
  | .level => Parser.typeLevel type
  | .signature => Parser.signature type
  | .parameters => Parser.parameters type
  | .entries => Parser.entries type
  | .entry => Parser.entry type
  | .results => Parser.results type
  | .qualifiedName name => Parser.qualifiedName name
  | .typeArguments => Parser.typeArguments type
  | .typeList => Parser.typeList type
  | .interfaceBody => Parser.interfaceBody type
  | .interfaceElement => Parser.interfaceElement type
  | .structBody => Parser.structBody type
  | .structElement => Parser.structElement type
  | .moreNames => Parser.moreNames
  | .endElement => Parser.endElement
  | .expect m => Parser.expect m
  | .identifier => Parser.identifier

def recorded (type : Recorded Descriptor) : Routine α → Recorded α
  | .type => type
  | .level => Recorded.typeLevel type
  | .signature => Recorded.signature type
  | .parameters => Recorded.parameters type
  | .entries => Recorded.entries type
  | .entry => Recorded.entry type
  | .results => Recorded.results type
  | .qualifiedName name => Recorded.qualifiedName name
  | .typeArguments => Recorded.typeArguments type
  | .typeList => Recorded.typeList type
  | .interfaceBody => Recorded.interfaceBody type
  | .interfaceElement => Recorded.interfaceElement type
  | .structBody => Recorded.structBody type
  | .structElement => Recorded.structElement type
  | .moreNames => Recorded.moreNames
  | .endElement => Recorded.endElement
  | .expect m => Recorded.expect m
  | .identifier => Recorded.identifier

/-- The same value; recorded entries do not tell where they stand. -/
def Same : Routine α → α → α → Prop
  | .entry => Entry.Alike
  | .entries => List.Forall₂ Entry.Alike
  | _ => Eq

def readsToken : Routine α → Bool
  | .entries | .results | .qualifiedName _ | .typeArguments | .moreNames | .endElement => false
  | _ => true

theorem follows {l : Level} {type : Recorded Descriptor} {type' : Parser Descriptor}
    (h : ∀ ts, Follows l Eq type ts (type' ts)) (r : Routine α) (ts : List Placed) :
    Follows l r.Same (r.recorded type) ts (r.parser type' ts) := by
  cases r with
  | type => exact h ts
  | level => exact .typeLevel h ts
  | signature => exact .signature h ts
  | parameters => exact .parameters h ts
  | entries => exact .entries h ts
  | entry => exact .entry h ts
  | results => exact .results h ts
  | qualifiedName name => exact .qualifiedName name ts
  | typeArguments => exact .typeArguments h ts
  | typeList => exact .typeList h ts
  | interfaceBody => exact .interfaceBody h ts
  | interfaceElement => exact .interfaceElement h ts
  | structBody => exact .structBody h ts
  | structElement => exact .structElement h ts
  | moreNames => exact .moreNames ts
  | endElement => exact .endElement ts
  | expect m => exact .expect
  | identifier => exact .identifier

theorem paced {type : Recorded Descriptor} (h : ∀ n, Paced n type (fun _ ↦ -10) 2) (r : Routine α)
    (n : Nat) : Paced n (r.recorded type) (fun _ ↦ if r.readsToken then -1 else 3) 6 := by
  cases r with
  | type => exact (h n).mono (by simp [readsToken]) (by omega)
  | level =>
    cases n with
    | zero => exact nofun
    | succ n => exact (Paced.typeLevel (h n)).mono (by simp [readsToken]) (by omega)
  | signature => exact (Paced.signature (h n)).mono (by simp [readsToken]) (by omega)
  | parameters => exact (Paced.parameters (h n)).mono (by simp [readsToken]) (by omega)
  | entries => exact (Paced.entries (h n)).mono (fun es ↦ by simp [readsToken]; omega) (by omega)
  | entry => exact (Paced.entry (h n)).mono (by simp [readsToken]) (by omega)
  | results => exact (Paced.results (h n)).mono (by simp [readsToken]) (by omega)
  | qualifiedName name => exact (Paced.qualifiedName name).mono (by simp [readsToken]) (by omega)
  | typeArguments => exact (Paced.typeArguments (h n)).mono (by simp [readsToken]) (by omega)
  | typeList => exact (Paced.typeList (h n)).mono (by simp [readsToken]) (by omega)
  | interfaceBody => exact (Paced.interfaceBody (h n)).mono (by simp [readsToken]) (by omega)
  | interfaceElement => exact (Paced.interfaceElement (h n)).mono (by simp [readsToken]) (by omega)
  | structBody => exact (Paced.structBody (h n)).mono (by simp [readsToken]) (by omega)
  | structElement => exact (Paced.structElement (h n)).mono (by simp [readsToken]) (by omega)
  | moreNames => exact Paced.moreNames.mono (by simp [readsToken]) (by omega)
  | endElement => exact Paced.endElement.mono (by simp [readsToken]) (by omega)
  | expect m => exact (Paced.expect m).mono (by simp [readsToken]) (by omega)
  | identifier => exact Paced.identifier.mono (by simp [readsToken]) (by omega)

/-- The recorded run of a routine inside of `depth` types, from the token at `start`. -/
def run (r : Routine α) (ts : List Placed) (start depth : Nat) : Except Stop α × Cursor :=
  r.recorded (Recorded.type (some nestingLimit)) (.before (tokens (ts.drop start)) depth)

def parserInside (r : Routine α) (depth : Nat) : Parser α :=
  r.parser (Parser.typeUpTo (nestingLimit - depth))

theorem exists_stop {ts : List Placed} {start depth : Nat} {c : Cursor} {b : Int}
    (h : (Cursor.before (tokens (ts.drop start)) depth).Advances c)
    (hspent : c.spent ≤ (Cursor.before (tokens (ts.drop start)) depth).spent + b) :
    ∃ stop, start ≤ stop ∧ stop ≤ max start ts.length ∧ c.rest = tokens (ts.drop stop) ∧
      (c.steps : Int) ≤ 16 * (stop - start) + b := by
  have hlength : c.rest.length ≤ ts.length - start := by
    simpa [Cursor.before, tokens] using h.rest.length_le
  refine ⟨start + (ts.length - start - c.rest.length), by omega, by omega, ?_, ?_⟩
  · have hrest := List.suffix_iff_eq_drop.1 h.rest
    simp only [Cursor.before, tokens, ← List.map_drop, List.drop_drop, List.length_map,
      List.length_drop] at hrest
    exact hrest
  · simp only [Cursor.spent, Cursor.before, tokens, List.length_map, List.length_drop] at hspent
    omega

/-- Every routine comes to an end from every token and inside of every number of types; and what it
reads, or that it refuses, is what the parser does. -/
theorem run_progresses (r : Routine α) (ts : List Placed) (start depth : Nat) :
    ∃ result c stop, r.run ts start depth = (result, c) ∧ result ≠ .error .exhausted ∧
      c.depth = depth ∧ c.rest = tokens (ts.drop stop) ∧
      start ≤ stop ∧ stop ≤ max start ts.length ∧ c.steps ≤ 16 * (stop - start) + 6 ∧
      match result with
      | .ok a =>
        (r.readsToken → start < stop ∧ stop ≤ ts.length) ∧
          ∃ b, r.Same b a ∧ r.parserInside depth (ts.drop start) = .ok (b, ts.drop stop)
      | .error _ => ∃ f, r.parserInside depth (ts.drop start) = .error f := by
  have hpaced : Within (.before (tokens (ts.drop start)) depth)
      (fun _ ↦ if r.readsToken then -1 else 3) 6 (r.run ts start depth) :=
    r.paced (fun n ↦ Paced.type (some nestingLimit)) _ _ (Nat.lt_succ_self _)
  have hlimit : ∀ n ∈ some nestingLimit, nestingLimit ≤ n := fun _ h ↦ (Option.some.inj h).le
  have hfollows := r.follows (Recorded.follows_type hlimit depth) (ts.drop start)
  obtain ⟨hreturns, hagrees⟩ := hfollows (.before (tokens (ts.drop start)) depth) rfl
  have hagrees : Agrees nestingLimit r.Same (ts.drop start) (r.run ts start depth)
      (r.parserInside depth (ts.drop start)) := hagrees rfl (Nat.zero_le _)
  have hdepth : (r.run ts start depth).2.depth = depth := hreturns.depth
  have hwithin : (r.run ts start depth).2.deepest ≤ nestingLimit := by
    have h := hreturns.within nestingLimit rfl
    exact h.trans (by simp [Cursor.before])
  rcases hrun : r.run ts start depth with ⟨result, c⟩
  rw [hrun] at hpaced hagrees hdepth hwithin
  cases hpaced with
  | @read a c h hspent =>
    obtain ⟨stop, hstart, hstop, hrest, hsteps⟩ := exists_stop h hspent
    obtain ⟨b, rest, hparser, hab, hrest', hsuffix⟩ := hagrees.of_ok hwithin
    refine ⟨_, c, stop, rfl, by rintro ⟨⟩, hdepth, hrest, hstart, hstop, ?_, fun hreads ↦ ?_, b, hab, ?_⟩
    · split at hsteps <;> omega
    · rw [if_pos hreads] at hsteps
      omega
    · have hlength : rest.length = (ts.drop stop).length := by
        simpa [tokens] using congrArg List.length (hrest'.symm.trans hrest)
      have hdrop : ts.drop stop <:+ ts.drop start := List.drop_suffix_drop_left ts hstart
      rw [hparser, (List.suffix_of_suffix_length_le hsuffix hdrop hlength.le).eq_of_length hlength]
  | refused h hspent =>
    obtain ⟨stop, hstart, hstop, hrest, hsteps⟩ := exists_stop h hspent
    exact ⟨_, c, stop, rfl, by rintro ⟨⟩, hdepth, hrest, hstart, hstop, by omega, hagrees.of_refused⟩

end Routine

theorem Parser.typeUpTo_shorter {n : Nat} {ts rest : List Placed} {d : Descriptor}
    (h : Parser.typeUpTo n ts = .ok (d, rest)) : rest.length < ts.length := by
  have hunlimited : ∀ m ∈ (none : Option Nat), n ≤ m := nofun
  have hfollows := Recorded.follows_type hunlimited 0 ts
  have hagrees := (hfollows (.before (tokens ts) 0) rfl).2 rfl (Nat.zero_le _)
  have hpaced : Recorded.Paced ((tokens ts).length + 1) (Recorded.type none) _ _ := .type none
  have hwithin := hpaced (.before (tokens ts) 0) (Nat.lt_succ_self _)
  rw [Nat.sub_zero, h] at hagrees
  rcases hrun : Recorded.type none (.before (tokens ts) 0) with ⟨result, c⟩
  rw [hrun] at hagrees hwithin
  cases hagrees with
  | read hab hc hrest hsuffix =>
    cases hwithin with
    | read hadvances hspent =>
      simp only [Cursor.spent, Cursor.before, hrest, tokens, List.length_map] at hspent
      omega
  | exhausted => cases hwithin

end Conformance

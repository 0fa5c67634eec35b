import Conformance.Proofs.Grammar.Recorded.Grammar
import Conformance.Proofs.Grammar.Recorded.Pace
import Conformance.Proofs.Grammar.Regular

namespace Conformance

open Conformance.Parser (tokens)

/-- The recorded parser reads the whole text as `a`, and the types that it reads inside one another
are at most `deepest`. -/
def Recorded.Accepts {α : Type} (m : Recorded α) (text : String) (a : α) (deepest : Nat) : Prop :=
  ∃ ts c, Token.ofText text = .ok ts ∧ m (.before (tokens ts) 0) = (.ok a, c) ∧ c.rest = [] ∧
    c.deepest = deepest

section

variable {α : Type}

/-- A parser that admits `most` types accepts what the parser without a limit reads within them. -/
theorem run_eq_ok_iff_accepts {p : Parser α} {m : Recorded α} {most : Nat}
    (hfollows : ∀ ts, Recorded.Follows ⟨none, most, 0⟩ Eq m ts (p ts))
    {k : α → Int} {b : Int} (hpaced : ∀ n, Recorded.Paced n m k b) (text : String) (a : α) :
    p.run text = .ok a ↔ ∃ deepest ≤ most, m.Accepts text a deepest := by
  rw [Parser.run_eq_ok_iff]
  constructor
  · rintro ⟨ts, hts, hp⟩
    have hagrees := (hfollows ts (.before (tokens ts) 0) rfl).2 rfl (Nat.zero_le _)
    have hends := hpaced _ (.before (tokens ts) 0) (Nat.lt_succ_self _)
    rw [hp] at hagrees
    rcases hrun : m (.before (tokens ts) 0) with ⟨result, c⟩
    rw [hrun] at hagrees hends
    cases hagrees with
    | read hab hc hrest hsuffix =>
      obtain rfl := hab
      exact ⟨c.deepest, hc, ts, c, hts, hrun, hrest, rfl⟩
    | exhausted => cases hends
  · rintro ⟨_, hdeepest, ts, c, hts, hrun, hrest, rfl⟩
    have hagrees := (hfollows ts (.before (tokens ts) 0) rfl).2 rfl (Nat.zero_le _)
    rw [hrun] at hagrees
    obtain ⟨_, rest, hp, rfl, hrest', -⟩ := hagrees.of_ok hdeepest
    obtain rfl : rest = [] := List.map_eq_nil_iff.1 (hrest'.symm.trans hrest)
    exact ⟨ts, hts, hp⟩

end

/-- So the greatest number of types inside one another is the least limit under which a text is
accepted. -/
theorem run_typeUpTo_eq_ok_iff_accepts (most : Nat) (text : String) :
    (∀ d, (Parser.typeUpTo most).run text = .ok d ↔
        ∃ deepest ≤ most, (Recorded.type none).Accepts text d deepest) ∧
      ∀ s, (Parser.signature (Parser.typeUpTo most)).run text = .ok s ↔
        ∃ deepest ≤ most, (Recorded.signature (Recorded.type none)).Accepts text s deepest := by
  have hunlimited : ∀ n ∈ (none : Option Nat), most ≤ n := nofun
  have hfollows := Recorded.follows_type hunlimited 0
  constructor
  · exact run_eq_ok_iff_accepts hfollows (fun _ ↦ .type none) text
  · exact run_eq_ok_iff_accepts (.signature hfollows) (fun _ ↦ .signature (.type none)) text

/-- What is accepted is what the parser without a limit accepts within `nestingLimit` types inside
one another; so descriptors that are read nest no deeper, and neither do they once they are
resolved. -/
theorem parse_eq_ok_iff_accepts (text : String) :
    (∀ d, Descriptor.parse text = .ok d ↔
        ∃ deepest ≤ nestingLimit, (Recorded.type none).Accepts text d deepest) ∧
      (∀ s, Signature.parse text = .ok s ↔ ∃ deepest ≤ nestingLimit,
        (Recorded.signature (Recorded.type none)).Accepts text s deepest) ∧
      (∀ d, Descriptor.parse text = .ok d → d.depth ≤ nestingLimit ∧
        ∀ owner params, (d.markParams owner params).depth = d.depth) ∧
      ∀ s, Signature.parse text = .ok s → s.depth ≤ nestingLimit ∧
        ∀ owner params, (s.markParams owner params).depth = s.depth := by
  obtain ⟨hdescriptor, hsignature⟩ := run_typeUpTo_eq_ok_iff_accepts nestingLimit text
  refine ⟨hdescriptor, hsignature, fun d hd ↦ ⟨?_, fun owner params ↦ d.depth_markParams⟩,
    fun s hs ↦ ⟨?_, fun owner params ↦ s.depth_markParams⟩⟩
  · exact (Descriptor.readableIn_of_parse hd).depth
  · exact Signature.depth_le.2 fun d hd ↦ ((Signature.readableIn_of_parse hs).2 d hd).depth

end Conformance

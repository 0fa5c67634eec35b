import Conformance.Proofs.Grammar.Nesting
import Conformance.Proofs.Token.Tiling

namespace Conformance

open Token

theorem Recorded.Accepts.congr {α : Type} {m : Recorded α} {text text' : String}
    {ts ts' : List Placed} {a : α} {deepest : Nat} (h : m.Accepts text a deepest)
    (hts : ofText text = .ok ts) (hts' : ofText text' = .ok ts')
    (hsame : Parser.tokens ts' = Parser.tokens ts) : m.Accepts text' a deepest := by
  obtain ⟨us, c, hus, hrun, hc⟩ := h
  obtain rfl := Except.ok.inj (hts.symm.trans hus)
  exact ⟨ts', c, hts', by rw [hsame, hrun], hc⟩

theorem toOption_eq_some {ε α : Type} {x : Except ε α} {a : α} :
    x.toOption = some a ↔ x = .ok a := by
  cases x <;> simp [Except.toOption]

theorem parse_congr {text text' : String} {ts ts' : List Placed} (hts : ofText text = .ok ts)
    (hts' : ofText text' = .ok ts') (hsame : Parser.tokens ts' = Parser.tokens ts) :
    (Descriptor.parse text').toOption = (Descriptor.parse text).toOption ∧
      (Signature.parse text').toOption = (Signature.parse text).toOption := by
  have haccepts {α : Type} (m : Recorded α) (a : α) :
      (∃ deepest ≤ nestingLimit, m.Accepts text' a deepest) ↔
        ∃ deepest ≤ nestingLimit, m.Accepts text a deepest :=
    exists_congr fun _ ↦ and_congr_right fun _ ↦
      ⟨fun h ↦ h.congr hts' hts hsame.symm, fun h ↦ h.congr hts hts' hsame⟩
  obtain ⟨hdescriptor, hsignature⟩ := run_typeUpTo_eq_ok_iff_accepts nestingLimit text
  obtain ⟨hdescriptor', hsignature'⟩ := run_typeUpTo_eq_ok_iff_accepts nestingLimit text'
  constructor
  · refine Option.ext fun d ↦ ?_
    rw [toOption_eq_some, toOption_eq_some]
    exact ((hdescriptor' d).trans (haccepts _ d)).trans (hdescriptor d).symm
  · refine Option.ext fun s ↦ ?_
    rw [toOption_eq_some, toOption_eq_some]
    exact ((hsignature' s).trans (haccepts _ s)).trans (hsignature s).symm

theorem Token.Tiles.exists_ofText_spaced {start : Nat} {cs : List Char} {ts : List Placed}
    (h : Tiles start cs ts) {text' : String}
    (htext' : Spaced false (Parser.tokens ts) text'.toList) :
    ∃ ts', ofText text' = .ok ts' ∧ Parser.tokens ts' = Parser.tokens ts := by
  have hspelled : ∀ t ∈ Parser.tokens ts, Spelled (some t) t.text.toList := by
    refine List.forall_mem_map.2 fun t ht ↦ ?_
    obtain ⟨_, s, _, -, -, -, rfl, hlongest⟩ := h.lexeme t ht
    exact hlongest.spelled
  obtain ⟨ts', hts', hsame⟩ := htext'.exists_place hspelled 0
  exact ⟨ts', by rw [ofText, hts'], hsame⟩

/-- The tokens of a text tile it: each of them takes up the characters of the longest lexeme where it
begins, and what is before, between and behind them is blanks and comments. With other blanks and
comments between them the same tokens are read, and a text with the same tokens is parsed as the
same. -/
theorem ofText_lossless {text : String} {ts : List Placed} (h : ofText text = .ok ts) :
    Tiles 0 text.toList ts ∧
      (∀ t ∈ ts, t.start < t.stop ∧ ∃ before s after,
        text.toList = before ++ (s ++ after) ∧ t.start = byteLength before ∧
          t.stop = t.start + byteLength s ∧ t.token.text.toList = s ∧
          IsLongest (some t.token) s (s ++ after)) ∧
      ts.Pairwise (·.stop ≤ ·.start) ∧
      (∀ text', Spaced false (Parser.tokens ts) text'.toList →
        ∃ ts', ofText text' = .ok ts' ∧ Parser.tokens ts' = Parser.tokens ts) ∧
      ∀ text' ts', ofText text' = .ok ts' → Parser.tokens ts' = Parser.tokens ts →
        (Descriptor.parse text').toOption = (Descriptor.parse text).toOption ∧
          (Signature.parse text').toOption = (Signature.parse text).toOption := by
  have htiles := ofText_eq_ok_iff.1 h
  refine ⟨htiles, fun t ht ↦ ⟨(htiles.start_lt_stop t ht).2, ?_⟩, htiles.pairwise,
    fun text' htext' ↦ htiles.exists_ofText_spaced htext',
    fun text' ts' hts' hsame ↦ parse_congr h hts' hsame⟩
  have hlexeme := htiles.lexeme t ht
  simpa only [Nat.zero_add] using hlexeme

theorem ofText_lossless_pointer : ∃ ts, ofText "* // c\nint" = .ok ts ∧
    Parser.tokens ts = [.mark .star, .ident "int"] ∧ Tiles 0 "* // c\nint".toList ts ∧
      (Descriptor.parse "*int").toOption = (Descriptor.parse "* // c\nint").toOption := by
  have hint : IsIdentifier "int" := by decide
  have hgap : Gap false [' ', '/', '/', ' ', 'c', '\n'] :=
    .blank rfl (.comment (show '\n' ∉ [' ', 'c'] by decide) .nil)
  have hspaced : Spaced false [.mark .star, .ident "int"] "* // c\nint".toList :=
    .token .nil (by simp) (.token hgap (by simp) (.last .nil))
  have hus : ∀ t ∈ [Token.mark .star, .ident "int"], Spelled (some t) t.text.toList :=
    List.forall_mem_cons.2 ⟨.mark .star, List.forall_mem_singleton.2 (.ident hint)⟩
  obtain ⟨ts, hts, hmap⟩ := hspaced.exists_place hus 0
  have htext : ofText "* // c\nint" = .ok ts := by rw [ofText, hts]
  obtain ⟨htiles, -, -, -, hparse⟩ := ofText_lossless htext
  have hlexes : Lexes "*int".toList [.mark .star, .ident "int"] :=
    .sign (fun _ ↦ rfl) (.identifier hint (by simp [Breaks]) .nil)
  obtain ⟨ts', hts', hmap'⟩ := hlexes.place 0
  have htext' : ofText "*int" = .ok ts' := by rw [ofText, hts']
  exact ⟨ts, htext, hmap, htiles, (hparse _ _ htext' (hmap'.trans hmap.symm)).1⟩

end Conformance

import Conformance.Proofs.Token.Tiling

namespace Conformance

namespace Token

/-- `before` is tiled, no longer beginning of the text is, and no lexeme begins behind it. -/
structure IsLongestTiled (start : Nat) (before text : List Char) : Prop where
  isPrefix : before <+: text
  tiled : ∃ ts, Tiles start before ts
  longest : ∀ s, s <+: text → (∃ ts, Tiles start s ts) → s <+: before
  noLexeme : ∀ rest, before ++ rest = text → rest ≠ [] ∧ ∀ t s, Spelled t s → ¬ s <+: rest

section

variable {start : Nat} {c : Char} {cs s rest bad : List Char} {t : Option Token}

theorem exists_scan_of_spelled (h : Spelled t s) (hs : s <+: c :: cs) :
    ∃ x, scan c cs = .ok x := by
  obtain ⟨rest, hrest⟩ := hs
  obtain ⟨x, hx, -⟩ := h.scannedAs c cs hrest
  exact ⟨x, hx⟩

theorem IsLongest.of_prefix {text : List Char} (h : IsLongest t s text) (hs : s <+: cs)
    (hcs : cs <+: text) : IsLongest t s cs :=
  ⟨h.spelled, hs, fun t' s' hs' hstart ↦ h.longest t' s' hs' (hstart.trans hcs)⟩

/-- Behind a lexeme the text is placed from where the lexeme stops. -/
theorem IsLongest.place_append (hs : IsLongest t s (s ++ rest)) :
    place start (s ++ rest) = (place (start + byteLength s) rest).map
      fun ts ↦ (t.map (⟨·, start, start + byteLength s⟩)).toList ++ ts := by
  cases t with
  | some t => exact place_isLongest hs
  | none =>
    obtain ⟨c, cs, rfl⟩ := List.exists_cons_of_ne_nil hs.spelled.ne_nil
    have hscan : scan c (cs ++ rest) = .ok ⟨none, c :: cs, rest⟩ := scan_eq_ok_iff.2 ⟨hs, rfl⟩
    rw [List.cons_append, place_of_none hscan rfl]
    cases place (start + byteLength (c :: cs)) rest <;> rfl

theorem IsLongest.tiled_iff (hs : IsLongest t s (s ++ rest)) :
    (∃ ts, Tiles start (s ++ rest) ts) ↔ ∃ ts, Tiles (start + byteLength s) rest ts := by
  constructor
  · rintro ⟨ts, hts⟩
    have hts := hs.place_append.symm.trans hts.place_eq
    cases hrest : place (start + byteLength s) rest with
    | error e =>
      rw [hrest] at hts
      cases hts
    | ok us => exact ⟨us, tiles_of_place hrest⟩
  · rintro ⟨us, hus⟩
    exact ⟨_, tiles_of_place (by rw [hs.place_append, hus.place_eq, Except.map])⟩

theorem place_of_error (h : scan c cs = .error bad) :
    place start (c :: cs) = .error (start, bad) := by
  rw [place]
  split
  · rename_i he
    rw [Except.error.inj (h.symm.trans he)]
  · rename_i he
    cases h.symm.trans he

theorem isLongestTiled_nil (h : scan c cs = .error bad) : IsLongestTiled start [] (c :: cs) where
  isPrefix := List.nil_prefix
  tiled := ⟨[], .last .nil⟩
  longest s hs htiled := by
    obtain ⟨ts, hts⟩ := htiled
    cases s with
    | nil => exact List.prefix_rfl
    | cons d s =>
      obtain ⟨x, hx⟩ := exists_scan_of_place hts.place_eq
      obtain ⟨htext, -⟩ := scan_append hx
      have hstart : x.text <+: c :: cs := (htext ▸ List.prefix_append x.text x.rest).trans hs
      obtain ⟨y, hy⟩ := exists_scan_of_spelled (scan_spelled hx) hstart
      cases hy.symm.trans h
  noLexeme rest hrest := by
    obtain rfl : rest = c :: cs := hrest
    refine ⟨List.cons_ne_nil c cs, fun t s hs hstart ↦ ?_⟩
    obtain ⟨x, hx⟩ := exists_scan_of_spelled hs hstart
    cases hx.symm.trans h

theorem IsLongestTiled.append {before : List Char} (hs : IsLongest t s (s ++ rest))
    (h : IsLongestTiled (start + byteLength s) before rest) :
    IsLongestTiled start (s ++ before) (s ++ rest) where
  isPrefix := (List.prefix_append_right_inj s).2 h.isPrefix
  tiled := by
    have hbefore := (List.prefix_append_right_inj s).2 h.isPrefix
    exact (hs.of_prefix (List.prefix_append s before) hbefore).tiled_iff.2 h.tiled
  longest s' hs' htiled := by
    obtain hle | ⟨rest', rfl⟩ :=
      List.prefix_or_prefix_of_prefix hs' (List.prefix_append s rest)
    · exact hle.trans (List.prefix_append s before)
    · have hlongest := hs.of_prefix (List.prefix_append s rest') hs'
      have hrest' := (List.prefix_append_right_inj s).1 hs'
      exact (List.prefix_append_right_inj s).2
        (h.longest rest' hrest' (hlongest.tiled_iff.1 htiled))
  noLexeme rest' hrest' := by
    rw [List.append_assoc] at hrest'
    exact h.noLexeme rest' (List.append_cancel_left hrest')

/-- A text is read up to the end of its longest beginning that is tiled. -/
theorem exists_isLongestTiled {stop : Nat} (h : place start cs = .error (stop, bad)) :
    ∃ before, IsLongestTiled start before cs ∧ stop = start + byteLength before := by
  induction hn : cs.length using Nat.strong_induction_on generalizing start cs with
  | _ n ih =>
    subst hn
    cases cs with
    | nil =>
      rw [place] at h
      cases h
    | cons c cs =>
      cases hx : scan c cs with
      | error bad' =>
        cases (place_of_error hx).symm.trans h
        exact ⟨[], isLongestTiled_nil hx, rfl⟩
      | ok x =>
        obtain ⟨t, s, rest⟩ := x
        have hshorter : rest.length < (c :: cs).length := scan_rest_length hx
        obtain ⟨hlongest, htext⟩ : IsLongest t s (c :: cs) ∧ s ++ rest = c :: cs :=
          scan_eq_ok_iff.1 hx
        rw [← htext] at hlongest h ⊢
        have hrest : place (start + byteLength s) rest = .error (stop, bad) := by
          rw [hlongest.place_append] at h
          cases hplace : place (start + byteLength s) rest with
          | error e =>
            rw [hplace] at h
            exact congrArg _ (Except.error.inj h)
          | ok ts =>
            rw [hplace] at h
            cases h
        obtain ⟨before, hbefore, rfl⟩ := ih _ hshorter hrest rfl
        exact ⟨s ++ before, hbefore.append hlongest, by rw [byteLength_append, Nat.add_assoc]⟩

theorem ofText_eq_error {text : String} {e : SyntaxError} (h : ofText text = .error e) :
    e.text = text ∧
      ∃ before, IsLongestTiled 0 before text.toList ∧ e.offset = byteLength before := by
  unfold ofText at h
  split at h
  · cases h
  · rename_i hplace
    obtain ⟨before, hbefore, hstop⟩ := exists_isLongestTiled hplace
    cases h
    exact ⟨rfl, before, hbefore, hstop.trans (Nat.zero_add _)⟩

end

end Token

end Conformance

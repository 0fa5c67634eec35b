import Conformance.Proofs.Token.Lexeme

namespace Conformance

theorem byteLength_append (cs ds : List Char) :
    byteLength (cs ++ ds) = byteLength cs + byteLength ds := by
  induction cs with
  | nil => rw [List.nil_append, byteLength, Nat.zero_add]
  | cons c cs ih => rw [List.cons_append, byteLength, byteLength, ih, Nat.add_assoc]

theorem byteLength_pos {cs : List Char} (h : cs ≠ []) : 0 < byteLength cs := by
  obtain ⟨c, cs, rfl⟩ := List.exists_cons_of_ne_nil h
  exact Nat.add_pos_left c.utf8Size_pos _

namespace Token

/-- Blanks and comments. A comment ends with a newline, or with the text if the gap is the `final`
one. -/
inductive Gap (final : Bool) : List Char → Prop
  | nil : Gap final []
  | blank {c : Char} {cs : List Char} (hc : isSpace c) (h : Gap final cs) : Gap final (c :: cs)
  | comment {cs rest : List Char} (hcs : '\n' ∉ cs) (h : Gap final rest) :
      Gap final ('/' :: '/' :: (cs ++ '\n' :: rest))
  | last {cs : List Char} (hfinal : final) (hcs : '\n' ∉ cs) : Gap final ('/' :: '/' :: cs)

/-- The characters, which begin at byte `start`, are gaps with these tokens between them. -/
inductive Tiles : Nat → List Char → List Placed → Prop
  | last {start : Nat} {gap : List Char} (hgap : Gap true gap) : Tiles start gap []
  | token {start : Nat} {t : Token} {gap s rest : List Char} {ts : List Placed}
      (hgap : Gap false gap) (hs : IsLongest (some t) s (s ++ rest))
      (hrest : Tiles (start + byteLength gap + byteLength s) rest ts) :
      Tiles start (gap ++ (s ++ rest))
        (⟨t, start + byteLength gap, start + byteLength gap + byteLength s⟩ :: ts)

section

variable {start : Nat} {c : Char} {cs rest gap : List Char} {x : Lexeme} {ts : List Placed}

theorem Gap.append {final : Bool} (h : Gap false gap) (hrest : Gap final rest) :
    Gap final (gap ++ rest) := by
  induction h with
  | nil => exact hrest
  | blank hc h ih => exact .blank hc ih
  | comment hcs h ih =>
    rw [List.cons_append, List.cons_append, List.append_assoc]
    exact .comment hcs ih
  | last hfinal hcs => cases hfinal

theorem Gap.of_blanks {final : Bool} (h : ∀ c ∈ cs, isSpace c) : Gap final cs := by
  induction cs with
  | nil => exact .nil
  | cons c cs ih =>
    obtain ⟨hc, hcs⟩ := List.forall_mem_cons.1 h
    exact .blank hc (ih hcs)

theorem Tiles.gap_append (hgap : Gap false gap) (h : Tiles (start + byteLength gap) cs ts) :
    Tiles start (gap ++ cs) ts := by
  cases h with
  | last hlast => exact .last (hgap.append hlast)
  | token hgap' hs hrest =>
    rw [Nat.add_assoc start, ← byteLength_append] at hrest ⊢
    rw [← List.append_assoc]
    exact .token (hgap.append hgap') hs hrest

theorem place_of_none (hx : scan c cs = .ok x) (hnone : x.token = none) :
    place start (c :: cs) = place (start + byteLength x.text) x.rest := by
  rw [place]
  split
  · rename_i he
    cases hx.symm.trans he
  · rename_i x' he
    obtain rfl := Except.ok.inj (hx.symm.trans he)
    rw [hnone]
    dsimp only
    generalize place (start + byteLength x.text) x.rest = placed
    cases placed <;> rfl

theorem place_of_some {t : Token} (hx : scan c cs = .ok x) (hsome : x.token = some t) :
    place start (c :: cs) = (place (start + byteLength x.text) x.rest).map
      (⟨t, start, start + byteLength x.text⟩ :: ·) := by
  rw [place]
  split
  · rename_i he
    cases hx.symm.trans he
  · rename_i x' he
    obtain rfl := Except.ok.inj (hx.symm.trans he)
    rw [hsome]
    dsimp only
    generalize place (start + byteLength x.text) x.rest = placed
    cases placed <;> rfl

theorem place_blank (hc : isSpace c) :
    place start (c :: cs) = place (start + c.utf8Size) cs := by
  rw [place_of_none (scan_of_isSpace hc cs) rfl]
  cases cs with
  | nil => rfl
  | cons d cs =>
    by_cases hd : isSpace d
    · rw [place_of_none (scan_of_isSpace hd cs) rfl]
      simp only [Lexeme.run, List.takeWhile_cons_of_pos hd, List.dropWhile_cons_of_pos hd,
        byteLength, Nat.add_assoc]
    · simp only [Lexeme.run, List.takeWhile_cons_of_neg hd, List.dropWhile_cons_of_neg hd,
        byteLength, Nat.add_zero]

theorem place_comment (hcs : '\n' ∉ cs) (hrest : ∀ x ∈ rest.head?, x = '\n') :
    place start ('/' :: '/' :: (cs ++ rest)) =
      place (start + byteLength ('/' :: '/' :: cs)) rest := by
  have hbody : ∀ x ∈ '/' :: cs, (x != '\n') = true :=
    List.forall_mem_cons.2 ⟨rfl, forall_ne_of_not_mem hcs⟩
  have hstop : ∀ x ∈ rest.head?, (x != '\n') = false := fun x hx ↦ by simp [hrest x hx]
  obtain ⟨htake, hdrop⟩ := takeWhile_append_of_breaks hbody hstop
  rw [place_of_none (scan_comment _) rfl, ← List.cons_append]
  simp only [Lexeme.run, htake, hdrop]

theorem Gap.place_append (h : Gap false gap) :
    place start (gap ++ cs) = place (start + byteLength gap) cs := by
  induction h generalizing start with
  | nil => rfl
  | blank hc h ih => rw [List.cons_append, place_blank hc, ih, byteLength, Nat.add_assoc]
  | @comment comment rest hcs h ih =>
    rw [List.cons_append, List.cons_append, List.append_assoc, List.cons_append,
      place_comment hcs (by simp), place_blank (by decide), ih]
    simp only [byteLength, byteLength_append, Nat.add_assoc]
  | last hfinal hcs => cases hfinal

theorem Gap.place_eq (h : Gap true gap) : place start gap = .ok [] := by
  induction h generalizing start with
  | nil => rw [place]
  | blank hc h ih => rw [place_blank hc, ih]
  | comment hcs h ih => rw [place_comment hcs (by simp), place_blank (by decide), ih]
  | @last cs hfinal hcs =>
    have hend : ∀ x ∈ ([] : List Char).head?, x = '\n' := by simp
    rw [← List.append_nil cs, place_comment hcs hend, place]

theorem place_isLongest {t : Token} {s : List Char} (hs : IsLongest (some t) s (s ++ rest)) :
    place start (s ++ rest) = (place (start + byteLength s) rest).map
      (⟨t, start, start + byteLength s⟩ :: ·) := by
  obtain ⟨c, cs, hcons⟩ := List.exists_cons_of_ne_nil hs.spelled.ne_nil
  subst hcons
  have hscan : scan c (cs ++ rest) = .ok ⟨some t, c :: cs, rest⟩ := scan_eq_ok_iff.2 ⟨hs, rfl⟩
  exact place_of_some hscan rfl

theorem Tiles.place_eq (h : Tiles start cs ts) : place start cs = .ok ts := by
  induction h with
  | last hgap => exact hgap.place_eq
  | token hgap hs hrest ih => rw [hgap.place_append, place_isLongest hs, ih, Except.map]

theorem IsLongest.head?_comment {cs rest : List Char}
    (h : IsLongest none ('/' :: '/' :: cs) ('/' :: '/' :: cs ++ rest)) (hcs : '\n' ∉ cs) :
    ∀ x ∈ rest.head?, x = '\n' := by
  intro x hx
  obtain ⟨rest, rfl⟩ := List.head?_eq_some_iff.1 hx
  by_contra hnewline
  have hlonger : Spelled none ('/' :: '/' :: (cs ++ [x])) :=
    .comment (by simp [hcs, Ne.symm hnewline])
  have hle := h.longest _ _ hlonger ⟨rest, by simp⟩
  simp only [List.length_cons, List.length_append, List.length_nil] at hle
  omega

theorem exists_scan_of_place (h : place start (c :: cs) = .ok ts) : ∃ x, scan c cs = .ok x := by
  rw [place] at h
  split at h
  · cases h
  · exact ⟨_, by assumption⟩

/-- What makes no token belongs to the gap before what comes next. A comment takes the newline with
it, so it is the rest behind the newline that has to be tiled. -/
theorem tiles_of_skipped {s : List Char} (hs : IsLongest none s (s ++ rest))
    (h : place (start + byteLength s) rest = .ok ts)
    (ih : ∀ start cs, cs.length ≤ rest.length → place start cs = .ok ts → Tiles start cs ts) :
    Tiles start (s ++ rest) ts := by
  cases hspelled : hs.spelled with
  | blank hblank => exact .gap_append (Gap.of_blanks hblank) (ih _ _ le_rfl h)
  | @comment cs hcs =>
    cases rest with
    | nil =>
      rw [place] at h
      cases h
      rw [List.append_nil]
      exact .last (.last rfl hcs)
    | cons d rest =>
      obtain rfl : d = '\n' := hs.head?_comment hcs d rfl
      have hstop : start + byteLength ('/' :: '/' :: cs) + '\n'.utf8Size =
          start + byteLength ('/' :: '/' :: (cs ++ ['\n'])) := by
        simp only [byteLength, byteLength_append, Nat.add_assoc, Nat.add_zero]
      rw [place_blank (by decide), hstop] at h
      have hgap : Gap false ('/' :: '/' :: (cs ++ ['\n'])) := .comment hcs .nil
      have htiles := (ih _ _ (Nat.le_succ _) h).gap_append hgap
      rwa [List.cons_append, List.cons_append, List.append_assoc] at htiles

theorem tiles_of_place (h : place start cs = .ok ts) : Tiles start cs ts := by
  induction hn : cs.length using Nat.strong_induction_on generalizing start cs ts with
  | _ n ih =>
    subst hn
    cases cs with
    | nil =>
      rw [place] at h
      cases h
      exact .last .nil
    | cons c cs =>
      obtain ⟨⟨token, s, rest⟩, hx⟩ := exists_scan_of_place h
      have hshorter : rest.length < (c :: cs).length := scan_rest_length hx
      obtain ⟨hlongest, htext⟩ := scan_eq_ok_iff.1 hx
      rw [← htext] at hlongest ⊢
      cases token with
      | none =>
        rw [place_of_none hx rfl] at h
        exact tiles_of_skipped hlongest h fun _ _ hle h ↦ ih _ (hle.trans_lt hshorter) h rfl
      | some t =>
        rw [place_of_some hx rfl] at h
        cases hrest : place (start + byteLength s) rest with
        | error e =>
          rw [hrest] at h
          cases h
        | ok ts =>
          rw [hrest] at h
          cases h
          exact .token .nil hlongest (ih _ hshorter hrest rfl)

theorem ofText_eq_ok_iff {text : String} : ofText text = .ok ts ↔ Tiles 0 text.toList ts := by
  rw [ofText]
  constructor
  · intro h
    split at h
    · rename_i hplace
      cases h
      exact tiles_of_place hplace
    · cases h
  · intro h
    rw [h.place_eq]

theorem Tiles.lexeme (h : Tiles start cs ts) : ∀ t ∈ ts, ∃ before s after,
    cs = before ++ (s ++ after) ∧ t.start = start + byteLength before ∧
      t.stop = t.start + byteLength s ∧ t.token.text.toList = s ∧
      IsLongest (some t.token) s (s ++ after) := by
  induction h with
  | last hgap => exact List.forall_mem_nil _
  | @token start t gap s rest ts hgap hs hrest ih =>
    refine List.forall_mem_cons.2 ⟨?_, fun t ht ↦ ?_⟩
    · exact ⟨gap, s, rest, rfl, rfl, rfl, hs.spelled.text_eq, hs⟩
    · obtain ⟨before, s', after, rfl, hstart, hstop, htext, hlongest⟩ := ih t ht
      refine ⟨gap ++ (s ++ before), s', after, by simp, ?_, hstop, htext, hlongest⟩
      rw [hstart]
      simp only [byteLength_append, Nat.add_assoc]

theorem Tiles.start_lt_stop (h : Tiles start cs ts) :
    ∀ t ∈ ts, start ≤ t.start ∧ t.start < t.stop := by
  intro t ht
  obtain ⟨before, s, after, -, hstart, hstop, -, hlongest⟩ := h.lexeme t ht
  have hpos := byteLength_pos hlongest.spelled.ne_nil
  omega

theorem Tiles.pairwise (h : Tiles start cs ts) : ts.Pairwise (·.stop ≤ ·.start) := by
  induction h with
  | last hgap => exact .nil
  | token hgap hs hrest ih => exact .cons (fun t ht ↦ (hrest.start_lt_stop t ht).1) ih

/-- The characters are the texts of the tokens with gaps before, between and behind them. Gaps
between tokens are not empty, and neither is the first one if it stands `inside` of a text. -/
inductive Spaced : (inside : Bool) → List Token → List Char → Prop
  | last {inside : Bool} {gap : List Char} (hgap : Gap true gap) : Spaced inside [] gap
  | token {inside : Bool} {t : Token} {gap rest : List Char} {ts : List Token}
      (hgap : Gap false gap) (hne : inside → gap ≠ []) (hrest : Spaced true ts rest) :
      Spaced inside (t :: ts) (gap ++ (t.text.toList ++ rest))

theorem Gap.apart {final : Bool} (h : Gap final gap) : Apart gap := by
  cases h with
  | nil => exact nofun
  | blank hc h =>
    rintro _ ⟨⟩
    exact .inl hc
  | comment hcs h =>
    rintro _ ⟨⟩
    exact .inr rfl
  | last hfinal hcs =>
    rintro _ ⟨⟩
    exact .inr rfl

theorem Spaced.apart {us : List Token} (h : Spaced true us cs) : Apart cs := by
  cases h with
  | last hgap => exact hgap.apart
  | token hgap hne hrest =>
    obtain ⟨c, gap, rfl⟩ := List.exists_cons_of_ne_nil (hne rfl)
    exact hgap.apart

/-- Tokens with gaps between them are read as these tokens. -/
theorem Spaced.exists_place {inside : Bool} {us : List Token} (h : Spaced inside us cs)
    (hus : ∀ t ∈ us, Spelled (some t) t.text.toList) (start : Nat) :
    ∃ ts, place start cs = .ok ts ∧ ts.map (·.token) = us := by
  induction h generalizing start with
  | last hgap => exact ⟨[], hgap.place_eq, rfl⟩
  | @token inside t gap rest us hgap hne hrest ih =>
    obtain ⟨ht, hus⟩ := List.forall_mem_cons.1 hus
    obtain ⟨c, cs, hcons⟩ := List.exists_cons_of_ne_nil ht.ne_nil
    obtain ⟨ts, hts, hmap⟩ := ih hus (start + byteLength gap + byteLength t.text.toList)
    have happend : t.text.toList ++ rest = c :: (cs ++ rest) := by rw [hcons, List.cons_append]
    obtain ⟨x, hx, -, hexact⟩ := ht.scannedAs _ _ happend
    obtain rfl := hexact (.inr ⟨rfl, hrest.apart⟩)
    refine ⟨⟨t, start + byteLength gap, start + byteLength gap + byteLength t.text.toList⟩ :: ts,
      ?_, congrArg (t :: ·) hmap⟩
    rw [hgap.place_append, happend, place_of_some hx rfl, hts, Except.map]

end

end Token

end Conformance

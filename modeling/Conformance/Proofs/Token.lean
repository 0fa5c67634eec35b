import Conformance.Token.Scan
import Mathlib.Data.List.TakeWhile

namespace Conformance

namespace Token

/-- A letter or underscore, and then letters, underscores and digits. -/
def IsWord (s : String) : Prop :=
  ∃ c cs, s.toList = c :: cs ∧ isIdentStart c ∧ ∀ x ∈ cs, isIdentRest x

instance (s : String) : Decidable (IsWord s) :=
  decidable_of_iff (s.toList.head?.any isIdentStart && s.toList.tail.all isIdentRest) <| by
    rw [IsWord]
    cases s.toList with
    | nil => simp
    | cons c cs => simp [and_assoc]

def IsIdentifier (s : String) : Prop := IsWord s ∧ Mark.ofKeyword? s = none

instance (s : String) : Decidable (IsIdentifier s) := inferInstanceAs (Decidable (_ ∧ _))

def IsNumber (s : String) : Prop := ∃ c cs, s.toList = c :: cs ∧ c.isDigit ∧ ∀ x ∈ cs, x.isDigit

def WellSpelled : Token → Prop
  | .ident s => IsIdentifier s
  | .int s => IsNumber s
  | .mark _ | .tag _ => True

theorem ofWord_wellSpelled {s : String} (h : IsWord s) : (ofWord s).WellSpelled := by
  unfold ofWord
  split
  · trivial
  · rename_i hs
    exact ⟨h, hs⟩

theorem scan_wellSpelled {c : Char} {cs : List Char} {x : Lexeme} {t : Token}
    (h : scan c cs = .ok x) (ht : x.token = some t) : t.WellSpelled := by
  unfold scan at h
  split at h
  case h_15 =>
    cases h
    cases ht
  case h_16 =>
    split at h
    · cases h
      cases ht
      trivial
    · cases h
  case h_17 =>
    split at h
    · cases h
      cases ht
      trivial
    · cases h
  case h_18 =>
    split at h
    · cases h
      cases ht
    · split at h
      · rename_i hd
        cases h
        cases ht
        exact ⟨c, _, String.toList_ofList, hd, fun _ ↦ List.mem_takeWhile_imp⟩
      · split at h
        · rename_i hi
          cases h
          cases ht
          exact ofWord_wellSpelled ⟨c, _, String.toList_ofList, hi, fun _ ↦ List.mem_takeWhile_imp⟩
        · cases h
  all_goals
    cases h
    cases ht
    trivial

theorem place_wellSpelled {start : Nat} {cs : List Char} {ts : List Placed}
    (h : place start cs = .ok ts) : ∀ t ∈ ts, t.token.WellSpelled := by
  fun_induction place start cs generalizing ts with
  | case1 => cases h; simp
  | case2 => cases h
  | case3 => cases h
  | case4 start c cs x hx stop ts' hts t ht =>
    rename_i ih
    cases h
    exact List.forall_mem_cons.2 ⟨scan_wellSpelled hx ht, ih hts⟩
  | case5 start c cs x hx stop ts' hts ht =>
    rename_i ih
    cases h
    exact ih hts

inductive Lexes : List Char → List Token → Prop
  | nil : Lexes [] []
  | cons {c : Char} {cs : List Char} {x : Lexeme} {ts : List Token} :
    scan c cs = .ok x → Lexes x.rest ts → Lexes (c :: cs) (x.token.toList ++ ts)

theorem Lexes.place {cs : List Char} {xs : List Token} (h : Lexes cs xs) (start : Nat) :
    ∃ ts, place start cs = .ok ts ∧ ts.map (·.token) = xs := by
  induction h generalizing start with
  | nil => exact ⟨[], by rw [Token.place], rfl⟩
  | @cons c cs x xs hx _ ih =>
    obtain ⟨ts, hts, rfl⟩ := ih (start + byteLength x.text)
    rw [Token.place]
    split
    · rename_i he
      rw [hx] at he
      cases he
    · rename_i he
      rw [hx] at he
      cases he
      simp only [hts]
      cases x.token with
      | none => exact ⟨ts, rfl, rfl⟩
      | some t => exact ⟨_, rfl, rfl⟩

/-- No word or number goes on here. -/
def Breaks (cs : List Char) : Prop := ∀ c ∈ cs.head?, isIdentRest c = false

theorem isIdentStart_of_isDigit {c : Char} (h : c.isDigit) : isIdentStart c = false := by
  obtain ⟨hlow, hhigh⟩ := Char.isDigit_iff_toNat.1 h
  have hlow : 48 ≤ c.toNat := hlow
  have hhigh : c.toNat ≤ 57 := hhigh
  have hupper : c.isUpper = false := decide_eq_false fun hu ↦ by
    have hA : 65 ≤ c.toNat := hu.1
    omega
  have hlower : c.isLower = false := by
    refine Bool.and_eq_false_imp.2 fun hl ↦ ?_
    have ha : 97 ≤ c.toNat := of_decide_eq_true hl
    omega
  have halpha : c.isAlpha = (c.isUpper || c.isLower) := rfl
  have hunderscore : (c == '_') = false := by
    rw [beq_eq_false_iff_ne]
    rintro rfl
    exact absurd hhigh (by decide)
  rw [isIdentStart, hunderscore, Bool.false_or, Text.isLetter, if_pos (by omega), halpha,
    hupper, hlower, Bool.or_false]

theorem isIdentRest_of_isDigit {c : Char} (h : c.isDigit) : isIdentRest c := by
  have hn : 48 ≤ c.toNat ∧ c.toNat ≤ 57 := Char.isDigit_iff_toNat.1 h
  have hd : Text.isDecimalDigit c :=
    Text.Ranges.contains_iff.2 ⟨(0x30, 0x39), List.mem_cons_self, hn⟩
  rw [isIdentRest, hd, Bool.or_true]

theorem scan_of_isIdentStart {c : Char} (h : isIdentStart c) (cs : List Char) :
    scan c cs = .ok (.run (some ∘ ofWord) c isIdentRest cs) := by
  have hspace : isSpace c = false := by
    by_contra hs
    simp only [isSpace, Bool.not_eq_false, Bool.or_eq_true, beq_iff_eq] at hs
    rcases hs with ((rfl | rfl) | rfl) | rfl <;> exact absurd h (by decide)
  have hdigit : c.isDigit = false := by
    by_contra hd
    rw [isIdentStart_of_isDigit (by simpa using hd)] at h
    cases h
  unfold scan
  split
  case h_18 => rw [if_neg (by simp [hspace]), if_neg (by simp [hdigit]), if_pos h]
  all_goals exact absurd h (by decide)

theorem scan_of_isDigit {c : Char} (h : c.isDigit) (cs : List Char) :
    scan c cs = .ok (.run (some ∘ .int) c Char.isDigit cs) := by
  have hspace : isSpace c = false := by
    by_contra hs
    simp only [isSpace, Bool.not_eq_false, Bool.or_eq_true, beq_iff_eq] at hs
    rcases hs with ((rfl | rfl) | rfl) | rfl <;> exact absurd h (by decide)
  unfold scan
  split
  case h_18 => rw [if_neg (by simp [hspace]), if_pos h]
  all_goals exact absurd h (by decide)

theorem takeWhile_append_of_breaks {p : Char → Bool} {cs rest : List Char} (hcs : ∀ c ∈ cs, p c)
    (hrest : ∀ c ∈ rest.head?, p c = false) :
    (cs ++ rest).takeWhile p = cs ∧ (cs ++ rest).dropWhile p = rest := by
  rw [List.takeWhile_append_of_pos hcs, List.dropWhile_append_of_pos hcs]
  cases rest with
  | nil => simp
  | cons c rest =>
    have hc : p c = false := hrest c rfl
    simp [hc]

variable {rest : List Char} {xs : List Token}

theorem Lexes.word {s : String} (hs : IsWord s) (hrest : Breaks rest) (h : Lexes rest xs) :
    Lexes (s.toList ++ rest) (ofWord s :: xs) := by
  obtain ⟨c, cs, he, hc, hcs⟩ := hs
  obtain ⟨htake, hdrop⟩ := takeWhile_append_of_breaks hcs hrest
  have hscan := scan_of_isIdentStart hc (cs ++ rest)
  rw [Lexeme.run, htake, hdrop, ← he, String.ofList_toList] at hscan
  rw [he]
  exact Lexes.cons hscan h

theorem Lexes.number {s : String} (hs : IsNumber s) (hrest : Breaks rest) (h : Lexes rest xs) :
    Lexes (s.toList ++ rest) (.int s :: xs) := by
  obtain ⟨c, cs, he, hc, hcs⟩ := hs
  obtain ⟨htake, hdrop⟩ := takeWhile_append_of_breaks hcs fun x hx ↦ by
    by_contra hd
    exact absurd (isIdentRest_of_isDigit (by simpa using hd)) (by simp [hrest x hx])
  have hscan := scan_of_isDigit hc (cs ++ rest)
  rw [Lexeme.run, htake, hdrop, ← he, String.ofList_toList] at hscan
  rw [he]
  exact Lexes.cons hscan h

theorem Lexes.identifier {s : String} (hs : IsIdentifier s) (hrest : Breaks rest)
    (h : Lexes rest xs) : Lexes (s.toList ++ rest) (.ident s :: xs) := by
  have hw := Lexes.word hs.1 hrest h
  rwa [ofWord, hs.2] at hw

theorem Lexes.sign {c : Char} {m : Mark} (hc : ∀ cs, scan c cs = .ok (.mark m cs))
    (h : Lexes rest xs) : Lexes (c :: rest) (.mark m :: xs) :=
  Lexes.cons (hc rest) h

theorem Lexes.arrow (h : Lexes rest xs) : Lexes ('<' :: '-' :: rest) (.mark .arrow :: xs) :=
  Lexes.cons (show scan '<' ('-' :: rest) = .ok (.mark .arrow rest) from rfl) h

theorem Lexes.ellipsis (h : Lexes rest xs) :
    Lexes ('.' :: '.' :: '.' :: rest) (.mark .ellipsis :: xs) :=
  Lexes.cons (show scan '.' ('.' :: '.' :: rest) = .ok (.mark .ellipsis rest) from rfl) h

theorem Lexes.dot (hrest : ∀ c ∈ rest.head?, c ≠ '.') (h : Lexes rest xs) :
    Lexes ('.' :: rest) (.mark .dot :: xs) := by
  refine Lexes.cons (x := .mark .dot rest) ?_ h
  unfold scan
  split
  case h_12 => exact absurd rfl (hrest '.' rfl)
  case h_13 => rfl
  all_goals simp_all

theorem Lexes.keyword {m : Mark} (hm : Mark.ofKeyword? m.text = some m) (hrest : Breaks rest)
    (h : Lexes rest xs) : Lexes (m.text.toList ++ rest) (.mark m :: xs) := by
  have hword : IsWord m.text := by
    cases m <;> first | exact absurd hm (by decide) | decide
  have hw := Lexes.word hword hrest h
  rwa [ofWord, hm] at hw

theorem scan_of_isSpace {c : Char} (h : isSpace c) (cs : List Char) :
    scan c cs = .ok (.run (fun _ ↦ none) c isSpace cs) := by
  simp only [isSpace, Bool.or_eq_true, beq_iff_eq] at h
  rcases h with ((rfl | rfl) | rfl) | rfl <;> rfl

theorem Lexes.space (h : Lexes rest xs) : Lexes (' ' :: rest) xs := by
  refine Lexes.cons (scan_of_isSpace (by decide) rest) ?_
  simp only [Lexeme.run]
  cases h with
  | nil => exact .nil
  | @cons c cs x ts hx hcs =>
    by_cases hc : isSpace c
    · rw [scan_of_isSpace hc] at hx
      obtain rfl := Except.ok.inj hx
      rw [List.dropWhile_cons_of_pos hc]
      exact hcs
    · rw [List.dropWhile_cons_of_neg hc]
      exact .cons hx hcs

end Token

end Conformance

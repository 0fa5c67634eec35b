import Conformance.Proofs.Token

namespace Conformance

namespace Token

/-- What stands after a quote, up to the next quote that no backslash stands before. -/
inductive Quoted : List Char → Prop
  | close : Quoted ['"']
  | char {c : Char} {cs : List Char} (hquote : c ≠ '"') (hbackslash : c ≠ '\\') (h : Quoted cs) :
      Quoted (c :: cs)
  | escape {c : Char} {cs : List Char} (hnewline : c ≠ '\n') (h : Quoted cs) :
      Quoted ('\\' :: c :: cs)

/-- The characters are a lexeme; blanks and comments make no token. -/
inductive Spelled : Option Token → List Char → Prop
  | blank {c : Char} {cs : List Char} (h : ∀ x ∈ c :: cs, isSpace x) : Spelled none (c :: cs)
  | comment {cs : List Char} (h : '\n' ∉ cs) : Spelled none ('/' :: '/' :: cs)
  | mark (m : Mark) : Spelled (some (.mark m)) m.text.toList
  | int {c : Char} {cs : List Char} (h : ∀ x ∈ c :: cs, x.isDigit) :
      Spelled (some (.int (.ofList (c :: cs)))) (c :: cs)
  | rawTag {cs : List Char} (h : '\x60' ∉ cs) :
      Spelled (some (.tag (.ofList ('\x60' :: (cs ++ ['\x60']))))) ('\x60' :: (cs ++ ['\x60']))
  | quotedTag {cs : List Char} (h : Quoted cs) :
      Spelled (some (.tag (.ofList ('"' :: cs)))) ('"' :: cs)
  | ident {name : String} (h : IsIdentifier name) : Spelled (some (.ident name)) name.toList

/-- The text begins with this lexeme, and with none that is longer. -/
structure IsLongest (t : Option Token) (s text : List Char) : Prop where
  spelled : Spelled t s
  isPrefix : s <+: text
  longest : ∀ t' s', Spelled t' s' → s' <+: text → s'.length ≤ s.length

theorem Spelled.ne_nil {t : Option Token} {s : List Char} (h : Spelled t s) : s ≠ [] := by
  cases h with
  | mark m => cases m <;> decide
  | ident h =>
    obtain ⟨c, cs, hcs, -⟩ := h.1
    rw [hcs]
    exact List.cons_ne_nil c cs
  | _ => exact List.cons_ne_nil _ _

theorem Spelled.text_eq {t : Token} {s : List Char} (h : Spelled (some t) s) :
    t.text.toList = s := by
  cases h with
  | mark m => rfl
  | int h => exact String.toList_ofList
  | rawTag h => exact String.toList_ofList
  | quotedTag h => exact String.toList_ofList
  | ident h => rfl

theorem Quoted.of_quoted {cs text rest : List Char} (h : quoted cs = (text, some rest)) :
    Quoted text := by
  fun_induction quoted cs generalizing text with
  | case1 => cases h
  | case2 cs =>
    cases h
    exact .close
  | case3 => cases h
  | case4 cs => cases h
  | case5 c cs hnewline text' rest' hquoted ih =>
    cases h
    exact .escape hnewline (ih hquoted)
  | case6 c cs hquote hlone hpair text' rest' hquoted ih =>
    cases h
    refine .char hquote (fun hbackslash ↦ ?_) (ih hquoted)
    cases cs with
    | nil => exact hlone hbackslash rfl
    | cons c' cs => exact hpair c' cs hbackslash rfl

theorem Quoted.quoted_append {text : List Char} (h : Quoted text) (rest : List Char) :
    quoted (text ++ rest) = (text, some rest) := by
  induction h with
  | close => rfl
  | @char c cs hquote hbackslash h ih =>
    rw [List.cons_append, quoted, ih]
    · exact fun he ↦ absurd he hquote
    · exact fun he ↦ absurd he hbackslash
    · exact fun _ _ he ↦ absurd he hbackslash
  | @escape c cs hnewline h ih =>
    rw [List.cons_append, List.cons_append, quoted, if_neg hnewline, ih]

theorem ofKeyword?_eq_some {s : String} {m : Mark} (h : Mark.ofKeyword? s = some m) :
    s = m.text := by
  unfold Mark.ofKeyword? at h
  split at h <;> cases h <;> rfl

theorem spelled_ofWord {s : String} (h : IsWord s) : Spelled (some (ofWord s)) s.toList := by
  unfold ofWord
  split
  · rename_i m hm
    rw [ofKeyword?_eq_some hm]
    exact .mark m
  · rename_i hm
    exact .ident ⟨h, hm⟩

theorem forall_mem_run {p : Char → Bool} {c : Char} (hc : p c) (cs : List Char) :
    ∀ x ∈ c :: cs.takeWhile p, p x :=
  List.forall_mem_cons.2 ⟨hc, fun _ ↦ List.mem_takeWhile_imp⟩

theorem scan_spelled {c : Char} {cs : List Char} {x : Lexeme} (h : scan c cs = .ok x) :
    Spelled x.token x.text := by
  unfold scan at h
  split at h
  case h_15 cs =>
    cases h
    exact .comment fun hmem ↦ absurd (List.mem_takeWhile_imp hmem) (by decide)
  case h_16 =>
    split at h
    · rename_i q rest hdrop
      cases h
      obtain rfl : q = '\x60' := by
        have hhead := List.head?_dropWhile_not (· != '\x60') cs
        rw [hdrop] at hhead
        simpa using hhead
      exact .rawTag fun hmem ↦ absurd (List.mem_takeWhile_imp hmem) (by decide)
    · cases h
  case h_17 =>
    split at h
    · cases h
      exact .quotedTag (Quoted.of_quoted (by assumption))
    · cases h
  case h_18 =>
    split at h
    · rename_i hspace
      cases h
      exact .blank (forall_mem_run hspace cs)
    · split at h
      · rename_i hdigit
        cases h
        exact .int (forall_mem_run hdigit cs)
      · split at h
        · rename_i hident
          cases h
          have hword : IsWord (.ofList (c :: cs.takeWhile isIdentRest)) :=
            ⟨c, _, String.toList_ofList, hident, fun _ ↦ List.mem_takeWhile_imp⟩
          have hspelled := spelled_ofWord hword
          rwa [String.toList_ofList] at hspelled
        · cases h
  all_goals
    cases h
    exact .mark _

/-- A token does not go on here: the text ends, or a blank or a comment comes next. -/
def Apart (rest : List Char) : Prop := ∀ c ∈ rest.head?, isSpace c ∨ c = '/'

theorem Apart.breaks {rest : List Char} (h : Apart rest) : Breaks rest := by
  intro c hc
  have h := h c hc
  simp only [isSpace, Bool.or_eq_true, beq_iff_eq] at h
  rcases h with (((rfl | rfl) | rfl) | rfl) | rfl <;> decide

/-- The scan before `s` reads it and perhaps more. It reads no more at the end of the text, and no
more of a token that ends there. -/
def ScannedAs (t : Option Token) (s rest : List Char) : Prop :=
  ∀ c cs, s ++ rest = c :: cs → ∃ x, scan c cs = .ok x ∧ s <+: x.text ∧
    (rest = [] ∨ t.isSome ∧ Apart rest → x = ⟨t, s, rest⟩)

section

variable {t : Option Token} {s rest : List Char} {c : Char} {cs : List Char}

theorem ScannedAs.exactly (h : scan c (cs ++ rest) = .ok ⟨t, c :: cs, rest⟩) :
    ScannedAs t (c :: cs) rest := by
  rintro _ _ ⟨⟩
  exact ⟨_, h, List.prefix_rfl, fun _ ↦ rfl⟩

theorem ScannedAs.run {token : String → Option Token} {p : Char → Bool}
    (hscan : scan c (cs ++ rest) = .ok (.run token c p (cs ++ rest)))
    (ht : token (.ofList (c :: cs)) = t) (hcs : ∀ x ∈ cs, p x)
    (hrest : t.isSome → Apart rest → ∀ x ∈ rest.head?, p x = false) :
    ScannedAs t (c :: cs) rest := by
  rintro _ _ ⟨⟩
  refine ⟨_, hscan, ?_, fun hends ↦ ?_⟩
  · rw [Lexeme.run, List.takeWhile_append_of_pos hcs, ← List.cons_append]
    exact List.prefix_append _ _
  · have hrest : ∀ x ∈ rest.head?, p x = false := by
      rcases hends with rfl | ⟨hsome, hapart⟩
      · simp
      · exact hrest hsome hapart
    obtain ⟨htake, hdrop⟩ := takeWhile_append_of_breaks hcs hrest
    rw [Lexeme.run, htake, hdrop, ht]

theorem forall_ne_of_not_mem {q : Char} (h : q ∉ cs) : ∀ x ∈ cs, (x != q) = true :=
  fun _ hx ↦ bne_iff_ne.2 fun he ↦ h (he ▸ hx)

theorem IsWord.scannedAs {word : String} (h : IsWord word) :
    ScannedAs (some (ofWord word)) word.toList rest := by
  obtain ⟨c, cs, hword, hc, hcs⟩ := h
  rw [hword]
  refine .run (scan_of_isIdentStart hc _) ?_ hcs fun _ hapart ↦ hapart.breaks
  rw [← hword, String.ofList_toList]
  rfl

theorem scannedAs_dot : ScannedAs (some (.mark .dot)) ['.'] rest := by
  by_cases hdots : ∃ more, rest = '.' :: '.' :: more
  · obtain ⟨more, rfl⟩ := hdots
    rintro _ _ ⟨⟩
    refine ⟨.mark .ellipsis more, rfl, ⟨['.', '.'], rfl⟩, fun hends ↦ ?_⟩
    rcases hends with hnil | ⟨-, hapart⟩
    · cases hnil
    · exact absurd (hapart '.' rfl) (by decide)
  · refine @ScannedAs.exactly _ _ _ [] ?_
    rw [List.nil_append]
    unfold scan
    split
    case h_12 => exact absurd ⟨_, rfl⟩ hdots
    case h_13 => rfl
    all_goals simp_all

theorem scannedAs_mark (m : Mark) : ScannedAs (some (.mark m)) m.text.toList rest := by
  cases m with
  | map => exact (show IsWord "map" by decide).scannedAs
  | chan => exact (show IsWord "chan" by decide).scannedAs
  | func => exact (show IsWord "func" by decide).scannedAs
  | interface => exact (show IsWord "interface" by decide).scannedAs
  | struct => exact (show IsWord "struct" by decide).scannedAs
  | dot => exact scannedAs_dot
  | _ => exact .exactly rfl

theorem scan_comment (cs : List Char) :
    scan '/' ('/' :: cs) = .ok (.run (fun _ ↦ none) '/' (· != '\n') ('/' :: cs)) := rfl

theorem scan_rawTag {q : Char} (h : cs.dropWhile (· != '\x60') = q :: rest) : scan '\x60' cs =
    .ok ⟨some (.tag (.ofList ('\x60' :: (cs.takeWhile (· != '\x60') ++ [q])))),
      '\x60' :: (cs.takeWhile (· != '\x60') ++ [q]), rest⟩ := by
  rw [scan.eq_def]
  simp only [h]

theorem scan_quotedTag {text : List Char} (h : quoted cs = (text, some rest)) :
    scan '"' cs = .ok ⟨some (.tag (.ofList ('"' :: text))), '"' :: text, rest⟩ := by
  rw [scan.eq_def]
  simp only [h]

theorem Spelled.scannedAs (h : Spelled t s) : ScannedAs t s rest := by
  cases h with
  | blank h =>
    obtain ⟨hc, hcs⟩ := List.forall_mem_cons.1 h
    exact .run (scan_of_isSpace hc _) rfl hcs nofun
  | @comment cs h =>
    refine .run (scan_comment _) rfl ?_ nofun
    exact List.forall_mem_cons.2 ⟨rfl, forall_ne_of_not_mem h⟩
  | mark m => exact scannedAs_mark m
  | int h =>
    obtain ⟨hc, hcs⟩ := List.forall_mem_cons.1 h
    refine .run (scan_of_isDigit hc _) rfl hcs fun _ hapart c hc ↦ ?_
    by_contra hdigit
    have hrest := isIdentRest_of_isDigit (by simpa using hdigit)
    rw [hapart.breaks c hc] at hrest
    cases hrest
  | @rawTag cs h =>
    have hends : ∀ c ∈ ('\x60' :: rest).head?, (c != '\x60') = false := by simp
    obtain ⟨htake, hdrop⟩ := takeWhile_append_of_breaks (forall_ne_of_not_mem h) hends
    have hscan : scan '\x60' (cs ++ '\x60' :: rest) = .ok
        ⟨some (.tag (.ofList ('\x60' :: (cs ++ ['\x60'])))), '\x60' :: (cs ++ ['\x60']), rest⟩ := by
      rw [scan_rawTag hdrop, htake]
    exact .exactly (by rwa [List.append_assoc])
  | quotedTag h => exact .exactly (scan_quotedTag (h.quoted_append rest))
  | ident h =>
    have hword := @IsWord.scannedAs rest _ h.1
    rwa [ofWord, h.2] at hword

theorem Spelled.unique {t' : Option Token} (h : Spelled t s) (h' : Spelled t' s) : t = t' := by
  obtain ⟨c, cs, hs⟩ := List.exists_cons_of_ne_nil h.ne_nil
  have heq : s ++ [] = c :: cs := by rw [List.append_nil, hs]
  obtain ⟨x, hx, -, hexact⟩ := h.scannedAs c cs heq
  obtain ⟨x', hx', -, hexact'⟩ := h'.scannedAs c cs heq
  obtain rfl := Except.ok.inj (hx.symm.trans hx')
  exact congrArg Lexeme.token ((hexact (.inl rfl)).symm.trans (hexact' (.inl rfl)))

/-- What is scanned is the longest lexeme. -/
theorem scan_eq_ok_iff {x : Lexeme} :
    scan c cs = .ok x ↔ IsLongest x.token x.text (c :: cs) ∧ x.text ++ x.rest = c :: cs := by
  constructor
  · intro h
    obtain ⟨htext, -⟩ := scan_append h
    refine ⟨⟨scan_spelled h, ⟨x.rest, htext⟩, fun t' s' hs' hprefix ↦ ?_⟩, htext⟩
    obtain ⟨rest, hrest⟩ := hprefix
    obtain ⟨x', hx', hle, -⟩ := hs'.scannedAs c cs hrest
    obtain rfl := Except.ok.inj (h.symm.trans hx')
    exact hle.length_le
  · rintro ⟨hlongest, htext⟩
    obtain ⟨x', hx', hle, -⟩ := hlongest.spelled.scannedAs c cs htext
    obtain ⟨htext', -⟩ := scan_append hx'
    have hspelled := scan_spelled hx'
    have hsame : x.text = x'.text :=
      hle.eq_of_length_le (hlongest.longest _ _ hspelled ⟨x'.rest, htext'⟩)
    have hrest : x.rest = x'.rest := by
      rw [hsame, ← htext'] at htext
      exact List.append_cancel_left htext
    have htoken : x.token = x'.token := hlongest.spelled.unique (hsame ▸ hspelled)
    obtain ⟨token, text, rest⟩ := x
    obtain ⟨token', text', rest'⟩ := x'
    cases hsame
    cases hrest
    cases htoken
    exact hx'

end

end Token

end Conformance

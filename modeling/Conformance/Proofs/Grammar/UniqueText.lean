import Conformance.Proofs.Grammar.Rereading

/-!
Texts of types tell the types apart. A text is read off from the left, up to a sign that ends it:
`Legible` says that no other value is written in this way, and passes from elements to lists and
from the types inside to the whole type.
-/

namespace Conformance

open Token

/-- Nothing comes next, or a sign that ends what stands before it. -/
def Stops (cs : List Char) : Prop := ∀ c ∈ cs.head?, c ∈ [',', ';', ')', ']', '}']

/-- No other value that is `ok` has the text of this one where a text stops. -/
def Legible {α : Type} (text : α → String) (ok : α → Prop) (x : α) : Prop :=
  ∀ y rest rest', ok y → Stops rest → Stops rest' →
    (text x).toList ++ rest = (text y).toList ++ rest' → x = y ∧ rest = rest'

def Opens (s : String) : Prop := ∃ c cs, s.toList = c :: cs ∧ c ∉ [',', ';', ')', ']', '}']

theorem stops_nil : Stops [] := nofun

theorem stops_cons {c : Char} {cs : List Char} : Stops (c :: cs) ↔ c ∈ [',', ';', ')', ']', '}'] := by
  simp [Stops]

theorem Opens.ne_append {s : String} (h : Opens s) {rest rest' : List Char} (hrest : Stops rest) :
    s.toList ++ rest' ≠ rest := by
  obtain ⟨c, cs, hs, hc⟩ := h
  rw [hs]
  rintro rfl
  exact hc (stops_cons.1 hrest)

section

variable {α : Type} {text : α → String} {ok : α → Prop} {sep : String} {c close : Char}
  {xs ys : List α} {rest rest' : List Char}

theorem toList_join (sep s : String) (ss : List String) : (Text.join sep (s :: ss)).toList =
    s.toList ++ ss.flatMap fun t ↦ sep.toList ++ t.toList := by
  induction ss generalizing s with
  | nil => simp [Text.join]
  | cons t ss ih => simp [Text.join, String.toList_append, ih]

theorem stops_separated (hsep : sep.toList = [c, ' ']) (hc : Stops [c]) (hclose : Stops [close])
    (ss : List String) : Stops ((ss.flatMap fun t ↦ sep.toList ++ t.toList) ++ close :: rest) := by
  cases ss with
  | nil => exact stops_cons.2 (stops_cons.1 hclose)
  | cons s ss =>
    rw [List.flatMap_cons, hsep]
    exact stops_cons.2 (stops_cons.1 hc)

theorem eq_of_separated (hsep : sep.toList = [c, ' ']) (hc : Stops [c]) (hclose : Stops [close])
    (hne : c ≠ close) (hxs : ∀ x ∈ xs, Legible text ok x) (hys : ∀ y ∈ ys, ok y)
    (h : ((xs.map text).flatMap fun t ↦ sep.toList ++ t.toList) ++ close :: rest =
      ((ys.map text).flatMap fun t ↦ sep.toList ++ t.toList) ++ close :: rest') :
    xs = ys ∧ rest = rest' := by
  induction xs generalizing ys with
  | nil =>
    cases ys with
    | nil => exact ⟨rfl, (List.cons.inj h).2⟩
    | cons y ys =>
      rw [List.map_cons, List.flatMap_cons, hsep] at h
      exact absurd (List.cons.inj h).1.symm hne
  | cons x xs ih =>
    cases ys with
    | nil =>
      rw [List.map_cons, List.flatMap_cons, hsep] at h
      exact absurd (List.cons.inj h).1 hne
    | cons y ys =>
      obtain ⟨hx, hxs⟩ := List.forall_mem_cons.1 hxs
      obtain ⟨hy, hys'⟩ := List.forall_mem_cons.1 hys
      simp only [List.map_cons, List.flatMap_cons, List.append_assoc, List.append_cancel_left_eq] at h
      obtain ⟨rfl, hmore⟩ := hx y _ _ hy (stops_separated hsep hc hclose _)
        (stops_separated hsep hc hclose _) h
      obtain ⟨rfl, hrest⟩ := ih hxs hys' hmore
      exact ⟨rfl, hrest⟩

theorem eq_of_join (hsep : sep.toList = [c, ' ']) (hc : Stops [c]) (hclose : Stops [close])
    (hne : c ≠ close) (hopens : ∀ x, ok x → Opens (text x))
    (hxs : ∀ x ∈ xs, ok x ∧ Legible text ok x) (hys : ∀ y ∈ ys, ok y)
    (h : (Text.join sep (xs.map text)).toList ++ close :: rest =
      (Text.join sep (ys.map text)).toList ++ close :: rest') : xs = ys ∧ rest = rest' := by
  have hstops {rest : List Char} : Stops (close :: rest) := stops_cons.2 (stops_cons.1 hclose)
  cases xs with
  | nil =>
    cases ys with
    | nil => exact ⟨rfl, (List.cons.inj h).2⟩
    | cons y ys =>
      rw [List.map_cons, toList_join, List.append_assoc] at h
      exact absurd h.symm ((hopens y (hys y List.mem_cons_self)).ne_append hstops)
  | cons x xs =>
    obtain ⟨⟨hxok, hx⟩, hxs⟩ := List.forall_mem_cons.1 hxs
    cases ys with
    | nil =>
      rw [List.map_cons, toList_join, List.append_assoc] at h
      exact absurd h ((hopens x hxok).ne_append hstops)
    | cons y ys =>
      obtain ⟨hy, hys'⟩ := List.forall_mem_cons.1 hys
      simp only [List.map_cons, toList_join, List.append_assoc] at h
      obtain ⟨rfl, hmore⟩ := hx y _ _ hy (stops_separated hsep hc hclose _)
        (stops_separated hsep hc hclose _) h
      obtain ⟨rfl, hrest⟩ := eq_of_separated hsep hc hclose hne (fun x hx ↦ (hxs x hx).2) hys' hmore
      exact ⟨rfl, hrest⟩

end

def isNameChar (c : Char) : Bool := isIdentRest c || c == '.'

theorem isIdentRest_of_isWord {s : String} (h : IsWord s) : ∀ c ∈ s.toList, isIdentRest c := by
  obtain ⟨c, cs, hs, hc, hcs⟩ := h
  rw [hs]
  exact List.forall_mem_cons.2 ⟨by rw [isIdentRest, hc, Bool.true_or], hcs⟩

theorem isNameChar_of_isWord {s : String} (h : IsWord s) : ∀ c ∈ s.toList, isNameChar c := by
  intro c hc
  rw [isNameChar, isIdentRest_of_isWord h c hc, Bool.true_or]

theorem isNameChar_of_isTypeName {name : String} (h : IsTypeName name) :
    ∀ c ∈ name.toList, isNameChar c := by
  rcases h with h | ⟨a, b, ha, hb, rfl⟩
  · exact isNameChar_of_isWord h.1
  · have hdot : ∀ c ∈ ".".toList, isNameChar c := fun c hc ↦ by simp_all [isNameChar]
    rw [String.toList_append, String.toList_append]
    exact List.forall_mem_append.2 ⟨List.forall_mem_append.2
      ⟨isNameChar_of_isWord ha.1, hdot⟩, isNameChar_of_isWord hb.1⟩

theorem append_inj_of_breaks {p : Char → Bool} {cs cs' rest rest' : List Char}
    (hcs : ∀ c ∈ cs, p c) (hcs' : ∀ c ∈ cs', p c) (hrest : ∀ c ∈ rest.head?, p c = false)
    (hrest' : ∀ c ∈ rest'.head?, p c = false) (h : cs ++ rest = cs' ++ rest') :
    cs = cs' ∧ rest = rest' := by
  obtain ⟨htake, hdrop⟩ := takeWhile_append_of_breaks hcs hrest
  obtain ⟨htake', hdrop'⟩ := takeWhile_append_of_breaks hcs' hrest'
  rw [h] at htake hdrop
  exact ⟨htake.symm.trans htake', hdrop.symm.trans hdrop'⟩

/-- The name or keyword that the text of a type begins with, if it begins with one. -/
def Descriptor.word : Descriptor → String
  | .named name _ | .param name _ => name
  | .map _ _ => "map"
  | .chan .both _ | .chan .send _ => "chan"
  | .func _ _ _ => "func"
  | .interface _ _ => "interface"
  | .struct _ => "struct"
  | .pointer _ | .slice _ | .array _ _ | .chan .recv _ => ""

def Descriptor.tail : Descriptor → List Char
  | .named _ [] | .param _ _ => []
  | .named _ (a :: as) => '[' :: ((Text.join ", " (renderAll (a :: as))).toList ++ [']'])
  | .pointer e => '*' :: e.render.toList
  | .slice e => '[' :: ']' :: e.render.toList
  | .array len e => '[' :: (len.toList ++ ']' :: e.render.toList)
  | .map k v => '[' :: (k.render.toList ++ ']' :: v.render.toList)
  | .chan .both e => ' ' :: e.render.toList
  | .chan .send e => '<' :: '-' :: ' ' :: e.render.toList
  | .chan .recv e => '<' :: '-' :: 'c' :: 'h' :: 'a' :: 'n' :: ' ' :: e.render.toList
  | .func ps rs variadic =>
    (parenthesized (markVariadic variadic (renderAll ps)) ++ resultsText rs (renderAll rs)).toList
  | .interface ms es =>
    '{' :: ((Text.join "; " (renderAll es ++ renderSignatures ms)).toList ++ ['}'])
  | .struct fs => '{' :: ((Text.join "; " (renderFields fs)).toList ++ ['}'])

theorem Descriptor.toList_render (d : Descriptor) :
    d.render.toList = d.word.toList ++ d.tail := by
  cases d with
  | named name args =>
    cases args with
    | nil => rw [Descriptor.render, Descriptor.word, Descriptor.tail, List.append_nil]
    | cons a as =>
      simp [Descriptor.render, Descriptor.word, Descriptor.tail, String.toList_append, renderAll]
  | chan dir e =>
    cases dir <;> simp [Descriptor.render, Descriptor.word, Descriptor.tail, Direction.lead,
      String.toList_append]
  | _ => simp [Descriptor.render, Descriptor.word, Descriptor.tail, String.toList_append]

/-- The token that the text of a type begins with, if it is not a name. -/
def Descriptor.opening : Descriptor → Option Mark
  | .named _ _ | .param _ _ => none
  | .pointer _ => some .star
  | .slice _ | .array _ _ => some .lbracket
  | .map _ _ => some .map
  | .chan .both _ | .chan .send _ => some .chan
  | .chan .recv _ => some .arrow
  | .func _ _ _ => some .func
  | .interface _ _ => some .interface
  | .struct _ => some .struct

def openingOf (word : String) (tail : List Char) : Option Mark :=
  if word = "" then
    match tail with
    | '*' :: _ => some .star
    | '[' :: _ => some .lbracket
    | '<' :: _ => some .arrow
    | _ => none
  else Mark.ofKeyword? word

theorem ofKeyword?_eq_none_of_dot {s : String} (h : '.' ∈ s.toList) :
    Mark.ofKeyword? s = none := by
  unfold Mark.ofKeyword?
  split <;> first | rfl | exact absurd h (by decide)

theorem ofKeyword?_of_isTypeName {name : String} (h : IsTypeName name) :
    Mark.ofKeyword? name = none := by
  rcases h with h | ⟨a, b, -, -, rfl⟩
  · exact h.2
  · exact ofKeyword?_eq_none_of_dot (by simp [String.toList_append])

theorem IsTypeName.exists_head {name : String} (h : IsTypeName name) :
    ∃ c cs, name.toList = c :: cs ∧ isIdentStart c := by
  rcases h with h | ⟨a, b, ha, -, rfl⟩
  · obtain ⟨c, cs, hs, hc, -⟩ := h.1
    exact ⟨c, cs, hs, hc⟩
  · obtain ⟨c, cs, hs, hc, -⟩ := ha.1
    refine ⟨c, cs ++ '.' :: b.toList, ?_, hc⟩
    simp [String.toList_append, hs]

theorem notMem_of_isIdentStart {c : Char} (h : isIdentStart c) :
    c ∉ [',', ';', ')', ']', '}', '(', '.', ' '] := by
  intro hc
  simp only [List.mem_cons, List.not_mem_nil, or_false] at hc
  rcases hc with rfl | rfl | rfl | rfl | rfl | rfl | rfl | rfl <;> exact absurd h (by decide)

theorem exists_head_of_isWord {s : String} (h : IsWord s) (cs : List Char) :
    ∃ c cs', s.toList ++ cs = c :: cs' ∧ c ∉ [',', ';', ')', ']', '}', '(', '.', ' '] := by
  obtain ⟨c, cs', hs, hc, -⟩ := h
  rw [hs]
  exact ⟨c, cs' ++ cs, rfl, notMem_of_isIdentStart hc⟩

theorem IsTypeName.ne_empty {name : String} (h : IsTypeName name) : name ≠ "" := by
  rintro rfl
  obtain ⟨c, cs, hs, -⟩ := h.exists_head
  cases hs

namespace Descriptor

variable {d x y : Descriptor} {rest rest' : List Char}

theorem opening_eq (hd : d.RegularLevel) (rest : List Char) :
    d.opening = openingOf d.word (d.tail ++ rest) := by
  cases d with
  | named name args =>
    exact (ofKeyword?_of_isTypeName hd.1).symm.trans (if_neg hd.1.ne_empty).symm
  | param name owner => exact hd.elim
  | chan dir e => cases dir <;> rfl
  | _ => rfl

theorem isNameChar_of_mem_word (hd : d.RegularLevel) : ∀ c ∈ d.word.toList, isNameChar c := by
  cases d with
  | named name args => exact isNameChar_of_isTypeName hd.1
  | param name owner => exact hd.elim
  | map _ _ | func _ _ _ | interface _ _ | struct _ =>
    rw [word]
    exact isNameChar_of_isWord (by decide)
  | chan dir e =>
    cases dir with
    | both | send =>
      rw [word]
      exact isNameChar_of_isWord (by decide)
    | recv => nofun
  | pointer e | slice e | array len e => nofun

theorem tail_breaks (hrest : Stops rest) : ∀ c ∈ (d.tail ++ rest).head?, isNameChar c = false := by
  have hstops : ∀ c ∈ rest.head?, isNameChar c = false := by
    intro c hc
    have hmem := hrest c hc
    simp only [List.mem_cons, List.not_mem_nil, or_false] at hmem
    rcases hmem with rfl | rfl | rfl | rfl | rfl <;> decide
  cases d with
  | named name args =>
    cases args with
    | nil => exact hstops
    | cons a as =>
      rintro _ ⟨⟩
      decide
  | param name owner => exact hstops
  | chan dir e =>
    cases dir <;>
    · rintro _ ⟨⟩
      decide
  | func ps rs variadic =>
    rw [tail, parenthesized, String.append_assoc, String.append_assoc, String.toList_append]
    rintro _ ⟨⟩
    decide
  | _ =>
    rintro _ ⟨⟩
    decide

theorem word_eq_of_append_eq (hx : x.RegularLevel) (hy : y.RegularLevel) (hrest : Stops rest)
    (hrest' : Stops rest') (h : x.render.toList ++ rest = y.render.toList ++ rest') :
    x.word = y.word ∧ x.tail ++ rest = y.tail ++ rest' ∧ x.opening = y.opening := by
  rw [toList_render, toList_render, List.append_assoc, List.append_assoc] at h
  obtain ⟨hword, htail⟩ := append_inj_of_breaks (isNameChar_of_mem_word hx)
    (isNameChar_of_mem_word hy) (tail_breaks hrest) (tail_breaks hrest') h
  have hword := String.toList_injective hword
  refine ⟨hword, htail, ?_⟩
  rw [opening_eq hx rest, opening_eq hy rest', hword, htail]

theorem exists_head_render (hd : d.RegularLevel) :
    ∃ c cs, d.render.toList = c :: cs ∧ c ∉ [',', ';', ')', ']', '}', '(', '.', ' '] := by
  rw [toList_render]
  cases d with
  | named name args =>
    obtain ⟨c, cs, hs, hc⟩ := hd.1.exists_head
    refine ⟨c, cs ++ tail (.named name args), ?_, notMem_of_isIdentStart hc⟩
    rw [word, hs]
    rfl
  | param name owner => exact hd.elim
  | pointer e | slice e | array len e => exact ⟨_, _, rfl, by decide⟩
  | chan dir e =>
    cases dir with
    | recv => exact ⟨_, _, rfl, by decide⟩
    | both | send => exact exists_head_of_isWord (s := "chan") (by decide) _
  | map k v => exact exists_head_of_isWord (s := "map") (by decide) _
  | func ps rs variadic => exact exists_head_of_isWord (s := "func") (by decide) _
  | interface ms es => exact exists_head_of_isWord (s := "interface") (by decide) _
  | struct fs => exact exists_head_of_isWord (s := "struct") (by decide) _

theorem opens_render (hd : d.RegularLevel) : Opens d.render := by
  obtain ⟨c, cs, hs, hc⟩ := exists_head_render hd
  exact ⟨c, cs, hs, fun hmem ↦ hc (by simp_all)⟩

/-- A type whose text begins with an identifier is a name. -/
theorem head?_tail_of_isIdentifier (hd : d.RegularLevel) (hword : IsIdentifier d.word)
    (hrest : Stops rest) : ∀ c ∈ (d.tail ++ rest).head?, c ∉ ['(', ' '] := by
  have hname : d.opening = none := by
    have hne : d.word ≠ "" := IsTypeName.ne_empty (.inl hword)
    exact (opening_eq hd rest).trans ((if_neg hne).trans hword.2)
  cases d with
  | named name args =>
    cases args with
    | nil =>
      intro c hc hmem
      have hstop := hrest c hc
      simp only [List.mem_cons, List.not_mem_nil, or_false] at hmem hstop
      rcases hmem with rfl | rfl <;> exact absurd hstop (by decide)
    | cons a as =>
      rintro _ ⟨⟩
      decide
  | param name owner => exact hd.elim
  | chan dir e => cases dir <;> cases hname
  | _ => cases hname

end Descriptor

def parameterText (x : Bool × Descriptor) : String := if x.1 then "..." ++ x.2.render else x.2.render

theorem markVariadic_eq (variadic : Bool) (ds : List Descriptor) :
    markVariadic variadic (renderAll ds) = (Parser.flagged variadic ds).map parameterText := by
  induction ds with
  | nil => rfl
  | cons d ds ih =>
    cases ds with
    | nil => rfl
    | cons e ds =>
      simp only [renderAll, markVariadic, Parser.flagged, List.map_cons] at ih ⊢
      rw [ih]
      rfl

theorem any_flagged (variadic : Bool) (ds : List Descriptor) :
    (Parser.flagged variadic ds).any (·.1) = (variadic && !ds.isEmpty) := by
  induction ds with
  | nil => simp [Parser.flagged]
  | cons d ds ih =>
    cases ds with
    | nil => simp [Parser.flagged]
    | cons e ds => simpa [Parser.flagged] using ih

theorem flagged_inj {v w : Bool} {ps qs : List Descriptor} (hv : v → ps ≠ []) (hw : w → qs ≠ [])
    (h : Parser.flagged v ps = Parser.flagged w qs) : ps = qs ∧ v = w := by
  have hps : ps = qs := by rw [← Parser.map_snd_flagged v ps, h, Parser.map_snd_flagged]
  have hany := congrArg (List.any · (·.1)) h
  simp only [any_flagged] at hany
  subst hps
  refine ⟨rfl, ?_⟩
  cases ps with
  | nil =>
    rw [Bool.eq_false_iff.2 fun h ↦ hv h rfl, Bool.eq_false_iff.2 fun h ↦ hw h rfl]
  | cons p ps => simpa using hany

/-- A regular type that its text tells from all other ones. -/
structure Descriptor.Distinct (d : Descriptor) : Prop where
  regular : d.Regular
  legible : Legible Descriptor.render Descriptor.Regular d

section

variable {rest rest' : List Char}

theorem legible_parameterText {x : Bool × Descriptor} (hx : x.2.Distinct) :
    Legible parameterText (fun x ↦ x.2.Regular) x := by
  have hdots {v w : Descriptor} (hv : v.Regular) {rest rest' : List Char} :
      v.render.toList ++ rest ≠ ("..." ++ w.render).toList ++ rest' := by
    obtain ⟨c, cs, hs, hc⟩ := Descriptor.exists_head_render hv.level
    rw [hs, String.toList_append]
    intro he
    obtain rfl : c = '.' := (List.cons.inj he).1
    exact hc (by decide)
  obtain ⟨v, d⟩ := x
  rintro ⟨w, e⟩ rest rest' he hrest hrest' h
  cases v <;> cases w
  · obtain ⟨rfl, hrest⟩ := hx.legible e rest rest' he hrest hrest' h
    exact ⟨rfl, hrest⟩
  · exact absurd h (hdots hx.regular)
  · exact absurd h.symm (hdots he)
  · simp only [parameterText, if_true, String.toList_append, List.append_assoc,
      List.append_cancel_left_eq] at h
    obtain ⟨rfl, hrest⟩ := hx.legible e rest rest' he hrest hrest' h
    exact ⟨rfl, hrest⟩

theorem toList_parenthesized (texts : List String) :
    (parenthesized texts).toList ++ rest =
      '(' :: ((Text.join ", " texts).toList ++ ')' :: rest) := by
  simp [parenthesized, String.toList_append]

theorem eq_of_parenthesized {α : Type} {text : α → String} {ok : α → Prop} {xs ys : List α}
    (hopens : ∀ x, ok x → Opens (text x)) (hxs : ∀ x ∈ xs, ok x ∧ Legible text ok x)
    (hys : ∀ y ∈ ys, ok y)
    (h : (parenthesized (xs.map text)).toList ++ rest =
      (parenthesized (ys.map text)).toList ++ rest') : xs = ys ∧ rest = rest' := by
  rw [toList_parenthesized, toList_parenthesized] at h
  exact eq_of_join rfl (stops_cons.2 (by decide)) (stops_cons.2 (by decide)) (by decide) hopens hxs
    hys (List.cons.inj h).2

theorem opens_parameterText {x : Bool × Descriptor} (h : x.2.Regular) : Opens (parameterText x) := by
  obtain ⟨v, d⟩ := x
  cases v with
  | false => exact Descriptor.opens_render h.level
  | true => exact ⟨'.', '.' :: '.' :: d.render.toList, by simp [parameterText], by decide⟩

theorem eq_of_markVariadic {v w : Bool} {ps qs : List Descriptor} (hv : v → ps ≠ [])
    (hw : w → qs ≠ []) (hps : ∀ d ∈ ps, d.Distinct) (hqs : ∀ d ∈ qs, d.Regular)
    (h : (parenthesized (markVariadic v (renderAll ps))).toList ++ rest =
      (parenthesized (markVariadic w (renderAll qs))).toList ++ rest') :
    (ps = qs ∧ v = w) ∧ rest = rest' := by
  rw [markVariadic_eq, markVariadic_eq] at h
  have hps := (Parser.forall_mem_flagged v).2 hps
  have hqs := (Parser.forall_mem_flagged w).2 hqs
  obtain ⟨hflagged, hrest⟩ := eq_of_parenthesized (fun _ ↦ opens_parameterText)
    (fun x hx ↦ ⟨(hps x hx).regular, legible_parameterText (hps x hx)⟩) hqs h
  exact ⟨flagged_inj hv hw hflagged, hrest⟩

theorem eq_of_resultsText {rs qs : List Descriptor} (hrs : ∀ d ∈ rs, d.Distinct)
    (hqs : ∀ d ∈ qs, d.Regular) (hrest : Stops rest) (hrest' : Stops rest')
    (h : (resultsText rs (renderAll rs)).toList ++ rest =
      (resultsText qs (renderAll qs)).toList ++ rest') : rs = qs ∧ rest = rest' := by
  have hparens {d : Descriptor} (hd : d.Regular) {texts : List String} {rest rest' : List Char} :
      d.render.toList ++ rest ≠ (parenthesized texts).toList ++ rest' := by
    obtain ⟨c, cs, hs, hc⟩ := Descriptor.exists_head_render hd.level
    rw [hs, toList_parenthesized]
    intro he
    obtain rfl : c = '(' := (List.cons.inj he).1
    exact hc (by decide)
  have hempty {d : Descriptor} {ds : List Descriptor} {rest rest' : List Char} (hrest : Stops rest) :
      (resultsText (d :: ds) (renderAll (d :: ds))).toList ++ rest' ≠ rest := by
    rintro rfl
    rcases resultsText_cases d ds with ⟨htext, -⟩ | ⟨-, htext, -⟩ <;>
    · rw [htext, String.toList_append] at hrest
      exact absurd (stops_cons.1 hrest) (by decide)
  cases rs with
  | nil =>
    cases qs with
    | nil => exact ⟨rfl, h⟩
    | cons q qs => exact absurd h.symm (hempty hrest)
  | cons r rs =>
    cases qs with
    | nil => exact absurd h (hempty hrest')
    | cons q qs =>
      rcases resultsText_cases r rs with ⟨htext, -⟩ | ⟨rfl, htext, -⟩ <;>
      rcases resultsText_cases q qs with ⟨htext', -⟩ | ⟨rfl, htext', -⟩ <;>
      rw [htext, htext', String.toList_append, String.toList_append, List.append_assoc,
        List.append_assoc, List.append_cancel_left_eq] at h
      · rw [renderAll_eq_map, renderAll_eq_map] at h
        exact eq_of_parenthesized (fun d hd ↦ Descriptor.opens_render (Descriptor.Regular.level hd))
          (fun d hd ↦ ⟨(hrs d hd).regular, (hrs d hd).legible⟩) hqs h
      · exact absurd h.symm (hparens (hqs q List.mem_cons_self))
      · exact absurd h (hparens (hrs r List.mem_cons_self).regular)
      · obtain ⟨rfl, hrest⟩ := (hrs r List.mem_cons_self).legible q rest rest'
          (hqs q List.mem_cons_self) hrest hrest' h
        exact ⟨rfl, hrest⟩

theorem eq_of_callable {v w : Bool} {ps qs rs ts : List Descriptor} (hv : v → ps ≠ [])
    (hw : w → qs ≠ []) (hdistinct : ∀ d ∈ ps ++ rs, d.Distinct) (hregular : ∀ d ∈ qs ++ ts, d.Regular)
    (hrest : Stops rest) (hrest' : Stops rest')
    (h : (parenthesized (markVariadic v (renderAll ps)) ++
        resultsText rs (renderAll rs)).toList ++ rest =
      (parenthesized (markVariadic w (renderAll qs)) ++
        resultsText ts (renderAll ts)).toList ++ rest') :
    (ps = qs ∧ v = w) ∧ rs = ts ∧ rest = rest' := by
  rw [String.toList_append, String.toList_append, List.append_assoc, List.append_assoc] at h
  obtain ⟨hps, hrs⟩ := List.forall_mem_append.1 hdistinct
  obtain ⟨hqs, hts⟩ := List.forall_mem_append.1 hregular
  obtain ⟨hparams, h⟩ := eq_of_markVariadic hv hw hps hqs h
  exact ⟨hparams, eq_of_resultsText hrs hts hrest hrest' h⟩

theorem Descriptor.render_ne_of_isIdentifier {d : Descriptor} (hd : d.RegularLevel) {name : String}
    (hname : IsIdentifier name) {c : Char} (hc : c ∈ ['(', ' ']) (hrest : Stops rest) :
    d.render.toList ++ rest ≠ name.toList ++ c :: rest' := by
  intro h
  have hbreaks : ∀ x ∈ (c :: rest').head?, isNameChar x = false := by
    rintro x ⟨⟩
    simp only [List.mem_cons, List.not_mem_nil, or_false] at hc
    rcases hc with rfl | rfl <;> decide
  rw [Descriptor.toList_render, List.append_assoc] at h
  obtain ⟨hword, htail⟩ := append_inj_of_breaks (Descriptor.isNameChar_of_mem_word hd)
    (isNameChar_of_isTypeName (.inl hname)) (Descriptor.tail_breaks hrest) hbreaks h
  rw [← String.toList_injective hword] at hname
  refine Descriptor.head?_tail_of_isIdentifier hd hname hrest c ?_ hc
  rw [htail]
  rfl

theorem eq_of_identifier {name name' : String} (hname : IsIdentifier name)
    (hname' : IsIdentifier name') {c : Char} (hc : isIdentRest c = false)
    (h : name.toList ++ c :: rest = name'.toList ++ c :: rest') : name = name' ∧ rest = rest' := by
  have hbreaks {cs : List Char} : ∀ x ∈ (c :: cs).head?, isIdentRest x = false := by
    rintro x ⟨⟩
    exact hc
  obtain ⟨he, hcs⟩ := append_inj_of_breaks (isIdentRest_of_isWord hname.1)
    (isIdentRest_of_isWord hname'.1) hbreaks hbreaks h
  exact ⟨String.toList_injective he, (List.cons.inj hcs).2⟩

theorem IsIdentifier.opens {name : String} (h : IsIdentifier name) (s : String) :
    Opens (name ++ s) := by
  obtain ⟨c, cs, hs, hc⟩ := exists_head_of_isWord h.1 s.toList
  exact ⟨c, cs, by rw [String.toList_append, hs], fun hmem ↦ hc (by simp_all)⟩

theorem Signature.toList_render (s : Signature) : s.render.toList ++ rest = s.name.toList ++
    '(' :: ((Text.join ", " (markVariadic s.variadic (renderAll s.params))).toList ++
      ')' :: ((resultsText s.results (renderAll s.results)).toList ++ rest)) := by
  obtain ⟨name, ps, rs, variadic⟩ := s
  simp [Signature.render, parenthesized, String.toList_append]

theorem legible_signature {s : Signature} (hs : s.Regular) (htypes : ∀ d ∈ s.types, d.Distinct) :
    Legible Signature.render (fun s ↦ s.Regular ∧ ∀ d ∈ s.types, d.Regular) s := by
  rintro t rest rest' ⟨ht, httypes⟩ hrest hrest' h
  rw [Signature.toList_render, Signature.toList_render] at h
  obtain ⟨hname, h⟩ := eq_of_identifier hs.name ht.name (by decide) h
  obtain ⟨⟨hparams, hvariadic⟩, hresults, hrest⟩ := eq_of_callable hs.variadic ht.variadic htypes
    httypes hrest hrest' (by simpa [parenthesized, String.toList_append] using h)
  refine ⟨?_, hrest⟩
  obtain ⟨name, ps, rs, variadic⟩ := s
  obtain ⟨name', ps', rs', variadic'⟩ := t
  rw [Signature.mk.injEq]
  exact ⟨hname, hparams, hresults, hvariadic⟩

def elementText : Parser.Element → String
  | .method s => s.render
  | .embed d => d.render

theorem opens_elementText {e : Parser.Element} (he : e.Holds Descriptor.Regular) :
    Opens (elementText e) := by
  cases e with
  | method s =>
    obtain ⟨name, ps, rs, variadic⟩ := s
    rw [elementText, Signature.render, String.append_assoc]
    exact IsIdentifier.opens he.1.name _
  | embed d => exact Descriptor.opens_render (Descriptor.Regular.level he)

theorem legible_elementText {e : Parser.Element} (he : e.Holds Descriptor.Distinct) :
    Legible elementText (·.Holds Descriptor.Regular) e := by
  have happart {d : Descriptor} (hd : d.Regular) {s : Signature} (hs : s.Regular)
      {rest rest' : List Char} (hrest : Stops rest) :
      d.render.toList ++ rest ≠ s.render.toList ++ rest' := by
    rw [Signature.toList_render]
    exact Descriptor.render_ne_of_isIdentifier hd.level hs.name (by decide) hrest
  intro f rest rest' hf hrest hrest' h
  cases e with
  | method s =>
    cases f with
    | method t =>
      obtain ⟨rfl, hrest⟩ := legible_signature he.1 he.2 t rest rest' hf hrest hrest' h
      exact ⟨rfl, hrest⟩
    | embed d => exact absurd h.symm (happart hf he.1 hrest')
  | embed d =>
    cases f with
    | method t => exact absurd h (happart he.regular hf.1 hrest)
    | embed d' =>
      obtain ⟨rfl, hrest⟩ := he.legible d' rest rest' hf hrest hrest' h
      exact ⟨rfl, hrest⟩

def elementsOf (ms : List Signature) (es : List Descriptor) : List Parser.Element :=
  es.map .embed ++ ms.map .method

theorem elementsOf_inj {ms ns : List Signature} {es fs : List Descriptor}
    (h : elementsOf ms es = elementsOf ns fs) : ms = ns ∧ es = fs := by
  have hne {d : Descriptor} {ms : List Signature} {xs : List Parser.Element} :
      .embed d :: xs ≠ ms.map Parser.Element.method := by
    cases ms <;> nofun
  induction es generalizing fs with
  | nil =>
    cases fs with
    | nil =>
      have hmethod : Function.Injective Parser.Element.method := fun _ _ h ↦
        Parser.Element.method.inj h
      exact ⟨hmethod.list_map h, rfl⟩
    | cons f fs => exact absurd h.symm hne
  | cons e es ih =>
    cases fs with
    | nil => exact absurd h hne
    | cons f fs =>
      obtain ⟨he, hrest⟩ := List.cons.inj h
      obtain ⟨rfl, rfl⟩ := ih hrest
      rw [Parser.Element.embed.inj he]
      exact ⟨rfl, rfl⟩

theorem map_elementText (ms : List Signature) (es : List Descriptor) :
    (elementsOf ms es).map elementText = renderAll es ++ renderSignatures ms := by
  simp [elementsOf, elementText, Function.comp_def]

theorem holds_of_mem_elementsOf {Q : Descriptor → Prop} {ms : List Signature}
    {es : List Descriptor} (hms : ∀ s ∈ ms, s.Regular)
    (h : ∀ d ∈ (Descriptor.interface ms es).children, Q d) : ∀ e ∈ elementsOf ms es, e.Holds Q := by
  obtain ⟨htypes, hembeds⟩ := List.forall_mem_append.1 h
  refine List.forall_mem_append.2 ⟨List.forall_mem_map.2 hembeds, List.forall_mem_map.2 fun s hs ↦ ?_⟩
  exact ⟨hms s hs, fun d hd ↦ htypes d (List.mem_flatMap.2 ⟨s, hs, hd⟩)⟩

theorem opens_field {f : Field} (hf : f.Regular) (hd : f.type.Regular) : Opens f.render := by
  obtain ⟨_ | name, d⟩ := f
  · exact Descriptor.opens_render hd.level
  · rw [Field.render, String.append_assoc]
    exact IsIdentifier.opens hf _

theorem legible_field {f : Field} (hf : f.Regular) (hd : f.type.Distinct) :
    Legible Field.render (fun f ↦ f.Regular ∧ f.type.Regular) f := by
  have htext {name : String} {d : Descriptor} {rest : List Char} :
      (Field.render ⟨some name, d⟩).toList ++ rest =
        name.toList ++ ' ' :: (d.render.toList ++ rest) := by
    simp [Field.render, String.toList_append]
  rintro g rest rest' ⟨hg, hgtype⟩ hrest hrest' h
  obtain ⟨_ | name, d⟩ := f
  · obtain ⟨_ | name', d'⟩ := g
    · obtain ⟨rfl, hrest⟩ := hd.legible d' rest rest' hgtype hrest hrest' h
      exact ⟨rfl, hrest⟩
    · rw [htext] at h
      exact absurd h (Descriptor.render_ne_of_isIdentifier hd.regular.level hg (by decide) hrest)
  · obtain ⟨_ | name', d'⟩ := g
    · rw [htext] at h
      exact absurd h.symm (Descriptor.render_ne_of_isIdentifier hgtype.level hf (by decide) hrest')
    · rw [htext, htext] at h
      obtain ⟨rfl, htypes⟩ := eq_of_identifier hf hg (by decide) h
      obtain ⟨rfl, hrest⟩ := hd.legible d' rest rest' hgtype hrest hrest' htypes
      exact ⟨rfl, hrest⟩

end

namespace Descriptor

variable {x y : Descriptor} {rest rest' : List Char}

theorem eq_of_isNumber {m n : String} (hm : IsNumber m) (hn : IsNumber n)
    (h : m.toList ++ ']' :: rest = n.toList ++ ']' :: rest') : m = n ∧ rest = rest' := by
  have hdigits {s : String} (hs : IsNumber s) : ∀ c ∈ s.toList, c.isDigit := by
    obtain ⟨c, cs, he, hc, hcs⟩ := hs
    rw [he]
    exact List.forall_mem_cons.2 ⟨hc, hcs⟩
  have hbreaks {cs : List Char} : ∀ c ∈ (']' :: cs).head?, c.isDigit = false := by
    rintro _ ⟨⟩
    rfl
  obtain ⟨he, hcs⟩ := append_inj_of_breaks (hdigits hm) (hdigits hn) hbreaks hbreaks h
  exact ⟨String.toList_injective he, (List.cons.inj hcs).2⟩

theorem slice_tail_ne {len : String} {e e' : Descriptor} (hlen : IsNumber len) :
    tail (.slice e) ++ rest ≠ tail (.array len e') ++ rest' := by
  obtain ⟨c, cs, hs, hc, -⟩ := hlen
  simp only [tail, hs, List.cons_append, ne_eq, List.cons.injEq, true_and, not_and]
  rintro rfl
  cases hc

theorem eq_of_arrays {len len' : String} {e e' : Descriptor} (hlen : IsNumber len)
    (hlen' : IsNumber len') (he : e.Distinct) (he' : e'.Regular) (hrest : Stops rest)
    (hrest' : Stops rest') (h : tail (.array len e) ++ rest = tail (.array len' e') ++ rest') :
    (len = len' ∧ e = e') ∧ rest = rest' := by
  simp only [tail, List.cons_append, List.append_assoc, List.cons.injEq, true_and] at h
  obtain ⟨rfl, helem⟩ := eq_of_isNumber hlen hlen' h
  obtain ⟨rfl, hrest⟩ := he.legible e' rest rest' he' hrest hrest' helem
  exact ⟨⟨rfl, rfl⟩, hrest⟩

theorem eq_of_maps {k v k' v' : Descriptor} (hdistinct : ∀ d ∈ children (.map k v), d.Distinct)
    (hregular : ∀ d ∈ children (.map k' v'), d.Regular) (hrest : Stops rest) (hrest' : Stops rest')
    (h : tail (.map k v) ++ rest = tail (.map k' v') ++ rest') :
    (k = k' ∧ v = v') ∧ rest = rest' := by
  simp only [children, List.forall_mem_cons] at hdistinct hregular
  obtain ⟨hk, hv, -⟩ := hdistinct
  obtain ⟨hk', hv', -⟩ := hregular
  simp only [tail, List.cons_append, List.append_assoc, List.cons.injEq, true_and] at h
  obtain ⟨rfl, hvalues⟩ := hk.legible k' _ _ hk' (stops_cons.2 (by decide))
    (stops_cons.2 (by decide)) h
  obtain ⟨rfl, hrest⟩ := hv.legible v' rest rest' hv' hrest hrest' (List.cons.inj hvalues).2
  exact ⟨⟨rfl, rfl⟩, hrest⟩

theorem not_stops_tail {name : String} {a : Descriptor} {as : List Descriptor} :
    ¬ Stops (tail (.named name (a :: as)) ++ rest) := fun h ↦ absurd (stops_cons.1 h) (by decide)

theorem eq_of_arguments {name : String} {args args' : List Descriptor}
    (hargs : ∀ d ∈ args, d.Distinct) (hargs' : ∀ d ∈ args', d.Regular) (hrest : Stops rest)
    (hrest' : Stops rest')
    (h : tail (.named name args) ++ rest = tail (.named name args') ++ rest') :
    args = args' ∧ rest = rest' := by
  cases args with
  | nil =>
    cases args' with
    | nil => exact ⟨rfl, h⟩
    | cons b bs =>
      have hstops : Stops (tail (.named name []) ++ rest) := hrest
      rw [h] at hstops
      exact absurd hstops not_stops_tail
  | cons a as =>
    cases args' with
    | nil =>
      have hstops : Stops (tail (.named name []) ++ rest') := hrest'
      rw [← h] at hstops
      exact absurd hstops not_stops_tail
    | cons b bs =>
      simp only [tail, List.cons_append, List.append_assoc, List.cons.injEq, true_and,
        renderAll_eq_map] at h
      exact eq_of_join rfl (stops_cons.2 (by decide)) (stops_cons.2 (by decide)) (by decide)
        (fun d hd ↦ opens_render (Regular.level hd))
        (fun d hd ↦ ⟨(hargs d hd).regular, (hargs d hd).legible⟩) hargs' h

theorem eq_of_channels {dir dir' : Direction} {e e' : Descriptor} (he : e.Distinct)
    (he' : e'.Regular) (hrest : Stops rest) (hrest' : Stops rest')
    (hopening : opening (.chan dir e) = opening (.chan dir' e'))
    (h : tail (.chan dir e) ++ rest = tail (.chan dir' e') ++ rest') :
    (dir = dir' ∧ e = e') ∧ rest = rest' := by
  have helem (h : e.render.toList ++ rest = e'.render.toList ++ rest') : e = e' ∧ rest = rest' :=
    he.legible e' rest rest' he' hrest hrest' h
  cases dir <;> cases dir' <;> try cases hopening
  all_goals simp only [tail, List.cons_append, List.cons.injEq, true_and] at h
  case both.both | send.send | recv.recv =>
    obtain ⟨rfl, hrest⟩ := helem h
    exact ⟨⟨rfl, rfl⟩, hrest⟩
  case both.send | send.both => exact absurd h.1 (by decide)

theorem eq_of_bodies {α : Type} {text : α → String} {ok : α → Prop} {xs ys : List α}
    (hopens : ∀ x, ok x → Opens (text x)) (hxs : ∀ x ∈ xs, ok x ∧ Legible text ok x)
    (hys : ∀ y ∈ ys, ok y)
    (h : '{' :: ((Text.join "; " (xs.map text)).toList ++ ['}']) ++ rest =
      '{' :: ((Text.join "; " (ys.map text)).toList ++ ['}']) ++ rest') : xs = ys ∧ rest = rest' := by
  simp only [List.cons_append, List.append_assoc, List.nil_append, List.cons.injEq, true_and] at h
  exact eq_of_join rfl (stops_cons.2 (by decide)) (stops_cons.2 (by decide)) (by decide) hopens hxs
    hys h

theorem eq_of_interfaces {ms ns : List Signature} {es fs : List Descriptor}
    (hx : RegularLevel (.interface ms es)) (hy : RegularLevel (.interface ns fs))
    (hdistinct : ∀ d ∈ children (.interface ms es), d.Distinct)
    (hregular : ∀ d ∈ children (.interface ns fs), d.Regular)
    (h : tail (.interface ms es) ++ rest = tail (.interface ns fs) ++ rest') :
    (ms = ns ∧ es = fs) ∧ rest = rest' := by
  have hxs := holds_of_mem_elementsOf hx.2 hdistinct
  have hxs' := holds_of_mem_elementsOf hx.2 fun d hd ↦ (hdistinct d hd).regular
  rw [tail, tail, ← map_elementText, ← map_elementText] at h
  obtain ⟨he, hrest⟩ := eq_of_bodies (fun _ ↦ opens_elementText)
    (fun e he ↦ ⟨hxs' e he, legible_elementText (hxs e he)⟩)
    (holds_of_mem_elementsOf hy.2 hregular) h
  exact ⟨elementsOf_inj he, hrest⟩

theorem eq_of_structs {fs gs : List Field} (hx : RegularLevel (.struct fs))
    (hy : RegularLevel (.struct gs)) (hdistinct : ∀ d ∈ children (.struct fs), d.Distinct)
    (hregular : ∀ d ∈ children (.struct gs), d.Regular)
    (h : tail (.struct fs) ++ rest = tail (.struct gs) ++ rest') : fs = gs ∧ rest = rest' := by
  have hfs := List.forall_mem_map.1 hdistinct
  have hgs := List.forall_mem_map.1 hregular
  rw [tail, tail, renderFields_eq_map, renderFields_eq_map] at h
  have hopens (f : Field) (hf : f.Regular ∧ f.type.Regular) : Opens f.render :=
    opens_field hf.1 hf.2
  exact eq_of_bodies hopens
    (fun f hf ↦ ⟨⟨hx f hf, (hfs f hf).regular⟩, legible_field (hx f hf) (hfs f hf)⟩)
    (fun f hf ↦ ⟨hy f hf, hgs f hf⟩) h

/-- A regular type can be told by its text up to where it stops. Texts with different first tokens
differ there already, and equal first tokens leave the types inside to be compared. -/
theorem Regular.distinct (hx : x.Regular) : x.Distinct := by
  induction x using Descriptor.children_induct with
  | h x ih =>
    refine ⟨hx, fun y rest rest' hy hrest hrest' h ↦ ?_⟩
    obtain ⟨hxlevel, hxchildren⟩ := forall_parts.1 hx
    obtain ⟨hylevel, hychildren⟩ := forall_parts.1 hy
    have ih (c : Descriptor) (hc : c ∈ x.children) : c.Distinct := ih c hc (hxchildren c hc)
    obtain ⟨hword, htail, hopening⟩ := word_eq_of_append_eq hxlevel hylevel hrest hrest' h
    cases x with
    | named name args =>
      cases y with
      | named name' args' =>
        obtain rfl : name = name' := hword
        obtain ⟨rfl, hrest⟩ := eq_of_arguments ih hychildren hrest hrest' htail
        exact ⟨rfl, hrest⟩
      | param name' owner => exact hylevel.elim
      | chan dir e => cases dir <;> cases hopening
      | _ => cases hopening
    | param name owner => exact hxlevel.elim
    | pointer e =>
      cases y with
      | pointer e' =>
        obtain ⟨rfl, hrest⟩ := (ih e List.mem_cons_self).legible e' rest rest'
          (hychildren e' List.mem_cons_self) hrest hrest' (List.cons.inj htail).2
        exact ⟨rfl, hrest⟩
      | chan dir e' => cases dir <;> cases hopening
      | _ => cases hopening
    | slice e =>
      cases y with
      | slice e' =>
        obtain ⟨rfl, hrest⟩ := (ih e List.mem_cons_self).legible e' rest rest'
          (hychildren e' List.mem_cons_self) hrest hrest' (List.cons.inj (List.cons.inj htail).2).2
        exact ⟨rfl, hrest⟩
      | array len e' => exact absurd htail (slice_tail_ne hylevel)
      | chan dir e' => cases dir <;> cases hopening
      | _ => cases hopening
    | array len e =>
      cases y with
      | slice e' => exact absurd htail.symm (slice_tail_ne hxlevel)
      | array len' e' =>
        obtain ⟨⟨rfl, rfl⟩, hrest⟩ := eq_of_arrays hxlevel hylevel (ih e List.mem_cons_self)
          (hychildren e' List.mem_cons_self) hrest hrest' htail
        exact ⟨rfl, hrest⟩
      | chan dir e' => cases dir <;> cases hopening
      | _ => cases hopening
    | map k v =>
      cases y with
      | map k' v' =>
        obtain ⟨⟨rfl, rfl⟩, hrest⟩ := eq_of_maps ih hychildren hrest hrest' htail
        exact ⟨rfl, hrest⟩
      | chan dir e' => cases dir <;> cases hopening
      | _ => cases hopening
    | chan dir e =>
      cases y with
      | chan dir' e' =>
        obtain ⟨⟨rfl, rfl⟩, hrest⟩ := eq_of_channels (ih e List.mem_cons_self)
          (hychildren e' List.mem_cons_self) hrest hrest' hopening htail
        exact ⟨rfl, hrest⟩
      | _ => cases dir <;> cases hopening
    | func ps rs variadic =>
      cases y with
      | func ps' rs' variadic' =>
        obtain ⟨⟨rfl, rfl⟩, rfl, hrest⟩ := eq_of_callable hxlevel hylevel ih hychildren hrest hrest'
          htail
        exact ⟨rfl, hrest⟩
      | chan dir e' => cases dir <;> cases hopening
      | _ => cases hopening
    | interface ms es =>
      cases y with
      | interface ms' es' =>
        obtain ⟨⟨rfl, rfl⟩, hrest⟩ := eq_of_interfaces hxlevel hylevel ih hychildren htail
        exact ⟨rfl, hrest⟩
      | chan dir e' => cases dir <;> cases hopening
      | _ => cases hopening
    | struct fs =>
      cases y with
      | struct fs' =>
        obtain ⟨rfl, hrest⟩ := eq_of_structs hxlevel hylevel ih hychildren htail
        exact ⟨rfl, hrest⟩
      | chan dir e' => cases dir <;> cases hopening
      | _ => cases hopening

theorem Regular.eq_of_render_eq (hx : x.Regular) (hy : y.Regular) (h : x.render = y.render) : x = y :=
  (hx.distinct.legible y [] [] hy stops_nil stops_nil (by rw [h])).1

end Descriptor

theorem Signature.Regular.eq_of_render_eq {s t : Signature} (hs : s.Regular) (ht : t.Regular)
    (hstypes : ∀ d ∈ s.types, d.Regular) (httypes : ∀ d ∈ t.types, d.Regular)
    (h : s.render = t.render) : s = t :=
  (legible_signature hs (fun d hd ↦ (hstypes d hd).distinct) t [] [] ⟨ht, httypes⟩ stops_nil
    stops_nil (by rw [h])).1

/-- What was read from two texts is the same if it is written in the same way. -/
theorem render_unique (text text' : String) :
    (∀ d d', Descriptor.parse text = .ok d → Descriptor.parse text' = .ok d' →
      d.render = d'.render → d = d') ∧
    ∀ s s', Signature.parse text = .ok s → Signature.parse text' = .ok s' →
      s.render = s'.render → s = s' := by
  refine ⟨fun d d' hd hd' h ↦ ?_, fun s s' hs hs' h ↦ ?_⟩
  · exact (Descriptor.readableIn_of_parse hd).regular.eq_of_render_eq
      (Descriptor.readableIn_of_parse hd').regular h
  · obtain ⟨hs, htypes⟩ := Signature.readableIn_of_parse hs
    obtain ⟨hs', htypes'⟩ := Signature.readableIn_of_parse hs'
    exact hs.eq_of_render_eq hs' (fun d hd ↦ (htypes d hd).regular)
      (fun d hd ↦ (htypes' d hd).regular) h

/-- A channel with parentheses and one without them, a method with the name of its parameter and
one without it. -/
theorem render_unique_of_chan_and_put :
    (∃ d d', Descriptor.parse "chan (<-chan int)" = .ok d ∧
      Descriptor.parse "(chan (<-chan int))" = .ok d' ∧ d = d') ∧
    ∃ s s', Signature.parse "Put(x int)" = .ok s ∧ Signature.parse "Put(int)" = .ok s' ∧
      s = s' := by
  have hint : IsIdentifier "int" := by decide
  have hx : IsIdentifier "x" := by decide
  have hput : IsIdentifier "Put" := by decide
  have hinner {cs : List Char} {xs : List Token} (h : Lexes cs xs) :
      Lexes ("chan (<-chan int)".toList ++ cs)
        (.mark .chan :: .mark .lparen :: .mark .arrow :: .mark .chan :: .ident "int" ::
          .mark .rparen :: xs) := by
    refine .keyword (m := .chan) rfl (breaks_cons (by decide))
      (.space (.sign (fun _ ↦ rfl) (.arrow ?_)))
    refine .keyword (m := .chan) rfl (breaks_cons (by decide)) (.space ?_)
    exact .identifier hint (breaks_cons (by decide)) (.sign (fun _ ↦ rfl) h)
  have hchan : Descriptor.parse "chan (<-chan int)" =
      .ok (.chan .both (.chan .recv (.simple "int"))) := by
    refine Parser.Reads.run_eq_ok ?_ (hinner .nil)
    exact .cons fun _ _ ↦ .cons fun _ _ ↦ .cons fun _ _ ↦ .cons fun _ _ ↦ .cons fun _ _ ↦
      .cons fun _ _ ↦ .of_nil rfl
  have hparens : Descriptor.parse "(chan (<-chan int))" =
      .ok (.chan .both (.chan .recv (.simple "int"))) := by
    refine Parser.Reads.run_eq_ok ?_
      (.sign (c := '(') (fun _ ↦ rfl) (hinner (.sign (c := ')') (fun _ ↦ rfl) .nil)))
    exact .cons fun _ _ ↦ .cons fun _ _ ↦ .cons fun _ _ ↦ .cons fun _ _ ↦ .cons fun _ _ ↦
      .cons fun _ _ ↦ .cons fun _ _ ↦ .cons fun _ _ ↦ .of_nil rfl
  have hnamed : Signature.parse "Put(x int)" = .ok ⟨"Put", [.simple "int"], [], false⟩ := by
    have hlexes : Lexes "Put(x int)".toList
        [.ident "Put", .mark .lparen, .ident "x", .ident "int", .mark .rparen] := by
      refine .identifier hput (breaks_cons (by decide)) (.sign (fun _ ↦ rfl) ?_)
      refine .identifier hx (breaks_cons (by decide)) (.space ?_)
      exact .identifier hint (breaks_cons (by decide)) (.sign (fun _ ↦ rfl) .nil)
    refine Parser.Reads.run_eq_ok ?_ hlexes
    exact .cons fun _ _ ↦ .cons fun _ _ ↦ .cons fun _ _ ↦ .cons fun _ _ ↦ .cons fun _ _ ↦
      .of_nil rfl
  have hunnamed : Signature.parse "Put(int)" = .ok ⟨"Put", [.simple "int"], [], false⟩ := by
    have hlexes : Lexes "Put(int)".toList
        [.ident "Put", .mark .lparen, .ident "int", .mark .rparen] := by
      refine .identifier hput (breaks_cons (by decide)) (.sign (fun _ ↦ rfl) ?_)
      exact .identifier hint (breaks_cons (by decide)) (.sign (fun _ ↦ rfl) .nil)
    refine Parser.Reads.run_eq_ok ?_ hlexes
    exact .cons fun _ _ ↦ .cons fun _ _ ↦ .cons fun _ _ ↦ .cons fun _ _ ↦ .of_nil rfl
  exact ⟨⟨_, _, hchan, hparens, (render_unique _ _).1 _ _ hchan hparens rfl⟩,
    ⟨_, _, hnamed, hunnamed, (render_unique _ _).2 _ _ hnamed hunnamed rfl⟩⟩

end Conformance

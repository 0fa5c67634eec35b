import Conformance.Descriptor.Render
import Conformance.Proofs.Grammar.Regular
import Mathlib.Data.List.Forall2

namespace Conformance

open Token

def joinTokens (sep : Mark) : List (List Token) → List Token
  | [] => []
  | [xs] => xs
  | xs :: ys :: rest => xs ++ .mark sep :: joinTokens sep (ys :: rest)

def nameTokens (name : String) : List Token :=
  match name.toList.dropWhile (· != '.') with
  | [] => [.ident name]
  | _ :: member => [.ident (.ofList (name.toList.takeWhile (· != '.'))), .mark .dot,
    .ident (.ofList member)]

def variadicTokens (variadic : Bool) : List (List Token) → List (List Token)
  | [] => []
  | [xs] => [if variadic then .mark .ellipsis :: xs else xs]
  | xs :: ys :: rest => xs :: variadicTokens variadic (ys :: rest)

def parenthesizedTokens (items : List (List Token)) : List Token :=
  .mark .lparen :: joinTokens .comma items ++ [.mark .rparen]

def resultTokens (results : List Descriptor) (items : List (List Token)) : List Token :=
  match results, items with
  | [], _ => []
  | [.func ..], _ => parenthesizedTokens items
  | [_], [xs] => xs
  | _, _ => parenthesizedTokens items

def Direction.tokens : Direction → List Token
  | .both => [.mark .chan]
  | .send => [.mark .chan, .mark .arrow]
  | .recv => [.mark .arrow, .mark .chan]

mutual

def Descriptor.tokens : Descriptor → List Token
  | .named name [] => nameTokens name
  | .named name (a :: as) =>
    nameTokens name ++ .mark .lbracket :: joinTokens .comma (a.tokens :: allTokens as) ++
      [.mark .rbracket]
  | .param name _ => nameTokens name
  | .pointer e => .mark .star :: e.tokens
  | .slice e => .mark .lbracket :: .mark .rbracket :: e.tokens
  | .array len e => .mark .lbracket :: .int len :: .mark .rbracket :: e.tokens
  | .map k v => .mark .map :: .mark .lbracket :: k.tokens ++ .mark .rbracket :: v.tokens
  | .chan dir e => dir.tokens ++ e.tokens
  | .func ps rs variadic =>
    .mark .func :: parenthesizedTokens (variadicTokens variadic (allTokens ps)) ++
      resultTokens rs (allTokens rs)
  | .interface ms es =>
    .mark .interface :: .mark .lbrace :: joinTokens .semi (allTokens es ++ signaturesTokens ms) ++
      [.mark .rbrace]
  | .struct fs =>
    .mark .struct :: .mark .lbrace :: joinTokens .semi (fieldsTokens fs) ++ [.mark .rbrace]

def allTokens : List Descriptor → List (List Token)
  | [] => []
  | d :: ds => d.tokens :: allTokens ds

def Signature.tokens : Signature → List Token
  | ⟨name, ps, rs, variadic⟩ =>
    .ident name :: parenthesizedTokens (variadicTokens variadic (allTokens ps)) ++
      resultTokens rs (allTokens rs)

def signaturesTokens : List Signature → List (List Token)
  | [] => []
  | s :: ss => s.tokens :: signaturesTokens ss

def Field.tokens : Field → List Token
  | ⟨some name, d⟩ => .ident name :: d.tokens
  | ⟨none, d⟩ => d.tokens

def fieldsTokens : List Field → List (List Token)
  | [] => []
  | f :: fs => f.tokens :: fieldsTokens fs

end

@[simp]
theorem allTokens_eq_map (ds : List Descriptor) : allTokens ds = ds.map Descriptor.tokens := by
  induction ds with
  | nil => rfl
  | cons d ds ih => simp only [allTokens, ih, List.map_cons]

@[simp]
theorem signaturesTokens_eq_map (ss : List Signature) :
    signaturesTokens ss = ss.map Signature.tokens := by
  induction ss with
  | nil => rfl
  | cons s ss ih => simp only [signaturesTokens, ih, List.map_cons]

@[simp]
theorem fieldsTokens_eq_map (fs : List Field) : fieldsTokens fs = fs.map Field.tokens := by
  induction fs with
  | nil => rfl
  | cons f fs ih => simp only [fieldsTokens, ih, List.map_cons]

/-- The text is scanned as these tokens where no word goes on after it. -/
def Spells (s : String) (xs : List Token) : Prop :=
  ∀ rest ys, Breaks rest → Lexes rest ys → Lexes (s.toList ++ rest) (xs ++ ys)

theorem Spells.lexes {s : String} {xs : List Token} (h : Spells s xs) : Lexes s.toList xs := by
  have hlexes := h [] [] nofun .nil
  rwa [List.append_nil, List.append_nil] at hlexes

theorem breaks_cons {c : Char} {cs : List Char} (h : isIdentRest c = false) : Breaks (c :: cs) := by
  intro x hx
  rwa [← Option.some.inj hx]

theorem ne_dot_of_isWord {s : String} (h : IsWord s) : ∀ c ∈ s.toList, c ≠ '.' := by
  obtain ⟨c, cs, he, hc, hcs⟩ := h
  rw [he]
  refine List.forall_mem_cons.2 ⟨?_, fun x hx ↦ ?_⟩
  · rintro rfl
    exact absurd hc (by decide)
  · rintro rfl
    exact absurd (hcs _ hx) (by decide)

theorem nameTokens_of_isIdentifier {name : String} (h : IsIdentifier name) :
    nameTokens name = [.ident name] := by
  have hdot : name.toList.dropWhile (· != '.') = [] :=
    List.dropWhile_eq_nil_iff.2 fun c hc ↦ bne_iff_ne.2 (ne_dot_of_isWord h.1 c hc)
  rw [nameTokens, hdot]

theorem nameTokens_of_qualified {a b : String} (ha : IsIdentifier a) :
    nameTokens (a ++ "." ++ b) = [.ident a, .mark .dot, .ident b] := by
  have hdot : ∀ c ∈ a.toList, (c != '.') = true := fun c hc ↦
    bne_iff_ne.2 (ne_dot_of_isWord ha.1 c hc)
  have hlist : (a ++ "." ++ b).toList = a.toList ++ '.' :: b.toList := by
    simp [String.toList_append]
  have hbreak : ∀ c ∈ ('.' :: b.toList).head?, (c != '.') = false := by
    rintro c ⟨⟩
    rfl
  obtain ⟨htake, hdrop⟩ := takeWhile_append_of_breaks hdot hbreak
  rw [nameTokens, hlist, htake, hdrop]
  simp only [String.ofList_toList]

theorem spells_name {name : String} (h : IsTypeName name) : Spells name (nameTokens name) := by
  intro rest ys hrest hys
  rcases h with h | ⟨a, b, ha, hb, rfl⟩
  · rw [nameTokens_of_isIdentifier h]
    exact Lexes.identifier h hrest hys
  · have hlist : (a ++ "." ++ b).toList ++ rest = a.toList ++ '.' :: (b.toList ++ rest) := by
      simp [String.toList_append]
    have hmember : ∀ c ∈ (b.toList ++ rest).head?, c ≠ '.' := by
      obtain ⟨c, cs, he, hc, -⟩ := hb.1
      rw [he]
      rintro _ ⟨⟩ rfl
      exact absurd hc (by decide)
    rw [nameTokens_of_qualified ha, hlist]
    exact Lexes.identifier ha (breaks_cons (by decide)) (.dot hmember (Lexes.identifier hb hrest hys))

theorem spells_join {sep : String} {m : Mark} {texts : List String} {items : List (List Token)}
    (hsep : ∀ {rest ys}, Lexes rest ys → Lexes (sep.toList ++ rest) (.mark m :: ys))
    (hbreaks : ∀ rest, Breaks (sep.toList ++ rest)) (h : List.Forall₂ Spells texts items) :
    Spells (Text.join sep texts) (joinTokens m items) := by
  induction h with
  | nil => exact fun rest ys _ hys ↦ hys
  | @cons s xs texts items hs h ih =>
    cases h with
    | nil => exact hs
    | cons ht h =>
      intro rest ys hrest hys
      simp only [Text.join, joinTokens, String.toList_append, List.append_assoc, List.cons_append]
      exact hs _ _ (hbreaks _) (hsep (ih rest ys hrest hys))

theorem spells_commas {texts : List String} {items : List (List Token)}
    (h : List.Forall₂ Spells texts items) :
    Spells (Text.join ", " texts) (joinTokens .comma items) :=
  spells_join (fun h ↦ .sign (fun _ ↦ rfl) (.space h)) (fun _ ↦ breaks_cons (by decide)) h

theorem spells_semis {texts : List String} {items : List (List Token)}
    (h : List.Forall₂ Spells texts items) :
    Spells (Text.join "; " texts) (joinTokens .semi items) :=
  spells_join (fun h ↦ .sign (fun _ ↦ rfl) (.space h)) (fun _ ↦ breaks_cons (by decide)) h

theorem lexes_parenthesized {texts : List String} {items : List (List Token)} {rest : List Char}
    {ys : List Token} (h : List.Forall₂ Spells texts items) (hys : Lexes rest ys) :
    Lexes ((parenthesized texts).toList ++ rest) (parenthesizedTokens items ++ ys) := by
  simp only [parenthesized, parenthesizedTokens, String.toList_append, List.append_assoc,
    List.cons_append, List.nil_append]
  exact .sign (fun _ ↦ rfl)
    (spells_commas h _ _ (breaks_cons (by decide)) (.sign (fun _ ↦ rfl) hys))

theorem spells_markVariadic {variadic : Bool} {texts : List String} {items : List (List Token)}
    (h : List.Forall₂ Spells texts items) :
    List.Forall₂ Spells (markVariadic variadic texts) (variadicTokens variadic items) := by
  induction h with
  | nil => exact .nil
  | @cons s xs texts items hs h ih =>
    cases h with
    | nil =>
      refine .cons (fun rest ys hrest hys ↦ ?_) .nil
      cases variadic with
      | false => exact hs rest ys hrest hys
      | true =>
        simp only [if_true, String.toList_append, List.append_assoc, List.cons_append]
        exact .ellipsis (hs rest ys hrest hys)
    | cons ht h => exact .cons hs ih

theorem spells_all {ds : List Descriptor} (h : ∀ d ∈ ds, Spells d.render d.tokens) :
    List.Forall₂ Spells (renderAll ds) (allTokens ds) := by
  rw [renderAll_eq_map, allTokens_eq_map, List.forall₂_map_left_iff, List.forall₂_map_right_iff,
    List.forall₂_same]
  exact h

theorem resultsText_cases (r : Descriptor) (rs : List Descriptor) :
    resultsText (r :: rs) (renderAll (r :: rs)) = " " ++ parenthesized (renderAll (r :: rs)) ∧
        resultTokens (r :: rs) (allTokens (r :: rs)) = parenthesizedTokens (allTokens (r :: rs)) ∨
      rs = [] ∧ resultsText (r :: rs) (renderAll (r :: rs)) = " " ++ r.render ∧
        resultTokens (r :: rs) (allTokens (r :: rs)) = r.tokens := by
  cases rs with
  | nil =>
    cases r with
    | func ps rs variadic => exact .inl ⟨rfl, rfl⟩
    | _ => exact .inr ⟨rfl, rfl, rfl⟩
  | cons r' rs => cases r <;> exact .inl ⟨rfl, rfl⟩

theorem spells_results {rs : List Descriptor} (h : ∀ r ∈ rs, Spells r.render r.tokens) :
    Spells (resultsText rs (renderAll rs)) (resultTokens rs (allTokens rs)) := by
  intro rest ys hrest hys
  cases rs with
  | nil => exact hys
  | cons r rs =>
    rcases resultsText_cases r rs with ⟨htext, htokens⟩ | ⟨rfl, htext, htokens⟩ <;>
      rw [htext, htokens, String.toList_append, List.append_assoc]
    · exact .space (lexes_parenthesized (spells_all h) hys)
    · exact .space (h r List.mem_cons_self rest ys hrest hys)

theorem spells_callable {ps rs : List Descriptor} (variadic : Bool)
    (hps : ∀ d ∈ ps, Spells d.render d.tokens) (hrs : ∀ d ∈ rs, Spells d.render d.tokens) :
    Spells (parenthesized (markVariadic variadic (renderAll ps)) ++ resultsText rs (renderAll rs))
      (parenthesizedTokens (variadicTokens variadic (allTokens ps)) ++
        resultTokens rs (allTokens rs)) := by
  intro rest ys hrest hys
  rw [String.toList_append, List.append_assoc, List.append_assoc]
  exact lexes_parenthesized (spells_markVariadic (spells_all hps))
    (spells_results hrs rest ys hrest hys)

theorem Signature.spells_of_types {s : Signature} (hname : IsIdentifier s.name)
    (h : ∀ d ∈ s.types, Spells d.render d.tokens) : Spells s.render s.tokens := by
  obtain ⟨name, ps, rs, variadic⟩ := s
  intro rest ys hrest hys
  have hcallable := spells_callable variadic (fun d hd ↦ h d (List.mem_append_left _ hd))
    (fun d hd ↦ h d (List.mem_append_right _ hd)) rest ys hrest hys
  have hbreaks : Breaks ((parenthesized (markVariadic variadic (renderAll ps)) ++
      resultsText rs (renderAll rs)).toList ++ rest) := by
    simp only [parenthesized, String.toList_append, List.append_assoc]
    exact breaks_cons (by decide)
  rw [Signature.render, Signature.tokens, String.append_assoc, String.toList_append,
    List.append_assoc]
  exact Lexes.identifier hname hbreaks hcallable

theorem Descriptor.Regular.spells {d : Descriptor} (hd : d.Regular) : Spells d.render d.tokens := by
  induction d using Descriptor.children_induct with
  | h d ih =>
    obtain ⟨hlevel, hchildren⟩ := Descriptor.forall_parts.1 hd
    have ih (c : Descriptor) (hc : c ∈ d.children) : Spells c.render c.tokens :=
      ih c hc (hchildren c hc)
    intro rest ys hrest hys
    cases d with
    | named name args =>
      cases args with
      | nil => exact spells_name hlevel.1 rest ys hrest hys
      | cons a as =>
        simp only [Descriptor.render, Descriptor.tokens, String.toList_append, List.append_assoc,
          List.cons_append, List.nil_append]
        have hargs := spells_commas (spells_all ih) _ _ (breaks_cons (by decide))
          (.sign (c := ']') (m := .rbracket) (fun _ ↦ rfl) hys)
        exact spells_name hlevel.1 _ _ (breaks_cons (by decide)) (.sign (fun _ ↦ rfl) hargs)
    | param name owner => exact hlevel.elim
    | pointer e =>
      have he := ih e List.mem_cons_self rest ys hrest hys
      simp only [Descriptor.render, Descriptor.tokens, String.toList_append, List.append_assoc]
      exact .sign (fun _ ↦ rfl) he
    | slice e =>
      have he := ih e List.mem_cons_self rest ys hrest hys
      simp only [Descriptor.render, Descriptor.tokens, String.toList_append, List.append_assoc]
      exact .sign (fun _ ↦ rfl) (.sign (fun _ ↦ rfl) he)
    | array len e =>
      have he := ih e List.mem_cons_self rest ys hrest hys
      simp only [Descriptor.render, Descriptor.tokens, String.toList_append, List.append_assoc]
      exact .sign (fun _ ↦ rfl)
        (Lexes.number hlevel (breaks_cons (by decide)) (.sign (fun _ ↦ rfl) he))
    | map k v =>
      have hv := ih v (by simp [Descriptor.children]) rest ys hrest hys
      have hk := ih k (by simp [Descriptor.children]) _ _ (breaks_cons (by decide))
        (.sign (c := ']') (m := .rbracket) (fun _ ↦ rfl) hv)
      simp only [Descriptor.render, Descriptor.tokens, String.toList_append, List.append_assoc,
        List.cons_append]
      exact .keyword (m := .map) rfl (breaks_cons (by decide)) (.sign (fun _ ↦ rfl) hk)
    | chan dir e =>
      have he := ih e List.mem_cons_self rest ys hrest hys
      cases dir with
      | both =>
        simp only [Descriptor.render, Descriptor.tokens, String.toList_append, List.append_assoc]
        exact .keyword (m := .chan) rfl (breaks_cons (by decide)) (.space he)
      | send =>
        simp only [Descriptor.render, Descriptor.tokens, String.toList_append, List.append_assoc]
        exact .keyword (m := .chan) rfl (breaks_cons (by decide)) (.arrow (.space he))
      | recv =>
        simp only [Descriptor.render, Descriptor.tokens, String.toList_append, List.append_assoc]
        exact .arrow (.keyword (m := .chan) rfl (breaks_cons (by decide)) (.space he))
    | func ps rs variadic =>
      have hcallable := spells_callable variadic (fun d hd ↦ ih d (List.mem_append_left _ hd))
        (fun d hd ↦ ih d (List.mem_append_right _ hd)) rest ys hrest hys
      have hbreaks : Breaks ((parenthesized (markVariadic variadic (renderAll ps)) ++
          resultsText rs (renderAll rs)).toList ++ rest) := by
        simp only [parenthesized, String.toList_append, List.append_assoc]
        exact breaks_cons (by decide)
      rw [Descriptor.render, Descriptor.tokens, String.append_assoc, String.toList_append,
        List.append_assoc]
      exact .keyword (m := .func) rfl hbreaks hcallable
    | interface ms es =>
      have hms : List.Forall₂ Spells (renderSignatures ms) (signaturesTokens ms) := by
        rw [renderSignatures_eq_map, signaturesTokens_eq_map, List.forall₂_map_left_iff,
          List.forall₂_map_right_iff, List.forall₂_same]
        refine fun s hs ↦ Signature.spells_of_types (hlevel.2 s hs).name fun d hd ↦ ?_
        exact ih d (List.mem_append_left _ (List.mem_flatMap.2 ⟨s, hs, hd⟩))
      have hes := spells_all fun e he ↦ ih e (List.mem_append_right _ he)
      have helements := spells_semis (List.rel_append hes hms) _ _ (breaks_cons (by decide))
        (.sign (c := '}') (m := .rbrace) (fun _ ↦ rfl) hys)
      simp only [Descriptor.render, Descriptor.tokens, String.toList_append, List.append_assoc,
        List.cons_append]
      exact .keyword (m := .interface) rfl (breaks_cons (by decide)) (.sign (fun _ ↦ rfl) helements)
    | struct fs =>
      have hfs : List.Forall₂ Spells (renderFields fs) (fieldsTokens fs) := by
        rw [renderFields_eq_map, fieldsTokens_eq_map, List.forall₂_map_left_iff,
          List.forall₂_map_right_iff, List.forall₂_same]
        intro f hf rest ys hrest hys
        have hd := ih f.type (List.mem_map_of_mem hf) rest ys hrest hys
        obtain ⟨_ | name, d⟩ := f
        · exact hd
        · have hname : IsIdentifier name := hlevel _ hf
          simp only [Field.render, Field.tokens, String.toList_append, List.append_assoc]
          exact Lexes.identifier hname (breaks_cons (by decide)) (.space hd)
      have hfields := spells_semis hfs _ _ (breaks_cons (by decide))
        (.sign (c := '}') (m := .rbrace) (fun _ ↦ rfl) hys)
      simp only [Descriptor.render, Descriptor.tokens, String.toList_append, List.append_assoc,
        List.cons_append]
      exact .keyword (m := .struct) rfl (breaks_cons (by decide)) (.sign (fun _ ↦ rfl) hfields)

theorem Signature.spells {s : Signature} (hs : s.Regular) (h : ∀ d ∈ s.types, d.Regular) :
    Spells s.render s.tokens :=
  Signature.spells_of_types hs.name fun d hd ↦ (h d hd).spells

end Conformance

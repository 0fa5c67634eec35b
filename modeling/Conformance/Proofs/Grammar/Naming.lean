import Conformance.Proofs.Grammar.RoundTrip
import Conformance.Proofs.Grammar.UniqueText

namespace Conformance

open Token

/-- An element of a list with names: a name before its parameter, or one that shares the type of the
next element. -/
inductive NamedElement where
  | own (name : String) (x : Bool × Descriptor)
  | sharing (name : String)

namespace NamedElement

def text : NamedElement → String
  | own name x => name ++ " " ++ parameterText x
  | sharing name => name

def tokens : NamedElement → List Token
  | own name x => .ident name :: Parser.parameterTokens x
  | sharing name => [.ident name]

def Holds (P : Descriptor → Prop) : NamedElement → Prop
  | own name x => IsIdentifier name ∧ P x.2
  | sharing name => IsIdentifier name

end NamedElement

/-- The parameters with names. A name without a type has the one of the next element: the texts of
the two are the same, and the next one is not variadic. -/
inductive NamedList : List (Bool × Descriptor) → List NamedElement → Prop
  | nil : NamedList [] []
  | own {name : String} {x : Bool × Descriptor} {xs : List (Bool × Descriptor)}
      {ws : List NamedElement} (hname : IsIdentifier name) (h : NamedList xs ws) :
      NamedList (x :: xs) (.own name x :: ws)
  | sharing {name : String} {d e : Descriptor} {xs : List (Bool × Descriptor)}
      {ws : List NamedElement} (hname : IsIdentifier name) (htext : d.render = e.render)
      (h : NamedList ((false, e) :: xs) ws) :
      NamedList ((false, d) :: (false, e) :: xs) (.sharing name :: ws)

inductive ListTexts (variadic : Bool) (ds : List Descriptor) : List String → Prop
  | unnamed : ListTexts variadic ds (markVariadic variadic (renderAll ds))
  | named {ws : List NamedElement} (h : NamedList (Parser.flagged variadic ds) ws) :
      ListTexts variadic ds (ws.map NamedElement.text)

/-- What is written for the results; one alone can go without parentheses, and no names. -/
inductive ResultTexts (ds : List Descriptor) : String → Prop
  | plain : ResultTexts ds (resultsText ds (renderAll ds))
  | parens {texts : List String} (hne : ds ≠ []) (h : ListTexts false ds texts) :
      ResultTexts ds (" " ++ parenthesized texts)

/-- The texts of a method, with names or without for its parameters and for its results. -/
inductive Signature.WrittenAs (s : Signature) : String → Prop
  | mk {texts : List String} {results : String} (hparams : ListTexts s.variadic s.params texts)
      (hresults : ResultTexts s.results results) :
      s.WrittenAs (s.name ++ parenthesized texts ++ results)

section

variable {xs : List (Bool × Descriptor)} {ws : List NamedElement} {es : List Entry}

theorem NamedList.holds_iff {P : Descriptor → Prop} (h : NamedList xs ws)
    (hxs : ∀ x ∈ xs, x.2.Regular) :
    (∀ w ∈ ws, w.Holds P) ↔ ∀ x ∈ xs, P x.2 := by
  induction h with
  | nil => simp
  | own hname h ih =>
    rw [List.forall_mem_cons, List.forall_mem_cons, ih (List.forall_mem_cons.1 hxs).2]
    exact and_congr_left' (and_iff_right hname)
  | sharing hname htext h ih =>
    obtain ⟨hd, hxs⟩ := List.forall_mem_cons.1 hxs
    obtain rfl := hd.eq_of_render_eq (hxs _ List.mem_cons_self) htext
    rw [List.forall_mem_cons, List.forall_mem_cons, ih hxs]
    exact ⟨fun h ↦ ⟨h.2 _ List.mem_cons_self, h.2⟩, fun h ↦ ⟨hname, h.2⟩⟩

theorem spells_parameterText {x : Bool × Descriptor} (hx : x.2.Regular) :
    Spells (parameterText x) (Parser.parameterTokens x) := by
  intro rest ys hrest hys
  obtain ⟨_ | _, d⟩ := x
  · exact hx.spells rest ys hrest hys
  · simp only [parameterText, if_true, String.toList_append, List.append_assoc]
    exact .ellipsis (hx.spells rest ys hrest hys)

theorem NamedElement.spells {w : NamedElement} (hw : w.Holds Descriptor.Regular) :
    Spells w.text w.tokens := by
  intro rest ys hrest hys
  cases w with
  | own name x =>
    simp only [text, String.toList_append, List.append_assoc]
    exact Lexes.identifier hw.1 (breaks_cons (by decide))
      (.space (spells_parameterText hw.2 rest ys hrest hys))
  | sharing name => exact Lexes.identifier hw hrest hys

def IsNamedEntry : NamedElement → Entry → Prop
  | .own _ x, e => e.naming = .named ∧ e.variadic = x.1 ∧ e.type = x.2.respelled
  | .sharing _, e => e.naming = .lone ∧ e.variadic = false

theorem NamedList.forall₂_variadic (h : NamedList xs ws) (hes : List.Forall₂ IsNamedEntry ws es) :
    List.Forall₂ (fun x e ↦ e.variadic = x.1) xs es := by
  induction h generalizing es with
  | nil =>
    cases hes
    exact .nil
  | own hname h ih =>
    obtain ⟨e, es, he, hmore, rfl⟩ := List.forall₂_cons_left_iff.1 hes
    exact .cons he.2.1 (ih hmore)
  | sharing hname htext h ih =>
    obtain ⟨e, es, he, hmore, rfl⟩ := List.forall₂_cons_left_iff.1 hes
    exact .cons he.2 (ih hmore)

theorem NamedList.any_named (h : NamedList xs ws) (hes : List.Forall₂ IsNamedEntry ws es)
    (hne : xs ≠ []) : es.any (·.naming == .named) := by
  induction h generalizing es with
  | nil => exact absurd rfl hne
  | own hname h ih =>
    obtain ⟨e, es, he, -, rfl⟩ := List.forall₂_cons_left_iff.1 hes
    rw [List.any_cons, he.1]
    rfl
  | sharing hname htext h ih =>
    obtain ⟨e, es, -, hmore, rfl⟩ := List.forall₂_cons_left_iff.1 hes
    rw [List.any_cons, ih hmore (List.cons_ne_nil _ _), Bool.or_true]

theorem replicate_succ_append {α : Type} {n : Nat} {a b : α} (h : n ≠ 0 → a = b) (bs : List α) :
    List.replicate (n + 1) b ++ bs = List.replicate n a ++ b :: bs := by
  cases n with
  | zero => rfl
  | succ n =>
    rw [h (Nat.succ_ne_zero n), List.replicate_succ', List.append_assoc]
    rfl

/-- The names that wait for a type get the one of the first parameter, which they share. -/
theorem NamedList.distribute_eq (h : NamedList xs ws) (hxs : ∀ x ∈ xs, x.2.Regular)
    (hes : List.Forall₂ IsNamedEntry ws es) (waiting : List Entry) (t : Descriptor)
    (hnil : xs = [] → waiting = [])
    (ht : ∀ x ∈ xs.head?, waiting.length ≠ 0 → t = x.2.respelled) :
    Entry.distribute waiting es =
      .ok (List.replicate waiting.length t ++ xs.map (·.2.respelled)) := by
  induction h generalizing es waiting t with
  | nil =>
    cases hes
    rw [hnil rfl]
    rfl
  | @own name x xs ws hname h ih =>
    obtain ⟨e, es, ⟨hnaming, -, htype⟩, hmore, rfl⟩ := List.forall₂_cons_left_iff.1 hes
    have hrest := ih (List.forall_mem_cons.1 hxs).2 hmore [] t (fun _ ↦ rfl)
      fun _ _ h ↦ absurd rfl h
    rw [Entry.distribute, hnaming, hrest, htype, List.map_cons, ← replicate_succ_append (ht x rfl)]
    rfl
  | @sharing name d d' xs ws hname htext h ih =>
    obtain ⟨e, es, ⟨hnaming, -⟩, hmore, rfl⟩ := List.forall₂_cons_left_iff.1 hes
    obtain ⟨hd, hxs⟩ := List.forall_mem_cons.1 hxs
    obtain rfl : d = d' := hd.eq_of_render_eq (hxs _ List.mem_cons_self) htext
    have hrest := ih hxs hmore (waiting ++ [e]) d.respelled nofun (by rintro _ ⟨⟩ -; rfl)
    rw [Entry.distribute, hnaming]
    simp only [hrest, List.length_append, List.length_singleton]
    exact congrArg Except.ok (replicate_succ_append (ht _ rfl) _)

theorem NamedList.resolve_eq {variadic : Bool} {ds : List Descriptor}
    (h : NamedList (Parser.flagged variadic ds) ws) (hds : ∀ d ∈ ds, d.Regular)
    (hne : variadic → ds ≠ []) (hes : List.Forall₂ IsNamedEntry ws es) :
    Entry.resolve es = .ok (ds.map Descriptor.respelled, variadic) := by
  have hflags := h.forall₂_variadic hes
  have hxs := (Parser.forall_mem_flagged variadic).2 hds
  have hdistribute := h.distribute_eq hxs hes [] (.simple "") (fun _ ↦ rfl) fun _ _ h ↦ absurd rfl h
  have hmap : (Parser.flagged variadic ds).map (·.2.respelled) = ds.map Descriptor.respelled := by
    rw [← Parser.map_snd_flagged variadic ds, List.map_map, Parser.map_snd_flagged]
    rfl
  rw [hmap] at hdistribute
  rw [Entry.resolve, Parser.misplacedVariadic?_flagged hflags]
  simp only [Parser.lastIsVariadic_flagged hflags hne]
  split
  · rw [hdistribute]
    rfl
  · rename_i hnamed
    cases ds with
    | nil =>
      cases h
      cases hes
      rfl
    | cons d ds => exact absurd (h.any_named hes Parser.flagged_ne_nil) hnamed

end

theorem reads_respelled {d : Descriptor} (hd : d.ReadableIn nestingLimit) {ys : List Token}
    (hys : Parser.Follows ys) : Parser.Reads (Parser.typeUpTo nestingLimit) (d.tokens ++ ys)
      d.respelled.FieldsReadable (· = d.respelled) ys := by
  obtain ⟨hregular, hchannels⟩ := hd.regular.settled_respelled
  have h := Parser.reads_typeUpTo hregular hchannels (Descriptor.depth_respelled_le hd.depth) ys hys
  rwa [Descriptor.tokens_respelled] at h

theorem readsType_respelled {ds : List Descriptor} (hds : ∀ d ∈ ds, d.ReadableIn nestingLimit) :
    ∀ d ∈ ds.map Descriptor.respelled, d.RegularLevel ∧
      Parser.ReadsType (Parser.typeUpTo nestingLimit) Descriptor.FieldsReadable d := by
  refine List.forall_mem_map.2 fun d hd ↦ ⟨(hds d hd).regular.settled_respelled.1.level, ?_⟩
  intro ys hys
  rw [Descriptor.tokens_respelled]
  exact reads_respelled (hds d hd) hys

theorem reads_entry_own {name : String} {x : Bool × Descriptor} (hx : x.2.ReadableIn nestingLimit)
    {ys : List Token} (hys : Parser.Follows ys) :
    Parser.Reads (Parser.entry (Parser.typeUpTo nestingLimit))
      (.ident name :: Parser.parameterTokens x ++ ys) x.2.respelled.FieldsReadable
      (IsNamedEntry (.own name x)) ys := by
  obtain ⟨variadic, d⟩ := x
  have hentry (start : Nat) : Parser.Reads (fun ts ↦ Parser.typeUpTo nestingLimit ts >>= fun x ↦
      Pure.pure ((⟨x.1, .named, variadic, some start⟩ : Entry), x.2)) (d.tokens ++ ys)
      d.respelled.FieldsReadable (IsNamedEntry (.own name (variadic, d))) ys := by
    refine (reads_respelled hx hys).then fun a ha ↦ ?_
    have he : IsNamedEntry (.own name (variadic, d)) ⟨a, .named, variadic, some start⟩ :=
      ⟨rfl, rfl, ha⟩
    exact Parser.Reads.pure he
  refine Parser.Reads.cons fun start stop ↦ ?_
  cases variadic with
  | true => exact Parser.Reads.cons fun _ _ ↦ hentry start
  | false =>
    refine Parser.Reads.of_eq (fun ts hts ↦ Parser.entry_of_named _ ?_) (hentry start)
    rw [Parser.namesElement_eq, hts]
    exact Parser.namesTokens_tokens d ys

theorem reads_entry_sharing {name : String} {m : Mark} (hm : m = .comma ∨ m = .rparen)
    {ys : List Token} : Parser.Reads (Parser.entry (Parser.typeUpTo nestingLimit))
      (.ident name :: .mark m :: ys) True (IsNamedEntry (.sharing name)) (.mark m :: ys) := by
  refine Parser.Reads.cons fun start stop ts hts ↦ ⟨fun _ ↦ ?_, fun h ↦ absurd trivial h⟩
  obtain ⟨_, _, rest, rfl, -⟩ := Parser.ne_nil_of_tokens hts
  rcases hm with rfl | rfl <;>
    exact ⟨⟨.ofName name [], .lone, false, some start⟩, _, rfl, ⟨rfl, rfl⟩, hts⟩

theorem NamedElement.reads_entry {w : NamedElement} (hw : w.Holds (·.ReadableIn nestingLimit))
    {m : Mark} (hm : m = .comma ∨ m = .rparen) (ys : List Token) :
    Parser.Reads (Parser.entry (Parser.typeUpTo nestingLimit)) (w.tokens ++ .mark m :: ys)
      (w.Holds (·.respelled.FieldsReadable)) (IsNamedEntry w) (.mark m :: ys) := by
  have hys : Parser.Follows (.mark m :: ys) := by
    refine Parser.follows_mark ?_ ys
    rcases hm with rfl | rfl <;> decide
  cases w with
  | own name x => exact (reads_entry_own hw.2 hys).congr (and_iff_right hw.1).symm fun _ h ↦ h
  | sharing name => exact (reads_entry_sharing hm).congr (iff_of_true trivial hw) fun _ h ↦ h

theorem ListTexts.exists_tokens {variadic : Bool} {ds : List Descriptor} {texts : List String}
    (h : ListTexts variadic ds texts) (hne : variadic → ds ≠ [])
    (hds : ∀ d ∈ ds, d.ReadableIn nestingLimit) :
    ∃ items, List.Forall₂ Spells texts items ∧ ∀ ys,
      Parser.Reads (Parser.parameters (Parser.typeUpTo nestingLimit))
        (parenthesizedTokens items ++ ys) (∀ d ∈ ds, d.respelled.FieldsReadable)
        (· = (ds.map Descriptor.respelled, variadic)) ys := by
  have hregular : ∀ d ∈ ds, d.Regular := fun d hd ↦ (hds d hd).regular
  cases h with
  | unnamed =>
    refine ⟨_, spells_markVariadic (spells_all fun d hd ↦ (hregular d hd).spells), fun ys ↦ ?_⟩
    rw [← allTokens_respelledAll fun d _ ↦ d.tokens_respelled, respelledAll_eq_map]
    refine (Parser.reads_parameters variadic (fun hv ↦ ?_) (readsType_respelled hds)).congr
      List.forall_mem_map fun _ h ↦ h
    exact fun hnil ↦ hne hv (List.map_eq_nil_iff.1 hnil)
  | @named ws hws =>
    have hxs := (Parser.forall_mem_flagged variadic).2 hregular
    have hholds := (hws.holds_iff hxs).2 ((Parser.forall_mem_flagged variadic).2 hds)
    refine ⟨ws.map NamedElement.tokens, ?_, fun ys ↦ ?_⟩
    · rw [List.forall₂_map_left_iff, List.forall₂_map_right_iff, List.forall₂_same]
      exact fun w hw ↦ NamedElement.spells ((hws.holds_iff hxs).2 hxs w hw)
    · have hok : (∀ w ∈ ws, w.Holds (·.respelled.FieldsReadable)) ↔
          ∀ d ∈ ds, d.respelled.FieldsReadable := by
        rw [hws.holds_iff hxs]
        exact Parser.forall_mem_flagged (P := (·.respelled.FieldsReadable)) variadic
      refine (Parser.reads_parameters_of (fun w _ ↦ ?_)
        (fun w hw m ys hm ↦ NamedElement.reads_entry (hholds w hw) hm ys)
        fun es hes ↦ hws.resolve_eq hregular hne hes).congr hok fun _ h ↦ h
      cases w <;> exact ⟨_, _, rfl, by simp⟩

theorem ResultTexts.exists_tokens {rs : List Descriptor} {text : String} (h : ResultTexts rs text)
    (hrs : ∀ d ∈ rs, d.ReadableIn nestingLimit) :
    ∃ xs, Lexes text.toList xs ∧
      Parser.Reads (Parser.results (Parser.typeUpTo nestingLimit)) xs
        (∀ d ∈ rs, d.respelled.FieldsReadable) (· = rs.map Descriptor.respelled) [] := by
  have hregular : ∀ d ∈ rs, d.Regular := fun d hd ↦ (hrs d hd).regular
  cases h with
  | plain =>
    refine ⟨_, (spells_results fun d hd ↦ (hregular d hd).spells).lexes, ?_⟩
    have hreads := Parser.reads_results Parser.follows_nil (readsType_respelled hrs)
    rw [← respelledAll_eq_map, allTokens_respelledAll fun d _ ↦ d.tokens_respelled,
      resultTokens_respelledAll, respelledAll_eq_map, List.append_nil] at hreads
    exact hreads.congr List.forall_mem_map fun _ h ↦ h
  | @parens texts hne htexts =>
    obtain ⟨items, hspells, hreads⟩ := htexts.exists_tokens nofun hrs
    have hlexes := lexes_parenthesized hspells .nil
    rw [List.append_nil, List.append_nil] at hlexes
    refine ⟨parenthesizedTokens items, ?_, ?_⟩
    · rw [String.toList_append]
      exact .space hlexes
    · have h := Parser.reads_results_of_parameters (hreads [])
      rwa [List.append_nil] at h

theorem Signature.WrittenAs.exists_tokens {s : Signature} {text : String} (h : s.WrittenAs text)
    (hs : s.Regular) (htypes : ∀ d ∈ s.types, d.ReadableIn nestingLimit) :
    ∃ xs, Lexes text.toList xs ∧
      Parser.Reads (Parser.signature (Parser.typeUpTo nestingLimit)) xs
        (∀ d ∈ s.types, d.respelled.FieldsReadable) (· = s.respelled) [] := by
  obtain ⟨hps, hrs⟩ := List.forall_mem_append.1 htypes
  obtain ⟨hparams, hresults⟩ := h
  obtain ⟨items, hspells, hreads⟩ := hparams.exists_tokens hs.variadic hps
  obtain ⟨xs, hlexes, hreads'⟩ := hresults.exists_tokens hrs
  refine ⟨.ident s.name :: (parenthesizedTokens items ++ xs), ?_, ?_⟩
  · rw [String.append_assoc, String.toList_append, String.toList_append]
    refine Lexes.identifier hs.name ?_ (lexes_parenthesized hspells hlexes)
    rw [toList_parenthesized]
    exact breaks_cons (by decide)
  · rw [Signature.respelled_eq]
    exact (Parser.reads_signature_of (hreads xs) hreads').congr List.forall_mem_append.symm
      fun _ h ↦ h

/-- However the parameters and results of a method are named, its text is read as the same method,
or refused. -/
theorem Signature.parse_eq_of_writtenAs {s : Signature} (hname : IsIdentifier s.name)
    (hvariadic : s.variadic → s.params ≠ [])
    (htypes : ∀ d ∈ s.types, ∃ text, Descriptor.parse text = .ok d) {text text' : String}
    (h : s.WrittenAs text) (h' : s.WrittenAs text') :
    (parse text).toOption = (parse text').toOption := by
  have hs : s.Regular := ⟨hname, hvariadic⟩
  have htypes : ∀ d ∈ s.types, d.ReadableIn nestingLimit := by
    intro d hd
    obtain ⟨text, htext⟩ := htypes d hd
    exact Descriptor.readableIn_of_parse htext
  obtain ⟨xs, hlexes, hreads⟩ := h.exists_tokens hs htypes
  obtain ⟨xs', hlexes', hreads'⟩ := h'.exists_tokens hs htypes
  obtain ⟨hread, hrefuse⟩ := hreads.run hlexes
  obtain ⟨hread', hrefuse'⟩ := hreads'.run hlexes'
  by_cases hfields : ∀ d ∈ s.types, d.respelled.FieldsReadable
  · rw [parse, parse, hread hfields, hread' hfields]
  · obtain ⟨e, he⟩ := hrefuse hfields
    obtain ⟨e', he'⟩ := hrefuse' hfields
    rw [parse, parse, he, he']
    rfl

theorem Signature.parse_eq_of_writtenAs_put :
    (Signature.parse "Put(a, b int, c ...string) (n int)").toOption =
        (Signature.parse "Put(int, int, ...string) int").toOption ∧
      Signature.parse "Put(int, int, ...string) int" =
        .ok ⟨"Put", [.simple "int", .simple "int", .simple "string"], [.simple "int"], true⟩ := by
  have hint : IsIdentifier "int" := by decide
  have hstring : IsIdentifier "string" := by decide
  have hput : IsIdentifier "Put" := by decide
  have htext {name : String} (h : IsIdentifier name)
      (halias : Descriptor.ofName name [] = .simple name) :
      ∃ text, Descriptor.parse text = .ok (.simple name) := by
    refine ⟨name, Parser.Reads.run_eq_ok ?_ (spells_name (.inl h)).lexes⟩
    rw [nameTokens_of_isIdentifier h, ← halias]
    exact .cons fun _ _ ↦ .of_nil rfl
  have hlexes : Lexes "Put(int, int, ...string) int".toList
      [.ident "Put", .mark .lparen, .ident "int", .mark .comma, .ident "int", .mark .comma,
        .mark .ellipsis, .ident "string", .mark .rparen, .ident "int"] := by
    refine .identifier hput (breaks_cons (by decide)) (.sign (fun _ ↦ rfl) ?_)
    refine .identifier hint (breaks_cons (by decide)) (.sign (fun _ ↦ rfl) (.space ?_))
    refine .identifier hint (breaks_cons (by decide)) (.sign (fun _ ↦ rfl) (.space ?_))
    refine .ellipsis (.identifier hstring (breaks_cons (by decide)) (.sign (fun _ ↦ rfl) ?_))
    exact .space (spells_name (.inl hint)).lexes
  have hparams : NamedList (Parser.flagged true [.simple "int", .simple "int", .simple "string"])
      [.sharing "a", .own "b" (false, .simple "int"), .own "c" (true, .simple "string")] :=
    .sharing (by decide) rfl (.own (by decide) (.own (by decide) .nil))
  have hresults : NamedList (Parser.flagged false [.simple "int"])
      [.own "n" (false, .simple "int")] := .own (by decide) .nil
  have hnamed := Signature.WrittenAs.mk (s := ⟨"Put", [.simple "int", .simple "int",
    .simple "string"], [.simple "int"], true⟩) (.named hparams)
    (.parens (List.cons_ne_nil _ _) (.named hresults))
  refine ⟨Signature.parse_eq_of_writtenAs hput ?_ ?_ hnamed (.mk .unnamed .plain), ?_⟩
  · exact fun _ ↦ List.cons_ne_nil _ _
  · simp only [Signature.types, List.cons_append, List.nil_append, List.forall_mem_cons]
    exact ⟨htext hint rfl, htext hint rfl, htext hstring rfl, htext hint rfl, List.forall_mem_nil _⟩
  · refine Parser.Reads.run_eq_ok ?_ hlexes
    exact .cons fun _ _ ↦ .cons fun _ _ ↦ .cons fun _ _ ↦ .cons fun _ _ ↦ .cons fun _ _ ↦
      .cons fun _ _ ↦ .cons fun _ _ ↦ .cons fun _ _ ↦ .cons fun _ _ ↦ .cons fun _ _ ↦ .of_nil rfl

end Conformance

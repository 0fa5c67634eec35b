import Conformance.Grammar.Types
import Conformance.Proofs.Grammar.Reading
import Conformance.Proofs.Grammar.Regular

namespace Conformance

def Descriptor.ChannelLevel : Descriptor → Prop
  | .chan .both (.chan .recv _) => False
  | _ => True

def Descriptor.FieldLevel : Descriptor → Prop
  | .struct fs => ∀ f ∈ fs, ∀ ms es, f ≠ ⟨none, .interface ms es⟩
  | _ => True

def Descriptor.ChannelsApart (d : Descriptor) : Prop := ∀ x ∈ d.parts, x.ChannelLevel

def Descriptor.FieldsReadable (d : Descriptor) : Prop := ∀ x ∈ d.parts, x.FieldLevel

namespace Parser

variable {type : Parser Descriptor} {readable : Descriptor → Prop} {xs ys zs : List Token}

theorem ne_nil_of_tokens {ts : List Placed} {t : Token} (h : tokens ts = t :: xs) :
    ∃ start stop rest, ts = ⟨t, start, stop⟩ :: rest ∧ tokens rest = xs := by
  obtain ⟨⟨_, start, stop⟩, rest, rfl, rfl, hrest⟩ := List.map_eq_cons_iff.1 h
  exact ⟨start, stop, rest, rfl, hrest⟩

theorem reads_qualifiedName {name : String} (h : IsTypeName name) :
    ∃ first more, nameTokens name = .ident first :: more ∧ ∀ xs, xs.head? ≠ some (.mark .dot) →
      Reads (qualifiedName first) (more ++ xs) True (· = name) xs := by
  rcases h with h | ⟨a, b, ha, hb, rfl⟩
  · refine ⟨name, [], nameTokens_of_isIdentifier h, fun xs hxs ↦ ?_⟩
    refine Reads.of_eq (fun ts hts ↦ ?_) (Reads.pure_self name)
    unfold qualifiedName
    split
    · rw [List.nil_append] at hts
      rw [← hts] at hxs
      exact absurd rfl hxs
    · rfl
  · refine ⟨a, _, nameTokens_of_qualified ha, fun xs _ ↦ Reads.cons fun start stop ↦ ?_⟩
    refine (reads_identifier b).then fun member hmember ↦ ?_
    rw [hmember]
    exact Reads.pure_self _

def typeListRound (type : Parser Descriptor) : Parser (List Descriptor × Bool) := fun ts ↦
  match ts with
  | ⟨.mark .rbracket, _, _⟩ :: ts => .ok (([], false), ts)
  | ts => do
    let (d, ts) ← type ts
    match ts with
    | ⟨.mark .comma, _, _⟩ :: ts => return (([d], true), ts)
    | ts =>
      let ((), ts) ← expect .rbracket ts
      return (([d], false), ts)

theorem typeListRound_of_head {ts : List Placed} {d : Descriptor} (hts : tokens ts = d.tokens ++ ys) :
    typeListRound type ts = type ts >>= fun (d, ts) ↦
      match ts with
      | ⟨.mark .comma, _, _⟩ :: ts => return (([d], true), ts)
      | ts => do
        let ((), ts) ← expect .rbracket ts
        return (([d], false), ts) := by
  unfold typeListRound
  split
  · have hhead := head?_tokens_ne (d := d) (m := .rbracket) (.inl rfl) ys
    rw [← hts] at hhead
    exact absurd rfl hhead
  · rfl

theorem forall₂_eq_right {α : Type} {as bs : List α} (h : List.Forall₂ (fun a b ↦ b = a) as bs) :
    bs = as := by
  induction h with
  | nil => rfl
  | cons hab _ ih => rw [hab, ih]

theorem reads_typeList {ds : List Descriptor} (hne : ds ≠ [])
    (hds : ∀ d ∈ ds, ReadsType type readable d) :
    Reads (typeList type) (joinTokens .comma (allTokens ds) ++ .mark .rbracket :: ys)
      (∀ d ∈ ds, readable d) (· = ds) ys := by
  rw [allTokens_eq_map]
  refine Reads.congr (reads_rounds_joined readable (fun d d' ↦ d' = d) hne (fun d _ ↦ ?_)
    (fun d hd ys ↦ ?_) fun d hd n ↦ ?_) Iff.rfl
    fun _ h ↦ forall₂_eq_right h
  · obtain ⟨t, xs, ht, -⟩ := tokens_eq_cons d
    rw [ht]
    exact List.cons_ne_nil _ _
  · refine Reads.of_eq (fun ts hts ↦ typeListRound_of_head hts) ?_
    refine (hds d hd _ (follows_mark (by decide) ys)).then fun d' hd' ↦ Reads.cons fun start stop ↦ ?_
    exact Reads.pure ⟨d', rfl, hd'⟩
  · refine Reads.lastRound (Reads.of_eq (fun ts hts ↦ typeListRound_of_head hts) ?_)
    refine (hds d hd _ (follows_mark (by decide) ys)).then fun d' hd' ↦ Reads.cons fun start stop ↦ ?_
    exact Reads.of_eq (fun _ _ ↦ rfl) (Reads.pure (a := ([d'], false)) ⟨rfl, d', rfl, hd'⟩)

theorem reads_typeArguments {ds : List Descriptor} (hys : Follows ys)
    (hds : ∀ d ∈ ds, ReadsType type readable d) (name : String) :
    ∃ xs, (Descriptor.named name ds).tokens ++ ys = nameTokens name ++ xs ∧
      xs.head? ≠ some (.mark .dot) ∧
      Reads (typeArguments type) xs (∀ d ∈ ds, readable d) (· = ds) ys := by
  cases ds with
  | nil =>
    refine ⟨ys, rfl, fun he ↦ absurd (hys _ he) (by decide), ?_⟩
    have heq : ∀ ts, tokens ts = ys → typeArguments type ts = Pure.pure ([], ts) := by
      intro ts hts
      unfold typeArguments
      split
      · rw [← hts] at hys
        have hbracket : Token.mark .lbracket ∈ _ := hys _ rfl
        exact absurd hbracket (by decide)
      · rfl
    exact (Reads.of_eq heq (Reads.pure_self [])).congr (by simp) fun _ h ↦ h
  | cons d ds =>
    refine ⟨.mark .lbracket :: (joinTokens .comma (allTokens (d :: ds)) ++ .mark .rbracket :: ys),
      ?_, nofun, Reads.cons fun start stop ↦ ?_⟩
    · simp [Descriptor.tokens]
    · exact reads_typeList (List.cons_ne_nil _ _) hds

def EndsElement (xs : List Token) : Prop :=
  xs.head? = some (.mark .semi) ∨ xs.head? = some (.mark .rbrace)

theorem EndsElement.follows (h : EndsElement xs) : Follows xs := by
  intro t ht
  rcases h with h | h <;> rw [h] at ht <;> cases ht <;> simp

def bodyRound {α : Type} (element : Parser (List α)) : Parser (List α × Bool) := fun ts ↦
  match skipSemis ts with
  | ⟨.mark .rbrace, _, _⟩ :: ts => .ok (([], false), ts)
  | ts => do
    let (xs, ts) ← element ts
    let ((), ts) ← endElement ts
    return ((xs, true), ts)

theorem skipSemis_of_head {ts : List Placed} (h : (tokens ts).head? ≠ some (.mark .semi)) :
    skipSemis ts = ts := by
  unfold skipSemis
  split
  · exact absurd rfl h
  · rfl

section

variable {α γ : Type} {element : Parser (List α)}

theorem bodyRound_of_head {ts : List Placed} (h : ¬ EndsElement (tokens ts)) :
    bodyRound element ts = (do
      let (xs, ts) ← element ts
      let ((), ts) ← endElement ts
      return ((xs, true), ts)) := by
  unfold bodyRound
  rw [skipSemis_of_head fun he ↦ h (.inl he)]
  split
  · exact absurd (.inr rfl) h
  · rfl

theorem reads_endElement_semi : Reads endElement (.mark .semi :: xs) True (fun _ ↦ True) xs :=
  Reads.cons fun _ _ ↦ Reads.of_eq (fun _ _ ↦ rfl) (Reads.pure (a := ()) trivial)

theorem reads_endElement_brace :
    Reads endElement (.mark .rbrace :: xs) True (fun _ ↦ True) (.mark .rbrace :: xs) := by
  refine Reads.of_eq (fun ts hts ↦ ?_) (Reads.pure (a := ()) trivial)
  obtain ⟨start, stop, rest, rfl, -⟩ := ne_nil_of_tokens hts
  rfl

theorem reads_lastBodyRound {n : Nat} :
    Reads (roundsUpTo (bodyRound element) (n + 1)) (.mark .rbrace :: xs) True (· = []) xs :=
  Reads.lastRound <| Reads.cons fun _ _ ↦
    Reads.of_eq (fun _ _ ↦ rfl) (Reads.pure (a := ([], false)) ⟨rfl, rfl⟩)

theorem reads_body {tok : γ → List Token} (ok : γ → Prop) (post : γ → α → Prop) {items : List γ}
    (hhead : ∀ x ∈ items, tok x ≠ [] ∧ ∀ ys, ¬ EndsElement (tok x ++ ys))
    (helement : ∀ x ∈ items, ∀ ys, EndsElement ys →
      Reads element (tok x ++ ys) (ok x) (fun as ↦ ∃ a, as = [a] ∧ post x a) ys) :
    Reads (body element) (joinTokens .semi (items.map tok) ++ .mark .rbrace :: ys)
      (∀ x ∈ items, ok x) (List.Forall₂ post items) ys := by
  have hround {x : γ} (hx : x ∈ items) {ts : List Placed} {zs : List Token}
      (hts : tokens ts = tok x ++ zs) : ¬ EndsElement (tokens ts) := hts ▸ (hhead x hx).2 zs
  by_cases hne : items = []
  · rw [hne]
    refine reads_rounds (reads_lastBodyRound.congr (by simp) ?_)
    rintro _ rfl
    exact .nil
  refine reads_rounds_joined ok post hne (fun x hx ↦ (hhead x hx).1) (fun x hx ys ↦ ?_)
    fun x hx n ↦ ?_
  · refine Reads.of_eq (fun ts hts ↦ bodyRound_of_head (hround hx hts)) ?_
    refine (helement x hx _ (.inl rfl)).then fun as has ↦ reads_endElement_semi.after fun _ _ ↦ ?_
    obtain ⟨a, rfl, ha⟩ := has
    exact Reads.pure ⟨a, rfl, ha⟩
  · have hfirst : Reads (bodyRound element) (tok x ++ .mark .rbrace :: ys) (ok x)
        (fun r ↦ ∃ a, r = ([a], true) ∧ post x a) (.mark .rbrace :: ys) := by
      refine Reads.of_eq (fun ts hts ↦ bodyRound_of_head (hround hx hts)) ?_
      refine (helement x hx _ (.inr rfl)).then fun as has ↦ reads_endElement_brace.after fun _ _ ↦ ?_
      obtain ⟨a, rfl, ha⟩ := has
      exact Reads.pure ⟨a, rfl, ha⟩
    refine (Reads.oneRound (n := n + 1) hfirst reads_lastBodyRound ?_).congr (and_iff_left trivial)
      fun _ h ↦ h
    rintro a _ ha rfl
    exact ⟨a, rfl, ha⟩

end

theorem reads_signature_of {name : String} {ps rs : List Descriptor} {variadic : Bool}
    {ok ok' : Prop} (hparams : Reads (parameters type) xs ok (· = (ps, variadic)) ys)
    (hresults : Reads (results type) ys ok' (· = rs) zs) :
    Reads (signature type) (.ident name :: xs) (ok ∧ ok') (· = ⟨name, ps, rs, variadic⟩) zs := by
  refine (reads_identifier name).after fun a ha ↦ hparams.bind fun b hb ↦ hresults.then fun c hc ↦ ?_
  rw [ha, hb, hc]
  exact Reads.pure_self _

theorem reads_signature {s : Signature} (hs : s.Regular) (hys : Follows ys)
    (htypes : ∀ d ∈ s.types, d.RegularLevel ∧ ReadsType type readable d) :
    Reads (signature type) (s.tokens ++ ys) (∀ d ∈ s.types, readable d) (· = s) ys := by
  obtain ⟨name, ps, rs, variadic⟩ := s
  have hps := fun d hd ↦ htypes d (List.mem_append_left _ hd)
  have hrs := fun d hd ↦ htypes d (List.mem_append_right _ hd)
  rw [Signature.tokens, List.append_assoc, List.cons_append]
  refine (reads_signature_of (reads_parameters variadic hs.variadic hps)
    (reads_results hys hrs)).congr ?_ fun _ h ↦ h
  exact List.forall_mem_append.symm

def elementTokens : Element → List Token
  | .method s => s.tokens
  | .embed d => d.tokens

def Element.Readable (readable : Descriptor → Prop) : Element → Prop
  | .method s => ∀ d ∈ s.types, readable d
  | .embed d => readable d

def Element.Reads (type : Parser Descriptor) (readable : Descriptor → Prop) : Element → Prop
  | .method s => s.Regular ∧ ∀ d ∈ s.types, d.RegularLevel ∧ ReadsType type readable d
  | .embed d => d.RegularLevel ∧ ReadsType type readable d

theorem reads_interfaceElement {e : Element} (he : e.Reads type readable) (hys : EndsElement ys) :
    Reads (interfaceElement type) (elementTokens e ++ ys) (e.Readable readable)
      (fun es ↦ ∃ a, es = [a] ∧ a = e) ys := by
  cases e with
  | method s =>
    obtain ⟨name, ps, rs, variadic⟩ := s
    have heq : ∀ ts, tokens ts = elementTokens (.method ⟨name, ps, rs, variadic⟩) ++ ys →
        interfaceElement type ts =
          signature type ts >>= fun x ↦ Pure.pure ([.method x.1], x.2) := by
      intro ts hts
      obtain ⟨_, _, _, rfl, htail⟩ := ne_nil_of_tokens hts
      obtain ⟨_, _, _, rfl, -⟩ := ne_nil_of_tokens htail
      rfl
    refine Reads.of_eq heq ((reads_signature he.1 hys.follows he.2).then fun a ha ↦ ?_)
    rw [ha]
    exact Reads.pure (a := [Element.method ⟨name, ps, rs, variadic⟩]) ⟨_, rfl, rfl⟩
  | embed d =>
    obtain ⟨hlevel, hd⟩ := he
    have hnoMethod {ts : List Placed} (hts : tokens ts = d.tokens ++ ys) {name : String}
        {xs : List Token} : tokens ts ≠ .ident name :: .mark .lparen :: xs := by
      intro hxs
      obtain ⟨-, -, hhead⟩ := tokens_ident hlevel hys.follows (hts ▸ hxs)
      rcases hhead _ rfl with ⟨⟨⟩⟩ | ⟨⟨⟩⟩ | hy
      exact absurd (hys.follows _ hy) (by decide)
    have heq : ∀ ts, tokens ts = d.tokens ++ ys → interfaceElement type ts =
        type ts >>= fun x ↦
          if startsWith .pipe x.2 then throw (typeSet x.2) else Pure.pure ([.embed x.1], x.2) := by
      intro ts hts
      have htilde : startsWith .tilde ts = false := by
        rw [← Bool.not_eq_true, startsWith_iff, hts]
        exact head?_tokens_ne (.inl rfl) ys
      unfold interfaceElement
      split
      · exact absurd rfl (hnoMethod hts)
      · simp only [htilde]
        rfl
    refine Reads.of_eq heq ((hd ys hys.follows).then fun a ha ↦ ?_)
    rw [ha]
    refine Reads.of_eq (fun ts hts ↦ ?_) (Reads.pure (a := [Element.embed d]) ⟨_, rfl, rfl⟩)
    have hpipe : startsWith .pipe ts = false := by
      rw [← Bool.not_eq_true, startsWith_iff, hts]
      exact fun he ↦ absurd (hys.follows _ he) (by decide)
    simp only [hpipe]
    rfl

theorem not_endsElement_tokens (d : Descriptor) (ys : List Token) :
    d.tokens ≠ [] ∧ ¬ EndsElement (d.tokens ++ ys) := by
  refine ⟨?_, ?_⟩
  · obtain ⟨t, xs, ht, -⟩ := tokens_eq_cons d
    rw [ht]
    exact List.cons_ne_nil _ _
  · rintro (h | h)
    · exact head?_tokens_ne (.inl rfl) ys h
    · exact head?_tokens_ne (.inl rfl) ys h

theorem reads_interfaceBody {ms : List Signature} {es : List Descriptor}
    (hms : ms.Pairwise (·.name ≤ ·.name)) (hmethods : ∀ s ∈ ms, s.Regular)
    (htypes : ∀ s ∈ ms, ∀ d ∈ s.types, d.RegularLevel ∧ ReadsType type readable d)
    (hes : ∀ e ∈ es, e.RegularLevel ∧ ReadsType type readable e) :
    Reads (interfaceBody type)
      (joinTokens .semi (allTokens es ++ signaturesTokens ms) ++ .mark .rbrace :: ys)
      ((∀ s ∈ ms, ∀ d ∈ s.types, readable d) ∧ ∀ e ∈ es, readable e)
      (· = .interface ms es) ys := by
  have htokens : allTokens es ++ signaturesTokens ms =
      (es.map Element.embed ++ ms.map Element.method).map elementTokens := by
    rw [allTokens_eq_map, signaturesTokens_eq_map, List.map_append, List.map_map, List.map_map]
    rfl
  have helements : ∀ e ∈ es.map Element.embed ++ ms.map Element.method, e.Reads type readable := by
    refine List.forall_mem_append.2 ⟨List.forall_mem_map.2 hes, List.forall_mem_map.2 fun s hs ↦ ?_⟩
    exact ⟨hmethods s hs, htypes s hs⟩
  have hhead : ∀ e ∈ es.map Element.embed ++ ms.map Element.method,
      elementTokens e ≠ [] ∧ ∀ ys, ¬ EndsElement (elementTokens e ++ ys) := by
    intro e _
    cases e with
    | method s =>
      obtain ⟨name, ps, rs, variadic⟩ := s
      exact ⟨List.cons_ne_nil _ _, fun ys ↦ by rintro (⟨⟨⟩⟩ | ⟨⟨⟩⟩)⟩
    | embed d => exact ⟨(not_endsElement_tokens d []).1, fun ys ↦ (not_endsElement_tokens d ys).2⟩
  rw [htokens]
  refine Reads.congr ((reads_body (fun e ↦ e.Readable readable) (fun e a ↦ a = e) hhead
    fun e he ys hys ↦ reads_interfaceElement (helements e he) hys).then
      fun elements helements ↦ ?_) ?_ fun _ h ↦ h
  · obtain rfl := forall₂_eq_right helements
    refine Reads.of_eq (fun ts _ ↦ ?_) (Reads.pure_self (Descriptor.interface ms es))
    simp only [List.filterMap_append, List.filterMap_map, Function.comp_def, List.filterMap_none,
      List.filterMap_some, List.nil_append, List.append_nil, ofElements_of_pairwise hms]
  · rw [List.forall_mem_append, List.forall_mem_map, List.forall_mem_map, and_comm]
    rfl

/-- The body of an inline struct does not take a field that is an inline interface without a name. -/
def FieldReadable (readable : Descriptor → Prop) (f : Field) : Prop :=
  readable f.type ∧ ∀ ms es, f ≠ ⟨none, .interface ms es⟩

theorem reads_fieldOf {name : Option String} {d : Descriptor} (hys : EndsElement ys)
    (hd : ReadsType type readable d) :
    Reads (fun ts ↦ type ts >>= fun x ↦ Pure.pure ([(⟨name, x.1⟩ : Field)], skipTag x.2))
      (d.tokens ++ ys) (readable d) (fun fs ↦ ∃ f, fs = [f] ∧ f = ⟨name, d⟩) ys := by
  refine (hd ys hys.follows).then fun a ha ↦ ?_
  rw [ha]
  refine Reads.of_eq (fun ts hts ↦ ?_) (Reads.pure (a := [⟨name, d⟩]) ⟨_, rfl, rfl⟩)
  have htag : skipTag ts = ts := by
    unfold skipTag
    split
    · rcases hys with h | h <;> rw [← hts] at h <;> cases h
    · rfl
  simp only [htag]

theorem structElement_of_named {name : String} {start stop : Nat} {ts : List Placed}
    {d : Descriptor} (hts : tokens ts = d.tokens ++ ys) :
    structElement type (⟨.ident name, start, stop⟩ :: ts) =
      type ts >>= fun x ↦ Pure.pure ([⟨some name, x.1⟩], skipTag x.2) := by
  have hcomma : startsWith .comma ts = false := by
    rw [← Bool.not_eq_true, startsWith_iff, hts]
    exact head?_tokens_ne (.inl rfl) ys
  have hnames : namesElement ts = true := by
    rw [namesElement_eq, hts]
    exact namesTokens_tokens d ys
  simp only [structElement, hcomma, hnames]
  rfl

theorem structElement_of_unnamed {ts : List Placed} {d : Descriptor} (hd : d.RegularLevel)
    (hembed : d.Embeddable) (hinterface : ∀ ms es, d ≠ .interface ms es) (hys : EndsElement ys)
    (hts : tokens ts = d.tokens ++ ys) :
    structElement type ts = type ts >>= fun x ↦ Pure.pure ([⟨none, x.1⟩], skipTag x.2) := by
  cases d with
  | named name args =>
    obtain ⟨first, xs, hxs, hnames, hhead⟩ := tokens_named name args hys.follows
    obtain ⟨start, stop, rest, rfl, hrest⟩ := ne_nil_of_tokens (hts.trans hxs)
    have hcomma : startsWith .comma rest = false := by
      rw [← Bool.not_eq_true, startsWith_iff, hrest]
      intro he
      rcases hhead _ he with ⟨⟨⟩⟩ | ⟨⟨⟩⟩ | hy
      rcases hys with h | h <;> rw [h] at hy <;> cases hy
    rw [← hrest, ← namesElement_eq] at hnames
    simp only [structElement, hcomma, hnames]
    rfl
  | pointer e =>
    obtain ⟨start, stop, rest, rfl, -⟩ := ne_nil_of_tokens hts
    rfl
  | interface ms es => exact absurd rfl (hinterface ms es)
  | _ => exact hembed.elim

theorem reads_structElement {f : Field} (hf : f.Regular) (hd : f.type.RegularLevel)
    (htype : ReadsType type readable f.type) (hys : EndsElement ys) :
    Reads (structElement type) (f.tokens ++ ys) (FieldReadable readable f)
      (fun fs ↦ ∃ a, fs = [a] ∧ a = f) ys := by
  obtain ⟨_ | name, d⟩ := f
  · by_cases hinterface : ∃ ms es, d = .interface ms es
    · obtain ⟨ms, es, rfl⟩ := hinterface
      refine fun ts hts ↦ ⟨fun h ↦ absurd rfl (h.2 ms es), fun _ ↦ ?_⟩
      obtain ⟨start, stop, rest, rfl, -⟩ := ne_nil_of_tokens hts
      exact ⟨_, rfl⟩
    · simp only [not_exists] at hinterface
      refine Reads.of_eq (fun ts hts ↦ structElement_of_unnamed hd hf hinterface hys hts) ?_
      refine (reads_fieldOf hys htype).congr ?_ fun _ h ↦ h
      exact (and_iff_left fun ms es he ↦ hinterface ms es (Field.mk.inj he).2).symm
  · refine Reads.cons fun start stop ↦ Reads.of_eq (fun ts hts ↦ structElement_of_named hts) ?_
    exact (reads_fieldOf hys htype).congr (and_iff_left nofun).symm fun _ h ↦ h

theorem reads_structBody {fs : List Field} (hfs : ∀ f ∈ fs, f.Regular)
    (htypes : ∀ f ∈ fs, f.type.RegularLevel ∧ ReadsType type readable f.type) :
    Reads (structBody type) (joinTokens .semi (fieldsTokens fs) ++ .mark .rbrace :: ys)
      (∀ f ∈ fs, FieldReadable readable f) (· = .struct fs) ys := by
  have hhead : ∀ f ∈ fs, f.tokens ≠ [] ∧ ∀ ys, ¬ EndsElement (f.tokens ++ ys) := by
    intro f _
    obtain ⟨_ | name, d⟩ := f
    · exact ⟨(not_endsElement_tokens d []).1, fun ys ↦ (not_endsElement_tokens d ys).2⟩
    · exact ⟨List.cons_ne_nil _ _, fun ys ↦ by rintro (⟨⟨⟩⟩ | ⟨⟨⟩⟩)⟩
  rw [fieldsTokens_eq_map]
  refine (reads_body (FieldReadable readable) (fun f a ↦ a = f) hhead fun f hf ys hys ↦
    reads_structElement (hfs f hf) (htypes f hf).1 (htypes f hf).2 hys).then fun fields hfields ↦ ?_
  rw [forall₂_eq_right hfields]
  exact Reads.pure_self (Descriptor.struct fs)

theorem head?_tokens_ne_arrow {d : Descriptor} (h : ∀ e, d ≠ .chan .recv e) (ys : List Token) :
    (d.tokens ++ ys).head? ≠ some (.mark .arrow) := by
  have hname (name : String) (zs : List Token) :
      (nameTokens name ++ zs).head? ≠ some (.mark .arrow) := by
    obtain ⟨first, h | ⟨member, h⟩⟩ := nameTokens_cases name <;> simp [h]
  cases d with
  | named name args =>
    cases args <;> simp only [Descriptor.tokens, List.append_assoc] <;> exact hname name _
  | param name owner => exact hname name ys
  | chan dir e =>
    cases dir with
    | recv => exact absurd rfl (h e)
    | both | send => simp [Descriptor.tokens, Direction.tokens]
  | _ => simp [Descriptor.tokens]

/-- A type is read if the types inside are, and if no field of it is in the way. -/
def LevelReadable (readable : Descriptor → Prop) (d : Descriptor) : Prop :=
  (∀ c ∈ d.children, readable c) ∧ d.FieldLevel

theorem ReadsType.map {d : Descriptor} (h : ReadsType type readable d) (f : Descriptor → Descriptor)
    (hys : Follows ys) :
    Reads (fun ts ↦ type ts >>= fun x ↦ Pure.pure (f x.1, x.2)) (d.tokens ++ ys) (readable d)
      (· = f d) ys := by
  refine (h ys hys).then fun a ha ↦ ?_
  rw [ha]
  exact Reads.pure_self (f d)

theorem levelReadable_of_singleton (d : Descriptor) {e : Descriptor} (hlevel : d.FieldLevel)
    (h : d.children = [e]) : readable e ↔ LevelReadable readable d := by
  rw [LevelReadable, h, List.forall_mem_singleton, and_iff_left hlevel]

theorem reads_typeLevel {d : Descriptor} (hd : d.RegularLevel) (hchannel : d.ChannelLevel)
    (h : ∀ c ∈ d.children, c.RegularLevel ∧ ReadsType type readable c) :
    ReadsType (typeLevel type) (LevelReadable readable) d := by
  intro ys hys
  cases d with
  | named name args =>
    obtain ⟨hname, hargs⟩ := hd
    obtain ⟨first, more, hmore, hread⟩ := reads_qualifiedName hname
    have htypes : ∀ c ∈ args, ReadsType type readable c := fun c hc ↦ (h c hc).2
    obtain ⟨xs, hxs, hhead, harguments⟩ := reads_typeArguments hys htypes name
    rw [hxs, hmore, List.cons_append]
    refine Reads.cons fun start stop ↦ Reads.congr ((hread xs hhead).after fun n hn ↦
      harguments.then fun as has ↦ ?_) (and_iff_left trivial).symm fun _ h ↦ h
    rw [hn, has]
    simp only [hargs]
    exact Reads.pure_self _
  | param name owner => exact hd.elim
  | pointer e =>
    have he := (h e List.mem_cons_self).2.map .pointer hys
    exact Reads.cons fun _ _ ↦
      he.congr (levelReadable_of_singleton (.pointer e) trivial rfl) fun _ h ↦ h
  | slice e =>
    have he := (h e List.mem_cons_self).2.map .slice hys
    exact Reads.cons fun _ _ ↦ Reads.cons fun _ _ ↦
      he.congr (levelReadable_of_singleton (.slice e) trivial rfl) fun _ h ↦ h
  | array len e =>
    have he := (h e List.mem_cons_self).2.map (.array len) hys
    refine Reads.cons fun _ _ ↦ Reads.cons fun _ _ ↦ ?_
    exact ((reads_expect .rbracket).after fun _ _ ↦ he).congr
      (levelReadable_of_singleton (.array len e) trivial rfl) fun _ h ↦ h
  | map k v =>
    have hk := (h k (by simp [Descriptor.children])).2
    have hv := (h v (by simp [Descriptor.children])).2
    have htokens : (Descriptor.map k v).tokens ++ ys =
        .mark .map :: .mark .lbracket :: (k.tokens ++ .mark .rbracket :: (v.tokens ++ ys)) := by
      simp [Descriptor.tokens]
    have hok : readable k ∧ readable v ↔ LevelReadable readable (.map k v) := by
      simp [LevelReadable, Descriptor.children, Descriptor.FieldLevel]
    rw [htokens]
    refine Reads.cons fun _ _ ↦ Reads.congr ((reads_expect .lbracket).after fun _ _ ↦
      (hk _ (follows_mark (by decide) _)).bind fun key hkey ↦
        (reads_expect .rbracket).after fun _ _ ↦ ?_) hok fun _ h ↦ h
    rw [hkey]
    exact hv.map (.map k) hys
  | chan dir e =>
    have he := (h e List.mem_cons_self).2
    have hok : readable e ↔ LevelReadable readable (.chan dir e) :=
      levelReadable_of_singleton (.chan dir e) trivial rfl
    cases dir with
    | both =>
      have hnoArrow : (e.tokens ++ ys).head? ≠ some (.mark .arrow) := by
        refine head?_tokens_ne_arrow (fun e' he' ↦ ?_) ys
        rw [he'] at hchannel
        exact hchannel
      refine Reads.cons fun start stop ↦ Reads.congr (Reads.of_eq (fun ts hts ↦ ?_)
        (he.map (.chan .both) hys)) hok fun _ h ↦ h
      simp only [typeLevel]
      split
      · rw [← hts] at hnoArrow
        exact absurd rfl hnoArrow
      · rfl
    | send =>
      exact Reads.cons fun _ _ ↦ Reads.cons fun _ _ ↦
        (he.map (.chan .send) hys).congr hok fun _ h ↦ h
    | recv =>
      exact Reads.cons fun _ _ ↦
        ((reads_expect .chan).after fun _ _ ↦ he.map (.chan .recv) hys).congr hok fun _ h ↦ h
  | func ps rs variadic =>
    have hps := fun c hc ↦ h c (List.mem_append_left _ hc)
    have hrs := fun c hc ↦ h c (List.mem_append_right _ hc)
    have hok : (∀ c ∈ ps, readable c) ∧ (∀ c ∈ rs, readable c) ↔
        LevelReadable readable (.func ps rs variadic) :=
      List.forall_mem_append.symm.trans (and_iff_left trivial).symm
    rw [Descriptor.tokens, List.append_assoc, List.cons_append]
    refine Reads.cons fun _ _ ↦ Reads.congr ((reads_parameters variadic hd hps).bind
      fun list hlist ↦ (reads_results hys hrs).then fun types htypes ↦ ?_) hok fun _ h ↦ h
    rw [hlist, htypes]
    exact Reads.pure_self _
  | interface ms es =>
    have hmethods : ∀ s ∈ ms, ∀ c ∈ s.types, c.RegularLevel ∧ ReadsType type readable c :=
      fun s hs c hc ↦ h c (List.mem_append_left _ (List.mem_flatMap.2 ⟨s, hs, hc⟩))
    have hembeds : ∀ c ∈ es, c.RegularLevel ∧ ReadsType type readable c :=
      fun c hc ↦ h c (List.mem_append_right _ hc)
    have hok : ((∀ s ∈ ms, ∀ c ∈ s.types, readable c) ∧ ∀ c ∈ es, readable c) ↔
        LevelReadable readable (.interface ms es) := by
      rw [LevelReadable, Descriptor.children, List.forall_mem_append, List.forall_mem_flatMap]
      exact (and_iff_left trivial).symm
    have htokens : (Descriptor.interface ms es).tokens ++ ys = .mark .interface :: .mark .lbrace ::
        (joinTokens .semi (allTokens es ++ signaturesTokens ms) ++ .mark .rbrace :: ys) := by
      simp [Descriptor.tokens]
    rw [htokens]
    exact Reads.cons fun _ _ ↦ ((reads_expect .lbrace).after fun _ _ ↦
      reads_interfaceBody hd.1 hd.2 hmethods hembeds).congr hok fun _ h ↦ h
  | struct fs =>
    have hfields : ∀ f ∈ fs, f.type.RegularLevel ∧ ReadsType type readable f.type :=
      fun f hf ↦ h f.type (List.mem_map_of_mem hf)
    have hok : (∀ f ∈ fs, FieldReadable readable f) ↔ LevelReadable readable (.struct fs) := by
      rw [LevelReadable, Descriptor.children, List.forall_mem_map]
      exact forall₂_and
    have htokens : (Descriptor.struct fs).tokens ++ ys = .mark .struct :: .mark .lbrace ::
        (joinTokens .semi (fieldsTokens fs) ++ .mark .rbrace :: ys) := by
      simp [Descriptor.tokens]
    rw [htokens]
    exact Reads.cons fun _ _ ↦ ((reads_expect .lbrace).after fun _ _ ↦
      reads_structBody hd hfields).congr hok fun _ h ↦ h

/-- A regular type of at most `n` levels is read, or refused for its fields. -/
theorem reads_typeUpTo {n : Nat} {d : Descriptor} (hd : d.Regular) (hchannels : d.ChannelsApart)
    (hn : d.depth ≤ n) : ReadsType (typeUpTo n) Descriptor.FieldsReadable d := by
  induction n generalizing d with
  | zero => exact absurd hn (Nat.not_le.2 d.depth_pos)
  | succ n ih =>
    obtain ⟨hd, hregular⟩ := Descriptor.forall_parts.1 hd
    obtain ⟨hchannel, hapart⟩ := Descriptor.forall_parts.1 hchannels
    have hchildren : ∀ c ∈ d.children,
        c.RegularLevel ∧ ReadsType (typeUpTo n) Descriptor.FieldsReadable c :=
      fun c hc ↦ ⟨hregular c hc c c.self_mem_parts,
        ih (hregular c hc) (hapart c hc) (Descriptor.depth_le.1 hn c hc)⟩
    intro ys hys
    refine (reads_typeLevel hd hchannel hchildren ys hys).congr ?_ fun _ h ↦ h
    exact and_comm.trans Descriptor.forall_parts.symm

theorem Reads.run {α : Type} {p : Parser α} {text : String} {ok : Prop} {a : α}
    (hp : Reads p xs ok (· = a) []) (hlexes : Token.Lexes text.toList xs) :
    (ok → p.run text = .ok a) ∧ (¬ ok → ∃ e, p.run text = .error e) := by
  obtain ⟨ts, hts, hxs⟩ := hlexes.place 0
  obtain ⟨hread, hrefuse⟩ := hp ts hxs
  have htext : Token.ofText text = .ok ts := by rw [Token.ofText, hts]
  refine ⟨fun hok ↦ ?_, fun hok ↦ ?_⟩
  · obtain ⟨a', rest, ha, rfl, hrest⟩ := hread hok
    obtain rfl := List.map_eq_nil_iff.1 hrest
    exact bind_eq_ok.2 ⟨ts, htext, by rw [ha]⟩
  · obtain ⟨f, hf⟩ := hrefuse hok
    refine ⟨f.inText text, ?_⟩
    rw [Parser.run, htext]
    simp only [Bind.bind, Except.bind, hf]

theorem Reads.run_eq_ok {α : Type} {p : Parser α} {text : String} {a : α}
    (hp : Reads p xs True (· = a) []) (hlexes : Token.Lexes text.toList xs) : p.run text = .ok a :=
  (hp.run hlexes).1 trivial

end Parser

end Conformance

import Conformance.Proofs.Grammar.Rereading

namespace Conformance

open Token

/-- How a bidirectional channel of these elements is read from its tokens. -/
def Descriptor.behindChan : Descriptor → Descriptor
  | .chan .recv e => .chan .send e.behindChan
  | d => .chan .both d

mutual

def Descriptor.respelled : Descriptor → Descriptor
  | .named name args => .named name (respelledAll args)
  | .param name owner => .param name owner
  | .pointer e => .pointer e.respelled
  | .slice e => .slice e.respelled
  | .array len e => .array len e.respelled
  | .map k v => .map k.respelled v.respelled
  | .chan .both e => e.respelled.behindChan
  | .chan .send e => .chan .send e.respelled
  | .chan .recv e => .chan .recv e.respelled
  | .func ps rs variadic => .func (respelledAll ps) (respelledAll rs) variadic
  | .interface ms es => .interface (respelledSignatures ms) (respelledAll es)
  | .struct fs => .struct (respelledFields fs)

def respelledAll : List Descriptor → List Descriptor
  | [] => []
  | d :: ds => d.respelled :: respelledAll ds

def Signature.respelled : Signature → Signature
  | ⟨name, ps, rs, variadic⟩ => ⟨name, respelledAll ps, respelledAll rs, variadic⟩

def respelledSignatures : List Signature → List Signature
  | [] => []
  | s :: ss => s.respelled :: respelledSignatures ss

def Field.respelled : Field → Field
  | ⟨name, d⟩ => ⟨name, d.respelled⟩

def respelledFields : List Field → List Field
  | [] => []
  | f :: fs => f.respelled :: respelledFields fs

end

@[simp]
theorem respelledAll_eq_map (ds : List Descriptor) :
    respelledAll ds = ds.map Descriptor.respelled := by
  induction ds with
  | nil => rfl
  | cons d ds ih => simp only [respelledAll, ih, List.map_cons]

theorem Signature.respelled_eq (s : Signature) : s.respelled =
    ⟨s.name, s.params.map Descriptor.respelled, s.results.map Descriptor.respelled, s.variadic⟩ := by
  cases s
  simp only [Signature.respelled, respelledAll_eq_map]

@[simp]
theorem Signature.respelled_types (s : Signature) :
    s.respelled.types = s.types.map Descriptor.respelled := by
  rw [Signature.respelled_eq, Signature.types, Signature.types, List.map_append]

@[simp]
theorem respelledSignatures_eq_map (ss : List Signature) :
    respelledSignatures ss = ss.map Signature.respelled := by
  induction ss with
  | nil => rfl
  | cons s ss ih => simp only [respelledSignatures, ih, List.map_cons]

@[simp]
theorem respelledFields_eq_map (fs : List Field) :
    respelledFields fs = fs.map Field.respelled := by
  induction fs with
  | nil => rfl
  | cons f fs ih => simp only [respelledFields, ih, List.map_cons]

@[simp]
theorem Field.respelled_type (f : Field) : f.respelled.type = f.type.respelled := by
  cases f
  simp only [Field.respelled]

theorem Signature.Regular.respelled {s : Signature} (hs : s.Regular) :
    s.respelled.Regular := by
  rw [Signature.respelled_eq]
  exact ⟨hs.name, fun hv ↦ by simpa using hs.variadic hv⟩

namespace Descriptor

theorem tokens_behindChan (d : Descriptor) : d.behindChan.tokens = .mark .chan :: d.tokens := by
  fun_induction behindChan d with
  | case1 e ih => rw [Descriptor.tokens, ih]; rfl
  | case2 d => rfl

theorem depth_behindChan (d : Descriptor) : d.behindChan.depth = d.depth + 1 := by
  fun_induction behindChan d with
  | case1 e ih => rw [Descriptor.depth, ih]; rfl
  | case2 d => rfl

/-- A type of regular levels without the channels that are read as others. -/
def Settled (d : Descriptor) : Prop := d.Regular ∧ d.ChannelsApart

theorem settled_of_children {d : Descriptor} (hd : d.RegularLevel) (hchannel : d.ChannelLevel)
    (h : ∀ c ∈ d.children, c.Settled) : d.Settled :=
  ⟨forall_parts.2 ⟨hd, fun c hc ↦ (h c hc).1⟩, forall_parts.2 ⟨hchannel, fun c hc ↦ (h c hc).2⟩⟩

theorem Settled.children {d : Descriptor} (h : d.Settled) : ∀ c ∈ d.children, c.Settled :=
  fun c hc ↦ ⟨(forall_parts.1 h.1).2 c hc, (forall_parts.1 h.2).2 c hc⟩

theorem Settled.behindChan {d : Descriptor} (h : d.Settled) : d.behindChan.Settled := by
  fun_induction Descriptor.behindChan d with
  | case1 e ih =>
    have he := ih (h.children e List.mem_cons_self)
    exact settled_of_children trivial trivial (List.forall_mem_singleton.2 he)
  | case2 d hd =>
    refine settled_of_children trivial ?_ (List.forall_mem_singleton.2 h)
    cases d with
    | chan dir e =>
      cases dir with
      | recv => exact absurd rfl (hd e)
      | both | send => trivial
    | _ => trivial

theorem children_respelled {d : Descriptor} (h : ∀ e, d ≠ .chan .both e) :
    d.respelled.children = d.children.map respelled := by
  cases d with
  | chan dir e =>
    cases dir with
    | both => exact absurd rfl (h e)
    | send | recv => rfl
  | interface ms es =>
    simp [Descriptor.respelled, Descriptor.children, List.flatMap_map, List.map_flatMap]
  | _ => simp [Descriptor.respelled, Descriptor.children]

theorem depth_respelled_le {d : Descriptor} {n : Nat} (h : d.depth ≤ n) : d.respelled.depth ≤ n := by
  induction n generalizing d with
  | zero => exact absurd h (Nat.not_le.2 d.depth_pos)
  | succ n ih =>
    have hchildren := depth_le.1 h
    by_cases hchan : ∃ e, d = .chan .both e
    · obtain ⟨e, rfl⟩ := hchan
      have he := ih (hchildren e List.mem_cons_self)
      rw [Descriptor.respelled, depth_behindChan]
      exact Nat.succ_le_succ he
    · simp only [not_exists] at hchan
      rw [depth_le, children_respelled hchan]
      exact List.forall_mem_map.2 fun c hc ↦ ih (hchildren c hc)

theorem Embeddable.respelled {d : Descriptor} (h : d.Embeddable) : d.respelled.Embeddable := by
  cases d with
  | interface ms es =>
    cases ms with
    | nil =>
      cases es with
      | nil => trivial
      | cons e es => exact h.elim
    | cons s ms => exact h.elim
  | named name args => trivial
  | pointer e => trivial
  | _ => exact h.elim

theorem regularLevel_respelled {d : Descriptor} (hd : d.RegularLevel)
    (h : ∀ e, d ≠ .chan .both e) : d.respelled.RegularLevel := by
  cases d with
  | named name args =>
    cases args with
    | nil => exact hd
    | cons a as =>
      have hname : ofName name (a.respelled :: respelledAll as) =
          .named name (a.respelled :: respelledAll as) := by
        unfold ofName
        split <;> trivial
      exact ⟨hd.1, hname⟩
  | param name owner => exact hd.elim
  | func ps rs variadic =>
    intro hv hnil
    rw [respelledAll_eq_map, List.map_eq_nil_iff] at hnil
    exact hd hv hnil
  | interface ms es =>
    rw [Descriptor.respelled, respelledSignatures_eq_map]
    refine ⟨List.pairwise_map.2 (hd.1.imp fun hle ↦ ?_), List.forall_mem_map.2 fun s hs ↦ ?_⟩
    · simpa only [Signature.respelled_eq] using hle
    · exact (hd.2 s hs).respelled
  | struct fs =>
    rw [Descriptor.respelled, respelledFields_eq_map]
    refine List.forall_mem_map.2 fun f hf ↦ ?_
    have hf := hd f hf
    obtain ⟨_ | name, d⟩ := f
    · exact Embeddable.respelled hf
    · exact hf
  | chan dir e =>
    cases dir with
    | both => exact absurd rfl (h e)
    | send | recv => trivial
  | _ => exact hd

theorem channelLevel_respelled {d : Descriptor} (h : ∀ e, d ≠ .chan .both e) :
    d.respelled.ChannelLevel := by
  cases d with
  | chan dir e =>
    cases dir with
    | both => exact absurd rfl (h e)
    | send | recv => trivial
  | _ => trivial

theorem Regular.settled_respelled {d : Descriptor} (hd : d.Regular) : d.respelled.Settled := by
  induction d using Descriptor.children_induct with
  | h d ih =>
    obtain ⟨hlevel, hchildren⟩ := forall_parts.1 hd
    have ih (c : Descriptor) (hc : c ∈ d.children) : c.respelled.Settled := ih c hc (hchildren c hc)
    by_cases hchan : ∃ e, d = .chan .both e
    · obtain ⟨e, rfl⟩ := hchan
      rw [Descriptor.respelled]
      exact (ih e List.mem_cons_self).behindChan
    · simp only [not_exists] at hchan
      refine settled_of_children (regularLevel_respelled hlevel hchan)
        (channelLevel_respelled hchan) ?_
      rw [children_respelled hchan]
      exact List.forall_mem_map.2 ih

theorem behindChan_eq (d : Descriptor) : ∃ dir e, d.behindChan = .chan dir e := by
  cases d with
  | chan dir e => cases dir <;> exact ⟨_, _, rfl⟩
  | _ => exact ⟨_, _, rfl⟩

end Descriptor

theorem allTokens_respelledAll {ds : List Descriptor}
    (h : ∀ d ∈ ds, d.respelled.tokens = d.tokens) : allTokens (respelledAll ds) = allTokens ds := by
  rw [respelledAll_eq_map, allTokens_eq_map, allTokens_eq_map, List.map_map]
  exact List.map_congr_left h

theorem resultTokens_cons_cons (d d' : Descriptor) (ds : List Descriptor)
    (items : List (List Token)) :
    resultTokens (d :: d' :: ds) items = parenthesizedTokens items := by
  cases d <;> rfl

theorem resultTokens_respelledAll (ds : List Descriptor) :
    resultTokens (respelledAll ds) (allTokens ds) = resultTokens ds (allTokens ds) := by
  cases ds with
  | nil => rfl
  | cons d ds =>
    cases ds with
    | cons d' ds => rw [respelledAll, respelledAll, resultTokens_cons_cons, resultTokens_cons_cons]
    | nil =>
      cases d with
      | chan dir e =>
        cases dir with
        | both =>
          obtain ⟨dir, e', he⟩ := Descriptor.behindChan_eq e.respelled
          rw [respelledAll, Descriptor.respelled, he]
          rfl
        | send | recv => rfl
      | _ => rfl

theorem Signature.tokens_respelled {s : Signature}
    (h : ∀ d ∈ s.types, d.respelled.tokens = d.tokens) : s.respelled.tokens = s.tokens := by
  obtain ⟨name, ps, rs, variadic⟩ := s
  have hps := allTokens_respelledAll fun d hd ↦ h d (List.mem_append_left _ hd)
  have hrs := allTokens_respelledAll fun d hd ↦ h d (List.mem_append_right _ hd)
  rw [Signature.respelled, Signature.tokens, Signature.tokens, hps, hrs, resultTokens_respelledAll]

theorem Descriptor.tokens_respelled (d : Descriptor) : d.respelled.tokens = d.tokens := by
  induction d with
  | named name args ih =>
    cases args with
    | nil => rfl
    | cons a as =>
      have hargs := allTokens_respelledAll ih
      rw [respelledAll, allTokens, allTokens] at hargs
      rw [Descriptor.respelled, respelledAll, Descriptor.tokens, Descriptor.tokens, hargs]
  | param name owner => rfl
  | pointer e ih | slice e ih | array len e ih =>
    rw [Descriptor.respelled, Descriptor.tokens, Descriptor.tokens, ih]
  | map k v ihk ihv => rw [Descriptor.respelled, Descriptor.tokens, Descriptor.tokens, ihk, ihv]
  | chan dir e ih =>
    cases dir with
    | both =>
      rw [Descriptor.respelled, Descriptor.tokens_behindChan, ih]
      rfl
    | send | recv => rw [Descriptor.respelled, Descriptor.tokens, Descriptor.tokens, ih]
  | func ps rs variadic ihp ihr =>
    rw [Descriptor.respelled, Descriptor.tokens, Descriptor.tokens, allTokens_respelledAll ihp,
      allTokens_respelledAll ihr, resultTokens_respelledAll]
  | interface ms es ihm ihe =>
    have hms : signaturesTokens (respelledSignatures ms) = signaturesTokens ms := by
      rw [respelledSignatures_eq_map, signaturesTokens_eq_map, signaturesTokens_eq_map, List.map_map]
      exact List.map_congr_left fun s hs ↦ Signature.tokens_respelled (ihm s hs)
    rw [Descriptor.respelled, Descriptor.tokens, Descriptor.tokens, allTokens_respelledAll ihe, hms]
  | struct fs ih =>
    have hfs : fieldsTokens (respelledFields fs) = fieldsTokens fs := by
      rw [respelledFields_eq_map, fieldsTokens_eq_map, fieldsTokens_eq_map, List.map_map]
      refine List.map_congr_left fun f hf ↦ ?_
      have hd := ih f hf
      obtain ⟨_ | name, d⟩ := f
      · exact hd
      · exact congrArg (.ident name :: ·) hd
    rw [Descriptor.respelled, Descriptor.tokens, Descriptor.tokens, hfs]

namespace Descriptor

theorem not_exists_chan_iff {d : Descriptor} :
    (¬ ∃ e, .chan .both (.chan .recv e) ∈ d.parts) ↔ d.ChannelsApart := by
  constructor
  · intro h x hx
    cases x with
    | chan dir e =>
      cases dir with
      | both =>
        cases e with
        | chan dir e =>
          cases dir with
          | recv => exact h ⟨e, hx⟩
          | both | send => trivial
        | _ => trivial
      | send | recv => trivial
    | _ => trivial
  · rintro h ⟨e, he⟩
    exact h _ he

theorem not_exists_field_iff {d : Descriptor} :
    (¬ ∃ fs ms es, .struct fs ∈ d.parts ∧ ⟨none, .interface ms es⟩ ∈ fs) ↔ d.FieldsReadable := by
  constructor
  · intro h x hx
    cases x with
    | struct fs =>
      rintro f hf ms es rfl
      exact h ⟨fs, ms, es, hx, hf⟩
    | _ => trivial
  · rintro h ⟨fs, ms, es, hfs, hf⟩
    exact h _ hfs _ hf ms es rfl

/-- The text of a type is read as the type that has its tokens and is read from them. -/
theorem parse_render_of_tokens {d d' : Descriptor} (hd : d.Regular) (hd' : d'.Settled)
    (hdepth : d'.depth ≤ nestingLimit) (htokens : d'.tokens = d.tokens) :
    (d'.FieldsReadable → parse d.render = .ok d') ∧
      (¬ d'.FieldsReadable → ∃ e, parse d.render = .error e) := by
  have hreads := Parser.reads_typeUpTo hd'.1 hd'.2 hdepth [] Parser.follows_nil
  rw [htokens, List.append_nil] at hreads
  exact hreads.run hd.spells.lexes

theorem ReadableIn.parse_render_iff {d : Descriptor} (hd : d.ReadableIn nestingLimit) :
    parse d.render = .ok d ↔ d.ChannelsApart ∧ d.FieldsReadable := by
  constructor
  · intro h
    have hsettled := hd.regular.settled_respelled
    obtain ⟨hread, hrefuse⟩ := parse_render_of_tokens hd.regular hsettled
      (depth_respelled_le hd.depth) (tokens_respelled d)
    by_cases hfields : d.respelled.FieldsReadable
    · have heq : d = d.respelled := Except.ok.inj (h.symm.trans (hread hfields))
      rw [← heq] at hsettled hfields
      exact ⟨hsettled.2, hfields⟩
    · obtain ⟨e, he⟩ := hrefuse hfields
      cases h.symm.trans he
  · intro hx
    obtain ⟨hchannels, hfields⟩ := hx
    exact (parse_render_of_tokens hd.regular ⟨hd.regular, hchannels⟩ hd.depth rfl).1 hfields

end Descriptor

namespace Signature

theorem parse_render_of_tokens {s s' : Signature} (hs : s.Regular) (htypes : ∀ d ∈ s.types, d.Regular)
    (hs' : s'.Regular) (htypes' : ∀ d ∈ s'.types, d.Settled ∧ d.depth ≤ nestingLimit)
    (htokens : s'.tokens = s.tokens) :
    ((∀ d ∈ s'.types, d.FieldsReadable) → parse s.render = .ok s') ∧
      (¬ (∀ d ∈ s'.types, d.FieldsReadable) → ∃ e, parse s.render = .error e) := by
  have hreads := Parser.reads_signature hs' Parser.follows_nil fun d hd ↦
    ⟨(htypes' d hd).1.1 d d.self_mem_parts,
      Parser.reads_typeUpTo (htypes' d hd).1.1 (htypes' d hd).1.2 (htypes' d hd).2⟩
  rw [htokens, List.append_nil] at hreads
  exact hreads.run (Signature.spells hs htypes).lexes

theorem parse_render_iff {s : Signature} (hs : s.Regular)
    (htypes : ∀ d ∈ s.types, d.ReadableIn nestingLimit) :
    parse s.render = .ok s ↔
      (∀ d ∈ s.types, d.ChannelsApart) ∧ ∀ d ∈ s.types, d.FieldsReadable := by
  have hregular : ∀ d ∈ s.types, d.Regular := fun d hd ↦ (htypes d hd).regular
  constructor
  · intro h
    have hsettled : ∀ d ∈ s.respelled.types, d.Settled ∧ d.depth ≤ nestingLimit := by
      rw [Signature.respelled_types]
      exact List.forall_mem_map.2 fun d hd ↦
        ⟨(hregular d hd).settled_respelled, Descriptor.depth_respelled_le (htypes d hd).depth⟩
    obtain ⟨hread, hrefuse⟩ := parse_render_of_tokens hs hregular hs.respelled hsettled
      (Signature.tokens_respelled fun d _ ↦ Descriptor.tokens_respelled d)
    by_cases hfields : ∀ d ∈ s.respelled.types, d.FieldsReadable
    · have heq : s = s.respelled := Except.ok.inj (h.symm.trans (hread hfields))
      rw [← heq] at hsettled hfields
      exact ⟨fun d hd ↦ (hsettled d hd).1.2, hfields⟩
    · obtain ⟨e, he⟩ := hrefuse hfields
      cases h.symm.trans he
  · intro hx
    obtain ⟨hchannels, hfields⟩ := hx
    exact (parse_render_of_tokens hs hregular hs
      (fun d hd ↦ ⟨⟨hregular d hd, hchannels d hd⟩, (htypes d hd).depth⟩) rfl).1 hfields

theorem exists_text_of_simple {name type : String} (hname : IsIdentifier name)
    (htype : IsIdentifier type) (halias : Descriptor.ofName type [] = .simple type) :
    ∃ text, parse text = .ok ⟨name, [.simple type], [], false⟩ := by
  have hreadable : (Descriptor.simple type).ReadableIn nestingLimit :=
    Descriptor.readableIn_simple htype halias
  have hparse := parse_render_iff (s := ⟨name, [.simple type], [], false⟩)
    ⟨hname, nofun⟩ (List.forall_mem_singleton.2 hreadable)
  refine ⟨_, hparse.2 ⟨?_, ?_⟩⟩
  · simp [types, Descriptor.ChannelsApart, Descriptor.parts, allParts, Descriptor.ChannelLevel]
  · simp [types, Descriptor.FieldsReadable, Descriptor.parts, allParts, Descriptor.FieldLevel]

end Signature

/-- The text of what was read is read as the same again, unless it has a bidirectional channel of
receiving channels or an inline interface as a field without a name. -/
theorem parse_render_eq_ok_iff (text : String) :
    (∀ d, Descriptor.parse text = .ok d →
      (Descriptor.parse d.render = .ok d ↔
        ¬ (∃ e, .chan .both (.chan .recv e) ∈ d.parts) ∧
          ¬ ∃ fs ms es, .struct fs ∈ d.parts ∧ ⟨none, .interface ms es⟩ ∈ fs)) ∧
      ∀ s, Signature.parse text = .ok s →
        (Signature.parse s.render = .ok s ↔
          ¬ (∃ e, .chan .both (.chan .recv e) ∈ s.parts) ∧
            ¬ ∃ fs ms es, .struct fs ∈ s.parts ∧ ⟨none, .interface ms es⟩ ∈ fs) := by
  refine ⟨fun d h ↦ ?_, fun s h ↦ ?_⟩
  · have hd := Descriptor.readableIn_of_parse h
    rw [hd.parse_render_iff, Descriptor.not_exists_chan_iff, Descriptor.not_exists_field_iff]
  · obtain ⟨hs, htypes⟩ := Signature.readableIn_of_parse h
    have hchannels : (¬ ∃ e, .chan .both (.chan .recv e) ∈ s.parts) ↔
        ∀ d ∈ s.types, d.ChannelsApart := by
      simp only [Signature.mem_parts, ← Descriptor.not_exists_chan_iff]
      grind
    have hfields : (¬ ∃ fs ms es, .struct fs ∈ s.parts ∧ ⟨none, .interface ms es⟩ ∈ fs) ↔
        ∀ d ∈ s.types, d.FieldsReadable := by
      simp only [Signature.mem_parts, ← Descriptor.not_exists_field_iff]
      grind
    rw [Signature.parse_render_iff hs htypes, hchannels, hfields]

/-- A channel of receiving channels is lost on the way, a method with one parameter is not. -/
theorem parse_render_of_chan_and_put :
    Descriptor.parse "chan (<-chan int)" = .ok (.chan .both (.chan .recv (.simple "int"))) ∧
      Descriptor.parse (Descriptor.render (.chan .both (.chan .recv (.simple "int")))) ≠
        .ok (.chan .both (.chan .recv (.simple "int"))) ∧
      Signature.parse "Put(x int)" = .ok ⟨"Put", [.simple "int"], [], false⟩ ∧
      Signature.parse (Signature.render ⟨"Put", [.simple "int"], [], false⟩) =
        .ok ⟨"Put", [.simple "int"], [], false⟩ := by
  have hint : IsIdentifier "int" := by decide
  have hx : IsIdentifier "x" := by decide
  have hput : IsIdentifier "Put" := by decide
  have hchanText : Lexes "chan (<-chan int)".toList
      [.mark .chan, .mark .lparen, .mark .arrow, .mark .chan, .ident "int", .mark .rparen] := by
    refine .keyword (m := .chan) rfl (breaks_cons (by decide))
      (.space (.sign (fun _ ↦ rfl) (.arrow ?_)))
    refine .keyword (m := .chan) rfl (breaks_cons (by decide)) (.space ?_)
    exact .identifier hint (breaks_cons (by decide)) (.sign (fun _ ↦ rfl) .nil)
  have hputText : Lexes "Put(x int)".toList
      [.ident "Put", .mark .lparen, .ident "x", .ident "int", .mark .rparen] := by
    refine .identifier hput (breaks_cons (by decide)) (.sign (fun _ ↦ rfl) ?_)
    refine .identifier hx (breaks_cons (by decide)) (.space ?_)
    exact .identifier hint (breaks_cons (by decide)) (.sign (fun _ ↦ rfl) .nil)
  have hchan : Descriptor.parse "chan (<-chan int)" =
      .ok (.chan .both (.chan .recv (.simple "int"))) := by
    refine Parser.Reads.run_eq_ok ?_ hchanText
    exact .cons fun _ _ ↦ .cons fun _ _ ↦ .cons fun _ _ ↦ .cons fun _ _ ↦ .cons fun _ _ ↦
      .cons fun _ _ ↦ .of_nil rfl
  have hput : Signature.parse "Put(x int)" = .ok ⟨"Put", [.simple "int"], [], false⟩ := by
    refine Parser.Reads.run_eq_ok ?_ hputText
    exact .cons fun _ _ ↦ .cons fun _ _ ↦ .cons fun _ _ ↦ .cons fun _ _ ↦ .cons fun _ _ ↦
      .of_nil rfl
  refine ⟨hchan, fun h ↦ ?_, hput, ?_⟩
  · have hiff := (parse_render_eq_ok_iff "chan (<-chan int)").1 _ hchan
    exact (hiff.1 h).1 ⟨_, List.mem_cons_self⟩
  · refine ((parse_render_eq_ok_iff "Put(x int)").2 _ hput).2 ⟨?_, ?_⟩
    · simp [Signature.parts, allParts, Descriptor.parts]
    · simp [Signature.parts, allParts, Descriptor.parts]

end Conformance

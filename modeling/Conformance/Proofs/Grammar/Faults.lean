import Conformance.Grammar.Types
import Conformance.Proofs.Grammar.Regular
import Conformance.Proofs.Token.Unread

namespace Conformance

open Token

theorem bind_eq_error {ε α β : Type} {x : Except ε α} {f : α → Except ε β} {e : ε} :
    x >>= f = .error e ↔ x = .error e ∨ ∃ a, x = .ok a ∧ f a = .error e := by
  constructor
  · intro h
    cases x with
    | error e' => exact .inl (congrArg Except.error (Except.error.inj h))
    | ok a => exact .inr ⟨a, rfl, h⟩
  · rintro (rfl | ⟨a, rfl, h⟩)
    · rfl
    · exact h

namespace Parser

variable {α β : Type} {P : α → Prop} {Q : β → Prop} {ts us : List Placed}

def Marks (ts : List Placed) (position : Option Nat) : Prop :=
  ∀ n ∈ position, ∃ t ∈ ts, t.start = n

/-- A value with the property was read from the first of the tokens, or there is a fault at one of
them or at the end of the text. -/
inductive Lands (ts : List Placed) (P : α → Prop) : Except Fault (α × List Placed) → Prop
  | read {a : α} {rest : List Placed} (hrest : rest <:+ ts) (ha : P a) : Lands ts P (.ok (a, rest))
  | fault {f : Fault} (h : Marks ts f.position) : Lands ts P (.error f)

def Points (p : Parser α) : Prop := ∀ ts, Lands ts (fun _ ↦ True) (p ts)

theorem Marks.mono {position : Option Nat} (h : Marks us position) (hus : us <:+ ts) :
    Marks ts position := by
  intro n hn
  obtain ⟨t, ht, hstart⟩ := h n hn
  exact ⟨t, hus.subset ht, hstart⟩

theorem marks_position (ts : List Placed) : Marks ts (position ts) := by
  intro n hn
  obtain ⟨t, ht, rfl⟩ := Option.map_eq_some_iff.1 hn
  exact ⟨t, List.mem_of_mem_head? ht, rfl⟩

theorem marks_start (t : Placed) (ts : List Placed) : Marks (t :: ts) (some t.start) :=
  marks_position (t :: ts)

theorem Lands.imp {P' : α → Prop} {x : Except Fault (α × List Placed)} (h : Lands us P x)
    (hP : ∀ a, P a → P' a) (hus : us <:+ ts) : Lands ts P' x := by
  cases h with
  | read hrest ha => exact .read (hrest.trans hus) (hP _ ha)
  | fault h => exact .fault (h.mono hus)

/-- What goes on from a value may still find fault with a token before it. -/
theorem Lands.bind {x : Except Fault (α × List Placed)}
    {f : α × List Placed → Except Fault (β × List Placed)} (hx : Lands ts P x)
    (hf : ∀ a rest, rest <:+ ts → P a → Lands ts Q (f (a, rest))) : Lands ts Q (x >>= f) := by
  cases hx with
  | read hrest ha => exact hf _ _ hrest ha
  | fault h => exact .fault h

theorem Points.bind {p : Parser α} {f : α × List Placed → Except Fault (β × List Placed)}
    (hp : Points p) (hf : ∀ a rest, Lands rest Q (f (a, rest))) : Lands ts Q (p ts >>= f) :=
  (hp ts).bind fun a rest hrest _ ↦ (hf a rest).imp (fun _ ↦ id) hrest

theorem Lands.behind {t : Placed} {x : Except Fault (α × List Placed)} (h : Lands ts P x) :
    Lands (t :: ts) P x :=
  h.imp (fun _ ↦ id) (List.suffix_cons t ts)

theorem lands_unexpected (expected : String) : Lands ts P (.error (unexpected expected ts)) :=
  .fault (marks_position ts)

theorem lands_pure {a : α} (ha : P a) : Lands ts P (pure (a, ts)) := .read List.suffix_rfl ha

theorem points_expect (m : Mark) : Points (expect m) := by
  intro ts
  unfold expect
  split
  · split
    · exact .read (List.suffix_cons _ _) trivial
    · exact lands_unexpected _
  · exact lands_unexpected _

theorem points_identifier : Points identifier := by
  intro ts
  unfold identifier
  split
  · exact .read (List.suffix_cons _ _) trivial
  · exact lands_unexpected _

theorem lands_rounds {round : Parser (List α × Bool)}
    (h : ∀ us, us <:+ ts → Lands us (fun x ↦ ∀ a ∈ x.1, P a) (round us)) :
    Lands ts (fun xs ↦ ∀ a ∈ xs, P a) (rounds round ts) := by
  have hupTo (n : Nat) (us : List Placed) (hus : us <:+ ts) :
      Lands us (fun xs ↦ ∀ a ∈ xs, P a) (roundsUpTo round n us) := by
    induction n generalizing us with
    | zero => exact .read List.suffix_rfl (List.forall_mem_nil _)
    | succ n ih =>
      refine (h us hus).bind fun x rest hrest hx ↦ ?_
      obtain ⟨xs, more⟩ := x
      cases more with
      | false => exact .read hrest hx
      | true =>
        refine Lands.imp ?_ (fun _ ↦ id) hrest
        refine (ih rest (hrest.trans hus)).bind fun ys rest' hrest' hys ↦ ?_
        exact .read hrest' (List.forall_mem_append.2 ⟨hx, hys⟩)
  exact hupTo _ ts List.suffix_rfl

theorem points_rounds {round : Parser (List α × Bool)} (h : Points round) :
    Points (rounds round) := fun _ ↦
  have hround (us : List Placed) : Lands us (fun x ↦ ∀ a ∈ x.1, True) (round us) :=
    (h us).imp (fun _ _ _ _ ↦ trivial) List.suffix_rfl
  (lands_rounds fun us _ ↦ hround us).imp (fun _ _ ↦ trivial) List.suffix_rfl

theorem marks_of_distribute_eq_error {waiting es : List Entry} {f : Fault}
    (hwaiting : ∀ e ∈ waiting, Marks ts e.position) (hes : ∀ e ∈ es, Marks ts e.position)
    (h : Entry.distribute waiting es = .error f) : Marks ts f.position := by
  induction es generalizing waiting with
  | nil =>
    cases waiting with
    | nil => cases h
    | cons e waiting =>
      cases h
      exact (List.forall_mem_cons.1 hwaiting).1
  | cons e es ih =>
    obtain ⟨he, hes⟩ := List.forall_mem_cons.1 hes
    unfold Entry.distribute at h
    split at h
    · cases h
      exact he
    · exact ih (List.forall_mem_append.2 ⟨hwaiting, List.forall_mem_singleton.2 he⟩) hes h
    · cases hrest : Entry.distribute [] es with
      | error f' =>
        rw [hrest] at h
        cases h
        exact ih (List.forall_mem_nil _) hes hrest
      | ok types =>
        rw [hrest] at h
        cases h

theorem mem_of_misplacedVariadic? {es : List Entry} {e : Entry}
    (h : Entry.misplacedVariadic? es = some e) : e ∈ es := by
  fun_induction Entry.misplacedVariadic? es with
  | case1 => cases h
  | case2 => cases h
  | case3 e' f es hvariadic =>
    cases h
    exact List.mem_cons_self
  | case4 e' f es hvariadic ih => exact List.mem_cons_of_mem e' (ih h)

theorem marks_of_resolve_eq_error {es : List Entry} {f : Fault}
    (hes : ∀ e ∈ es, Marks ts e.position) (h : Entry.resolve es = .error f) :
    Marks ts f.position := by
  unfold Entry.resolve at h
  split at h
  · rename_i e he
    cases h
    exact hes e (mem_of_misplacedVariadic? he)
  · split at h
    · cases hrest : Entry.distribute [] es with
      | error f' =>
        rw [hrest] at h
        cases h
        exact marks_of_distribute_eq_error (List.forall_mem_nil _) hes hrest
      | ok types =>
        rw [hrest] at h
        cases h
    · cases h

section

variable {type : Parser Descriptor} (h : Points type)

include h

/-- An element records where it begins, also if its type begins behind its name. -/
theorem lands_entry (ts : List Placed) :
    Lands ts (fun e : Entry ↦ Marks ts e.position) (entry type ts) := by
  have element (naming : Naming) (variadic : Bool) {us : List Placed} (hus : us <:+ ts) :
      Lands ts (fun e : Entry ↦ Marks ts e.position)
        (type us >>= fun x ↦ pure (⟨x.1, naming, variadic, position ts⟩, x.2)) := by
    refine ((h us).imp (fun _ ↦ id) hus).bind fun d rest hrest _ ↦ ?_
    exact .read hrest (marks_position ts)
  unfold entry
  split
  · exact element _ _ (List.suffix_cons _ _)
  · exact element _ _ ((List.suffix_cons _ _).trans (List.suffix_cons _ _))
  · split
    · exact element _ _ (List.suffix_cons _ _)
    · exact element _ _ List.suffix_rfl
  · exact element _ _ List.suffix_rfl

theorem lands_entries (ts : List Placed) :
    Lands ts (fun es : List Entry ↦ ∀ e ∈ es, Marks ts e.position) (entries type ts) := by
  refine lands_rounds fun us hus ↦ ?_
  split
  · exact .read List.suffix_rfl (List.forall_mem_nil _)
  · refine (lands_entry h us).bind fun e rest hrest he ↦ ?_
    have hone : ∀ e' ∈ [e], Marks ts e'.position := List.forall_mem_singleton.2 (he.mono hus)
    dsimp only
    split
    · exact .read ((List.suffix_cons _ _).trans hrest) hone
    · exact .read hrest hone

theorem points_parameters : Points (parameters type) := by
  intro ts
  refine (points_expect _).bind fun _ ts ↦ ?_
  refine (lands_entries h ts).bind fun es rest hrest hes ↦ ?_
  refine ((points_expect _ rest).imp (fun _ ↦ id) hrest).bind fun _ rest' hrest' _ ↦ ?_
  dsimp only
  cases hlist : Entry.resolve es with
  | error f => exact .fault (marks_of_resolve_eq_error hes hlist)
  | ok list => exact .read hrest' trivial

theorem points_results : Points (results type) := by
  intro ts
  unfold results
  split
  · refine (points_parameters h ts).bind fun x rest hrest _ ↦ ?_
    obtain ⟨types, variadic⟩ := x
    cases variadic with
    | true => exact .fault (marks_position ts)
    | false => exact .read hrest trivial
  · split
    · exact h.bind fun d rest ↦ lands_pure trivial
    · exact lands_pure trivial

theorem points_signature : Points (signature type) := by
  intro ts
  refine points_identifier.bind fun name ts ↦ ?_
  refine (points_parameters h).bind fun params ts ↦ ?_
  exact (points_results h).bind fun results ts ↦ lands_pure trivial

end

theorem points_qualifiedName (name : String) : Points (qualifiedName name) := by
  intro ts
  unfold qualifiedName
  split
  · exact .behind (points_identifier.bind fun member ts ↦ lands_pure trivial)
  · exact lands_pure trivial

theorem points_endElement : Points endElement := by
  intro ts
  fun_cases endElement ts with
  | case1 start stop ts => exact .read (List.suffix_cons _ _) trivial
  | case2 ts hsemi hbrace => exact lands_pure trivial
  | case3 ts hsemi hbrace => exact lands_unexpected _

theorem skipSemis_suffix (ts : List Placed) : skipSemis ts <:+ ts := by
  fun_induction skipSemis ts with
  | case1 start stop ts ih => exact ih.trans (List.suffix_cons _ _)
  | case2 => exact List.suffix_rfl

theorem skipTag_suffix (ts : List Placed) : skipTag ts <:+ ts := by
  unfold skipTag
  split
  · exact List.suffix_cons _ _
  · exact List.suffix_rfl

theorem points_body {element : Parser (List α)} (h : Points element) : Points (body element) := by
  refine points_rounds fun ts ↦ ?_
  refine Lands.imp ?_ (fun _ ↦ id) (skipSemis_suffix ts)
  generalize skipSemis ts = us
  split
  · exact .read (List.suffix_cons _ _) trivial
  · refine h.bind fun xs ts ↦ ?_
    exact points_endElement.bind fun _ ts ↦ lands_pure trivial

theorem points_moreNames : Points moreNames := by
  refine points_rounds fun ts ↦ ?_
  split
  · exact .behind (points_identifier.bind fun name ts ↦ lands_pure trivial)
  · exact lands_pure trivial

section

variable {type : Parser Descriptor} (h : Points type)

include h

theorem points_typeList : Points (typeList type) := by
  refine points_rounds fun ts ↦ ?_
  split
  · exact .read (List.suffix_cons _ _) trivial
  · refine h.bind fun d ts ↦ ?_
    dsimp only
    split
    · exact .read (List.suffix_cons _ _) trivial
    · exact (points_expect _).bind fun _ ts ↦ lands_pure trivial

theorem points_typeArguments : Points (typeArguments type) := by
  intro ts
  unfold typeArguments
  split
  · exact .behind (points_typeList h _)
  · exact lands_pure trivial

theorem points_interfaceElement : Points (interfaceElement type) := by
  intro ts
  unfold interfaceElement
  split
  · exact (points_signature h).bind fun s ts ↦ lands_pure trivial
  · split
    · exact .fault (marks_position _)
    · refine h.bind fun d ts ↦ ?_
      dsimp only
      split
      · exact .fault (marks_position _)
      · exact lands_pure trivial

theorem points_structElement : Points (structElement type) := by
  intro ts
  unfold structElement
  split
  · split
    · refine .behind (points_moreNames.bind fun names ts ↦ ?_)
      exact h.bind fun d ts ↦ .read (skipTag_suffix ts) trivial
    · split
      · exact .behind (h.bind fun d ts ↦ .read (skipTag_suffix ts) trivial)
      · exact h.bind fun d ts ↦ .read (skipTag_suffix ts) trivial
  · split
    · exact h.bind fun d ts ↦ .read (skipTag_suffix ts) trivial
    · exact lands_unexpected _

theorem points_typeLevel : Points (typeLevel type) := by
  intro ts
  cases ts with
  | nil => exact .fault nofun
  | cons t ts =>
    have hstart (detail : String) : Lands (t :: ts) (fun _ : Descriptor ↦ True)
        (.error ⟨some t.start, detail⟩) := .fault (marks_start t ts)
    unfold typeLevel
    dsimp only
    split
    · refine .behind ((points_qualifiedName _).bind fun name ts ↦ ?_)
      exact (points_typeArguments h).bind fun args ts ↦ lands_pure trivial
    · exact .behind (h.bind fun d ts ↦ lands_pure trivial)
    · split
      · exact .behind (.behind (h.bind fun d ts ↦ lands_pure trivial))
      · refine .behind (.behind ((points_expect _).bind fun _ ts ↦ ?_))
        exact h.bind fun d ts ↦ lands_pure trivial
      · exact hstart _
    · refine .behind ((points_expect _).bind fun _ ts ↦ ?_)
      refine h.bind fun key ts ↦ ?_
      refine (points_expect _).bind fun _ ts ↦ ?_
      exact h.bind fun value ts ↦ lands_pure trivial
    · split
      · exact .behind (.behind (h.bind fun d ts ↦ lands_pure trivial))
      · exact .behind (h.bind fun d ts ↦ lands_pure trivial)
    · refine .behind ((points_expect _).bind fun _ ts ↦ ?_)
      exact h.bind fun d ts ↦ lands_pure trivial
    · refine .behind ((points_parameters h).bind fun params ts ↦ ?_)
      exact (points_results h).bind fun results ts ↦ lands_pure trivial
    · refine .behind ((points_expect _).bind fun _ ts ↦ ?_)
      exact (points_body (points_interfaceElement h)).bind fun elements ts ↦ lands_pure trivial
    · refine .behind ((points_expect _).bind fun _ ts ↦ ?_)
      exact (points_body (points_structElement h)).bind fun fields ts ↦ lands_pure trivial
    · refine .behind (h.bind fun d ts ↦ ?_)
      exact (points_expect _).bind fun _ ts ↦ lands_pure trivial
    · exact hstart _

end

theorem points_typeUpTo (limit : Nat) : Points (typeUpTo limit) := by
  induction limit with
  | zero => exact fun ts ↦ .fault (marks_position ts)
  | succ limit ih => exact points_typeLevel ih

end Parser

theorem byteLength_eq_utf8ByteSize (cs : List Char) :
    byteLength cs = (String.ofList cs).utf8ByteSize := by
  induction cs with
  | nil => rfl
  | cons c cs ih =>
    rw [byteLength, ih, String.ofList_cons, String.utf8ByteSize_append,
      String.utf8ByteSize_singleton]

/-- Behind the first of its characters a text has a boundary of characters. -/
theorem isValid_byteLength {text : String} {before : List Char} (h : before <+: text.toList) :
    String.Pos.Raw.IsValid text ⟨byteLength before⟩ := by
  obtain ⟨after, htext⟩ := h
  refine String.Pos.Raw.isValid_iff_exists_append.2 ⟨.ofList before, .ofList after, ?_, ?_⟩
  · rw [← String.ofList_append, htext, String.ofList_toList]
  · rw [byteLength_eq_utf8ByteSize]
    rfl

/-- The error names the text and a boundary between its characters. If the text is not tiled, no
lexeme begins there and what stands before it is the longest beginning of the text that is tiled;
and if tokens tile the text, one of them starts there or the text ends there. -/
structure SyntaxError.PointsInto (e : SyntaxError) (text : String) : Prop where
  text_eq : e.text = text
  offset_le : e.offset ≤ text.utf8ByteSize
  boundary : String.Pos.Raw.IsValid text ⟨e.offset⟩
  untiled : (¬ ∃ ts, Tiles 0 text.toList ts) →
    ∃ before, IsLongestTiled 0 before text.toList ∧ e.offset = byteLength before
  tiled : ∀ ts, Tiles 0 text.toList ts →
    e.offset = text.utf8ByteSize ∨ ∃ t ∈ ts, t.start = e.offset

section

variable {text : String} {e : SyntaxError} {ts : List Placed}

theorem pointsInto_of_ofText (h : ofText text = .error e) : e.PointsInto text := by
  obtain ⟨htext, before, hbefore, hoffset⟩ := ofText_eq_error h
  have hboundary : String.Pos.Raw.IsValid text ⟨e.offset⟩ :=
    hoffset ▸ isValid_byteLength hbefore.isPrefix
  refine ⟨htext, hboundary.le_rawEndPos, hboundary, fun _ ↦ ⟨before, hbefore, hoffset⟩, ?_⟩
  intro ts hts
  cases (ofText_eq_ok_iff.2 hts).symm.trans h

theorem Token.Tiles.isValid_start {t : Placed} (h : Tiles 0 text.toList ts) (ht : t ∈ ts) :
    String.Pos.Raw.IsValid text ⟨t.start⟩ := by
  obtain ⟨before, s, after, htext, hstart, -⟩ := h.lexeme t ht
  rw [hstart, Nat.zero_add]
  exact isValid_byteLength ⟨s ++ after, htext.symm⟩

theorem pointsInto_of_marks {f : Fault} (hts : Tiles 0 text.toList ts)
    (h : Parser.Marks ts f.position) : (f.inText text).PointsInto text := by
  have hplace : (f.inText text).offset = text.utf8ByteSize ∨
      ∃ t ∈ ts, t.start = (f.inText text).offset := by
    unfold Fault.inText
    cases hposition : f.position with
    | none => exact .inl rfl
    | some n => exact .inr (h n hposition)
  have hboundary : String.Pos.Raw.IsValid text ⟨(f.inText text).offset⟩ := by
    rcases hplace with hend | ⟨t, ht, hstart⟩
    · rw [hend]
      exact String.Pos.Raw.isValid_rawEndPos
    · rw [← hstart]
      exact hts.isValid_start ht
  refine ⟨rfl, hboundary.le_rawEndPos, hboundary, fun huntiled ↦ absurd ⟨ts, hts⟩ huntiled, ?_⟩
  intro us hus
  obtain rfl := Except.ok.inj (hts.place_eq.symm.trans hus.place_eq)
  exact hplace

theorem Parser.Points.pointsInto {α : Type} {p : Parser α} (hp : p.Points)
    (h : p.run text = .error e) : e.PointsInto text := by
  unfold Parser.run at h
  rcases bind_eq_error.1 h with h | ⟨ts, hts, h⟩
  · exact pointsInto_of_ofText h
  · have htiles := ofText_eq_ok_iff.1 hts
    have hlands := hp ts
    generalize p ts = x at h hlands
    cases hlands with
    | fault hf =>
      cases h
      exact pointsInto_of_marks htiles hf
    | @read a rest hrest =>
      cases rest with
      | nil => cases h
      | cons t rest =>
        cases h
        exact pointsInto_of_marks htiles ((Parser.marks_position (t :: rest)).mono hrest)

theorem parse_error_pointsInto
    (h : Descriptor.parse text = .error e ∨ Signature.parse text = .error e) :
    e.PointsInto text := by
  rcases h with h | h
  · exact (Parser.points_typeUpTo nestingLimit).pointsInto h
  · exact (Parser.points_signature (Parser.points_typeUpTo nestingLimit)).pointsInto h

/-- The dots of the first parameter are misplaced, which shows when the list is complete. -/
theorem parse_error_pointsInto_dots :
    let text := "Größe(a ...int, b int)"
    let e : SyntaxError := ⟨text, 8, "can only use ... with final parameter"⟩
    Signature.parse text = .error e ∧ e.PointsInto text := by
  have h : Signature.parse "Größe(a ...int, b int)" =
      .error ⟨"Größe(a ...int, b int)", 8, "can only use ... with final parameter"⟩ := by
    decide +kernel
  exact ⟨h, parse_error_pointsInto (.inr h)⟩

end

end Conformance

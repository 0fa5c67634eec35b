import Conformance.Proofs.Grammar.Recorded.Following

namespace Conformance

namespace Parser

def elementOrEnd {α : Type} (element : Parser (List α)) : Parser (List α × Bool)
  | ⟨.mark .rbrace, _, _⟩ :: ts => .ok (([], false), ts)
  | ts => do
    let (xs, ts) ← element ts
    let ((), ts) ← endElement ts
    return ((xs, true), ts)

def embedded (type : Parser Descriptor) : Parser (List Element) := fun ts ↦ do
  if startsWith .tilde ts then throw (typeSet ts)
  let (d, ts) ← type ts
  if startsWith .pipe ts then throw (typeSet ts)
  return ([.embed d], ts)

end Parser

/-- The entries are the same, wherever they stand. -/
structure Entry.Alike (e e' : Entry) : Prop where
  type : e.type = e'.type
  naming : e.naming = e'.naming
  variadic : e.variadic = e'.variadic

theorem Entry.Alike.refl (e : Entry) : e.Alike e := ⟨rfl, rfl, rfl⟩

section

variable {es es' waiting waiting' : List Entry}

theorem misplacedVariadic?_alike (h : List.Forall₂ Entry.Alike es es') :
    (Entry.misplacedVariadic? es).isSome = (Entry.misplacedVariadic? es').isSome := by
  induction h with
  | nil => rfl
  | @cons e e' es es' he h ih =>
    cases h with
    | nil => rfl
    | @cons f f' es es' hf h =>
      simp only [Entry.misplacedVariadic?, he.variadic]
      split
      · rfl
      · exact ih

theorem lastIsVariadic_alike (h : List.Forall₂ Entry.Alike es es') :
    Entry.lastIsVariadic es = Entry.lastIsVariadic es' := by
  induction h with
  | nil => rfl
  | @cons e e' es es' he h ih =>
    cases h with
    | nil => simp [Entry.lastIsVariadic, he.variadic]
    | cons hf h => simpa [Entry.lastIsVariadic] using ih

theorem distribute_alike (h : List.Forall₂ Entry.Alike es es')
    (hwaiting : waiting.length = waiting'.length) :
    (Entry.distribute waiting es).toOption = (Entry.distribute waiting' es').toOption := by
  induction h generalizing waiting waiting' with
  | nil =>
    cases waiting with
    | nil => rw [List.eq_nil_of_length_eq_zero hwaiting.symm]
    | cons e waiting =>
      cases waiting' with
      | nil => cases hwaiting
      | cons e' waiting' => rfl
  | @cons e e' es es' he h ih =>
    simp only [Entry.distribute, he.naming]
    cases e'.naming with
    | unnamed => rfl
    | lone => exact ih (by simp [hwaiting])
    | named =>
      have hrest := @ih [] [] rfl
      rw [hwaiting, he.type]
      cases hes : Entry.distribute [] es <;> cases hes' : Entry.distribute [] es' <;>
        rw [hes, hes'] at hrest <;> cases hrest <;> rfl

theorem resolve_alike (h : List.Forall₂ Entry.Alike es es') :
    (Entry.resolve es).toOption = (Entry.resolve es').toOption := by
  have hmisplaced := misplacedVariadic?_alike h
  have hnamed : es.any (·.naming == .named) = es'.any (·.naming == .named) := by
    clear hmisplaced
    induction h with
    | nil => rfl
    | cons he h ih => rw [List.any_cons, List.any_cons, he.naming, ih]
  have htypes : es.map (·.type) = es'.map (·.type) := by
    clear hmisplaced hnamed
    induction h with
    | nil => rfl
    | cons he h ih => rw [List.map_cons, List.map_cons, he.type, ih]
  have hdistribute : (Entry.distribute [] es).toOption = (Entry.distribute [] es').toOption :=
    distribute_alike h rfl
  unfold Entry.resolve
  rw [lastIsVariadic_alike h, hnamed, htypes]
  cases hes : Entry.misplacedVariadic? es <;> cases hes' : Entry.misplacedVariadic? es' <;>
    rw [hes, hes'] at hmisplaced <;> cases hmisplaced
  · dsimp only
    split
    · cases h : Entry.distribute [] es <;> cases h' : Entry.distribute [] es' <;>
        rw [h, h'] at hdistribute <;> cases hdistribute <;> rfl
    · rfl
  · rfl

end

namespace Recorded

open Conformance.Parser (tokens)

namespace Follows

variable {l : Level} {type : Recorded Descriptor} {type' : Parser Descriptor}

theorem resolve {es es' : List Entry} (h : List.Forall₂ Entry.Alike es es') (ts : List Placed) :
    Follows l Eq (Recorded.resolve es') ts (Entry.resolve es >>= fun list ↦ .ok (list, ts)) := by
  have hvalue : Follows l Eq (ofExcept (Entry.resolve es')) ts
      (Entry.resolve es >>= fun list ↦ .ok (list, ts)) := by
    have halike := resolve_alike h
    cases hes : Entry.resolve es <;> cases hes' : Entry.resolve es' <;>
      rw [hes, hes'] at halike <;> cases halike
    · exact refuse
    · exact pure rfl
  intro c hts
  obtain ⟨hreturns, hagrees⟩ := hvalue { c with steps := c.steps + es'.length } hts
  rw [resolve_apply]
  exact ⟨⟨hreturns.depth, hreturns.deepest, hreturns.within⟩, hagrees⟩

section

variable (h : ∀ ts, Follows l Eq type ts (type' ts))
include h

theorem entry (ts : List Placed) :
    Follows l Entry.Alike (Recorded.entry type) ts (Parser.entry type' ts) := by
  have element (naming : Naming) (variadic : Bool) (position : Option Nat) (ts : List Placed) :
      Follows l Entry.Alike (Recorded.element type naming variadic) ts
        (type' ts >>= fun x ↦ .ok (⟨x.1, naming, variadic, position⟩, x.2)) :=
    (h ts).bind fun d rest ↦ pure ⟨rfl, rfl, rfl⟩
  refine ahead ?_
  rcases ts with _ | ⟨⟨token, start, stop⟩, ts⟩
  · exact element _ _ _ _
  cases token with
  | mark m =>
    cases m with
    | ellipsis => exact pass (element _ _ _ _)
    | _ => exact element _ _ _ _
  | int digits => exact element _ _ _ _
  | tag text => exact element _ _ _ _
  | ident name =>
    have hends (ts : List Placed) : Recorded.endsElement (tokens ts) = Parser.endsElement ts := by
      cases ts <;> rfl
    -- No dots follow the identifier, so what comes next tells whether it is a name.
    have named (ts : List Placed) : Follows l Entry.Alike
        (if Parser.namesTokens (tokens ts) then do
            Recorded.pass
            Recorded.element type .named false
          else Recorded.element type
            (if Recorded.endsElement (tokens ts) then .lone else .unnamed) false)
        (⟨.ident name, start, stop⟩ :: ts)
        (if Parser.namesElement ts then
          type' ts >>= fun x ↦ .ok (⟨x.1, .named, false, some start⟩, x.2)
          else type' (⟨.ident name, start, stop⟩ :: ts) >>= fun x ↦ .ok
            (⟨x.1, if Parser.endsElement ts then .lone else .unnamed, false, some start⟩, x.2)) := by
      rw [Parser.namesElement_eq, hends]
      split
      · exact pass (element _ _ _ _)
      · exact element _ _ _ _
    rcases ts with _ | ⟨⟨token, start', stop'⟩, ts⟩
    · exact named []
    cases token with
    | mark m =>
      cases m with
      | ellipsis => exact pass (pass (element _ _ _ _))
      | _ => exact named _
    | _ => exact named _

theorem entries (ts : List Placed) :
    Follows l (List.Forall₂ Entry.Alike) (Recorded.entries type) ts (Parser.entries type' ts) := by
  refine rounds (fun _ _ _ _ h h' ↦ List.rel_append h h') (fun es ↦ ⟨es, ?_⟩) (fun ts ↦ ?_) ts
  · exact List.forall₂_same.2 fun e _ ↦ .refl e
  · have hstop : ((tokens ts).isEmpty || (tokens ts).head? == some (.mark .rparen)) =
        (ts.isEmpty || Parser.startsWith .rparen ts) := by
      cases ts <;> rfl
    refine ahead ?_
    rw [hstop]
    split
    · exact pure ⟨.nil, rfl⟩
    · refine bindOf (fun e ↦ ⟨e, .refl e⟩) (entry h ts) fun e e' rest he ↦ ?_
      refine eat (fun start stop rest hrest ↦ ?_) fun hno ↦ ?_
      · subst hrest
        exact pure ⟨.cons he .nil, rfl⟩
      · dsimp only
        split
        · exact absurd rfl hno
        · exact pure ⟨.cons he .nil, rfl⟩

theorem parameters (ts : List Placed) :
    Follows l Eq (Recorded.parameters type) ts (Parser.parameters type' ts) := by
  refine expect.bind fun _ ts ↦ bindOf (fun es ↦ ⟨es, ?_⟩) (entries h ts) fun es es' rest hes ↦ ?_
  · exact List.forall₂_same.2 fun e _ ↦ .refl e
  · exact expect.bind fun _ ts ↦ resolve hes ts

theorem results (ts : List Placed) :
    Follows l Eq (Recorded.results type) ts (Parser.results type' ts) := by
  refine ifSees (fun start stop rest ↦ ?_) fun hno ↦ ?_
  · refine (parameters h _).bind fun ⟨types, variadic⟩ rest ↦ ?_
    cases variadic with
    | true => exact refuse
    | false => exact pure rfl
  · have hparen : Parser.startsWith .lparen ts = false := by
      rwa [← Bool.not_eq_true, Parser.startsWith_iff]
    simp only [Parser.results, hparen]
    refine ahead ?_
    rw [← Parser.any_head?_startsType]
    show Follows l Eq _ ts (if ts.head?.any (·.token.startsType) then
      type' ts >>= fun x ↦ .ok ([x.1], x.2) else .ok ([], ts))
    split
    · exact (h ts).bind fun d rest ↦ pure rfl
    · exact pure rfl

theorem signature (ts : List Placed) :
    Follows l Eq (Recorded.signature type) ts (Parser.signature type' ts) := by
  refine identifier.bind fun name ts ↦ (parameters h ts).bind fun ⟨params, variadic⟩ ts ↦ ?_
  exact (results h ts).bind fun types rest ↦ pure rfl

omit h in
theorem qualifiedName (name : String) (ts : List Placed) :
    Follows l Eq (Recorded.qualifiedName name) ts (Parser.qualifiedName name ts) := by
  refine ifEats (fun start stop rest ↦ ?_) fun hno ↦ ?_
  · exact identifier.bind fun member rest ↦ pure rfl
  · unfold Parser.qualifiedName
    split
    · exact absurd rfl hno
    · exact pure rfl

theorem typeList (ts : List Placed) :
    Follows l Eq (Recorded.typeList type) ts (Parser.typeList type' ts) := by
  refine roundsEq (fun ts ↦ ?_) ts
  apply ifEats
  · exact fun _ _ _ ↦ pure rfl
  intro hno
  split
  · exact absurd rfl hno
  refine (h _).bind fun d ts ↦ ?_
  apply ifEats
  · exact fun _ _ _ ↦ pure rfl
  intro hno
  dsimp only
  split
  · exact absurd rfl hno
  · exact expect.bind fun _ rest ↦ pure rfl

theorem typeArguments (ts : List Placed) :
    Follows l Eq (Recorded.typeArguments type) ts (Parser.typeArguments type' ts) := by
  refine ifEats (fun start stop rest ↦ typeList h rest) fun hno ↦ ?_
  unfold Parser.typeArguments
  split
  · exact absurd rfl hno
  · exact pure rfl

omit h in
theorem endElement (ts : List Placed) :
    Follows l Eq Recorded.endElement ts (Parser.endElement ts) := by
  apply ifEats
  · exact fun _ _ _ ↦ pure rfl
  intro hno
  unfold Parser.endElement
  split
  · exact absurd rfl hno
  apply ifSees
  · exact fun _ _ _ ↦ pure rfl
  intro hno
  rw [if_neg (Parser.startsWith_iff.not.2 hno)]
  exact refuse

omit h in
theorem skipSemis (ts : List Placed) :
    Follows l Eq Recorded.skipSemis ts (.ok ((), Parser.skipSemis ts)) := by
  have hrounds (n : Nat) (ts : List Placed) : Follows l (fun _ _ ↦ True)
      (Recorded.roundsUpTo (do return ([()], ← Recorded.eat .semi)) n) ts
        (.ok ((), Parser.skipSemis ts)) := by
    induction n generalizing ts with
    | zero => exact exhaust
    | succ n ih =>
      rw [Recorded.roundsUpTo, bind_assoc]
      refine eat (fun start stop rest hts ↦ ?_) fun hno ↦ ?_
      · subst hts
        exact bindOf (fun _ ↦ ⟨(), trivial⟩) (ih rest) fun _ _ _ _ ↦ pure trivial
      · unfold Parser.skipSemis
        split
        · exact absurd rfl hno
        · exact pure trivial
  have hloop (ts : List Placed) : Follows l (fun _ _ ↦ True)
      (Recorded.rounds do return ([()], ← Recorded.eat .semi)) ts (.ok ((), Parser.skipSemis ts)) :=
    fun c hts ↦ hrounds _ ts c hts
  exact bindOf (fun _ ↦ ⟨(), trivial⟩) (hloop ts) fun _ _ rest _ ↦ pure rfl

omit h in
theorem body {α : Type} {element : Recorded (List α)} {element' : Parser (List α)}
    (h : ∀ ts, Follows l Eq element ts (element' ts)) (ts : List Placed) :
    Follows l Eq (Recorded.body element) ts (Parser.body element' ts) := by
  have round (ts : List Placed) : Follows l Eq
      (do
        if ← Recorded.eat .rbrace then return ([], false)
        else
          let xs ← element
          Recorded.endElement
          return (xs, true)) ts (Parser.elementOrEnd element' ts) := by
    apply ifEats
    · exact fun _ _ _ ↦ pure rfl
    intro hno
    unfold Parser.elementOrEnd
    split
    · exact absurd rfl hno
    · exact (h _).bind fun xs ts ↦ (endElement ts).bind fun _ rest ↦ pure rfl
  exact roundsEq (fun ts ↦ skip (skipSemis ts) round) ts

theorem interfaceElement (ts : List Placed) :
    Follows l Eq (Recorded.interfaceElement type) ts (Parser.interfaceElement type' ts) := by
  have embed (ts : List Placed) : Follows l Eq
      (do
        if ← Recorded.sees .tilde then throw .refused
        else
          let d ← type
          if ← Recorded.sees .pipe then throw .refused else return [Parser.Element.embed d]) ts
      (Parser.embedded type' ts) := by
    apply ifSees
    · exact fun _ _ _ ↦ refuse
    intro hno
    unfold Parser.embedded
    rw [if_neg (Parser.startsWith_iff.not.2 hno)]
    refine (h ts).bind fun d ts ↦ ?_
    apply ifSees
    · exact fun _ _ _ ↦ refuse
    intro hno
    dsimp only
    rw [if_neg (Parser.startsWith_iff.not.2 hno)]
    exact pure rfl
  refine ahead ?_
  rcases ts with _ | ⟨⟨token, start, stop⟩, ts⟩
  · exact embed []
  cases token with
  | ident name =>
    rcases ts with _ | ⟨⟨token, start', stop'⟩, ts⟩
    · exact embed _
    cases token with
    | mark m =>
      cases m with
      | lparen => exact (signature h _).bind fun s rest ↦ pure rfl
      | _ => exact embed _
    | _ => exact embed _
  | _ => exact embed _

theorem interfaceBody (ts : List Placed) :
    Follows l Eq (Recorded.interfaceBody type) ts (Parser.interfaceBody type' ts) :=
  (body (interfaceElement h) ts).bind fun _ _ ↦ pure rfl

omit h in
theorem moreNames (ts : List Placed) :
    Follows l Eq Recorded.moreNames ts (Parser.moreNames ts) := by
  refine roundsEq (fun ts ↦ ?_) ts
  apply ifEats
  · exact fun _ _ ts ↦ identifier.bind fun name rest ↦ pure rfl
  intro hno
  split
  · exact absurd rfl hno
  · exact pure rfl

omit h in
theorem skipTag (ts : List Placed) :
    Follows l Eq Recorded.skipTag ts (.ok ((), Parser.skipTag ts)) := by
  refine ahead ?_
  rcases ts with _ | ⟨⟨token, start, stop⟩, ts⟩
  · exact pure rfl
  cases token with
  | tag text =>
    show Follows l Eq Recorded.pass (⟨.tag text, start, stop⟩ :: ts) (.ok ((), ts))
    rw [← bind_pure Recorded.pass]
    exact pass (pure rfl)
  | _ => exact pure rfl

theorem fields (names : List (Option String)) (ts : List Placed) :
    Follows l Eq (Recorded.fields type names) ts
      (type' ts >>= fun x ↦ .ok (names.map (⟨·, x.1⟩), Parser.skipTag x.2)) :=
  (h ts).bind fun _ ts ↦ skip (skipTag ts) fun _ ↦ pure rfl

theorem structElement (ts : List Placed) :
    Follows l Eq (Recorded.structElement type) ts (Parser.structElement type' ts) := by
  refine ahead ?_
  rcases ts with _ | ⟨⟨token, start, stop⟩, ts⟩
  · exact refuse
  cases token with
  | ident name =>
    rw [show tokens (⟨.ident name, start, stop⟩ :: ts) = .ident name :: tokens ts from rfl]
    dsimp only [Parser.structElement]
    have hcomma : ((tokens ts).head? == some (.mark .comma)) = Parser.startsWith .comma ts := by
      cases ts <;> rfl
    rw [hcomma, Parser.namesElement_eq]
    split
    · refine pass ((moreNames ts).bind fun names rest ↦ ?_)
      have hfields := fields h ((name :: names).map some) rest
      simp only [List.map_map] at hfields
      exact hfields
    split
    · exact pass (fields h [some name] ts)
    · exact fields h [none] _
  | mark m =>
    cases m with
    | star => exact fields h [none] _
    | _ => exact refuse
  | _ => exact refuse

theorem structBody (ts : List Placed) :
    Follows l Eq (Recorded.structBody type) ts (Parser.structBody type' ts) :=
  (body (structElement h) ts).bind fun _ _ ↦ pure rfl

theorem typeLevel (ts : List Placed) :
    Follows l Eq (Recorded.typeLevel type) ts (Parser.typeLevel type' ts) := by
  refine ahead ?_
  rcases ts with _ | ⟨⟨token, start, stop⟩, ts⟩
  · exact refuse
  refine pass ?_
  cases token with
  | ident name =>
    refine (qualifiedName name ts).bind fun name ts ↦ ?_
    exact (typeArguments h ts).bind fun args rest ↦ pure rfl
  | mark m =>
    cases m with
    | star => exact (h ts).bind fun d rest ↦ pure rfl
    | lbracket =>
      refine ahead ?_
      rcases ts with _ | ⟨⟨token, start', stop'⟩, ts⟩
      · exact pass_refuse
      cases token with
      | mark m =>
        cases m with
        | rbracket => exact pass ((h ts).bind fun d rest ↦ pure rfl)
        | _ => exact pass_refuse
      | int len => exact pass (expect.bind fun _ ts ↦ (h ts).bind fun d rest ↦ pure rfl)
      | _ => exact pass_refuse
    | map =>
      refine expect.bind fun _ ts ↦ (h ts).bind fun key ts ↦ expect.bind fun _ ts ↦ ?_
      exact (h ts).bind fun value rest ↦ pure rfl
    | chan =>
      simp only [Recorded.typeAfter, Parser.typeLevel]
      apply ifEats
      · exact fun _ _ ts ↦ (h ts).bind fun d rest ↦ pure rfl
      intro hno
      split
      · exact absurd rfl hno
      · exact (h _).bind fun d rest ↦ pure rfl
    | arrow => exact expect.bind fun _ ts ↦ (h ts).bind fun d rest ↦ pure rfl
    | func =>
      refine (parameters h ts).bind fun x ts ↦ ?_
      obtain ⟨params, variadic⟩ := x
      exact (results h ts).bind fun types rest ↦ pure rfl
    | interface => exact expect.bind fun _ ts ↦ interfaceBody h ts
    | struct => exact expect.bind fun _ ts ↦ structBody h ts
    | lparen => exact (h ts).bind fun d ts ↦ expect.bind fun _ rest ↦ pure rfl
    | _ => exact refuse
  | _ => exact refuse

end

end Follows

theorem Agrees.leave {α β : Type} {most : Nat} {R : α → β → Prop} {ts : List Placed}
    {y : Except Stop β × Cursor} {x : Except Fault (α × List Placed)} (h : Agrees most R ts y x) :
    Agrees most R ts (y.1, y.2.leave) x := by
  cases h with
  | read hab hc hrest hsuffix => exact .read hab hc hrest hsuffix
  | refused hc => exact .refused hc
  | deeper hc => exact .deeper hc
  | exhausted => exact .exhausted

/-- Inside of `depth` types the parser that admits `most` of them has the others left. -/
theorem follows_typeUpTo {limit : Option Nat} {most : Nat} (hlimit : ∀ n ∈ limit, most ≤ n)
    (bound depth : Nat) (ts : List Placed) :
    Follows ⟨limit, most, depth⟩ Eq (typeUpTo limit bound) ts
      (Parser.typeUpTo (most - depth) ts) := by
  induction bound generalizing depth ts with
  | zero => exact .exhaust
  | succ bound ih =>
    intro c hts
    rw [typeUpTo, nested_apply]
    by_cases hfull : ∃ n ∈ limit, n ≤ c.depth
    · rw [if_pos (by simpa [Option.any_eq_true] using hfull)]
      refine ⟨.of_eq rfl rfl, fun hdepth hdeepest ↦ ?_⟩
      obtain rfl : c.depth = depth := hdepth
      obtain ⟨n, hn, hle⟩ := hfull
      have hmost : most - c.depth = 0 := Nat.sub_eq_zero_of_le ((hlimit n hn).trans hle)
      rw [hmost]
      exact .refused hdeepest
    · rw [if_neg (by simpa [Option.any_eq_true] using hfull)]
      obtain ⟨hreturns, hagrees⟩ := Follows.typeLevel (ih (c.depth + 1)) ts c.enter hts
      have hdeeper : max c.deepest (c.depth + 1) ≤
          (typeLevel (typeUpTo limit bound) c.enter).2.deepest := hreturns.deepest
      refine ⟨⟨?_, ?_, fun n hn ↦ ?_⟩, fun hdepth hdeepest ↦ ?_⟩
      · exact congrArg (· - 1) hreturns.depth
      · exact (le_max_left _ _).trans hdeeper
      · have hroom : c.depth + 1 ≤ n := Nat.lt_of_not_le fun hle ↦ hfull ⟨n, hn, hle⟩
        have hentered : c.enter.deepest ≤ max c.deepest n :=
          max_le (le_max_left _ _) (hroom.trans (le_max_right _ _))
        exact (hreturns.within n hn).trans (max_le hentered (le_max_right _ _))
      obtain rfl : c.depth = depth := hdepth
      by_cases hmost : c.depth < most
      · have hlevels : most - c.depth = most - (c.depth + 1) + 1 := by omega
        rw [hlevels]
        exact (hagrees rfl (max_le hdeepest hmost)).leave
      · have hlevels : most - c.depth = 0 := by omega
        rw [hlevels]
        refine .deeper (lt_of_lt_of_le ?_ hdeeper)
        exact Nat.lt_of_lt_of_le (Nat.lt_succ_of_le (Nat.le_of_not_lt hmost)) (le_max_right _ _)

theorem follows_type {limit : Option Nat} {most : Nat} (hlimit : ∀ n ∈ limit, most ≤ n)
    (depth : Nat) (ts : List Placed) :
    Follows ⟨limit, most, depth⟩ Eq (type limit) ts (Parser.typeUpTo (most - depth) ts) :=
  fun c hts ↦ follows_typeUpTo hlimit (c.rest.length + 1) depth ts c hts

end Recorded

end Conformance

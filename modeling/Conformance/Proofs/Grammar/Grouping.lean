import Conformance.Proofs.Grammar.Progress

namespace Conformance

open Conformance.Parser (endsElement namesElement bind_eq_ok pure_eq_ok)

inductive ListElement where
  /-- An identifier and nothing else: a type, or a name for a type to come. -/
  | lone (name : String)
  | typed (name : Option String) (dots : Bool) (type : Descriptor)

namespace ListElement

def naming : ListElement → Naming
  | lone _ => .lone
  | typed (some _) _ _ => .named
  | typed none _ _ => .unnamed

def dots : ListElement → Bool
  | lone _ => false
  | typed _ dots _ => dots

def type : ListElement → Descriptor
  | lone name => .ofName name []
  | typed _ _ type => type

/-- The tokens `ts` begin with the element, and `rest` comes after it. -/
inductive Begins (type : Parser Descriptor) : ListElement → List Placed → List Placed → Prop
  | lone {name : String} {start stop : Nat} {rest : List Placed} (hends : endsElement rest)
      (htype : type (⟨.ident name, start, stop⟩ :: rest) = .ok (.ofName name [], rest)) :
      Begins type (.lone name) (⟨.ident name, start, stop⟩ :: rest) rest
  | named {name : String} {start stop : Nat} {d : Descriptor} {ts rest : List Placed}
      (hnames : namesElement ts) (htype : type ts = .ok (d, rest)) :
      Begins type (.typed (some name) false d) (⟨.ident name, start, stop⟩ :: ts) rest
  | namedDots {name : String} {start stop start' stop' : Nat} {d : Descriptor}
      {ts rest : List Placed} (htype : type ts = .ok (d, rest)) :
      Begins type (.typed (some name) true d)
        (⟨.ident name, start, stop⟩ :: ⟨.mark .ellipsis, start', stop'⟩ :: ts) rest
  | dots {start stop : Nat} {d : Descriptor} {ts rest : List Placed}
      (htype : type ts = .ok (d, rest)) :
      Begins type (.typed none true d) (⟨.mark .ellipsis, start, stop⟩ :: ts) rest
  | unnamed {d : Descriptor} {ts rest : List Placed} (htype : type ts = .ok (d, rest))
      (hbegins : ∀ name start stop us, ts = ⟨.ident name, start, stop⟩ :: us →
        ¬ endsElement us ∧ ¬ namesElement us ∧ ¬ Parser.startsWith .ellipsis us) :
      Begins type (.typed none false d) ts rest

structure IsReadAs (x : ListElement) (e : Entry) : Prop where
  naming : e.naming = x.naming
  dots : e.variadic = x.dots
  type : e.type = x.type

end ListElement

/-- Elements with commas between them and perhaps one after them, up to a closing parenthesis. -/
inductive Listed (type : Parser Descriptor) :
    List ListElement → List Placed → List Placed → Prop
  | nil {start stop : Nat} {rest : List Placed} :
      Listed type [] (⟨.mark .rparen, start, stop⟩ :: rest) rest
  | last {x : ListElement} {start stop : Nat} {ts rest : List Placed}
      (hx : x.Begins type ts (⟨.mark .rparen, start, stop⟩ :: rest)) : Listed type [x] ts rest
  | cons {x : ListElement} {xs : List ListElement} {start stop : Nat} {ts us rest : List Placed}
      (hx : x.Begins type ts (⟨.mark .comma, start, stop⟩ :: us)) (hxs : Listed type xs us rest) :
      Listed type (x :: xs) ts rest

/-- What a parser of types does on tokens that are no type or a mere name. -/
structure ReadsTypes (type : Parser Descriptor) : Prop where
  shorter : ∀ {ts d rest}, type ts = .ok (d, rest) → rest.length < ts.length
  rparen : ∀ {start stop ts x}, type (⟨.mark .rparen, start, stop⟩ :: ts) ≠ .ok x
  ellipsis : ∀ {start stop ts x}, type (⟨.mark .ellipsis, start, stop⟩ :: ts) ≠ .ok x
  lone : ∀ {name start stop ts x}, endsElement ts →
    type (⟨.ident name, start, stop⟩ :: ts) = .ok x → x = (.ofName name [], ts)

section

variable {type : Parser Descriptor} {x : ListElement} {e : Entry} {ts rest : List Placed}

theorem exists_of_startsWith {m : Mark} (h : Parser.startsWith m ts) :
    ∃ start stop us, ts = ⟨.mark m, start, stop⟩ :: us := by
  rcases ts with _ | ⟨⟨token, start, stop⟩, us⟩
  · cases h
  · obtain rfl : token = .mark m := beq_iff_eq.1 h
    exact ⟨start, stop, us, rfl⟩

/-- An identifier that no dots follow is a name if its type follows. -/
theorem entry_ident {name : String} {start stop : Nat} (hdots : ¬ Parser.startsWith .ellipsis ts) :
    Parser.entry type (⟨.ident name, start, stop⟩ :: ts) =
      if namesElement ts then type ts >>= fun y ↦ .ok (⟨y.1, .named, false, some start⟩, y.2)
      else type (⟨.ident name, start, stop⟩ :: ts) >>= fun y ↦
        .ok (⟨y.1, if endsElement ts then .lone else .unnamed, false, some start⟩, y.2) := by
  unfold Parser.entry
  split
  case h_1 he => cases he
  case h_2 he =>
    obtain ⟨-, rfl⟩ := List.cons.inj he
    exact absurd rfl hdots
  case h_3 he =>
    cases he
    rfl
  case h_4 he => exact absurd rfl (he name start stop ts)

theorem not_dots_of_endsElement (h : endsElement ts) :
    namesElement ts = false ∧ ¬ Parser.startsWith .ellipsis ts := by
  rcases ts with _ | ⟨⟨token, start, stop⟩, ts⟩
  · exact ⟨rfl, Bool.false_ne_true⟩
  · simp only [endsElement, Parser.startsWith, List.isEmpty_cons, Bool.false_or, Bool.or_eq_true,
      beq_iff_eq] at h
    rcases h with rfl | rfl <;> exact ⟨rfl, Bool.false_ne_true⟩

theorem not_dots_of_namesElement (h : namesElement ts) : ¬ Parser.startsWith .ellipsis ts := by
  intro hdots
  obtain ⟨start, stop, us, rfl⟩ := exists_of_startsWith hdots
  cases h

theorem element_eq_ok {naming : Naming} {dots : Bool} {position : Option Nat} :
    (type ts >>= fun y ↦ .ok (⟨y.1, naming, dots, position⟩, y.2)) = .ok (e, rest) ↔
      ∃ d, type ts = .ok (d, rest) ∧ e = ⟨d, naming, dots, position⟩ := by
  rw [bind_eq_ok]
  constructor
  · rintro ⟨⟨d, _⟩, hd, ⟨⟩⟩
    exact ⟨d, hd, rfl⟩
  · rintro ⟨d, hd, rfl⟩
    exact ⟨(d, rest), hd, rfl⟩

theorem ListElement.exists_begins (htype : ReadsTypes type)
    (h : Parser.entry type ts = .ok (e, rest)) :
    ∃ x : ListElement, x.Begins type ts rest ∧ x.IsReadAs e := by
  unfold Parser.entry at h
  split at h
  · obtain ⟨d, hd, rfl⟩ := element_eq_ok.1 h
    exact ⟨_, .dots hd, rfl, rfl, rfl⟩
  · obtain ⟨d, hd, rfl⟩ := element_eq_ok.1 h
    exact ⟨_, .namedDots hd, rfl, rfl, rfl⟩
  · rename_i name start stop us hdots
    split at h
    · rename_i hnames
      obtain ⟨d, hd, rfl⟩ := element_eq_ok.1 h
      exact ⟨_, .named hnames hd, rfl, rfl, rfl⟩
    · rename_i hnames
      obtain ⟨d, hd, rfl⟩ := element_eq_ok.1 h
      by_cases hends : endsElement us
      · obtain ⟨rfl, rfl⟩ := Prod.mk.inj (htype.lone hends hd)
        exact ⟨_, .lone hends hd, if_pos hends, rfl, rfl⟩
      · refine ⟨_, .unnamed hd fun _ _ _ _ he ↦ ?_, if_neg hends, rfl, rfl⟩
        obtain ⟨-, rfl⟩ := List.cons.inj he
        refine ⟨hends, hnames, fun hellipsis ↦ ?_⟩
        obtain ⟨_, _, us, rfl⟩ := exists_of_startsWith hellipsis
        exact hdots _ _ _ rfl
  · rename_i hdots hname hnames
    obtain ⟨d, hd, rfl⟩ := element_eq_ok.1 h
    refine ⟨_, .unnamed hd fun name start stop us he ↦ ?_, rfl, rfl, rfl⟩
    exact absurd he (hnames name start stop us)

theorem ListElement.Begins.entry (htype : ReadsTypes type) (h : x.Begins type ts rest) :
    ∃ e, Parser.entry type ts = .ok (e, rest) ∧ x.IsReadAs e := by
  have element {ts' : List Placed} (position : Option Nat) (hd : type ts' = .ok (x.type, rest)) :
      ∃ e, (type ts' >>= fun y ↦ .ok (⟨y.1, x.naming, x.dots, position⟩, y.2)) = .ok (e, rest) ∧
        x.IsReadAs e :=
    ⟨_, element_eq_ok.2 ⟨_, hd, rfl⟩, rfl, rfl, rfl⟩
  cases h with
  | @lone name start stop rest hends hd =>
    obtain ⟨hnames, hdots⟩ := not_dots_of_endsElement hends
    rw [entry_ident hdots, hnames, hends]
    exact element _ hd
  | @named name start stop d ts rest hnames hd =>
    rw [entry_ident (not_dots_of_namesElement hnames), hnames]
    exact element _ hd
  | namedDots hd => exact element _ hd
  | dots hd => exact element _ hd
  | unnamed hd hbegins =>
    unfold Parser.entry
    split
    · exact absurd hd htype.ellipsis
    · exact absurd rfl (hbegins _ _ _ _ rfl).2.2
    · obtain ⟨hends, hnames, -⟩ := hbegins _ _ _ _ rfl
      rw [if_neg hnames, if_neg hends]
      exact element _ hd
    · exact element _ hd

def entriesRound (type : Parser Descriptor) : Parser (List Entry × Bool) := fun ts ↦
  if ts.isEmpty || Parser.startsWith .rparen ts then .ok (([], false), ts)
  else do
    let (e, ts) ← Parser.entry type ts
    match ts with
    | ⟨.mark .comma, _, _⟩ :: ts => return (([e], true), ts)
    | ts => return (([e], false), ts)

/-- What a round reads: nothing, an element and a comma, or an element that no comma follows. -/
inductive Round (type : Parser Descriptor) (ts : List Placed) :
    List Entry → Bool → List Placed → Prop
  | none (hstop : ts.isEmpty || Parser.startsWith .rparen ts) : Round type ts [] false ts
  | more {e : Entry} {start stop : Nat} {us : List Placed}
      (hgo : ¬ (ts.isEmpty || Parser.startsWith .rparen ts))
      (he : Parser.entry type ts = .ok (e, ⟨.mark .comma, start, stop⟩ :: us)) :
      Round type ts [e] true us
  | last {e : Entry} {us : List Placed} (hgo : ¬ (ts.isEmpty || Parser.startsWith .rparen ts))
      (he : Parser.entry type ts = .ok (e, us)) (hus : ¬ Parser.startsWith .comma us) :
      Round type ts [e] false us

theorem entriesRound_eq_ok {es : List Entry} {more : Bool} :
    entriesRound type ts = .ok ((es, more), rest) ↔ Round type ts es more rest := by
  constructor
  · intro h
    unfold entriesRound at h
    split at h
    · rename_i hstop
      cases h
      exact .none hstop
    · rename_i hgo
      obtain ⟨⟨e, us⟩, he, h⟩ := bind_eq_ok.1 h
      dsimp only at h
      split at h
      · cases h
        exact .more hgo he
      · rename_i hcomma
        cases h
        refine .last hgo he fun hus ↦ ?_
        obtain ⟨_, _, _, rfl⟩ := exists_of_startsWith hus
        exact hcomma _ _ _ rfl
  · rintro (hstop | ⟨hgo, he⟩ | ⟨hgo, he, hus⟩)
    · exact if_pos hstop
    · rw [entriesRound, if_neg hgo, he]
      rfl
    · rw [entriesRound, if_neg hgo, he]
      show (match rest with
        | ⟨.mark .comma, _, _⟩ :: ts => _
        | ts => _) = _
      split
      · exact absurd rfl hus
      · rfl

theorem expect_eq_ok {m : Mark} {x : Unit} :
    Parser.expect m ts = .ok (x, rest) ↔ ∃ start stop, ts = ⟨.mark m, start, stop⟩ :: rest := by
  constructor
  · intro h
    unfold Parser.expect at h
    split at h
    · split at h
      · cases h
        rename_i hm
        exact ⟨_, _, by rw [hm]⟩
      · cases h
    · cases h
  · rintro ⟨start, stop, rfl⟩
    exact if_pos rfl

theorem Listed.exists_of_rounds (htype : ReadsTypes type) {n start stop : Nat}
    {es : List Entry} (h : Parser.roundsUpTo (entriesRound type) n ts =
      .ok (es, ⟨.mark .rparen, start, stop⟩ :: rest)) :
    ∃ xs, Listed type xs ts rest ∧ List.Forall₂ ListElement.IsReadAs xs es := by
  induction n generalizing ts es with
  | zero =>
    cases h
    exact ⟨[], .nil, .nil⟩
  | succ n ih =>
    simp only [Parser.roundsUpTo, bind_eq_ok, Prod.exists] at h
    obtain ⟨es, more, us, hround, h⟩ := h
    cases entriesRound_eq_ok.1 hround with
    | none hstop =>
      cases h
      exact ⟨[], .nil, .nil⟩
    | more hgo he =>
      obtain ⟨⟨es', _⟩, hes, ⟨⟩⟩ := bind_eq_ok.1 h
      obtain ⟨x, hx, hxe⟩ := ListElement.exists_begins htype he
      obtain ⟨xs, hxs, hxes⟩ := ih hes
      exact ⟨x :: xs, .cons hx hxs, .cons hxe hxes⟩
    | last hgo he hus =>
      cases h
      obtain ⟨x, hx, hxe⟩ := ListElement.exists_begins htype he
      exact ⟨[x], .last hx, .cons hxe .nil⟩

theorem ListElement.Begins.not_stop (htype : ReadsTypes type) (h : x.Begins type ts rest) :
    ¬ (ts.isEmpty || Parser.startsWith .rparen ts) ∧ rest.length < ts.length := by
  cases h with
  | lone hends hd => exact ⟨nofun, Nat.lt_succ_self _⟩
  | named hnames hd => exact ⟨nofun, Nat.lt_succ_of_lt (htype.shorter hd)⟩
  | namedDots hd => exact ⟨nofun, Nat.lt_succ_of_lt (Nat.lt_succ_of_lt (htype.shorter hd))⟩
  | dots hd => exact ⟨nofun, Nat.lt_succ_of_lt (htype.shorter hd)⟩
  | unnamed hd hbegins =>
    refine ⟨fun hstop ↦ ?_, htype.shorter hd⟩
    rcases Bool.or_eq_true_iff.1 hstop with hnil | hparen
    · rw [List.isEmpty_iff.1 hnil] at hd
      exact absurd (htype.shorter hd) (Nat.not_lt_zero _)
    · obtain ⟨start, stop, us, rfl⟩ := exists_of_startsWith hparen
      exact htype.rparen hd

theorem Listed.rounds (htype : ReadsTypes type) {xs : List ListElement}
    (h : Listed type xs ts rest) {n : Nat} (hn : ts.length ≤ n) :
    ∃ es start stop, Parser.roundsUpTo (entriesRound type) (n + 1) ts =
        .ok (es, ⟨.mark .rparen, start, stop⟩ :: rest) ∧
      List.Forall₂ ListElement.IsReadAs xs es := by
  simp only [Parser.roundsUpTo, bind_eq_ok, Prod.exists]
  induction h generalizing n with
  | @nil start stop rest =>
    exact ⟨[], start, stop, ⟨[], false, _, entriesRound_eq_ok.2 (.none rfl), rfl⟩, .nil⟩
  | @last x start stop ts rest hx =>
    obtain ⟨e, he, hxe⟩ := hx.entry htype
    have hround := entriesRound_eq_ok.2 (.last (hx.not_stop htype).1 he Bool.false_ne_true)
    exact ⟨[e], start, stop, ⟨[e], false, _, hround, rfl⟩, .cons hxe .nil⟩
  | @cons x xs start stop ts us rest hx hxs ih =>
    obtain ⟨hgo, hshorter⟩ := hx.not_stop htype
    obtain ⟨e, he, hxe⟩ := hx.entry htype
    have hround := entriesRound_eq_ok.2 (.more hgo he)
    rw [List.length_cons] at hshorter
    obtain ⟨n, rfl⟩ := Nat.exists_eq_add_of_lt (Nat.zero_lt_of_lt (hshorter.trans_le hn))
    rw [Nat.zero_add] at hn ⊢
    obtain ⟨es, start', stop', hes, hxes⟩ := ih (show us.length ≤ n by omega)
    refine ⟨e :: es, start', stop', ⟨[e], true, us, hround, ?_⟩, .cons hxe hxes⟩
    refine bind_eq_ok.2 ⟨(es, _), ?_, rfl⟩
    simp only [Parser.roundsUpTo, bind_eq_ok, Prod.exists]
    exact hes

/-- Names that share the type after the last of them. -/
structure NameGroup where
  sharing : List String
  name : String
  dots : Bool
  type : Descriptor

namespace NameGroup

def elements (g : NameGroup) : List ListElement :=
  g.sharing.map .lone ++ [.typed (some g.name) g.dots g.type]

def types (g : NameGroup) : List Descriptor := .replicate (g.sharing.length + 1) g.type

end NameGroup

/-- Either no element is named, or the elements are names in groups that share their types. -/
inductive Grouped : List ListElement → List Descriptor → Prop
  | unnamed {xs : List ListElement} (h : ∀ x ∈ xs, x.naming ≠ .named) :
      Grouped xs (xs.map ListElement.type)
  | named (gs : List NameGroup) :
      Grouped (gs.flatMap NameGroup.elements) (gs.flatMap NameGroup.types)

section

variable {xs : List ListElement} {es : List Entry}

theorem lones_append_inj {ws ws' : List String} {xs' : List ListElement} {name name' : String}
    {dots dots' : Bool} {d d' : Descriptor}
    (h : ws.map .lone ++ .typed (some name) dots d :: xs =
      ws'.map .lone ++ .typed (some name') dots' d' :: xs') :
    ws = ws' ∧ name = name' ∧ dots = dots' ∧ d = d' ∧ xs = xs' := by
  induction ws generalizing ws' with
  | nil => cases ws' <;> simp_all
  | cons w ws ih =>
    cases ws' with
    | nil => cases h
    | cons w' ws' =>
      obtain ⟨hw, hrest⟩ := List.cons.inj h
      cases hw
      obtain ⟨rfl, hsame⟩ := ih hrest
      exact ⟨rfl, hsame⟩

theorem flatMap_elements_eq_append {ws : List String} {name : String} {dots : Bool}
    {d : Descriptor} {gs : List NameGroup}
    (h : ws.map .lone ++ .typed (some name) dots d :: xs = gs.flatMap NameGroup.elements) :
    ∃ gs', gs = ⟨ws, name, dots, d⟩ :: gs' ∧ xs = gs'.flatMap NameGroup.elements := by
  cases gs with
  | nil => simp at h
  | cons g gs =>
    rw [List.flatMap_cons, NameGroup.elements, List.append_assoc] at h
    obtain ⟨rfl, rfl, rfl, rfl, rfl⟩ := lones_append_inj h
    exact ⟨gs, rfl, rfl⟩

theorem typed_mem_flatMap {g : NameGroup} {gs : List NameGroup} (h : g ∈ gs) :
    .typed (some g.name) g.dots g.type ∈ gs.flatMap NameGroup.elements :=
  List.mem_flatMap.2 ⟨g, h, List.mem_append_right _ (List.mem_singleton_self _)⟩

theorem map_lone_eq_flatMap {ws : List String} {gs : List NameGroup}
    (h : ws.map .lone = gs.flatMap NameGroup.elements) : ws = [] ∧ gs = [] := by
  cases gs with
  | nil => exact ⟨List.map_eq_nil_iff.1 h, rfl⟩
  | cons g gs =>
    have hmem : ListElement.typed (some g.name) g.dots g.type ∈ ws.map .lone := by
      rw [h]
      exact typed_mem_flatMap List.mem_cons_self
    obtain ⟨w, -, hw⟩ := List.mem_map.1 hmem
    cases hw

theorem naming_ne_unnamed {x : ListElement} {gs : List NameGroup}
    (h : x ∈ gs.flatMap NameGroup.elements) : x.naming ≠ .unnamed := by
  obtain ⟨g, -, hx⟩ := List.mem_flatMap.1 h
  rcases List.mem_append.1 hx with hx | hx
  · obtain ⟨w, -, rfl⟩ := List.mem_map.1 hx
    exact nofun
  · rw [List.mem_singleton.1 hx]
    exact nofun

theorem distribute_eq_ok {ws : List String} {waiting : List Entry} {ds : List Descriptor}
    (h : List.Forall₂ ListElement.IsReadAs xs es) (hws : waiting.length = ws.length) :
    Entry.distribute waiting es = .ok ds ↔
      ∃ gs : List NameGroup, ws.map .lone ++ xs = gs.flatMap NameGroup.elements ∧
        ds = gs.flatMap NameGroup.types := by
  induction h generalizing ws waiting ds with
  | nil =>
    rw [List.append_nil]
    cases waiting with
    | nil =>
      obtain rfl := List.eq_nil_of_length_eq_zero hws.symm
      constructor
      · rintro ⟨⟩
        exact ⟨[], rfl, rfl⟩
      · rintro ⟨gs, hgs, rfl⟩
        rw [(map_lone_eq_flatMap hgs).2]
        rfl
    | cons e waiting =>
      refine iff_of_false (by rintro ⟨⟩) ?_
      rintro ⟨gs, hgs, -⟩
      rw [(map_lone_eq_flatMap hgs).1] at hws
      cases hws
  | @cons x e xs es hx h ih =>
    rw [Entry.distribute, hx.naming]
    cases x with
    | lone name =>
      have hlength : (waiting ++ [e]).length = (ws ++ [name]).length := by simp [hws]
      simpa [ListElement.naming] using @ih (ws ++ [name]) (waiting ++ [e]) ds hlength
    | typed name dots d =>
      cases name with
      | none =>
        refine iff_of_false (by rintro ⟨⟩) ?_
        rintro ⟨gs, hgs, -⟩
        have hmem : .typed none dots d ∈ gs.flatMap NameGroup.elements :=
          hgs ▸ List.mem_append_right _ List.mem_cons_self
        exact naming_ne_unnamed hmem rfl
      | some name =>
        have hrest (ds : List Descriptor) := @ih [] [] ds rfl
        simp only [ListElement.naming, bind_eq_ok, pure_eq_ok, hrest, hx.type, hws]
        constructor
        · rintro ⟨types, ⟨gs, rfl, rfl⟩, rfl⟩
          refine ⟨⟨ws, name, dots, d⟩ :: gs, ?_, rfl⟩
          rw [List.flatMap_cons, NameGroup.elements, List.append_assoc]
          rfl
        · rintro ⟨gs, hgs, rfl⟩
          obtain ⟨gs, rfl, rfl⟩ := flatMap_elements_eq_append hgs
          exact ⟨_, ⟨gs, rfl, rfl⟩, rfl⟩

theorem misplacedVariadic?_eq_none (h : List.Forall₂ ListElement.IsReadAs xs es) :
    Entry.misplacedVariadic? es = none ↔ ∀ x ∈ xs.dropLast, x.dots = false := by
  induction h with
  | nil => simp [Entry.misplacedVariadic?]
  | @cons x e xs es hx h ih =>
    cases h with
    | nil => simp [Entry.misplacedVariadic?]
    | cons hy h =>
      rw [Entry.misplacedVariadic?, List.dropLast_cons_cons, List.forall_mem_cons, ← ih, hx.dots]
      cases x.dots <;> simp

theorem lastIsVariadic_eq (h : List.Forall₂ ListElement.IsReadAs xs es) :
    Entry.lastIsVariadic es = xs.getLast?.any ListElement.dots := by
  induction h with
  | nil => rfl
  | @cons x e xs es hx h ih =>
    cases h with
    | nil => exact hx.dots
    | cons hy h => rwa [Entry.lastIsVariadic, List.getLast?_cons_cons, List.getLast?_cons_cons]

theorem any_named_iff (h : List.Forall₂ ListElement.IsReadAs xs es) :
    es.any (·.naming == .named) ↔ ∃ x ∈ xs, x.naming = .named := by
  induction h with
  | nil => simp
  | cons hx h ih =>
    rw [List.any_cons, Bool.or_eq_true, ih, beq_iff_eq, hx.naming, List.exists_mem_cons_iff]

theorem map_type_eq (h : List.Forall₂ ListElement.IsReadAs xs es) :
    es.map (·.type) = xs.map ListElement.type := by
  induction h with
  | nil => rfl
  | cons hx h ih => rw [List.map_cons, List.map_cons, hx.type, ih]

theorem Grouped.eq_of_named {ds : List Descriptor} (h : Grouped xs ds)
    (hnamed : ∃ x ∈ xs, x.naming = .named) :
    ∃ gs : List NameGroup, xs = gs.flatMap NameGroup.elements ∧
      ds = gs.flatMap NameGroup.types := by
  cases h with
  | unnamed h =>
    obtain ⟨x, hx, hnaming⟩ := hnamed
    exact absurd hnaming (h x hx)
  | named gs => exact ⟨gs, rfl, rfl⟩

theorem Grouped.eq_of_not_named {ds : List Descriptor} (h : Grouped xs ds)
    (hnamed : ¬ ∃ x ∈ xs, x.naming = .named) : ds = xs.map ListElement.type := by
  cases h with
  | unnamed h => rfl
  | named gs =>
    cases gs with
    | nil => rfl
    | cons g gs => exact absurd ⟨_, typed_mem_flatMap List.mem_cons_self, rfl⟩ hnamed

theorem resolve_eq_ok {ds : List Descriptor} {variadic : Bool}
    (h : List.Forall₂ ListElement.IsReadAs xs es) :
    Entry.resolve es = .ok (ds, variadic) ↔ Grouped xs ds ∧ (∀ x ∈ xs.dropLast, x.dots = false) ∧
      variadic = xs.getLast?.any ListElement.dots := by
  rw [Entry.resolve, ← misplacedVariadic?_eq_none h, ← lastIsVariadic_eq h]
  cases hmisplaced : Entry.misplacedVariadic? es with
  | some e => exact iff_of_false (by rintro ⟨⟩) (by rintro ⟨-, ⟨⟩, -⟩)
  | none =>
    by_cases hnamed : es.any (·.naming == .named)
    · rw [if_pos hnamed]
      have hgrouped : Entry.distribute [] es = .ok ds ↔ Grouped xs ds := by
        rw [@distribute_eq_ok xs es [] [] ds h rfl]
        constructor
        · rintro ⟨gs, rfl, rfl⟩
          exact .named gs
        · exact fun hds ↦ hds.eq_of_named ((any_named_iff h).1 hnamed)
      rw [← hgrouped, bind_eq_ok]
      constructor
      · rintro ⟨types, hds, ⟨⟩⟩
        exact ⟨hds, rfl, rfl⟩
      · rintro ⟨hds, -, rfl⟩
        exact ⟨ds, hds, rfl⟩
    · rw [if_neg hnamed]
      have hgrouped : es.map (·.type) = ds ↔ Grouped xs ds := by
        rw [map_type_eq h]
        constructor
        · rintro rfl
          exact .unnamed fun x hx hnaming ↦ hnamed ((any_named_iff h).2 ⟨x, hx, hnaming⟩)
        · exact fun hds ↦ (hds.eq_of_not_named ((any_named_iff h).not.1 hnamed)).symm
      rw [← hgrouped]
      constructor
      · rintro ⟨⟩
        exact ⟨rfl, rfl, rfl⟩
      · rintro ⟨rfl, -, rfl⟩
        rfl

end

end

/-- A name alone stands before the last element, a name with dots before its type. -/
def SharesDots (xs : List ListElement) : Prop :=
  ∃ init a b d, xs = init ++ [.lone a, .typed (some b) true d]

/-- A type after dots belongs to one parameter. -/
def DotsGivenOnce (xs : List ListElement) : Prop :=
  ∀ gs : List NameGroup, xs = gs.flatMap NameGroup.elements → ∀ g ∈ gs, g.dots → g.types.length = 1

theorem flatMap_elements_concat (gs : List NameGroup) (g : NameGroup) :
    (gs ++ [g]).flatMap NameGroup.elements = gs.flatMap NameGroup.elements ++ g.sharing.map .lone ++
      [.typed (some g.name) g.dots g.type] := by
  rw [List.flatMap_append, List.flatMap_singleton, NameGroup.elements, List.append_assoc]

theorem flatMap_elements_ne_concat_lone {gs : List NameGroup} {init : List ListElement}
    {name : String} : gs.flatMap NameGroup.elements ≠ init ++ [.lone name] := by
  intro h
  rcases List.eq_nil_or_concat gs with rfl | ⟨gs, g, rfl⟩
  · simp at h
  · rw [List.concat_eq_append, flatMap_elements_concat] at h
    cases (List.append_inj' h rfl).2

theorem dotsGivenOnce_iff {xs : List ListElement} {ds : List Descriptor} (hxs : Grouped xs ds)
    (hdots : ∀ x ∈ xs.dropLast, x.dots = false) : DotsGivenOnce xs ↔ ¬ SharesDots xs := by
  constructor
  · rintro honce ⟨init, a, b, d, rfl⟩
    have hnamed : ∃ x ∈ init ++ [.lone a, .typed (some b) true d], x.naming = .named :=
      ⟨.typed (some b) true d, by simp, rfl⟩
    obtain ⟨gs, hgs, -⟩ := hxs.eq_of_named hnamed
    have hinit : init ++ [.lone a, .typed (some b) true d] =
        init ++ [.lone a] ++ [.typed (some b) true d] := by simp
    rcases List.eq_nil_or_concat gs with rfl | ⟨gs, g, rfl⟩
    · simp at hgs
    rw [List.concat_eq_append] at hgs
    have hlast := hgs
    rw [hinit, flatMap_elements_concat] at hlast
    obtain ⟨hbefore, htyped⟩ := List.append_inj' hlast rfl
    have hgdots : g.dots = true := (ListElement.typed.inj (List.cons.inj htyped).1).2.1.symm
    have hone := honce _ hgs g (List.mem_append_right _ (List.mem_singleton_self g)) hgdots
    have hsharing : g.sharing = [] := by simpa [NameGroup.types] using hone
    rw [hsharing, List.map_nil, List.append_nil] at hbefore
    exact flatMap_elements_ne_concat_lone hbefore.symm
  · intro hshares gs hgs g hg hgdots
    obtain ⟨before, after, rfl⟩ := List.append_of_mem hg
    obtain rfl : after = [] := by
      by_contra hafter
      obtain ⟨g', after, rfl⟩ := List.exists_cons_of_ne_nil hafter
      have hne : (g' :: after).flatMap NameGroup.elements ≠ [] :=
        List.ne_nil_of_mem (typed_mem_flatMap List.mem_cons_self)
      have hmem : .typed (some g.name) g.dots g.type ∈ xs.dropLast := by
        rw [hgs, List.append_cons, List.flatMap_append, List.dropLast_append_of_ne_nil hne]
        exact List.mem_append_left _ (typed_mem_flatMap (by simp))
      exact absurd hgdots (by simp [show g.dots = false from hdots _ hmem])
    rw [flatMap_elements_concat] at hgs
    rcases List.eq_nil_or_concat g.sharing with hsharing | ⟨ws, a, hsharing⟩
    · rw [NameGroup.types, hsharing]
      rfl
    · refine (hshares ⟨before.flatMap NameGroup.elements ++ ws.map .lone, a, g.name, g.type, ?_⟩).elim
      rw [hgs, hsharing, hgdots]
      simp

theorem readsTypes_typeUpTo (n : Nat) : ReadsTypes (Parser.typeUpTo n) where
  shorter := Parser.typeUpTo_shorter
  rparen h := by cases n <;> cases h
  ellipsis h := by cases n <;> cases h
  lone {name start stop ts x} hends h := by
    cases n with
    | zero => cases h
    | succ n =>
      rcases ts with _ | ⟨⟨token, start, stop⟩, ts⟩
      · exact (Except.ok.inj h).symm
      · simp only [endsElement, Parser.startsWith, List.isEmpty_cons, Bool.false_or,
          Bool.or_eq_true, beq_iff_eq] at hends
        rcases hends with rfl | rfl <;> exact (Except.ok.inj h).symm

theorem Grouped.length_eq {xs : List ListElement} {ds : List Descriptor} (h : Grouped xs ds) :
    ds.length = xs.length := by
  cases h with
  | unnamed h => exact List.length_map _
  | named gs => simp [List.length_flatMap, NameGroup.elements, NameGroup.types]

/-- A list is accepted if and only if its elements are all without names or all names in groups and
only the last of them has dots. The type after the dots is given to one parameter unless a name
alone stands right before the name that has it. -/
theorem parameters_eq_ok_iff {n : Nat} {ts rest : List Placed} {ds : List Descriptor}
    {variadic : Bool} :
    Parser.parameters (Parser.typeUpTo n) ts = .ok ((ds, variadic), rest) ↔
      ∃ start stop us xs, ts = ⟨.mark .lparen, start, stop⟩ :: us ∧
        Listed (Parser.typeUpTo n) xs us rest ∧ Grouped xs ds ∧ ds.length = xs.length ∧
        (∀ x ∈ xs.dropLast, x.dots = false) ∧ variadic = xs.getLast?.any ListElement.dots ∧
        (DotsGivenOnce xs ↔ ¬ SharesDots xs) := by
  have htype := readsTypes_typeUpTo n
  simp only [Parser.parameters, bind_eq_ok, Prod.exists, pure_eq_ok, Prod.mk.injEq, expect_eq_ok]
  constructor
  · rintro ⟨_, us, ⟨start, stop, rfl⟩, es, us', hes, _, _, ⟨start', stop', rfl⟩, _, _, hresolve,
      ⟨rfl, rfl⟩, rfl⟩
    obtain ⟨xs, hxs, hxes⟩ := Listed.exists_of_rounds htype hes
    obtain ⟨hgrouped, hdots, hvariadic⟩ := (resolve_eq_ok hxes).1 hresolve
    exact ⟨start, stop, us, xs, rfl, hxs, hgrouped, hgrouped.length_eq, hdots, hvariadic,
      dotsGivenOnce_iff hgrouped hdots⟩
  · rintro ⟨start, stop, us, xs, rfl, hxs, hgrouped, -, hdots, hvariadic, -⟩
    obtain ⟨es, start', stop', hes, hxes⟩ := hxs.rounds htype le_rfl
    exact ⟨(), us, ⟨start, stop, rfl⟩, es, _, hes, (), rest, ⟨start', stop', rfl⟩, ds, variadic,
      (resolve_eq_ok hxes).2 ⟨hgrouped, hdots, hvariadic⟩, ⟨rfl, rfl⟩, rfl⟩

/-- In `(a, b ...int)` two names share the type after the dots, and the list is accepted. -/
theorem parameters_share_dots :
    let xs : List ListElement := [.lone "a", .typed (some "b") true (.simple "int")]
    let ts : List Placed := [⟨.ident "a", 1, 2⟩, ⟨.mark .comma, 2, 3⟩, ⟨.ident "b", 4, 5⟩,
      ⟨.mark .ellipsis, 6, 9⟩, ⟨.ident "int", 9, 12⟩, ⟨.mark .rparen, 12, 13⟩]
    Listed (Parser.typeUpTo nestingLimit) xs ts [] ∧ SharesDots xs ∧ ¬ DotsGivenOnce xs ∧
      Parser.parameters (Parser.typeUpTo nestingLimit) (⟨.mark .lparen, 0, 1⟩ :: ts) =
        .ok (([.simple "int", .simple "int"], true), []) := by
  refine ⟨.cons (.lone rfl rfl) (.last (.namedDots rfl)), ⟨[], "a", "b", _, rfl⟩, ?_, rfl⟩
  intro honce
  have htwo := honce [⟨["a"], "b", true, .simple "int"⟩] rfl _ (List.mem_singleton_self _) rfl
  exact absurd htwo (by decide)

end Conformance

import Conformance.Grammar.ParameterList
import Conformance.Proofs.Grammar.Spelling
import Conformance.Proofs.Grammar.Yield

/-!
What a parser does on given tokens. `Reads p xs ok post ys` says that `p` reads the tokens `xs` and
leaves `ys` if `ok`, and refuses them if not, whatever their positions.
-/

namespace Conformance

namespace Parser

def tokens (ts : List Placed) : List Token := ts.map (·.token)

/-- On these tokens the parser gives a value with `post` and leaves `ys`, unless it has to refuse. -/
def Reads {α : Type} (p : Parser α) (xs : List Token) (ok : Prop) (post : α → Prop)
    (ys : List Token) : Prop :=
  ∀ ts, tokens ts = xs →
    (ok → ∃ a rest, p ts = .ok (a, rest) ∧ post a ∧ tokens rest = ys) ∧
      (¬ ok → ∃ f, p ts = .error f)

variable {α β : Type} {p q : Parser α} {xs ys zs : List Token} {ok ok' : Prop}
  {post : α → Prop} {post' : β → Prop}

theorem Reads.congr (h : Reads p xs ok post ys) (hok : ok ↔ ok')
    {post' : α → Prop} (hpost : ∀ a, post a → post' a) : Reads p xs ok' post' ys := by
  intro ts hts
  obtain ⟨hread, hrefuse⟩ := h ts hts
  refine ⟨fun h ↦ ?_, fun h ↦ hrefuse fun hn ↦ h (hok.1 hn)⟩
  obtain ⟨a, rest, ha, hp, hr⟩ := hread (hok.2 h)
  exact ⟨a, rest, ha, hpost a hp, hr⟩

theorem Reads.of_eq (h : ∀ ts, tokens ts = xs → p ts = q ts) (hq : Reads q xs ok post ys) :
    Reads p xs ok post ys := by
  intro ts hts
  rw [h ts hts]
  exact hq ts hts

theorem Reads.pure {a : α} (h : post a) :
    Reads (fun ts ↦ (Pure.pure (a, ts) : Except Fault _)) xs True post xs :=
  fun ts hts ↦ ⟨fun _ ↦ ⟨a, ts, rfl, h, hts⟩, fun hn ↦ absurd trivial hn⟩

theorem Reads.pure_self (a : α) :
    Reads (fun ts ↦ (Pure.pure (a, ts) : Except Fault _)) xs True (· = a) xs :=
  Reads.pure rfl

theorem Reads.cons {t : Token}
    (h : ∀ start stop, Reads (fun ts ↦ p (⟨t, start, stop⟩ :: ts)) xs ok post ys) :
    Reads p (t :: xs) ok post ys := by
  intro ts hts
  obtain ⟨⟨t', start, stop⟩, ts, rfl, rfl, hrest⟩ := List.map_eq_cons_iff.1 hts
  exact h start stop ts hrest

theorem Reads.of_nil {a : α} (h : p [] = .ok (a, [])) : Reads p [] True (· = a) [] := by
  intro ts hts
  obtain rfl := List.map_eq_nil_iff.1 hts
  exact ⟨fun _ ↦ ⟨a, [], h, rfl, rfl⟩, fun hn ↦ absurd trivial hn⟩

theorem Reads.bind {g : α × List Placed → Except Fault (β × List Placed)}
    (hp : Reads p xs ok post ys)
    (hg : ∀ a, post a → Reads (fun ts ↦ g (a, ts)) ys ok' post' zs) :
    Reads (fun ts ↦ p ts >>= g) xs (ok ∧ ok') post' zs := by
  intro ts hts
  obtain ⟨hread, hrefuse⟩ := hp ts hts
  by_cases hok : ok
  · obtain ⟨a, rest, ha, hpost, hrest⟩ := hread hok
    obtain ⟨hread', hrefuse'⟩ := hg a hpost rest hrest
    have hrun : (fun ts ↦ p ts >>= g) ts = g (a, rest) := by
      simp only [ha]
      rfl
    rw [hrun]
    exact ⟨fun h ↦ hread' h.2, fun h ↦ hrefuse' fun h' ↦ h ⟨hok, h'⟩⟩
  · obtain ⟨f, hf⟩ := hrefuse hok
    refine ⟨fun h ↦ absurd h.1 hok, fun _ ↦ ⟨f, ?_⟩⟩
    simp only [hf]
    rfl

theorem Reads.then {g : α × List Placed → Except Fault (β × List Placed)}
    (hp : Reads p xs ok post ys)
    (hg : ∀ a, post a → Reads (fun ts ↦ g (a, ts)) ys True post' zs) :
    Reads (fun ts ↦ p ts >>= g) xs ok post' zs :=
  (hp.bind hg).congr (and_iff_left trivial) fun _ h ↦ h

theorem Reads.after {g : α × List Placed → Except Fault (β × List Placed)}
    (hp : Reads p xs True post ys)
    (hg : ∀ a, post a → Reads (fun ts ↦ g (a, ts)) ys ok' post' zs) :
    Reads (fun ts ↦ p ts >>= g) xs ok' post' zs :=
  (hp.bind hg).congr (and_iff_right trivial) fun _ h ↦ h

theorem reads_expect (m : Mark) : Reads (expect m) (.mark m :: xs) True (fun _ ↦ True) xs := by
  refine Reads.cons fun start stop ts hts ↦ ⟨fun _ ↦ ?_, fun hn ↦ absurd trivial hn⟩
  refine ⟨(), ts, ?_, trivial, hts⟩
  simp [expect]

theorem reads_identifier (name : String) :
    Reads identifier (.ident name :: xs) True (· = name) xs :=
  Reads.cons fun _ _ ts hts ↦ ⟨fun _ ↦ ⟨name, ts, rfl, rfl, hts⟩, fun hn ↦ absurd trivial hn⟩

theorem startsWith_iff {m : Mark} {ts : List Placed} :
    startsWith m ts ↔ (tokens ts).head? = some (.mark m) := by
  cases ts <;> simp [startsWith, tokens]

theorem tokens_length {ts : List Placed} (h : tokens ts = xs) : ts.length = xs.length := by
  rw [← h, tokens, List.length_map]

section

variable {round : Parser (List α × Bool)} {γ : Type}

theorem reads_rounds {post : List α → Prop}
    (h : Reads (roundsUpTo round (xs.length + 1)) xs ok post ys) : Reads (rounds round) xs ok post ys := by
  intro ts hts
  have h := h ts hts
  rwa [← tokens_length hts] at h

theorem Reads.lastRound {n : Nat} {post : List α → Prop}
    (h : Reads round xs ok (fun r ↦ r.2 = false ∧ post r.1) ys) :
    Reads (roundsUpTo round (n + 1)) xs ok post ys := by
  refine h.then fun (as, more) ⟨hmore, hpost⟩ ↦ ?_
  obtain rfl : more = false := hmore
  exact Reads.pure hpost

theorem Reads.oneRound {n : Nat} {post : List α → Prop} {first : α → Prop}
    {post' : List α → Prop} (hround : Reads round xs ok (fun r ↦ ∃ a, r = ([a], true) ∧ first a) ys)
    (hrest : Reads (roundsUpTo round n) ys ok' post zs)
    (hpost : ∀ a as, first a → post as → post' (a :: as)) :
    Reads (roundsUpTo round (n + 1)) xs (ok ∧ ok') post' zs := by
  refine hround.bind fun _ ⟨a, hr, hfirst⟩ ↦ ?_
  obtain rfl := hr
  refine hrest.then fun as has ↦ ?_
  exact Reads.pure (hpost a as hfirst has)

theorem length_le_joinTokens (sep : Mark) {items : List (List Token)} (h : ∀ xs ∈ items, xs ≠ []) :
    items.length ≤ (joinTokens sep items).length := by
  induction items with
  | nil => exact le_rfl
  | cons xs items ih =>
    have hxs := List.length_pos_iff.2 (h xs List.mem_cons_self)
    have ih := ih fun ys hys ↦ h ys (List.mem_cons_of_mem _ hys)
    cases items with
    | nil => simpa [joinTokens] using Nat.succ_le_of_lt hxs
    | cons ys items =>
      simp only [joinTokens, List.length_append, List.length_cons] at ih ⊢
      omega

/-- Rounds over elements with separators: a round reads an element and its separator, and the last
rounds read the last element and what ends the list. -/
theorem reads_joined {sep : Mark} {tok : γ → List Token} (ok : γ → Prop) (post : γ → α → Prop)
    {ends : List Token} {items : List γ} (hne : items ≠ [])
    (hmore : ∀ x ∈ items, ∀ ys, Reads round (tok x ++ .mark sep :: ys) (ok x)
      (fun r ↦ ∃ a, r = ([a], true) ∧ post x a) ys)
    (hlast : ∀ x ∈ items, ∀ n, Reads (roundsUpTo round (n + 2)) (tok x ++ ends) (ok x)
      (fun as ↦ ∃ a, as = [a] ∧ post x a) zs) (n : Nat) :
    Reads (roundsUpTo round (items.length + n + 1)) (joinTokens sep (items.map tok) ++ ends)
      (∀ x ∈ items, ok x) (List.Forall₂ post items) zs := by
  induction items with
  | nil => exact absurd rfl hne
  | cons x items ih =>
    cases items with
    | nil =>
      have h := hlast x List.mem_cons_self n
      rw [Nat.add_comm n 2] at h
      have hlen : [x].length + n + 1 = 2 + n := by
        rw [List.length_singleton]
        omega
      rw [hlen]
      refine h.congr (by simp) ?_
      rintro _ ⟨a, rfl, ha⟩
      exact .cons ha .nil
    | cons y items =>
      have ih := ih (List.cons_ne_nil _ _) (fun z hz ↦ hmore z (List.mem_cons_of_mem _ hz))
        (fun z hz ↦ hlast z (List.mem_cons_of_mem _ hz))
      have hlen : (x :: y :: items).length + n + 1 = (y :: items).length + n + 1 + 1 := by
        simp only [List.length_cons]
        omega
      rw [hlen]
      simp only [List.map_cons, joinTokens, List.append_assoc, List.cons_append] at ih ⊢
      refine (Reads.oneRound (hmore x List.mem_cons_self _) ih fun a as ha has ↦ .cons ha has).congr ?_
        fun _ h ↦ h
      exact List.forall_mem_cons.symm

theorem reads_rounds_joined {sep : Mark} {tok : γ → List Token} (ok : γ → Prop)
    (post : γ → α → Prop) {ends : List Token} {items : List γ} (hne : items ≠ [])
    (htok : ∀ x ∈ items, tok x ≠ [])
    (hmore : ∀ x ∈ items, ∀ ys, Reads round (tok x ++ .mark sep :: ys) (ok x)
      (fun r ↦ ∃ a, r = ([a], true) ∧ post x a) ys)
    (hlast : ∀ x ∈ items, ∀ n, Reads (roundsUpTo round (n + 2)) (tok x ++ ends) (ok x)
      (fun as ↦ ∃ a, as = [a] ∧ post x a) zs) :
    Reads (rounds round) (joinTokens sep (items.map tok) ++ ends) (∀ x ∈ items, ok x)
      (List.Forall₂ post items) zs := by
  have hlen : items.length ≤ (joinTokens sep (items.map tok)).length := by
    have h := length_le_joinTokens sep (List.forall_mem_map.2 htok)
    rwa [List.length_map] at h
  refine reads_rounds ?_
  have h := reads_joined ok post hne hmore hlast
    ((joinTokens sep (items.map tok) ++ ends).length - items.length)
  rw [List.length_append] at h ⊢
  rwa [Nat.add_sub_cancel' (by omega)] at h

end

/-- A type ends here: nothing that goes on with it comes next. -/
def Follows (xs : List Token) : Prop :=
  ∀ t ∈ xs.head?, t ∈ [.mark .comma, .mark .semi, .mark .rparen, .mark .rbracket, .mark .rbrace]

theorem follows_nil : Follows [] := nofun

def namesTokens : List Token → Bool
  | [] => false
  | .mark .dot :: _ => false
  | .mark .lbracket :: .mark .rbracket :: _ | .mark .lbracket :: .int _ :: _ => true
  | .mark .lbracket :: _ => false
  | t :: _ => t.startsType

theorem namesElement_eq (ts : List Placed) : namesElement ts = namesTokens (tokens ts) := by
  match ts with
  | [] => rfl
  | [⟨t, _, _⟩] =>
    cases t with
    | mark m => cases m <;> rfl
    | _ => rfl
  | ⟨t, _, _⟩ :: ⟨u, _, _⟩ :: ts =>
    cases t with
    | mark m =>
      cases m with
      | lbracket =>
        cases u with
        | mark m => cases m <;> rfl
        | _ => rfl
      | _ => rfl
    | _ => rfl

theorem nameTokens_cases (name : String) :
    ∃ first, nameTokens name = [.ident first] ∨
      ∃ member, nameTokens name = [.ident first, .mark .dot, .ident member] := by
  unfold nameTokens
  split
  · exact ⟨_, .inl rfl⟩
  · exact ⟨_, .inr ⟨_, rfl⟩⟩

/-- Every type begins with a token that can begin one, and never with a parenthesis. -/
theorem tokens_eq_cons (d : Descriptor) :
    ∃ t xs, d.tokens = t :: xs ∧ t.startsType ∧ t ≠ .mark .lparen := by
  cases d with
  | named name args =>
    cases args with
    | nil =>
      rw [Descriptor.tokens]
      obtain ⟨first, h | ⟨member, h⟩⟩ := nameTokens_cases name <;> rw [h]
      · exact ⟨_, _, rfl, rfl, by simp⟩
      · exact ⟨_, _, rfl, rfl, by simp⟩
    | cons a as =>
      rw [Descriptor.tokens]
      obtain ⟨first, h | ⟨member, h⟩⟩ := nameTokens_cases name <;> rw [h]
      · exact ⟨_, _, rfl, rfl, by simp⟩
      · exact ⟨_, _, rfl, rfl, by simp⟩
  | param name owner =>
    rw [Descriptor.tokens]
    obtain ⟨first, h | ⟨member, h⟩⟩ := nameTokens_cases name <;> rw [h]
    · exact ⟨_, _, rfl, rfl, by simp⟩
    · exact ⟨_, _, rfl, rfl, by simp⟩
  | chan dir e => cases dir <;> exact ⟨_, _, rfl, rfl, by decide⟩
  | _ => exact ⟨_, _, rfl, rfl, by decide⟩

theorem namesTokens_of_follows (h : Follows xs) : namesTokens xs = false := by
  cases xs with
  | nil => rfl
  | cons t xs =>
    have ht := h t rfl
    simp only [List.mem_cons, List.not_mem_nil, or_false] at ht
    rcases ht with rfl | rfl | rfl | rfl | rfl <;> rfl

theorem namesTokens_tokens (d : Descriptor) (ys : List Token) : namesTokens (d.tokens ++ ys) := by
  cases d with
  | slice e => rfl
  | array len e => rfl
  | named name args =>
    have hname (zs : List Token) : namesTokens (nameTokens name ++ zs) := by
      obtain ⟨first, h | ⟨member, h⟩⟩ := nameTokens_cases name <;> rw [h] <;> rfl
    cases args <;> simp only [Descriptor.tokens, List.append_assoc, hname]
  | param name owner =>
    obtain ⟨first, h | ⟨member, h⟩⟩ := nameTokens_cases name <;> rw [Descriptor.tokens, h] <;> rfl
  | chan dir e => cases dir <;> rfl
  | _ => rfl

theorem joinTokens_cons (sep : Mark) (xs : List Token) (rest : List (List Token)) :
    ∃ zs, joinTokens sep (xs :: rest) = xs ++ zs := by
  cases rest with
  | nil => exact ⟨[], (List.append_nil xs).symm⟩
  | cons ys rest => exact ⟨_, rfl⟩

theorem tokens_named (name : String) (args : List Descriptor) (hys : Follows ys) :
    ∃ first xs, (Descriptor.named name args).tokens ++ ys = .ident first :: xs ∧
      namesTokens xs = false ∧ ∀ t ∈ xs.head?, t = .mark .dot ∨ t = .mark .lbracket ∨ t ∈ ys.head? := by
  have hargs (a : Descriptor) (as : List Descriptor) :
      namesTokens (.mark .lbracket :: (joinTokens .comma (a.tokens :: allTokens as) ++
        [.mark .rbracket] ++ ys)) = false := by
    obtain ⟨zs, hzs⟩ := joinTokens_cons .comma a.tokens (allTokens as)
    obtain ⟨t, xs, hxs, ht, -⟩ := tokens_eq_cons a
    rw [hzs, hxs]
    cases t with
    | mark m => cases m <;> first | rfl | exact absurd ht (by decide)
    | ident s => rfl
    | _ => cases ht
  obtain ⟨first, h | ⟨member, h⟩⟩ := nameTokens_cases name
  · cases args with
    | nil =>
      rw [Descriptor.tokens, h]
      exact ⟨first, ys, rfl, namesTokens_of_follows hys, fun t ht ↦ .inr (.inr ht)⟩
    | cons a as =>
      rw [Descriptor.tokens, h]
      refine ⟨first, _, rfl, hargs a as, ?_⟩
      rintro t ⟨⟩
      exact .inr (.inl rfl)
  · obtain ⟨zs, hzs⟩ : ∃ zs, (Descriptor.named name args).tokens = nameTokens name ++ zs := by
      cases args with
      | nil => exact ⟨[], (List.append_nil _).symm⟩
      | cons a as =>
        rw [Descriptor.tokens, List.append_assoc]
        exact ⟨_, rfl⟩
    rw [hzs, h]
    refine ⟨first, _, rfl, rfl, ?_⟩
    rintro t ⟨⟩
    exact .inl rfl

theorem tokens_mark {d : Descriptor} (hd : d.RegularLevel) (h : ∀ name args, d ≠ .named name args) :
    ∃ m xs, d.tokens = .mark m :: xs ∧ m.startsType ∧ m ≠ .lparen := by
  cases d with
  | named name args => exact absurd rfl (h name args)
  | param name owner => exact hd.elim
  | chan dir e => cases dir <;> exact ⟨_, _, rfl, rfl, by decide⟩
  | _ => exact ⟨_, _, rfl, rfl, by decide⟩

theorem tokens_ident {d : Descriptor} (hd : d.RegularLevel) (hys : Follows ys) {name : String}
    (h : d.tokens ++ ys = .ident name :: xs) :
    (∃ n args, d = .named n args) ∧ namesTokens xs = false ∧
      ∀ t ∈ xs.head?, t = .mark .dot ∨ t = .mark .lbracket ∨ t ∈ ys.head? := by
  by_cases hnamed : ∃ n args, d = .named n args
  · refine ⟨hnamed, ?_⟩
    obtain ⟨n, args, rfl⟩ := hnamed
    obtain ⟨first, zs, hzs, hnames, hhead⟩ := tokens_named n args hys
    obtain ⟨-, rfl⟩ := List.cons.inj (hzs.symm.trans h)
    exact ⟨hnames, hhead⟩
  · obtain ⟨m, zs, hzs, -⟩ := tokens_mark hd fun n args he ↦ hnamed ⟨n, args, he⟩
    rw [hzs] at h
    cases h

/-- The parameters, the last of them marked if the list is variadic. -/
def flagged (variadic : Bool) : List Descriptor → List (Bool × Descriptor)
  | [] => []
  | [d] => [(variadic, d)]
  | d :: e :: ds => (false, d) :: flagged variadic (e :: ds)

def parameterTokens (x : Bool × Descriptor) : List Token :=
  if x.1 then .mark .ellipsis :: x.2.tokens else x.2.tokens

theorem variadicTokens_eq (variadic : Bool) (ds : List Descriptor) :
    variadicTokens variadic (allTokens ds) = (flagged variadic ds).map parameterTokens := by
  induction ds with
  | nil => rfl
  | cons d ds ih =>
    cases ds with
    | nil => rfl
    | cons e ds =>
      simp only [allTokens, variadicTokens, flagged, List.map_cons] at ih ⊢
      rw [ih]
      rfl

theorem map_snd_flagged (variadic : Bool) (ds : List Descriptor) :
    (flagged variadic ds).map (·.2) = ds := by
  induction ds with
  | nil => rfl
  | cons d ds ih =>
    cases ds with
    | nil => rfl
    | cons e ds => rw [flagged, List.map_cons, ih]

theorem forall_mem_flagged (variadic : Bool) {ds : List Descriptor} {P : Descriptor → Prop} :
    (∀ x ∈ flagged variadic ds, P x.2) ↔ ∀ d ∈ ds, P d := by
  conv_rhs => rw [← map_snd_flagged variadic ds]
  exact List.forall_mem_map.symm

def IsEntryFor (x : Bool × Descriptor) (e : Entry) : Prop :=
  e.type = x.2 ∧ e.naming ≠ .named ∧ e.variadic = x.1

theorem flagged_ne_nil {variadic : Bool} {d : Descriptor} {ds : List Descriptor} :
    flagged variadic (d :: ds) ≠ [] := by
  cases ds <;> exact List.cons_ne_nil _ _

theorem misplacedVariadic?_flagged {variadic : Bool} {ds : List Descriptor} {es : List Entry}
    (h : List.Forall₂ (fun x e ↦ e.variadic = x.1) (flagged variadic ds) es) :
    Entry.misplacedVariadic? es = none := by
  induction ds generalizing es with
  | nil =>
    cases h
    rfl
  | cons d ds ih =>
    cases ds with
    | nil =>
      obtain ⟨e, _, he, ⟨⟩, rfl⟩ := List.forall₂_cons_left_iff.1 h
      rfl
    | cons d' ds =>
      obtain ⟨e, es, he, hes, rfl⟩ := List.forall₂_cons_left_iff.1 h
      cases es with
      | nil => exact absurd (List.forall₂_nil_right_iff.1 hes) flagged_ne_nil
      | cons e' es =>
        rw [Entry.misplacedVariadic?, he]
        exact ih hes

theorem lastIsVariadic_flagged {variadic : Bool} {ds : List Descriptor} {es : List Entry}
    (h : List.Forall₂ (fun x e ↦ e.variadic = x.1) (flagged variadic ds) es)
    (hne : variadic → ds ≠ []) :
    Entry.lastIsVariadic es = variadic := by
  induction ds generalizing es with
  | nil =>
    cases h
    cases variadic with
    | false => rfl
    | true => exact absurd rfl (hne rfl)
  | cons d ds ih =>
    cases ds with
    | nil =>
      obtain ⟨e, _, he, ⟨⟩, rfl⟩ := List.forall₂_cons_left_iff.1 h
      exact he
    | cons d' ds =>
      obtain ⟨e, es, he, hes, rfl⟩ := List.forall₂_cons_left_iff.1 h
      have hlast := ih hes fun _ ↦ List.cons_ne_nil _ _
      cases es with
      | nil => exact absurd (List.forall₂_nil_right_iff.1 hes) flagged_ne_nil
      | cons e' es => rwa [Entry.lastIsVariadic, List.getLast?_cons_cons]

theorem types_of_isEntryFor {items : List (Bool × Descriptor)} {es : List Entry}
    (h : List.Forall₂ IsEntryFor items es) :
    es.map (·.type) = items.map (·.2) ∧ es.any (·.naming == .named) = false := by
  induction h with
  | nil => exact ⟨rfl, rfl⟩
  | cons he _ ih =>
    obtain ⟨htype, hnaming, -⟩ := he
    rw [List.map_cons, List.map_cons, List.any_cons, ih.1, ih.2, htype, Bool.or_false]
    exact ⟨rfl, beq_eq_false_iff_ne.2 hnaming⟩

theorem resolve_flagged {variadic : Bool} {ds : List Descriptor} {es : List Entry}
    (h : List.Forall₂ IsEntryFor (flagged variadic ds) es) (hne : variadic → ds ≠ []) :
    Entry.resolve es = .ok (ds, variadic) := by
  obtain ⟨htypes, hunnamed⟩ := types_of_isEntryFor h
  have hflags := h.imp fun _ _ he ↦ he.2.2
  rw [map_snd_flagged] at htypes
  rw [Entry.resolve, misplacedVariadic?_flagged hflags]
  simp only [hunnamed, htypes, lastIsVariadic_flagged hflags hne]
  rfl

/-- What an entry needs of the type it holds: that it is read where a type ends. -/
def ReadsType (type : Parser Descriptor) (ok : Descriptor → Prop) (d : Descriptor) : Prop :=
  ∀ ys, Follows ys → Reads type (d.tokens ++ ys) (ok d) (· = d) ys

variable {type : Parser Descriptor} {readable : Descriptor → Prop}

theorem entry_of_unnamed (type : Parser Descriptor) {ts : List Placed}
    (hdots : (tokens ts).head? ≠ some (.mark .ellipsis))
    (hname : ∀ name xs, tokens ts = .ident name :: xs →
      namesTokens xs = false ∧ xs.head? ≠ some (.mark .ellipsis)) :
    ∃ naming, naming ≠ .named ∧ entry type ts =
      type ts >>= fun x ↦ Pure.pure (⟨x.1, naming, false, position ts⟩, x.2) := by
  unfold entry
  split
  · exact absurd rfl hdots
  · exact absurd rfl (hname _ _ rfl).2
  · rename_i name start stop rest hrest
    have hnames : namesElement rest = false := by
      rw [namesElement_eq]
      exact (hname name _ rfl).1
    simp only [hnames]
    refine ⟨_, ?_, rfl⟩
    split <;> nofun
  · exact ⟨.unnamed, nofun, rfl⟩

theorem entry_of_named (type : Parser Descriptor) {name : String} {start stop : Nat}
    {ts : List Placed} (h : namesElement ts) : entry type (⟨.ident name, start, stop⟩ :: ts) =
      type ts >>= fun x ↦ Pure.pure (⟨x.1, .named, false, some start⟩, x.2) := by
  have hdots {start stop : Nat} {rest : List Placed} :
      ts ≠ ⟨.mark .ellipsis, start, stop⟩ :: rest := by
    rintro rfl
    cases h
  unfold entry
  split
  · rename_i heq
    cases heq
  · rename_i heq
    exact absurd (List.cons.inj heq).2 hdots
  · rename_i heq
    cases heq
    simp only [h]
    rfl
  · rename_i hne
    exact absurd rfl (hne _ _ _ _)

theorem reads_entryOf {d : Descriptor} {naming : Naming} {variadic : Bool} {position : Option Nat}
    (hnaming : naming ≠ .named) : ∀ a, a = d →
      Reads (fun ts ↦ (Pure.pure (⟨a, naming, variadic, position⟩, ts) : Except Fault _)) ys True
        (IsEntryFor (variadic, d)) ys :=
  fun _ ha ↦ Reads.pure ⟨ha, hnaming, rfl⟩

theorem head?_tokens_ne {d : Descriptor} {m : Mark} (hm : m.startsType = false ∨ m = .lparen)
    (ys : List Token) : (d.tokens ++ ys).head? ≠ some (.mark m) := by
  obtain ⟨t, xs, ht, hstarts, hparen⟩ := tokens_eq_cons d
  rw [ht]
  rintro ⟨⟩
  rcases hm with hm | rfl
  · rw [Token.startsType, hm] at hstarts
    cases hstarts
  · exact hparen rfl

theorem reads_entry {d : Descriptor} (hd : d.RegularLevel) (h : ReadsType type readable d)
    (hys : Follows ys) : Reads (entry type) (d.tokens ++ ys) (readable d) (IsEntryFor (false, d)) ys := by
  intro ts hts
  have hdots : (tokens ts).head? ≠ some (.mark .ellipsis) := by
    rw [hts]
    exact head?_tokens_ne (.inl rfl) ys
  have hname : ∀ name xs, tokens ts = .ident name :: xs →
      namesTokens xs = false ∧ xs.head? ≠ some (.mark .ellipsis) := by
    intro name xs hxs
    obtain ⟨-, hnames, hhead⟩ := tokens_ident hd hys (hts ▸ hxs)
    refine ⟨hnames, fun he ↦ ?_⟩
    rcases hhead _ he with ⟨⟨⟩⟩ | ⟨⟨⟩⟩ | hy
    exact absurd (hys _ hy) (by decide)
  obtain ⟨naming, hnaming, he⟩ := entry_of_unnamed type hdots hname
  rw [he]
  exact (h ys hys).then (reads_entryOf hnaming) ts hts

theorem reads_entry_variadic {d : Descriptor} (h : ReadsType type readable d) (hys : Follows ys) :
    Reads (entry type) (.mark .ellipsis :: d.tokens ++ ys) (readable d) (IsEntryFor (true, d)) ys := by
  rw [List.cons_append]
  refine Reads.cons fun start stop ↦ ?_
  have hnaming : Naming.unnamed ≠ .named := by decide
  show Reads (fun ts ↦ type ts >>= fun x ↦
    Pure.pure ((⟨x.1, .unnamed, true, some start⟩ : Entry), x.2)) _ _ _ _
  exact (h ys hys).then (reads_entryOf hnaming)

theorem parameterTokens_eq_cons (x : Bool × Descriptor) :
    ∃ t xs, parameterTokens x = t :: xs ∧ t ≠ .mark .rparen := by
  obtain ⟨_ | _, d⟩ := x
  · obtain ⟨t, xs, ht, hstarts, -⟩ := tokens_eq_cons d
    refine ⟨t, xs, ht, ?_⟩
    rintro rfl
    cases hstarts
  · exact ⟨_, _, rfl, by decide⟩

theorem reads_parameter {x : Bool × Descriptor} (hd : x.2.RegularLevel)
    (h : ReadsType type readable x.2) (hys : Follows ys) :
    Reads (entry type) (parameterTokens x ++ ys) (readable x.2) (IsEntryFor x) ys := by
  obtain ⟨_ | _, d⟩ := x
  · exact reads_entry hd h hys
  · exact reads_entry_variadic h hys

theorem follows_mark {m : Mark} (hm : m ∈ [.comma, .semi, .rparen, .rbracket, .rbrace])
    (xs : List Token) : Follows (.mark m :: xs) := by
  rintro t ⟨⟩
  simp only [List.mem_cons, List.not_mem_nil, or_false] at hm ⊢
  rcases hm with rfl | rfl | rfl | rfl | rfl <;> simp

def entryRound (type : Parser Descriptor) : Parser (List Entry × Bool) := fun ts ↦
  if ts.isEmpty || startsWith .rparen ts then .ok (([], false), ts)
  else do
    let (e, ts) ← entry type ts
    match ts with
    | ⟨.mark .comma, _, _⟩ :: ts => return (([e], true), ts)
    | ts => return (([e], false), ts)

theorem entryRound_of_head {ts : List Placed} {t : Token} (hts : tokens ts = t :: xs)
    (ht : t ≠ .mark .rparen) : entryRound type ts =
      entry type ts >>= fun (e, ts) ↦
        match ts with
        | ⟨.mark .comma, _, _⟩ :: ts => return (([e], true), ts)
        | ts => return (([e], false), ts) := by
  have hempty : ts.isEmpty = false := by
    cases ts with
    | nil => cases hts
    | cons t ts => rfl
  have hparen : startsWith .rparen ts = false := by
    rw [← Bool.not_eq_true, startsWith_iff, hts]
    rintro ⟨⟩
    exact ht rfl
  rw [entryRound, hempty, hparen]
  rfl

section

variable {γ : Type} {tok : γ → List Token} {ok : γ → Prop} {post : γ → Entry → Prop}
  {items : List γ}

/-- The entries of a list, if each of them is read before what comes after it. -/
theorem reads_entries (hhead : ∀ x ∈ items, ∃ t xs, tok x = t :: xs ∧ t ≠ .mark .rparen)
    (h : ∀ x ∈ items, ∀ m ys, m = .comma ∨ m = .rparen →
      Reads (entry type) (tok x ++ .mark m :: ys) (ok x) (post x) (.mark m :: ys)) :
    Reads (entries type) (joinTokens .comma (items.map tok) ++ .mark .rparen :: ys)
      (∀ x ∈ items, ok x) (List.Forall₂ post items) (.mark .rparen :: ys) := by
  by_cases hne : items = []
  · subst hne
    have hround : Reads (entryRound type) (.mark .rparen :: ys) True
        (fun r ↦ r.2 = false ∧ List.Forall₂ post [] r.1) (.mark .rparen :: ys) := by
      refine Reads.of_eq (fun ts hts ↦ ?_) (Reads.pure (a := ([], false)) ⟨rfl, .nil⟩)
      obtain ⟨⟨_, _, _⟩, ts, rfl, rfl, -⟩ := List.map_eq_cons_iff.1 hts
      rfl
    exact (reads_rounds (Reads.lastRound hround)).congr (by simp) fun _ h ↦ h
  refine reads_rounds_joined ok post hne (fun x hx ↦ ?_) (fun x hx ys ↦ ?_) fun x hx n ↦ ?_
  · obtain ⟨t, xs, ht, -⟩ := hhead x hx
    rw [ht]
    exact List.cons_ne_nil _ _
  · obtain ⟨t, xs, ht, hne⟩ := hhead x hx
    refine Reads.of_eq (fun ts hts ↦ entryRound_of_head (hts.trans (congrArg (· ++ _) ht)) hne) ?_
    refine (h x hx .comma ys (.inl rfl)).then fun e he ↦ Reads.cons fun start stop ↦ ?_
    exact Reads.pure ⟨e, rfl, he⟩
  · obtain ⟨t, xs, ht, hne⟩ := hhead x hx
    refine Reads.lastRound (Reads.of_eq (fun ts hts ↦
      entryRound_of_head (hts.trans (congrArg (· ++ _) ht)) hne) ?_)
    refine (h x hx .rparen ys (.inr rfl)).then fun e he ↦ ?_
    refine Reads.of_eq (fun ts hts ↦ ?_) (Reads.pure (a := ([e], false)) ⟨rfl, e, rfl, he⟩)
    obtain ⟨⟨_, _, _⟩, ts, rfl, rfl, -⟩ := List.map_eq_cons_iff.1 hts
    rfl

theorem reads_parameters_of {value : List Descriptor × Bool}
    (hhead : ∀ x ∈ items, ∃ t xs, tok x = t :: xs ∧ t ≠ .mark .rparen)
    (h : ∀ x ∈ items, ∀ m ys, m = .comma ∨ m = .rparen →
      Reads (entry type) (tok x ++ .mark m :: ys) (ok x) (post x) (.mark m :: ys))
    (hresolve : ∀ es, List.Forall₂ post items es → Entry.resolve es = .ok value) :
    Reads (parameters type) (parenthesizedTokens (items.map tok) ++ ys) (∀ x ∈ items, ok x)
      (· = value) ys := by
  have hparens : parenthesizedTokens (items.map tok) ++ ys =
      .mark .lparen :: (joinTokens .comma (items.map tok) ++ .mark .rparen :: ys) := by
    simp [parenthesizedTokens]
  rw [hparens]
  refine (reads_expect .lparen).after fun _ _ ↦ (reads_entries hhead h).then fun es hes ↦
    (reads_expect .rparen).after fun _ _ ↦ ?_
  refine Reads.of_eq (fun ts _ ↦ ?_) (Reads.pure rfl)
  rw [hresolve es hes]
  rfl

end

theorem reads_parameters (variadic : Bool) {ds : List Descriptor} (hne : variadic → ds ≠ [])
    (hds : ∀ d ∈ ds, d.RegularLevel ∧ ReadsType type readable d) :
    Reads (parameters type) (parenthesizedTokens (variadicTokens variadic (allTokens ds)) ++ ys)
      (∀ d ∈ ds, readable d) (· = (ds, variadic)) ys := by
  have hitems := (forall_mem_flagged variadic).2 hds
  rw [variadicTokens_eq]
  refine (reads_parameters_of (fun x _ ↦ parameterTokens_eq_cons x) (fun x hx m ys hm ↦ ?_)
    fun es hes ↦ resolve_flagged hes hne).congr (forall_mem_flagged variadic) fun _ h ↦ h
  refine reads_parameter (hitems x hx).1 (hitems x hx).2 (follows_mark ?_ ys)
  rcases hm with rfl | rfl <;> decide

theorem variadicTokens_false (items : List (List Token)) : variadicTokens false items = items := by
  induction items with
  | nil => rfl
  | cons xs items ih =>
    cases items with
    | nil => rfl
    | cons ys items => rw [variadicTokens, ih]

theorem reads_results_of_parameters {items : List (List Token)} {ok : Prop} {ds : List Descriptor}
    (h : Reads (parameters type) (parenthesizedTokens items ++ ys) ok (· = (ds, false)) ys) :
    Reads (results type) (parenthesizedTokens items ++ ys) ok (· = ds) ys := by
  intro ts hts
  have hparen : startsWith .lparen ts := by
    rw [startsWith_iff, hts]
    rfl
  have heq : results type ts = parameters type ts >>= fun x ↦
      if x.1.2 then throw ⟨position ts, "results cannot be variadic"⟩ else Pure.pure (x.1.1, x.2) := by
    simp only [results, hparen, if_true]
    rfl
  rw [heq]
  refine h.then (fun a ha ↦ ?_) ts hts
  rw [ha]
  exact Reads.pure rfl

theorem reads_results_parenthesized {ds : List Descriptor}
    (hds : ∀ d ∈ ds, d.RegularLevel ∧ ReadsType type readable d) :
    Reads (results type) (parenthesizedTokens (allTokens ds) ++ ys) (∀ d ∈ ds, readable d)
      (· = ds) ys := by
  refine reads_results_of_parameters ?_
  rw [← variadicTokens_false (allTokens ds)]
  exact reads_parameters false nofun hds

theorem any_head?_startsType (ts : List Placed) :
    ts.head?.any (·.token.startsType) = (tokens ts).head?.any Token.startsType := by
  cases ts <;> rfl

/-- One type that no parenthesis begins is a result by itself. -/
theorem reads_results_single {d : Descriptor} (hys : Follows ys) (hd : ReadsType type readable d) :
    Reads (results type) (d.tokens ++ ys) (readable d) (· = [d]) ys := by
  have heq : ∀ ts, tokens ts = d.tokens ++ ys →
      results type ts = type ts >>= fun x ↦ Pure.pure ([x.1], x.2) := by
    intro ts hts
    have hparen : startsWith .lparen ts = false := by
      rw [← Bool.not_eq_true, startsWith_iff, hts]
      exact head?_tokens_ne (.inr rfl) ys
    have hstart : ts.head?.any (·.token.startsType) = true := by
      obtain ⟨t, xs, ht, hstarts, -⟩ := tokens_eq_cons d
      rw [any_head?_startsType, hts, ht]
      exact hstarts
    simp only [results, hparen, hstart]
    rfl
  refine Reads.of_eq heq ((hd ys hys).then fun a ha ↦ ?_)
  rw [ha]
  exact Reads.pure_self [d]

theorem reads_results {ds : List Descriptor} (hys : Follows ys)
    (hds : ∀ d ∈ ds, d.RegularLevel ∧ ReadsType type readable d) :
    Reads (results type) (resultTokens ds (allTokens ds) ++ ys) (∀ d ∈ ds, readable d) (· = ds) ys := by
  cases ds with
  | nil =>
    have heq : ∀ ts, tokens ts = ys → results type ts = Pure.pure ([], ts) := by
      intro ts hts
      have hparen : startsWith .lparen ts = false := by
        rw [← Bool.not_eq_true, startsWith_iff, hts]
        exact fun he ↦ absurd (hys _ he) (by decide)
      have hstart : ts.head?.any (·.token.startsType) = false := by
        rw [any_head?_startsType, hts, Option.any_eq_false]
        intro t ht
        have ht := hys t ht
        simp only [List.mem_cons, List.not_mem_nil, or_false] at ht
        rcases ht with rfl | rfl | rfl | rfl | rfl <;> decide
      simp only [results, hparen, hstart]
      rfl
    exact (Reads.of_eq heq (Reads.pure_self [])).congr (by simp) fun _ h ↦ h
  | cons d ds =>
    rcases resultsText_cases d ds with ⟨-, htokens⟩ | ⟨rfl, -, htokens⟩ <;> rw [htokens]
    · exact reads_results_parenthesized hds
    · exact (reads_results_single hys (hds d List.mem_cons_self).2).congr (by simp) fun _ h ↦ h

end Parser

end Conformance

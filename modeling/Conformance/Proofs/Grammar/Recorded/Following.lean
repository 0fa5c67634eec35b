import Conformance.Proofs.Grammar.Recorded

namespace Conformance

/-- From the first cursor to the second the types around stay the same, and a limit is kept. -/
structure Cursor.Returns (limit : Option Nat) (c c' : Cursor) : Prop where
  depth : c'.depth = c.depth
  deepest : c.deepest ≤ c'.deepest
  within : ∀ n ∈ limit, c'.deepest ≤ max c.deepest n

namespace Cursor.Returns

variable {limit : Option Nat} {c c' c'' : Cursor}

theorem of_eq (hdepth : c'.depth = c.depth) (hdeepest : c'.deepest = c.deepest) :
    c.Returns limit c' :=
  ⟨hdepth, hdeepest.ge, fun _ _ ↦ hdeepest.le.trans (le_max_left _ _)⟩

theorem trans (h : c.Returns limit c') (h' : c'.Returns limit c'') : c.Returns limit c'' := by
  refine ⟨h'.depth.trans h.depth, h.deepest.trans h'.deepest, fun n hn ↦ ?_⟩
  exact (h'.within n hn).trans (max_le (h.within n hn) (le_max_right _ _))

end Cursor.Returns

namespace Recorded

open Conformance.Parser (tokens)

variable {α β : Type}

theorem bind_apply (m : Recorded α) (f : α → Recorded β) (c : Cursor) :
    (m >>= f) c = match m c with
      | (.ok a, c) => f a c
      | (.error e, c) => (.error e, c) := by
  change (ExceptT.bindCont f (m c).1) (m c).2 = _
  rcases m c with ⟨_ | a, c'⟩ <;> rfl

theorem pass_apply (c : Cursor) : pass c = match c.rest with
    | [] => (.error .refused, c)
    | _ :: ts => (.ok (), { c with rest := ts, steps := c.steps + 1 }) := by
  rcases c with ⟨_ | ⟨t, ts⟩, depth, deepest, steps⟩ <;> rfl

def ofExcept : Except Fault α → Recorded α
  | .ok a => return a
  | .error _ => throw .refused

theorem resolve_apply (es : List Entry) (c : Cursor) : resolve es c =
    ofExcept (Entry.resolve es) { c with steps := c.steps + es.length } := by
  unfold resolve
  cases Entry.resolve es <;> rfl

/-- A recorded run from the tokens `ts` and what a parser that admits `most` types gives there. -/
inductive Agrees (most : Nat) (R : α → β → Prop) (ts : List Placed) :
    Except Stop β × Cursor → Except Fault (α × List Placed) → Prop
  | read {a : α} {b : β} {c : Cursor} {rest : List Placed} (hab : R a b) (hc : c.deepest ≤ most)
      (hrest : c.rest = tokens rest) (hsuffix : rest <:+ ts) :
      Agrees most R ts (.ok b, c) (.ok (a, rest))
  | refused {c : Cursor} {f : Fault} (hc : c.deepest ≤ most) :
      Agrees most R ts (.error .refused, c) (.error f)
  | deeper {result : Except Stop β} {c : Cursor} {f : Fault} (hc : most < c.deepest) :
      Agrees most R ts (result, c) (.error f)
  | exhausted {c : Cursor} {x : Except Fault (α × List Placed)} :
      Agrees most R ts (.error .exhausted, c) x

theorem Agrees.imp {most : Nat} {R S : α → β → Prop} {ts us : List Placed}
    {y : Except Stop β × Cursor} {x : Except Fault (α × List Placed)} (hRS : ∀ a b, R a b → S a b)
    (hts : ts <:+ us) (h : Agrees most R ts y x) : Agrees most S us y x := by
  cases h with
  | read hab hc hrest hsuffix => exact .read (hRS _ _ hab) hc hrest (hsuffix.trans hts)
  | refused hc => exact .refused hc
  | deeper hc => exact .deeper hc
  | exhausted => exact .exhausted

theorem Agrees.of_ok {most : Nat} {R : α → β → Prop} {ts : List Placed} {b : β} {c : Cursor}
    {x : Except Fault (α × List Placed)} (h : Agrees most R ts (.ok b, c) x)
    (hc : c.deepest ≤ most) :
    ∃ a rest, x = .ok (a, rest) ∧ R a b ∧ c.rest = tokens rest ∧ rest <:+ ts := by
  cases h with
  | read hab _ hrest hsuffix => exact ⟨_, _, rfl, hab, hrest, hsuffix⟩
  | deeper hdeeper => exact absurd hc (Nat.not_le.2 hdeeper)

theorem Agrees.of_refused {most : Nat} {R : α → β → Prop} {ts : List Placed} {c : Cursor}
    {x : Except Fault (α × List Placed)} (h : Agrees most R ts (.error .refused, c) x) :
    ∃ f, x = .error f := by
  cases h with
  | refused => exact ⟨_, rfl⟩
  | deeper => exact ⟨_, rfl⟩

/-- The limit of a recorded parser, the number of types that the parser it follows admits, and the
number of types around. -/
structure Level where
  limit : Option Nat
  most : Nat
  depth : Nat

/-- Before the tokens `ts`, the recorded parser agrees with a parser that gives `x`; the values are
related by `R`. -/
def Follows (l : Level) (R : α → β → Prop) (m : Recorded β) (ts : List Placed)
    (x : Except Fault (α × List Placed)) : Prop :=
  ∀ c, c.rest = tokens ts → c.Returns l.limit (m c).2 ∧
    (c.depth = l.depth → c.deepest ≤ l.most → Agrees l.most R ts (m c) x)

namespace Follows

variable {l : Level} {R : α → β → Prop} {m : Recorded β} {ts : List Placed}
  {x : Except Fault (α × List Placed)}

theorem pure {a : α} {b : β} (h : R a b) : Follows l R (Pure.pure b) ts (.ok (a, ts)) :=
  fun _ hts ↦ ⟨.of_eq rfl rfl, fun _ hc ↦ .read h hc hts List.suffix_rfl⟩

theorem refuse {f : Fault} : Follows l R (throw .refused) ts (.error f) :=
  fun _ _ ↦ ⟨.of_eq rfl rfl, fun _ hc ↦ .refused hc⟩

theorem exhaust : Follows l R (throw .exhausted) ts x :=
  fun _ _ ↦ ⟨.of_eq rfl rfl, fun _ _ ↦ .exhausted⟩

theorem ahead {f : List Token → Recorded β} (h : Follows l R (f (tokens ts)) ts x) :
    Follows l R (Recorded.ahead >>= f) ts x := by
  intro c hts
  have hrun : (Recorded.ahead >>= f) c = f (tokens ts) { c with steps := c.steps + 1 } := by
    rw [← hts]
    exact bind_apply _ _ c
  obtain ⟨hreturns, hagrees⟩ := h { c with steps := c.steps + 1 } hts
  rw [hrun]
  exact ⟨⟨hreturns.depth, hreturns.deepest, hreturns.within⟩, hagrees⟩

theorem pass {t : Placed} {f : Unit → Recorded β} (h : Follows l R (f ()) ts x) :
    Follows l R (Recorded.pass >>= f) (t :: ts) x := by
  intro c hts
  have hrun : (Recorded.pass >>= f) c =
      f () { c with rest := tokens ts, steps := c.steps + 1 } := by
    rw [bind_apply, pass_apply, hts]
    rfl
  obtain ⟨hreturns, hagrees⟩ := h { c with rest := tokens ts, steps := c.steps + 1 } rfl
  rw [hrun]
  exact ⟨⟨hreturns.depth, hreturns.deepest, hreturns.within⟩, fun hdepth hdeepest ↦
    (hagrees hdepth hdeepest).imp (fun _ _ ↦ id) (List.suffix_cons t ts)⟩

theorem pass_refuse {f : Fault} :
    Follows l R (Recorded.pass >>= fun _ ↦ throw .refused) ts (.error f) := by
  cases ts with
  | nil =>
    intro c hts
    have hrun : (Recorded.pass >>= fun _ ↦ (throw .refused : Recorded β)) c =
        (.error .refused, c) := by
      rw [bind_apply, pass_apply, hts]
      rfl
    rw [hrun]
    exact ⟨.of_eq rfl rfl, fun _ hc ↦ .refused hc⟩
  | cons t ts => exact pass refuse

theorem mono {S : α → β → Prop} (hRS : ∀ a b, R a b → S a b) (h : Follows l R m ts x) :
    Follows l S m ts x := by
  intro c hts
  obtain ⟨hreturns, hagrees⟩ := h c hts
  exact ⟨hreturns, fun hd hc ↦ (hagrees hd hc).imp hRS List.suffix_rfl⟩

/-- One parser after another. Every value the first recorded parser can give is related to one. -/
theorem bindOf {γ δ : Type} {S : γ → δ → Prop} {f : β → Recorded δ}
    {g : α × List Placed → Except Fault (γ × List Placed)} (hR : ∀ b, ∃ a, R a b)
    (hm : Follows l R m ts x) (hf : ∀ a b rest, R a b → Follows l S (f b) rest (g (a, rest))) :
    Follows l S (m >>= f) ts (x >>= g) := by
  intro c hts
  obtain ⟨hreturns, hagrees⟩ := hm c hts
  rw [bind_apply]
  rcases hrun : m c with ⟨stop | b, c'⟩ <;> rw [hrun] at hreturns hagrees
  · refine ⟨hreturns, fun hd hc ↦ ?_⟩
    cases hagrees hd hc with
    | refused hc => exact .refused hc
    | deeper hc => exact .deeper hc
    | exhausted => exact .exhausted
  · have hplaced : c'.rest = tokens (c'.rest.map (⟨·, 0, 0⟩)) := by
      simp [tokens, Function.comp_def]
    obtain ⟨a, hab⟩ := hR b
    have hreturns' := (hf a b _ hab c' hplaced).1
    refine ⟨hreturns.trans hreturns', fun hd hc ↦ ?_⟩
    cases hagrees hd hc with
    | read hab hc hrest hsuffix =>
      have hagrees := (hf _ b _ hab c' hrest).2 (hreturns.depth.trans hd) hc
      exact hagrees.imp (fun _ _ ↦ id) hsuffix
    | deeper hc => exact .deeper (hc.trans_le hreturns'.deepest)

theorem bind {γ δ : Type} {S : γ → δ → Prop} {m : Recorded α} {f : α → Recorded δ}
    {g : α × List Placed → Except Fault (γ × List Placed)} (hm : Follows l Eq m ts x)
    (hf : ∀ a rest, Follows l S (f a) rest (g (a, rest))) : Follows l S (m >>= f) ts (x >>= g) :=
  bindOf (fun b ↦ ⟨b, rfl⟩) hm <| by
    rintro a _ rest rfl
    exact hf a rest

theorem skip {m : Recorded Unit} {m' : Recorded β} {rest : List Placed} {p : Parser α}
    (hm : Follows l Eq m ts (.ok ((), rest))) (hm' : ∀ ts, Follows l R m' ts (p ts)) :
    Follows l R (m >>= fun _ ↦ m') ts (p rest) :=
  bind (g := fun x ↦ p x.2) hm fun _ ↦ hm'

theorem sees {mark : Mark} {f : Bool → Recorded β}
    (hyes : ∀ start stop rest, ts = ⟨.mark mark, start, stop⟩ :: rest → Follows l R (f true) ts x)
    (hno : (tokens ts).head? ≠ some (.mark mark) → Follows l R (f false) ts x) :
    Follows l R (Recorded.sees mark >>= f) ts x := by
  unfold Recorded.sees
  rw [bind_assoc]
  refine ahead ?_
  simp only [pure_bind]
  by_cases h : (tokens ts).head? = some (.mark mark)
  · rw [beq_iff_eq.2 h]
    rcases ts with _ | ⟨⟨token, start, stop⟩, rest⟩
    · cases h
    · cases h
      exact hyes start stop rest rfl
  · rw [beq_eq_false_iff_ne.2 h]
    exact hno h

theorem eat {mark : Mark} {f : Bool → Recorded β}
    (hyes : ∀ start stop rest, ts = ⟨.mark mark, start, stop⟩ :: rest →
      Follows l R (f true) rest x)
    (hno : (tokens ts).head? ≠ some (.mark mark) → Follows l R (f false) ts x) :
    Follows l R (Recorded.eat mark >>= f) ts x := by
  unfold Recorded.eat
  rw [bind_assoc]
  refine sees (fun start stop rest hts ↦ ?_) fun h ↦ hno h
  subst hts
  simp only [if_true, bind_assoc, pure_bind]
  exact pass (hyes start stop rest rfl)

theorem ifSees {mark : Mark} {m m' : Recorded β} {p : Parser α}
    (hyes : ∀ start stop rest, Follows l R m (⟨.mark mark, start, stop⟩ :: rest)
      (p (⟨.mark mark, start, stop⟩ :: rest)))
    (hno : (tokens ts).head? ≠ some (.mark mark) → Follows l R m' ts (p ts)) :
    Follows l R (do if ← Recorded.sees mark then m else m') ts (p ts) := by
  refine sees (fun start stop rest hts ↦ ?_) hno
  subst hts
  exact hyes start stop rest

theorem ifEats {mark : Mark} {m m' : Recorded β} {p : Parser α}
    (hyes : ∀ start stop rest, Follows l R m rest (p (⟨.mark mark, start, stop⟩ :: rest)))
    (hno : (tokens ts).head? ≠ some (.mark mark) → Follows l R m' ts (p ts)) :
    Follows l R (do if ← Recorded.eat mark then m else m') ts (p ts) := by
  refine eat (fun start stop rest hts ↦ ?_) hno
  subst hts
  exact hyes start stop rest

theorem expect {mark : Mark} : Follows l Eq (Recorded.expect mark) ts (Parser.expect mark ts) := by
  refine ifEats (fun start stop rest ↦ ?_) fun h ↦ ?_
  · rw [Parser.expect, if_pos rfl]
    exact pure rfl
  · unfold Parser.expect
    split
    · rename_i n start stop rest
      have hn : n ≠ mark := fun he ↦ h (he ▸ rfl)
      rw [if_neg hn]
      exact refuse
    · exact refuse

theorem identifier : Follows l Eq Recorded.identifier ts (Parser.identifier ts) := by
  refine ahead ?_
  rcases ts with _ | ⟨⟨_ | _ | _ | name, start, stop⟩, ts⟩
  · exact refuse
  · exact refuse
  · exact refuse
  · exact refuse
  · exact pass (pure rfl)

section

variable {γ : Type} {S : List α → List γ → Prop} {round : Recorded (List γ × Bool)}
  {round' : Parser (List α × Bool)}

theorem rounds (happend : ∀ xs ys xs' ys', S xs ys → S xs' ys' → S (xs ++ xs') (ys ++ ys'))
    (hS : ∀ ys, ∃ xs, S xs ys)
    (h : ∀ ts, Follows l (fun x y ↦ S x.1 y.1 ∧ x.2 = y.2) round ts (round' ts))
    (ts : List Placed) :
    Follows l S (Recorded.rounds round) ts (Parser.rounds round' ts) := by
  have hupTo (n : Nat) (ts : List Placed) :
      Follows l S (Recorded.roundsUpTo round n) ts (Parser.roundsUpTo round' n ts) := by
    induction n generalizing ts with
    | zero => exact exhaust
    | succ n ih =>
      refine bindOf (fun ⟨ys, more⟩ ↦ ?_) (h ts) ?_
      · obtain ⟨xs, hxs⟩ := hS ys
        exact ⟨(xs, more), hxs, rfl⟩
      rintro ⟨xs, more⟩ ⟨ys, _⟩ rest ⟨hxs, rfl⟩
      cases more with
      | false => exact pure hxs
      | true => exact bindOf hS (ih rest) fun xs' ys' rest hxs' ↦ pure (happend _ _ _ _ hxs hxs')
  intro c hts
  have hlength : ts.length = c.rest.length := by rw [hts, tokens, List.length_map]
  rw [Parser.rounds, hlength]
  exact hupTo (c.rest.length + 1) ts c hts

end

theorem roundsEq {round : Recorded (List α × Bool)} {round' : Parser (List α × Bool)}
    (h : ∀ ts, Follows l Eq round ts (round' ts)) (ts : List Placed) :
    Follows l Eq (Recorded.rounds round) ts (Parser.rounds round' ts) := by
  refine rounds ?_ (fun ys ↦ ⟨ys, rfl⟩) (fun ts ↦ (h ts).mono ?_) ts
  · rintro _ _ _ _ rfl rfl
    rfl
  · rintro _ _ rfl
    exact ⟨rfl, rfl⟩

end Follows

end Recorded

end Conformance

import Conformance.Grammar.ParameterList
import Conformance.Proofs.Token

namespace Conformance

open Token

namespace Parser

variable {α β : Type} {P : α → Prop} {ts rest : List Placed} {type : Parser Descriptor}

theorem bind_eq_ok {ε : Type} {x : Except ε α} {f : α → Except ε β} {b : β} :
    x >>= f = .ok b ↔ ∃ a, x = .ok a ∧ f a = .ok b := by
  cases x with
  | error e => exact ⟨fun h ↦ (nomatch h), fun ⟨_, ha, _⟩ ↦ (nomatch ha)⟩
  | ok a => exact ⟨fun h ↦ ⟨a, rfl, h⟩, fun ⟨a', ha, h⟩ ↦ Except.ok.inj ha ▸ h⟩

theorem pure_eq_ok {ε : Type} {a b : α} : (pure a : Except ε α) = .ok b ↔ a = b :=
  Except.ok.injEq a b ▸ Iff.rfl

def WellSpelled (ts : List Placed) : Prop := ∀ t ∈ ts, t.token.WellSpelled

@[simp]
theorem wellSpelled_cons {t : Placed} : WellSpelled (t :: ts) ↔ t.token.WellSpelled ∧ WellSpelled ts :=
  List.forall_mem_cons

/-- Everything the parser reads from well spelled tokens has the property. -/
def Yields (p : Parser α) (P : α → Prop) : Prop :=
  ∀ ts a rest, WellSpelled ts → p ts = .ok (a, rest) → P a ∧ WellSpelled rest

theorem Yields.expect (m : Mark) : Yields (expect m) fun _ ↦ True := by
  intro ts a rest hts h
  unfold Parser.expect at h
  split at h
  · split at h
    · cases h
      exact ⟨trivial, (wellSpelled_cons.1 hts).2⟩
    · cases h
  · cases h

theorem Yields.identifier : Yields identifier IsIdentifier := by
  intro ts a rest hts h
  unfold Parser.identifier at h
  split at h
  · cases h
    exact wellSpelled_cons.1 hts
  · cases h

theorem Yields.roundsUpTo {round : Parser (List α × Bool)} (h : Yields round fun x ↦ ∀ a ∈ x.1, P a)
    (n : Nat) : Yields (roundsUpTo round n) fun xs ↦ ∀ a ∈ xs, P a := by
  induction n with
  | zero =>
    intro ts xs rest hts hr
    cases hr
    exact ⟨List.forall_mem_nil _, hts⟩
  | succ n ih =>
    intro ts xs rest hts hr
    simp only [Parser.roundsUpTo, bind_eq_ok, Prod.exists] at hr
    obtain ⟨ys, more, ts', hround, hr⟩ := hr
    obtain ⟨hys, hts'⟩ := h _ _ _ hts hround
    split at hr
    · simp only [bind_eq_ok, Prod.exists, pure_eq_ok, Prod.mk.injEq] at hr
      obtain ⟨zs, ts'', hzs, rfl, rfl⟩ := hr
      obtain ⟨hzs, hts''⟩ := ih _ _ _ hts' hzs
      exact ⟨List.forall_mem_append.2 ⟨hys, hzs⟩, hts''⟩
    · simp only [pure_eq_ok, Prod.mk.injEq] at hr
      obtain ⟨rfl, rfl⟩ := hr
      exact ⟨hys, hts'⟩

theorem Yields.rounds {round : Parser (List α × Bool)} (h : Yields round fun x ↦ ∀ a ∈ x.1, P a) :
    Yields (rounds round) fun xs ↦ ∀ a ∈ xs, P a :=
  fun ts ↦ Yields.roundsUpTo h (ts.length + 1) ts

theorem run_eq_ok_iff {p : Parser α} {text : String} {a : α} :
    p.run text = .ok a ↔ ∃ ts, Token.ofText text = .ok ts ∧ p ts = .ok (a, []) := by
  rw [Parser.run, bind_eq_ok]
  refine exists_congr fun ts ↦ and_congr_right fun _ ↦ ?_
  rcases p ts with f | ⟨a', _ | ⟨t, rest⟩⟩ <;> simp

theorem Yields.run {p : Parser α} (hp : Yields p P) {text : String} {a : α}
    (h : p.run text = .ok a) : P a := by
  obtain ⟨ts, hts, h⟩ := run_eq_ok_iff.1 h
  have hspelled : WellSpelled ts := by
    unfold ofText at hts
    split at hts
    · cases hts
      exact place_wellSpelled (by assumption)
    · cases hts
  exact (hp _ _ _ hspelled h).1

theorem distribute_types {waiting es : List Entry} {types : List Descriptor}
    (h : Entry.distribute waiting es = .ok types) :
    types.length = waiting.length + es.length ∧ ∀ d ∈ types, ∃ e ∈ es, e.type = d := by
  induction es generalizing waiting types with
  | nil =>
    unfold Entry.distribute at h
    split at h
    · cases h
      exact ⟨rfl, List.forall_mem_nil _⟩
    · cases h
  | cons e es ih =>
    unfold Entry.distribute at h
    split at h
    · cases h
    · obtain ⟨hlen, hmem⟩ := ih h
      refine ⟨by simp [hlen]; omega, fun d hd ↦ ?_⟩
      obtain ⟨e', he', hd⟩ := hmem d hd
      exact ⟨e', List.mem_cons_of_mem _ he', hd⟩
    · simp only [bind_eq_ok, pure_eq_ok] at h
      obtain ⟨ds, hds, rfl⟩ := h
      obtain ⟨hlen, hmem⟩ := ih hds
      refine ⟨by simp [hlen]; omega, fun d hd ↦ ?_⟩
      rcases List.mem_append.1 hd with hd | hd
      · exact ⟨e, List.mem_cons_self, (List.eq_of_mem_replicate hd).symm⟩
      · obtain ⟨e', he', hd⟩ := hmem d hd
        exact ⟨e', List.mem_cons_of_mem _ he', hd⟩

theorem resolve_types {es : List Entry} {types : List Descriptor} {variadic : Bool}
    (h : Entry.resolve es = .ok (types, variadic)) :
    (variadic → types ≠ []) ∧ ∀ d ∈ types, ∃ e ∈ es, e.type = d := by
  have hlast : Entry.lastIsVariadic es → es ≠ [] := by
    rintro he rfl
    cases he
  unfold Entry.resolve at h
  split at h
  · cases h
  · split at h
    · simp only [bind_eq_ok, pure_eq_ok, Prod.mk.injEq] at h
      obtain ⟨ds, hds, rfl, rfl⟩ := h
      obtain ⟨hlen, hmem⟩ := distribute_types hds
      refine ⟨fun hv ↦ ?_, hmem⟩
      have hpos := List.length_pos_iff.2 (hlast hv)
      exact List.length_pos_iff.1 (by omega)
    · cases h
      refine ⟨fun hv he ↦ hlast hv (List.map_eq_nil_iff.1 he), fun d hd ↦ List.mem_map.1 hd⟩

section

variable {Q : Descriptor → Prop}

theorem Yields.entry (h : Yields type Q) : Yields (entry type) fun e ↦ Q e.type := by
  have element (naming : Naming) (variadic : Bool) (position : Option Nat) (ts rest : List Placed)
      (e : Entry) (hts : WellSpelled ts)
      (he : type ts >>= (fun x ↦ pure (⟨x.1, naming, variadic, position⟩, x.2)) = .ok (e, rest)) :
      Q e.type ∧ WellSpelled rest := by
    simp only [bind_eq_ok, Prod.exists, pure_eq_ok, Prod.mk.injEq] at he
    obtain ⟨d, ts', hd, rfl, rfl⟩ := he
    exact h _ _ _ hts hd
  intro ts e rest hts he
  unfold Parser.entry at he
  split at he
  · exact element _ _ _ _ _ _ (wellSpelled_cons.1 hts).2 he
  · exact element _ _ _ _ _ _ (wellSpelled_cons.1 (wellSpelled_cons.1 hts).2).2 he
  · split at he
    · exact element _ _ _ _ _ _ (wellSpelled_cons.1 hts).2 he
    · exact element _ _ _ _ _ _ hts he
  · exact element _ _ _ _ _ _ hts he

theorem Yields.parameters (h : Yields type Q) :
    Yields (parameters type) fun x ↦ (x.2 → x.1 ≠ []) ∧ ∀ d ∈ x.1, Q d := by
  have hentries : Yields (entries type) fun es ↦ ∀ e ∈ es, Q e.type := by
    refine Yields.rounds fun ts x rest hts hx ↦ ?_
    split at hx
    · cases hx
      exact ⟨List.forall_mem_nil _, hts⟩
    · simp only [bind_eq_ok, Prod.exists] at hx
      obtain ⟨e, ts', he, hx⟩ := hx
      obtain ⟨hq, hts'⟩ := h.entry _ _ _ hts he
      split at hx
      · cases hx
        exact ⟨by simpa using hq, (wellSpelled_cons.1 hts').2⟩
      · cases hx
        exact ⟨by simpa using hq, hts'⟩
  intro ts x rest hts hx
  simp only [Parser.parameters, bind_eq_ok, Prod.exists, pure_eq_ok, Prod.mk.injEq] at hx
  obtain ⟨_, ts₁, h₁, es, ts₂, h₂, _, ts₃, h₃, types, variadic, hres, rfl, rfl⟩ := hx
  obtain ⟨-, hts₁⟩ := Yields.expect _ _ _ _ hts h₁
  obtain ⟨hes, hts₂⟩ := hentries _ _ _ hts₁ h₂
  obtain ⟨-, hts₃⟩ := Yields.expect _ _ _ _ hts₂ h₃
  obtain ⟨hv, htypes⟩ := resolve_types hres
  refine ⟨⟨hv, fun d hd ↦ ?_⟩, hts₃⟩
  obtain ⟨e, he, rfl⟩ := htypes d hd
  exact hes e he

theorem Yields.results (h : Yields type Q) : Yields (results type) fun ds ↦ ∀ d ∈ ds, Q d := by
  intro ts ds rest hts hx
  unfold Parser.results at hx
  split at hx
  · simp only [bind_eq_ok, Prod.exists] at hx
    obtain ⟨types, variadic, ts', hp, hx⟩ := hx
    obtain ⟨⟨-, hq⟩, hts'⟩ := h.parameters _ _ _ hts hp
    split at hx
    · cases hx
    · cases hx
      exact ⟨hq, hts'⟩
  · split at hx
    · simp only [bind_eq_ok, Prod.exists, pure_eq_ok, Prod.mk.injEq] at hx
      obtain ⟨d, ts', hd, rfl, rfl⟩ := hx
      obtain ⟨hd, hts'⟩ := h _ _ _ hts hd
      exact ⟨by simpa using hd, hts'⟩
    · cases hx
      exact ⟨List.forall_mem_nil _, hts⟩

end

end Parser

end Conformance

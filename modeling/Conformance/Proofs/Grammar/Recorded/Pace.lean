import Conformance.Proofs.Grammar.Recorded.Following

/-!
The pace of recorded parsers. A step is paid for by the tokens that it goes past: each of them pays
for sixteen steps. What a parser has to spend beyond that is at most its cost, which is less than
nothing for a parser that goes past a token; so rounds that each go past one come to an end.
-/

namespace Conformance

/-- From the first cursor to the second only tokens are left out, and no step is undone. -/
structure Cursor.Advances (c c' : Cursor) : Prop where
  rest : c'.rest <:+ c.rest
  steps : c.steps ≤ c'.steps

namespace Cursor

theorem Advances.refl (c : Cursor) : c.Advances c := ⟨List.suffix_rfl, le_rfl⟩

theorem Advances.trans {c c' c'' : Cursor} (h : c.Advances c') (h' : c'.Advances c'') :
    c.Advances c'' :=
  ⟨h'.rest.trans h.rest, h.steps.trans h'.steps⟩

/-- The steps, with those that the tokens that are left can pay for. -/
def spent (c : Cursor) : Int := c.steps + 16 * c.rest.length

end Cursor

namespace Recorded

variable {α β : Type}

/-- A run from `c` comes to an end and costs at most `k` for the value it gives, or `b` if it
refuses. -/
inductive Within (c : Cursor) (k : α → Int) (b : Int) : Except Stop α × Cursor → Prop
  | read {a : α} {c' : Cursor} (h : c.Advances c') (hspent : c'.spent ≤ c.spent + k a) :
      Within c k b (.ok a, c')
  | refused {c' : Cursor} (h : c.Advances c') (hspent : c'.spent ≤ c.spent + b) :
      Within c k b (.error .refused, c')

def Paced (n : Nat) (m : Recorded α) (k : α → Int) (b : Int) : Prop :=
  ∀ c, c.rest.length < n → Within c k b (m c)

theorem Within.after {c c' : Cursor} {k : α → Int} {b x : Int} {y : Except Stop α × Cursor}
    (h : c.Advances c') (hspent : c'.spent ≤ c.spent + x)
    (hy : Within c' (fun a ↦ k a - x) (b - x) y) : Within c k b y := by
  cases hy with
  | read h' hspent' => exact .read (h.trans h') (by omega)
  | refused h' hspent' => exact .refused (h.trans h') (by omega)

theorem Within.leave {α : Type} {c : Cursor} {k : α → Int} {b : Int} {y : Except Stop α × Cursor}
    (h : Within c k b y) : Within c k b (y.1, y.2.leave) := by
  cases h with
  | read h hspent => exact .read ⟨h.rest, h.steps⟩ hspent
  | refused h hspent => exact .refused ⟨h.rest, h.steps⟩ hspent

namespace Paced

variable {n : Nat} {m : Recorded α} {k k' : α → Int} {b b' : Int}

theorem mono (hm : Paced n m k' b') (hk : ∀ a, k' a ≤ k a) (hb : b' ≤ b) : Paced n m k b := by
  intro c hc
  cases h : m c with
  | mk result c' =>
    have hwithin := hm c hc
    rw [h] at hwithin
    cases hwithin with
    | read h hspent => exact .read h (hspent.trans (Int.add_le_add_left (hk _) _))
    | refused h hspent => exact .refused h (hspent.trans (Int.add_le_add_left hb _))

theorem pure {a : α} (h : 0 ≤ k a) : Paced n (Pure.pure a) k b :=
  fun c _ ↦ .read (.refl c) (Int.le_add_of_nonneg_right h)

theorem refuse (h : 0 ≤ b) : Paced n (throw .refused) k b :=
  fun c _ ↦ .refused (.refl c) (Int.le_add_of_nonneg_right h)

theorem bind {f : α → Recorded β} {l : β → Int} (hm : Paced n m k b') (hb : b' ≤ b)
    (hf : ∀ a, Paced n (f a) (fun y ↦ l y - k a) (b - k a)) : Paced n (m >>= f) l b := by
  intro c hc
  have hwithin := hm c hc
  rw [bind_apply]
  rcases hrun : m c with ⟨stop | a, c'⟩ <;> rw [hrun] at hwithin
  · cases hwithin with
    | refused h hspent => exact .refused h (hspent.trans (Int.add_le_add_left hb _))
  · cases hwithin with
    | read h hspent => exact (hf a c' (h.rest.length_le.trans_lt hc)).after h hspent

theorem ahead : Paced n Recorded.ahead (fun _ ↦ 1) 0 := by
  intro c _
  have hadvances : c.Advances { c with steps := c.steps + 1 } := ⟨List.suffix_rfl, Nat.le_succ _⟩
  refine .read hadvances ?_
  simp only [Cursor.spent]
  omega

theorem pass_then {f : Unit → Recorded α} (hb : 0 ≤ b)
    (hf : Paced n (f ()) (fun a ↦ k a + 15) (b + 15)) :
    Paced (n + 1) (Recorded.pass >>= f) k b := by
  intro c hc
  rw [bind_apply, pass_apply]
  rcases c with ⟨_ | ⟨t, ts⟩, depth, deepest, steps⟩
  · exact .refused (.refl _) (Int.le_add_of_nonneg_right hb)
  · refine (hf ⟨ts, depth, deepest, steps + 1⟩ (Nat.lt_of_succ_lt_succ hc)).after (x := -15)
      ⟨List.suffix_cons t ts, Nat.le_succ steps⟩ ?_
    simp only [Cursor.spent, List.length_cons]
    omega

theorem pass : Paced n Recorded.pass (fun _ ↦ -15) 0 := by
  rw [← bind_pure Recorded.pass]
  cases n with
  | zero => exact nofun
  | succ n => exact pass_then le_rfl (pure (by omega))

theorem sees (mark : Mark) : Paced n (Recorded.sees mark) (fun _ ↦ 1) 0 :=
  ahead.bind le_rfl fun _ ↦ pure (by omega)

theorem eat (mark : Mark) :
    Paced n (Recorded.eat mark) (fun eaten ↦ if eaten then -14 else 1) 1 := by
  refine (sees mark).bind (by omega) fun seen ↦ ?_
  split
  · exact pass.bind (by omega) fun _ ↦ pure (by simp)
  · exact pure (by simp)

theorem expect (mark : Mark) : Paced n (Recorded.expect mark) (fun _ ↦ -14) 1 := by
  refine (eat mark).bind le_rfl fun eaten ↦ ?_
  split
  · exact pure (by omega)
  · exact refuse (by omega)

theorem identifier : Paced n Recorded.identifier (fun _ ↦ -14) 1 := by
  refine ahead.bind (by omega) fun ts ↦ ?_
  split
  · exact pass.bind (by omega) fun _ ↦ pure (by omega)
  · exact refuse (by omega)

/-- Rounds come to an end as each of them that is not the last goes past a token: its cost `r` is
less than nothing. -/
theorem rounds {γ : Type} {round : Recorded (List γ × Bool)} {k r : List γ → Int}
    (hround : Paced n round (fun x ↦ if x.2 then r x.1 else k x.1) b)
    (hr : ∀ xs, r xs < 0) (hk : ∀ xs ys, r xs + k ys ≤ k (xs ++ ys)) :
    Paced n (Recorded.rounds round) k b := by
  have hupTo (m : Nat) (hm : m ≤ n) : Paced m (Recorded.roundsUpTo round m) k b := by
    induction m with
    | zero => exact nofun
    | succ m ih =>
      intro c hc
      have hwithin := hround c (hc.trans_le hm)
      rw [Recorded.roundsUpTo, bind_apply]
      rcases hrun : round c with ⟨stop | ⟨xs, _ | _⟩, c'⟩ <;> rw [hrun] at hwithin
      · cases hwithin with
        | refused h hspent => exact .refused h hspent
      · cases hwithin with
        | read h hspent => exact .read h hspent
      · cases hwithin with
        | read h hspent =>
          have hpaid : c'.spent ≤ c.spent + r xs := hspent
          have hxs := hr xs
          have hsteps := h.steps
          have hfewer : c'.rest.length < m := by
            simp only [Cursor.spent] at hpaid
            omega
          have hrest : Paced m (do return xs ++ (← Recorded.roundsUpTo round m))
              (fun ys ↦ k ys - r xs) (b - r xs) :=
            (ih (Nat.le_of_succ_le hm)).bind (by omega) fun ys ↦ pure (by have := hk xs ys; omega)
          exact (hrest c' hfewer).after h hpaid
  exact fun c hc ↦ hupTo (c.rest.length + 1) hc c (Nat.lt_succ_self _)

theorem resolve (es : List Entry) {b : Int} (hb : es.length ≤ b) :
    Paced n (Recorded.resolve es) (fun _ ↦ es.length) b := by
  intro c _
  have hadvances : c.Advances { c with steps := c.steps + es.length } :=
    ⟨List.suffix_rfl, Nat.le_add_right _ _⟩
  refine .after hadvances (x := es.length) ?_ ?_
  · simp only [Cursor.spent]
    omega
  · have hvalue : Paced (c.rest.length + 1) (ofExcept (Entry.resolve es))
        (fun _ ↦ (es.length : Int) - es.length) (b - es.length) := by
      unfold ofExcept
      split
      · exact pure (by omega)
      · exact refuse (by omega)
    rw [resolve_apply]
    exact hvalue _ (Nat.lt_succ_self _)

section

variable {type : Recorded Descriptor} (h : Paced n type (fun _ ↦ -10) 2)
include h

theorem element (naming : Naming) (variadic : Bool) :
    Paced n (Recorded.element type naming variadic) (fun _ ↦ -10) 2 :=
  h.bind le_rfl fun _ ↦ pure (by omega)

theorem entry : Paced n (Recorded.entry type) (fun _ ↦ -9) 3 := by
  refine ahead.bind (by omega) fun ts ↦ ?_
  split
  · exact pass.bind (by omega) fun _ ↦ (element h _ _).mono (by omega) (by omega)
  · refine pass.bind (by omega) fun _ ↦ pass.bind (by omega) fun _ ↦ ?_
    exact (element h _ _).mono (by omega) (by omega)
  · split
    · exact pass.bind (by omega) fun _ ↦ (element h _ _).mono (by omega) (by omega)
    · exact (element h _ _).mono (by omega) (by omega)
  · exact (element h _ _).mono (by omega) (by omega)

theorem entries : Paced n (Recorded.entries type) (fun es ↦ 1 - es.length) 4 := by
  refine rounds (r := fun es ↦ -1 - es.length) ?_ (fun es ↦ by omega) fun xs ys ↦ ?_
  · refine ahead.bind (by omega) fun ts ↦ ?_
    split
    · exact pure (by simp)
    · refine (entry h).bind (by omega) fun e ↦ ?_
      refine (eat .comma).bind (by omega) fun eaten ↦ pure ?_
      cases eaten <;> simp
  · rw [List.length_append]
    omega

theorem parameters : Paced n (Recorded.parameters type) (fun _ ↦ -27) 1 := by
  refine (expect .lparen).bind (by omega) fun _ ↦ ?_
  refine (entries h).bind (by omega) fun es ↦ ?_
  refine (expect .rparen).bind (by omega) fun _ ↦ ?_
  exact (resolve es le_rfl).mono (by omega) (by omega)

theorem results : Paced n (Recorded.results type) (fun _ ↦ 2) 4 := by
  refine (sees .lparen).bind (by omega) fun paren ↦ ?_
  split
  · refine (parameters h).bind (by omega) fun ⟨types, variadic⟩ ↦ ?_
    cases variadic with
    | true => exact refuse (by omega)
    | false => exact pure (by omega)
  · refine ahead.bind (by omega) fun ts ↦ ?_
    split
    · exact h.bind (by omega) fun d ↦ pure (by omega)
    · exact pure (by omega)

theorem signature : Paced n (Recorded.signature type) (fun _ ↦ -39) 1 := by
  refine identifier.bind (by omega) fun name ↦ ?_
  refine (parameters h).bind (by omega) fun ⟨params, variadic⟩ ↦ ?_
  exact (results h).bind (by omega) fun _ ↦ pure (by omega)

theorem typeList : Paced n (Recorded.typeList type) (fun _ ↦ -14) 3 := by
  refine rounds (r := fun _ ↦ -1) ?_ (by omega) (by omega)
  refine (eat .rbracket).bind (by omega) fun closes ↦ ?_
  split
  · exact pure (by simp)
  refine h.bind (by simp) fun d ↦ (eat .comma).bind (by simp) fun eaten ↦ ?_
  split
  · exact pure (by simp)
  · exact (expect .rbracket).bind (by simp) fun _ ↦ pure (by simp)

omit h in
theorem qualifiedName (name : String) :
    Paced n (Recorded.qualifiedName name) (fun _ ↦ 1) 1 := by
  refine (eat .dot).bind (by omega) fun dotted ↦ ?_
  split
  · exact identifier.bind (by simp) fun _ ↦ pure (by simp)
  · exact pure (by simp)

theorem typeArguments : Paced n (Recorded.typeArguments type) (fun _ ↦ 1) 1 := by
  refine (eat .lbracket).bind (by omega) fun opens ↦ ?_
  split
  · exact (typeList h).mono (by simp) (by simp)
  · exact pure (by simp)

omit h in
theorem endElement : Paced n Recorded.endElement (fun _ ↦ 2) 2 := by
  refine (eat .semi).bind (by omega) fun eaten ↦ ?_
  split
  · exact pure (by simp)
  refine (sees .rbrace).bind (by omega) fun closes ↦ ?_
  split
  · exact pure (by simp)
  · exact refuse (by simp)

omit h in
theorem skipSemis : Paced n Recorded.skipSemis (fun _ ↦ 1) 1 := by
  refine (rounds (k := fun _ ↦ 1) (r := fun _ ↦ -1) ?_ (by omega) (by omega)).bind le_rfl
    fun _ ↦ pure (by omega)
  refine (eat .semi).bind (by omega) fun eaten ↦ pure ?_
  cases eaten <;> simp

omit h in
theorem body {α : Type} {element : Recorded (List α)} (h : Paced n element (fun _ ↦ -7) 4) :
    Paced n (Recorded.body element) (fun _ ↦ -13) 6 := by
  refine rounds (r := fun _ ↦ -1) ?_ (by omega) (by omega)
  refine skipSemis.bind (by omega) fun _ ↦ (eat .rbrace).bind (by omega) fun closes ↦ ?_
  split
  · exact pure (by simp)
  refine h.bind (by simp) fun xs ↦ ?_
  exact endElement.bind (by simp) fun _ ↦ pure (by simp)

theorem interfaceElement : Paced n (Recorded.interfaceElement type) (fun _ ↦ -7) 4 := by
  refine ahead.bind (by omega) fun ts ↦ ?_
  split
  · exact (signature h).bind (by omega) fun _ ↦ pure (by omega)
  refine (sees .tilde).bind (by omega) fun tilde ↦ ?_
  split
  · exact refuse (by omega)
  refine h.bind (by omega) fun d ↦ (sees .pipe).bind (by omega) fun pipe ↦ ?_
  split
  · exact refuse (by omega)
  · exact pure (by omega)

theorem interfaceBody : Paced n (Recorded.interfaceBody type) (fun _ ↦ -13) 6 :=
  (body (interfaceElement h)).bind le_rfl fun _ ↦ pure (by omega)

omit h in
theorem moreNames : Paced n Recorded.moreNames (fun _ ↦ 1) 1 := by
  refine rounds (r := fun _ ↦ -1) ?_ (by omega) (by omega)
  refine (eat .comma).bind (by omega) fun eaten ↦ ?_
  split
  · exact identifier.bind (by simp) fun _ ↦ pure (by simp)
  · exact pure (by simp)

omit h in
theorem skipTag : Paced n Recorded.skipTag (fun _ ↦ 1) 1 := by
  refine ahead.bind (by omega) fun ts ↦ ?_
  split
  · exact pass.mono (by omega) (by omega)
  · exact pure (by omega)

theorem fields (names : List (Option String)) :
    Paced n (Recorded.fields type names) (fun _ ↦ -9) 2 :=
  h.bind le_rfl fun _ ↦ skipTag.bind (by omega) fun _ ↦ pure (by omega)

theorem structElement : Paced n (Recorded.structElement type) (fun _ ↦ -7) 4 := by
  refine ahead.bind (by omega) fun ts ↦ ?_
  split
  · split
    · refine pass.bind (by omega) fun _ ↦ moreNames.bind (by omega) fun names ↦ ?_
      exact (fields h _).mono (by omega) (by omega)
    split
    · exact pass.bind (by omega) fun _ ↦ (fields h _).mono (by omega) (by omega)
    · exact (fields h _).mono (by omega) (by omega)
  · exact (fields h _).mono (by omega) (by omega)
  · exact refuse (by omega)

theorem structBody : Paced n (Recorded.structBody type) (fun _ ↦ -13) 6 :=
  (body (structElement h)).bind le_rfl fun _ ↦ pure (by omega)

theorem typeAfter (t : Token) : Paced n (Recorded.typeAfter type t) (fun _ ↦ 3) 3 := by
  unfold Recorded.typeAfter
  split
  case h_1 name =>
    refine (qualifiedName name).bind (by omega) fun name ↦ ?_
    exact (typeArguments h).bind (by omega) fun _ ↦ pure (by omega)
  case h_2 => exact h.bind (by omega) fun _ ↦ pure (by omega)
  case h_3 =>
    refine ahead.bind (by omega) fun ts ↦ ?_
    split
    · refine pass.bind (by omega) fun _ ↦ ?_
      exact h.bind (by omega) fun _ ↦ pure (by omega)
    · refine pass.bind (by omega) fun _ ↦ (expect .rbracket).bind (by omega) fun _ ↦ ?_
      exact h.bind (by omega) fun _ ↦ pure (by omega)
    · exact pass.bind (by omega) fun _ ↦ refuse (by omega)
  case h_4 =>
    refine (expect .lbracket).bind (by omega) fun _ ↦ h.bind (by omega) fun key ↦ ?_
    refine (expect .rbracket).bind (by omega) fun _ ↦ ?_
    exact h.bind (by omega) fun _ ↦ pure (by omega)
  case h_5 =>
    refine (eat .arrow).bind (by omega) fun sends ↦ ?_
    split
    · exact h.bind (by simp) fun _ ↦ pure (by simp)
    · exact h.bind (by simp) fun _ ↦ pure (by simp)
  case h_6 =>
    refine (expect .chan).bind (by omega) fun _ ↦ ?_
    exact h.bind (by omega) fun _ ↦ pure (by omega)
  case h_7 =>
    refine (parameters h).bind (by omega) fun ⟨params, variadic⟩ ↦ ?_
    exact (results h).bind (by omega) fun _ ↦ pure (by omega)
  case h_8 =>
    exact (expect .lbrace).bind (by omega) fun _ ↦ (interfaceBody h).mono (by omega) (by omega)
  case h_9 =>
    exact (expect .lbrace).bind (by omega) fun _ ↦ (structBody h).mono (by omega) (by omega)
  case h_10 =>
    refine h.bind (by omega) fun d ↦ (expect .rparen).bind (by omega) fun _ ↦ ?_
    exact pure (by omega)
  case h_11 => exact refuse (by omega)

theorem typeLevel : Paced (n + 1) (Recorded.typeLevel type) (fun _ ↦ -11) 1 := by
  refine ahead.bind (by omega) fun ts ↦ ?_
  split
  · exact pass_then (by omega) ((typeAfter h _).mono (by omega) (by omega))
  · exact refuse (by omega)

end

theorem nested {α : Type} (limit : Option Nat) {m : Recorded α} {k : α → Int} {b : Int} (hb : 0 ≤ b)
    (h : Paced n m (fun a ↦ k a - 1) (b - 1)) : Paced n (Recorded.nested limit m) k b := by
  intro c hc
  rw [nested_apply]
  split
  · exact .refused (.refl c) (Int.le_add_of_nonneg_right hb)
  · have hadvances : c.Advances c.enter := ⟨List.suffix_rfl, Nat.le_succ _⟩
    refine .after hadvances (x := 1) ?_ ?_
    · simp only [Cursor.spent, Cursor.enter]
      omega
    · exact (h c.enter hc).leave

/-- A bound above the number of tokens is enough. -/
theorem typeUpTo (limit : Option Nat) (bound : Nat) :
    Paced bound (Recorded.typeUpTo limit bound) (fun _ ↦ -10) 2 := by
  induction bound with
  | zero => exact nofun
  | succ bound ih => exact nested limit (by omega) (typeLevel ih)

theorem type (limit : Option Nat) : Paced n (Recorded.type limit) (fun _ ↦ -10) 2 :=
  fun c _ ↦ typeUpTo limit (c.rest.length + 1) c (Nat.lt_succ_self _)

end Paced

end Recorded

end Conformance

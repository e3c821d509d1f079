import Offside.Proofs.CursorMoves
import Offside.Proofs.StmtGrammar

/-! # Readers that run abreast

Two lists of items agree up to a fork: the same kinds of tokens and the same faults, wherever the tokens stand and
however they are marked. A reader of the first list that does not go past the fork has a reader of the second list
abreast of it: both answer the same up to spans, or fail with the same error up to spans. `Abreast` says so, together
with what the first reader does to the productions that are open, and has one rule for each way to put readers together.
The lists may be of different lengths behind the fork, so the bounds on loops and on the storeys of expressions differ
for the two readers; what counts is that neither bound is used up. -/

namespace Offside

/-! ### Up to spans -/

/-- A token without its place and its marks. -/
def Token.bare (t : Token) : Token := { kind := t.kind, span := {} }

/-- A fault without the places of the tokens in it. -/
def SyntaxFault.bare : SyntaxFault → SyntaxFault
  | .expectedToken names found => .expectedToken names (found.map Token.bare)
  | .unexpectedToken t => .unexpectedToken t.bare
  | other => other

/-- An error without places: what is wrong and the productions that were open. -/
def SyntaxError.bare (e : SyntaxError) : SyntaxError := { e with fault := e.fault.bare, location := none }

/-- Items that differ at most in where a token stands and how it is marked. -/
inductive Item.SameKind : Item → Item → Prop
  | token {t t' : Token} : t'.kind = t.kind → SameKind (.ok t) (.ok t')
  | fault (f : Fault) : SameKind (.error f) (.error f)

/-- Cursors that see the same, up to where a token stands and how it is marked. -/
inductive Lookahead.SameKind : Lookahead → Lookahead → Prop
  | unread : SameKind .unread .unread
  | token {t t' : Token} : t'.kind = t.kind → SameKind (.token t) (.token t')
  | ended : SameKind .ended .ended
  | poisoned : SameKind .poisoned .poisoned

theorem Lookahead.SameKind.of_token {t : Token} {look : Lookahead} (h : SameKind (.token t) look) :
    ∃ t', look = .token t' ∧ t'.kind = t.kind := by
  cases h with
  | token ht => exact ⟨_, rfl, ht⟩

theorem Lookahead.SameKind.eq {look look' : Lookahead} (h : look.SameKind look') (hl : ∀ t, look ≠ .token t) :
    look' = look := by
  cases h with
  | token _ => exact absurd rfl (hl _)
  | _ => rfl

theorem Token.bare_congr {t t' : Token} (h : t'.kind = t.kind) : t'.bare = t.bare := by
  rw [Token.bare, Token.bare, h]

/-! ### Cursors -/

/-- Where two lists cease to agree: what comes behind in each of them. If the first list has been seen to its end, the
    second ends there as well. -/
structure Fork where
  first : List Item
  second : List Item
  seen : Bool
  ends : seen = true → second = []

/-- Rests of the two lists that agree up to the fork. -/
def Fork.Agree (fork : Fork) (l l' : List Item) : Prop :=
  ∃ x x', l = x ++ fork.first ∧ l' = x' ++ fork.second ∧ List.Forall₂ Item.SameKind x x'

namespace Fork.Agree
variable {fork : Fork} {l l' : List Item} {item : Item}

theorem eq_nil (h : fork.Agree [] l') (hseen : fork.seen = true) : l' = [] := by
  obtain ⟨x, x', hx, rfl, hsame⟩ := h
  obtain ⟨rfl, -⟩ := List.nil_eq_append_iff.mp hx
  rw [List.forall₂_nil_left_iff.mp hsame, fork.ends hseen]
  rfl

/-- Before the fork, the first items are alike and what is behind them agrees. -/
theorem uncons (h : fork.Agree (item :: l) l') (hfork : fork.first <:+ l) :
    ∃ item' rest, l' = item' :: rest ∧ item.SameKind item' ∧ fork.Agree l rest := by
  obtain ⟨x, x', hx, rfl, hsame⟩ := h
  cases hsame with
  | nil =>
    have hlength := hfork.length_le
    rw [← show item :: l = fork.first from hx] at hlength
    exact absurd hlength (Nat.not_succ_le_self _)
  | @cons y y' x x' hy hsame =>
    obtain ⟨rfl, rfl⟩ := List.cons.inj hx
    exact ⟨y', x' ++ fork.second, rfl, hy, x, x', rfl, rfl, hsame⟩

end Fork.Agree

namespace Cursor

/-- A cursor among `items` that has `j` of them behind it. -/
structure Stands (c : Cursor) (items : List Item) (j : Nat) : Prop where
  reached : ∃ taken, c.Reached items taken
  count : c.remaining + j = items.length

/-- The second cursor is where the first one is or further on. -/
structure Onward (c d : Cursor) : Prop where
  input : d.input <:+ c.input
  ended : c.look = .ended → d.look = .ended

/-- The cursor has not gone past the fork. -/
structure Before (c : Cursor) (fork : Fork) : Prop where
  input : fork.first <:+ c.input
  ended : c.look = .ended → fork.seen = true

/-- Cursors that see the same, with the same productions open and the same items up to the fork; the second one has `j`
    of `items` behind it. -/
structure Beside (c c' : Cursor) (fork : Fork) (items : List Item) (j : Nat) : Prop where
  look : c.look.SameKind c'.look
  input : fork.Agree c.input c'.input
  stack : c'.stack = c.stack
  count : c'.remaining + j = items.length

variable {c d e : Cursor} {fork : Fork}

theorem Onward.refl (c : Cursor) : c.Onward c := ⟨List.suffix_refl _, id⟩

theorem Onward.trans (h : c.Onward d) (h' : d.Onward e) : c.Onward e :=
  ⟨h'.input.trans h.input, h'.ended ∘ h.ended⟩

theorem Before.of_onward (h : d.Before fork) (hd : c.Onward d) : c.Before fork :=
  ⟨h.input.trans hd.input, h.ended ∘ hd.ended⟩

theorem Beside.exists_token {c' : Cursor} {items : List Item} {j : Nat} {t : Token} (h : c.Beside c' fork items j)
    (hl : c.look = .token t) : ∃ t', c'.look = .token t' ∧ t'.kind = t.kind := by
  have hlook := h.look
  rw [hl] at hlook
  exact hlook.of_token

theorem Stands.le {items : List Item} {j : Nat} (h : c.Stands items j) : j ≤ items.length := by
  have := h.count
  omega

end Cursor

theorem Cursor.Reached.stands {c : Cursor} {items : List Item} {taken : List Token} (h : c.Reached items taken) :
    c.Stands items (items.length - c.remaining) :=
  ⟨⟨taken, h⟩, Nat.add_sub_cancel' h.remaining_le⟩

theorem Cursor.Stands.unique {c : Cursor} {items : List Item} {i j : Nat} (h : c.Stands items i)
    (h' : c.Stands items j) : i = j := by
  have := h.count
  have := h'.count
  omega

/-- Errors about the same, with the same productions open, are the same wherever they stand. -/
theorem Cursor.bare_errorAt {c c' : Cursor} {fault fault' : SyntaxFault} (h : c'.stack = c.stack)
    (hfault : fault'.bare = fault.bare) (place place' : Option Span) :
    (c'.errorAt fault' place').bare = (c.errorAt fault place).bare := by
  simp only [SyntaxError.bare, Cursor.errorAt, h, hfault]

namespace Parse
variable {α β : Type} {s s' : List Item} {i j n n' : Nat} {c : Cursor}

/-! ### Readers -/

/-- How the reading of the first list from `c` comes out, and that the reader `p'` of the second list comes out the same
    from every cursor beside `c`, as long as the first does not go past the fork. An answer leaves the open productions
    as they were, and an error names those open where it arose. -/
inductive Course (s s' : List Item) (j : Nat) (c : Cursor) (p' : Parse α) (Q : α → α → Nat → Prop) :
    EStateM.Result SyntaxError Cursor α → Prop
  | ok {a : α} {d : Cursor} {i : Nat} : d.Stands s i → c.Onward d → d.stack = c.stack → (∃ a', Q a a' i) →
    (∀ ⦃fork c'⦄, d.Before fork → c.Beside c' fork s' j →
      ∃ a' d', p' c' = .ok a' d' ∧ d.Beside d' fork s' i ∧ Q a a' i) → Course s s' j c p' Q (.ok a d)
  | error {e : SyntaxError} {d : Cursor} {i : Nat} : d.Stands s i → c.Onward d → c.stack <+: d.stack →
    e.stack = some d.stack →
    (∀ ⦃fork c'⦄, d.Before fork → c.Beside c' fork s' j →
      ∃ e' d', p' c' = .error e' d' ∧ d.Beside d' fork s' i ∧ e'.bare = e.bare) → Course s s' j c p' Q (.error e d)

/-- From the place behind `j` items, the readers run abreast, and their answers fit with each other and with the number
    of items behind them then. -/
def Abreast (p p' : Parse α) (s s' : List Item) (j : Nat) (Q : α → α → Nat → Prop) : Prop :=
  ∀ ⦃c : Cursor⦄, c.Stands s j → Course s s' j c p' Q (p c)

theorem Course.reached {p p' : Parse α} {Q : α → α → Nat → Prop} (h : Course s s' j c p' Q (p c)) :
    ∃ taken, (p.after c).Reached s taken := by
  unfold after
  generalize p c = r at h
  cases h with
  | ok hd => exact hd.reached
  | error hd => exact hd.reached

theorem Course.bind {p p' : Parse α} {f f' : α → Parse β} {Q : α → α → Nat → Prop} {R : β → β → Nat → Prop}
    (hp : Course s s' j c p' Q (p c))
    (hf : ∀ ⦃a a' i d⦄, p c = .ok a d → d.Stands s i → Q a a' i → Course s s' i d (f' a') R (f a d)) :
    Course s s' j c (p' >>= f') R ((p >>= f) c) := by
  obtain ⟨r, hpc⟩ : ∃ r, p c = r := ⟨_, rfl⟩
  rw [hpc] at hp
  cases hp with
  | error hd hon hstack he hpair =>
    rw [bind_error hpc]
    refine .error hd hon hstack he fun fork c' hbefore hc' => ?_
    obtain ⟨e', d', hp', hd', hbare⟩ := hpair hbefore hc'
    exact ⟨e', d', bind_error hp', hd', hbare⟩
  | @ok a d i hd hon hstack hsome hpair =>
    rw [bind_ok hpc]
    obtain ⟨a₀, ha₀⟩ := hsome
    have hrest := hf hpc hd ha₀
    obtain ⟨r, hfd⟩ : ∃ r, f a d = r := ⟨_, rfl⟩
    rw [hfd] at hrest ⊢
    -- the second reader's own answer decides how it goes on, so the continuation is asked again with that answer
    cases hrest with
    | ok hz hon' hstack' hsome' _ =>
      refine .ok hz (hon.trans hon') (hstack'.trans hstack) hsome' fun fork c' hbefore hc' => ?_
      obtain ⟨a', d', hp', hd', ha'⟩ := hpair (hbefore.of_onward hon') hc'
      have hagain := hf hpc hd ha'
      rw [hfd] at hagain
      cases hagain with
      | ok hz' _ _ _ hpair' =>
        rw [bind_ok hp', hz.unique hz']
        exact hpair' hbefore hd'
    | error hz hon' hstack' he _ =>
      refine .error hz (hon.trans hon') (hstack ▸ hstack') he fun fork c' hbefore hc' => ?_
      obtain ⟨a', d', hp', hd', ha'⟩ := hpair (hbefore.of_onward hon') hc'
      have hagain := hf hpc hd ha'
      rw [hfd] at hagain
      cases hagain with
      | error hz' _ _ _ hpair' =>
        rw [bind_ok hp', hz.unique hz']
        exact hpair' hbefore hd'

namespace Abreast
variable {p p' q q' : Parse α} {Q : α → α → Nat → Prop}

theorem pure {a a' : α} (h : Q a a' j) : (Pure.pure a : Parse α).Abreast (Pure.pure a') s s' j Q :=
  fun c hc => .ok hc (.refl c) rfl ⟨a', h⟩ fun _ c' _ hc' => ⟨a', c', rfl, hc', h⟩

theorem bind {f f' : α → Parse β} {R : β → β → Nat → Prop} (hp : p.Abreast p' s s' j Q)
    (hf : ∀ a a' i, Q a a' i → (f a).Abreast (f' a') s s' i R) : (p >>= f).Abreast (p' >>= f') s s' j R :=
  fun _ hc => (hp hc).bind fun _ _ _ _ _ hd ha => hf _ _ _ ha hd

theorem ite {b : Prop} [Decidable b] (hp : b → p.Abreast p' s s' j Q) (hq : ¬b → q.Abreast q' s s' j Q) :
    (if b then p else q).Abreast (if b then p' else q') s s' j Q := by
  split
  · next h => exact hp h
  · next h => exact hq h

/-- No cursor of the second list has more items behind it than there are. -/
theorem of_length_lt (h : p.Abreast q s s' j Q) (hlt : s'.length < j) : p.Abreast p' s s' j Q := by
  intro c hc
  have h := h hc
  have hnone {c' : Cursor} {fork : Fork} (hc' : c.Beside c' fork s' j) : False := by
    have := hc'.count
    omega
  generalize p c = r at h ⊢
  cases h with
  | ok hd hon hstack hsome _ => exact .ok hd hon hstack hsome fun _ _ _ hc' => (hnone hc').elim
  | error hd hon hstack he _ => exact .error hd hon hstack he fun _ _ _ hc' => (hnone hc').elim

theorem within {name : String} (h : p.Abreast p' s s' j Q) :
    (Parse.within name p).Abreast (Parse.within name p') s s' j Q := by
  intro c hc
  unfold Parse.within
  split
  · next hfull =>
    refine .error hc (.refl c) (List.prefix_refl _) rfl fun fork c' _ hc' => ?_
    exact ⟨_, c', if_pos (by rwa [hc'.stack]), hc', Cursor.bare_errorAt hc'.stack rfl _ _⟩
  · next hroom =>
    obtain ⟨taken, hreached⟩ := hc.reached
    have h := h (c := { c with stack := c.stack ++ [name] }) ⟨⟨taken, hreached.opening name (by omega)⟩, hc.count⟩
    have hinner {c' : Cursor} {fork : Fork} (hc' : c.Beside c' fork s' j) :
        Cursor.Beside { c with stack := c.stack ++ [name] } { c' with stack := c'.stack ++ [name] } fork s' j :=
      ⟨hc'.look, hc'.input, by rw [hc'.stack], hc'.count⟩
    have hroom' {c' : Cursor} {fork : Fork} (hc' : c.Beside c' fork s' j) : ¬nestingLimit ≤ c'.stack.length := by
      rwa [hc'.stack]
    generalize p { c with stack := c.stack ++ [name] } = r at h
    cases h with
    | @ok a d i hd hon hstack hsome hpair =>
      obtain ⟨taken', hreached'⟩ := hd.reached
      refine .ok ⟨⟨taken', hreached'.closing⟩, hd.count⟩ ⟨hon.input, hon.ended⟩ ?_ hsome fun fork c' hbefore hc' => ?_
      · simp [hstack]
      · obtain ⟨a', d', hp', hd', ha'⟩ := hpair ⟨hbefore.input, hbefore.ended⟩ (hinner hc')
        refine ⟨a', { d' with stack := d'.stack.dropLast }, ?_, ?_, ha'⟩
        · rw [if_neg (hroom' hc'), hp']
        · exact ⟨hd'.look, hd'.input, congrArg List.dropLast hd'.stack, hd'.count⟩
    | @error e d i hd hon hstack he hpair =>
      refine .error hd ⟨hon.input, hon.ended⟩ ((List.prefix_append _ _).trans hstack) he fun fork c' hbefore hc' => ?_
      obtain ⟨e', d', hp', hd', hbare⟩ := hpair hbefore (hinner hc')
      refine ⟨e', d', ?_, hd', hbare⟩
      rw [if_neg (hroom' hc'), hp']

/-! ### Loops and bounds -/

/-- What a step of a loop answers: both go on, with an item more behind them, or neither does. -/
def Steps (R Q : α → α → Nat → Prop) (i : Nat) : ForInStep α → ForInStep α → Nat → Prop
  | .done b, .done b', k => Q b b' k
  | .yield b, .yield b', k => R b b' k ∧ i < k
  | _, _, _ => False

section
variable {step step' : α → Parse (ForInStep α)} {R : α → α → Nat → Prop}

/-- The bounds of the two loops differ; neither is used up, since every round leaves an item behind. -/
theorem repeatUpTo (hstep : ∀ a a' i, j ≤ i → R a a' i → (step a).Abreast (step' a') s s' i (Steps R Q i)) {a a' : α}
    (hj : j ≤ i) (hn : s.length < i + n) (hn' : s'.length < i + n') (hr : R a a' i) :
    (Parse.repeatUpTo step n a).Abreast (Parse.repeatUpTo step' n' a') s s' i Q := by
  induction n generalizing n' i a a' with
  | zero =>
    intro c hc
    have := hc.le
    omega
  | succ n ih =>
    have hround {m : Nat} (hm : s'.length < i + (m + 1)) :
        (Parse.repeatUpTo step (n + 1) a).Abreast (Parse.repeatUpTo step' (m + 1) a') s s' i Q := by
      refine (hstep a a' i hj hr).bind fun r r' k h => ?_
      cases r with
      | done b =>
        cases r' with
        | done b' => exact .pure h
        | yield b' => exact h.elim
      | yield b =>
        cases r' with
        | done b' => exact h.elim
        | yield b' =>
          have hk : i < k := h.2
          exact ih (by omega) (by omega) (by omega) h.1
    cases n' with
    | zero => exact (hround (m := 0) (by omega)).of_length_lt (by omega)
    | succ m => exact hround hn'

/-- Readers with a bound taken from the items that remain. -/
theorem bounded (f f' : Nat → Parse α)
    (h : ∀ n n', s.length < j + n → s'.length < j + n' → (f n).Abreast (f' n') s s' j Q) :
    Abreast (fun c => f (c.remaining + 1) c) (fun c => f' (c.remaining + 1) c) s s' j Q := by
  intro c hc
  have hcount := hc.count
  have h := h (c.remaining + 1) (s'.length - j + 1) (by omega) (by omega) hc
  have hbound {c' : Cursor} {fork : Fork} (hc' : c.Beside c' fork s' j) : s'.length - j = c'.remaining := by
    have := hc'.count
    omega
  dsimp only
  generalize f (c.remaining + 1) c = r at h ⊢
  cases h with
  | ok hd hon hstack hsome hpair =>
    refine .ok hd hon hstack hsome fun fork c' hbefore hc' => ?_
    rw [← hbound hc']
    exact hpair hbefore hc'
  | error hd hon hstack he hpair =>
    refine .error hd hon hstack he fun fork c' hbefore hc' => ?_
    rw [← hbound hc']
    exact hpair hbefore hc'

theorem loop {a a' : α} (hr : R a a' j)
    (hstep : ∀ a a' i, j ≤ i → R a a' i → (step a).Abreast (step' a') s s' i (Steps R Q i)) :
    (Parse.loop step a).Abreast (Parse.loop step' a') s s' j Q :=
  bounded (fun n => Parse.repeatUpTo step n a) (fun n => Parse.repeatUpTo step' n a')
    fun _ _ hn hn' => repeatUpTo hstep (Nat.le_refl j) hn hn' hr

end

end Abreast

/-! ### One token -/

theorem Course.advance {k : Nat} (hreached : ∃ taken, (Parse.advance.after c).Reached s taken)
    (hended : c.look ≠ .ended)
    (hcount : c.input.length + k = s.length)
    (hcount' : ∀ ⦃c' fork⦄, c.Beside c' fork s' j → c'.input.length + k = s'.length) :
    Course s s' j c Parse.advance (fun _ _ i => i = k) (Parse.advance c) := by
  obtain ⟨input, look, last, stack⟩ := c
  cases input with
  | nil =>
    refine .ok ⟨hreached, hcount⟩ ⟨List.suffix_refl _, fun h => absurd h hended⟩ rfl ⟨(), rfl⟩ ?_
    intro fork c' hbefore hc'
    have hinput : c'.input = [] := hc'.input.eq_nil (hbefore.ended rfl)
    have hlength : c'.input.length + k = s'.length := hcount' hc'
    refine ⟨(), { c' with look := .ended }, ?_, ⟨.ended, hc'.input, hc'.stack, hlength⟩, rfl⟩
    simp only [Parse.advance, hinput]
  | cons item rest =>
    have hcount : rest.length + 1 + k = s.length := hcount
    cases item with
    | ok t =>
      refine .ok ⟨hreached, hcount⟩ ⟨List.suffix_cons _ _, fun h => absurd h hended⟩ rfl ⟨(), rfl⟩ ?_
      intro fork c' hbefore hc'
      obtain ⟨item', rest', hinput, hkind, hagree⟩ := hc'.input.uncons hbefore.input
      have hlength : rest'.length + 1 + k = s'.length := by simpa [hinput] using hcount' hc'
      cases hkind with
      | @token _ t' ht =>
        refine ⟨(), { c' with input := rest', look := .token t' }, ?_, ⟨.token ht, hagree, hc'.stack, hlength⟩, rfl⟩
        simp only [Parse.advance, hinput]
    | error f =>
      refine .error (i := k + 1) ⟨hreached, ?_⟩ ⟨List.suffix_cons _ _, fun h => absurd h hended⟩ (List.prefix_refl _)
        rfl ?_
      · show rest.length + (k + 1) = s.length
        omega
      intro fork c' hbefore hc'
      obtain ⟨item', rest', hinput, hkind, hagree⟩ := hc'.input.uncons hbefore.input
      have hlength : rest'.length + 1 + k = s'.length := by simpa [hinput] using hcount' hc'
      cases hkind with
      | fault =>
        have hadvance : ∃ place, Parse.advance c' =
            .error (c'.errorAt (.fault f) place) { c' with input := rest', look := .poisoned } := by
          simp only [Parse.advance, hinput]
          exact ⟨_, rfl⟩
        obtain ⟨place, hadvance⟩ := hadvance
        refine ⟨_, _, hadvance, ⟨.poisoned, hagree, hc'.stack, ?_⟩, Cursor.bare_errorAt hc'.stack rfl _ _⟩
        show rest'.length + (k + 1) = s'.length
        omega

/-- Taking the token in sight. -/
theorem Course.takeNext {t : Token} (hc : c.Stands s j) (hl : c.look = .token t) :
    Course s s' j c Parse.takeNext
      (fun o o' i => o = some t ∧ (∃ t', o' = some t' ∧ t'.kind = t.kind) ∧ i = j + 1) (Parse.takeNext c) := by
  obtain ⟨taken, hreached⟩ := hc.reached
  have hremaining {d : Cursor} {x : Token} (hx : d.look = .token x) : d.remaining = d.input.length + 1 := by
    rw [Cursor.remaining, hx]
  have hcount := hc.count
  rw [hremaining hl] at hcount
  have hadvance : Course s s' j { c with last := some t.span } Parse.advance (fun _ _ i => i = j + 1)
      (Parse.advance { c with last := some t.span }) := by
    refine .advance ⟨_, hreached.take hl⟩ (by simp [hl]) (by dsimp only; omega) fun c' fork hc' => ?_
    obtain ⟨t', hl', -⟩ := hc'.exists_token hl
    have hcount' := hc'.count
    rw [hremaining hl'] at hcount'
    omega
  have hbeside {c' : Cursor} {fork : Fork} (hc' : c.Beside c' fork s' j) (place : Span) :
      Cursor.Beside { c with last := some t.span } { c' with last := some place } fork s' j :=
    ⟨hc'.look, hc'.input, hc'.stack, hc'.count⟩
  rw [takeNext_of_look hl]
  obtain ⟨r, hr⟩ : ∃ r, Parse.advance { c with last := some t.span } = r := ⟨_, rfl⟩
  rw [hr] at hadvance
  cases hadvance with
  | @ok _ d i hd hon hstack hsome hpair =>
    obtain ⟨-, rfl⟩ := hsome
    rw [bind_ok hr]
    refine .ok hd ⟨hon.input, hon.ended⟩ hstack ⟨some t, rfl, ⟨t, rfl, rfl⟩, rfl⟩ fun fork c' hbefore hc' => ?_
    obtain ⟨t', hl', ht'⟩ := hc'.exists_token hl
    obtain ⟨_, d', hadvance', hd', -⟩ := hpair hbefore (hbeside hc' t'.span)
    refine ⟨some t', d', ?_, hd', rfl, ⟨t', rfl, ht'⟩, rfl⟩
    rw [takeNext_of_look hl', bind_ok hadvance']
    rfl
  | @error e d i hd hon hstack he hpair =>
    rw [bind_error hr]
    refine .error hd ⟨hon.input, hon.ended⟩ hstack he fun fork c' hbefore hc' => ?_
    obtain ⟨t', hl', -⟩ := hc'.exists_token hl
    obtain ⟨e', d', hadvance', hd', hbare⟩ := hpair hbefore (hbeside hc' t'.span)
    exact ⟨e', d', by rw [takeNext_of_look hl', bind_error hadvance'], hd', hbare⟩

namespace Abreast
variable {p p' : Parse α} {Q : α → α → Nat → Prop}

theorem begin : Parse.begin.Abreast Parse.begin s s' j fun _ _ i => i = j := by
  intro c hc
  by_cases hl : c.look = .unread
  case neg =>
    have hbegin {d : Cursor} (hd : d.look ≠ .unread) : Parse.begin d = .ok () d := by
      rw [Parse.begin]
      split
      · next h => exact absurd h hd
      · rfl
    rw [hbegin hl]
    refine .ok hc (.refl c) rfl ⟨(), rfl⟩ fun fork c' _ hc' => ⟨(), c', hbegin fun hl' => hl ?_, hc', rfl⟩
    have hlook := hc'.look
    rw [hl'] at hlook
    generalize c.look = look at hlook
    cases hlook
    rfl
  case pos =>
    obtain ⟨taken, hreached⟩ := hc.reached
    have hbegin {d : Cursor} (hd : d.look = .unread) : Parse.begin d = Parse.advance d := by rw [Parse.begin, hd]
    have hremaining {d : Cursor} (hd : d.look = .unread) : d.remaining = d.input.length := by
      rw [Cursor.remaining, hd]
      rfl
    have hunread {c' : Cursor} {fork : Fork} (hc' : c.Beside c' fork s' j) : c'.look = .unread :=
      (hc'.look.eq (by simp [hl])).trans hl
    have hadvance := Course.advance (k := j) ⟨_, hreached.look hl⟩ (by simp [hl]) (hremaining hl ▸ hc.count)
      fun c' fork (hc' : c.Beside c' fork s' j) => hremaining (hunread hc') ▸ hc'.count
    rw [hbegin hl]
    generalize Parse.advance c = r at hadvance ⊢
    cases hadvance with
    | ok hd hon hstack hsome hpair =>
      refine .ok hd hon hstack hsome fun fork c' hbefore hc' => ?_
      rw [hbegin (hunread hc')]
      exact hpair hbefore hc'
    | error hd hon hstack he hpair =>
      refine .error hd hon hstack he fun fork c' hbefore hc' => ?_
      rw [hbegin (hunread hc')]
      exact hpair hbefore hc'

end Abreast

/-- What two cursors side by side see: tokens of one kind, or both nothing. -/
def Alongside (j : Nat) (o o' : Option Token) (i : Nat) : Prop := o'.map (·.kind) = o.map (·.kind) ∧ i = j

theorem look_of_peek {d : Cursor} {t : Token} (h : peek c = .ok (some t) d) : d.look = .token t := by
  obtain ⟨input, look, last, stack⟩ := c
  cases look with
  | unread =>
    cases input with
    | nil => cases h
    | cons item rest =>
      cases item with
      | ok x =>
        cases h
        rfl
      | error f => cases h
  | token x =>
    cases h
    rfl
  | ended => cases h
  | poisoned => cases h

/-- What is said of a token that does not fit, or of none. -/
def grievance (fault : Token → SyntaxFault) : Option Token → SyntaxFault
  | none => .unexpectedEnd
  | some t => if t.kind = .endMarker then .unexpectedEnd else fault t

theorem complaint_of_peek {d : Cursor} {o : Option Token} (fault : Token → SyntaxFault) (h : peek c = .ok o d) :
    complaint fault c = .ok (d.error (grievance fault o)) d := by
  cases o <;> simp only [complaint, h, grievance]

theorem complaint_of_error {d : Cursor} {e : SyntaxError} (fault : Token → SyntaxFault) (h : peek c = .error e d) :
    complaint fault c = .ok e d := by
  simp only [complaint, h]

/-- A reader that complains looks first, and fails where it has looked. -/
theorem complain_eq (fault : Token → SyntaxFault) :
    (do throw (← complaint fault) : Parse α) = peek >>= fun o c => .error (c.error (grievance fault o)) c := by
  funext c
  cases hpeek : peek c with
  | error e d => exact (bind_ok (complaint_of_error fault hpeek)).trans (bind_error hpeek).symm
  | ok o d =>
    refine (bind_ok (complaint_of_peek fault hpeek)).trans (Eq.symm ?_)
    exact bind_ok hpeek

theorem takeIf_eq (wanted : Token → Bool) :
    takeIf wanted = acceptMap fun t => if wanted t then some t else none := by
  funext c
  cases hpeek : peek c with
  | error e d => exact (bind_error hpeek).trans (bind_error hpeek).symm
  | ok o d =>
    refine (bind_ok hpeek).trans (Eq.trans ?_ (bind_ok hpeek).symm)
    cases o with
    | none => rfl
    | some t =>
      dsimp only
      split
      · have htake := takeNext_of_look (look_of_peek hpeek)
        refine htake.trans (Eq.trans ?_ (bind_congr_at htake).symm)
        rw [bind_assoc]
        rfl
      · rfl

namespace Abreast
variable {p p' : Parse α} {Q : α → α → Nat → Prop}

theorem peek : Parse.peek.Abreast Parse.peek s s' j (Alongside j) := by
  refine begin.bind fun _ _ i hi c hc => ?_
  obtain rfl : i = j := hi
  have hsame {look : Lookahead} {c' : Cursor} {fork : Fork} (hl : c.look = look) (hnot : ∀ t, look ≠ .token t)
      (hc' : c.Beside c' fork s' i) : c'.look = look := (hc'.look.eq (hl ▸ hnot)).trans hl
  cases hl : c.look with
  | token t =>
    refine .ok hc (.refl c) rfl ⟨some t, rfl, rfl⟩ fun fork c' _ hc' => ?_
    obtain ⟨t', hl', ht'⟩ := hc'.exists_token hl
    exact ⟨some t', c', by simp only [hl'], hc', by simp [ht'], rfl⟩
  | poisoned =>
    refine .error hc (.refl c) (List.prefix_refl _) rfl fun fork c' _ hc' => ?_
    exact ⟨c'.error .poisoned, c', by simp only [hsame hl nofun hc'], hc', Cursor.bare_errorAt hc'.stack rfl _ _⟩
  | unread =>
    refine .ok hc (.refl c) rfl ⟨none, rfl, rfl⟩ fun fork c' _ hc' => ?_
    exact ⟨none, c', by simp only [hsame hl nofun hc'], hc', rfl, rfl⟩
  | ended =>
    refine .ok hc (.refl c) rfl ⟨none, rfl, rfl⟩ fun fork c' _ hc' => ?_
    exact ⟨none, c', by simp only [hsame hl nofun hc'], hc', rfl, rfl⟩

/-- Both readers say the same of the tokens in sight, if that only depends on their kind. -/
theorem see {g : Option Token → β} (hg : ∀ o o', o'.map (·.kind) = o.map (·.kind) → g o' = g o) {f f' : β → Parse α}
    (h : ∀ b, (f b).Abreast (f' b) s s' j Q) :
    ((Parse.peek >>= fun o => Pure.pure (g o)) >>= f).Abreast ((Parse.peek >>= fun o => Pure.pure (g o)) >>= f')
      s s' j Q := by
  refine (peek.bind fun o o' i ho => .pure (Q := fun b b' i => b' = b ∧ i = j) ⟨hg o o' ho.1, ho.2⟩).bind ?_
  rintro b _ _ ⟨rfl, rfl⟩
  exact h _

theorem any_congr {f : Kind → Bool} {o o' : Option Token} (h : o'.map (·.kind) = o.map (·.kind)) :
    o'.any (f ·.kind) = o.any (f ·.kind) := by
  have hany (x : Option Token) : x.any (f ·.kind) = (x.map (·.kind)).any f := by cases x <;> rfl
  rw [hany, hany, h]

theorem sees {kind : Kind} {f f' : Bool → Parse α} (h : ∀ b, (f b).Abreast (f' b) s s' j Q) :
    (Parse.sees kind >>= f).Abreast (Parse.sees kind >>= f') s s' j Q :=
  see (β := Bool) (fun _ _ ho => any_congr (f := (·.same kind)) ho) h

theorem seesExpr {f f' : Bool → Parse α} (h : ∀ b, (f b).Abreast (f' b) s s' j Q) :
    (Parse.seesExpr >>= f).Abreast (Parse.seesExpr >>= f') s s' j Q :=
  see (β := Bool) (fun _ _ ho => any_congr (f := startsExpr) ho) h

/-- Both readers fail where they stand, about the same. -/
theorem fail {fault fault' : SyntaxFault} (h : fault'.bare = fault.bare) (place place' : Cursor → Option Span) :
    Abreast (fun c => .error (c.errorAt fault (place c)) c : Parse α) (fun c => .error (c.errorAt fault' (place' c)) c)
      s s' j Q :=
  fun c hc => .error hc (.refl c) (List.prefix_refl _) rfl fun _ c' _ hc' =>
    ⟨_, c', rfl, hc', Cursor.bare_errorAt hc'.stack h _ _⟩

theorem complain {fault : Token → SyntaxFault} (h : ∀ t t', t'.kind = t.kind → (fault t').bare = (fault t).bare) :
    (do throw (← complaint fault) : Parse α).Abreast (do throw (← complaint fault)) s s' j Q := by
  rw [complain_eq]
  refine peek.bind fun o o' i ho => .fail ?_ _ _
  cases o with
  | none => rw [Option.map_eq_none_iff.mp ho.1]
  | some t =>
    obtain ⟨t', rfl, ht'⟩ := Option.map_eq_some_iff.mp ho.1
    simp only [grievance, ht']
    split
    · rfl
    · exact h t t' ht'

theorem failWanting {names : List String} :
    (Parse.failWanting names : Parse α).Abreast (Parse.failWanting names) s s' j Q :=
  complain fun t t' ht => by simp only [SyntaxFault.bare, Option.map_some, Token.bare_congr ht]

theorem failUnexpected : (Parse.failUnexpected : Parse α).Abreast Parse.failUnexpected s s' j Q :=
  complain fun t t' ht => by simp only [SyntaxFault.bare, Token.bare_congr ht]

/-- Tokens that mean something here are taken, and the others are left where they are. -/
theorem acceptMap {meaning meaning' : Token → Option β} {f f' : Option β → Parse α}
    (hnone : (f none).Abreast (f' none) s s' j Q)
    (hsome : ∀ t t', t'.kind = t.kind → Option.Rel (fun b b' => (f (some b)).Abreast (f' (some b')) s s' (j + 1) Q)
      (meaning t) (meaning' t')) :
    (Parse.acceptMap meaning >>= f).Abreast (Parse.acceptMap meaning' >>= f') s s' j Q := by
  unfold Parse.acceptMap
  rw [bind_assoc, bind_assoc]
  refine fun c hc => (peek hc).bind fun o o' i d hpeek hd ho => ?_
  obtain ⟨ho, rfl⟩ := ho
  cases o with
  | none =>
    rw [Option.map_eq_none_iff.mp ho]
    exact hnone hd
  | some t =>
    obtain ⟨t', rfl, ht'⟩ := Option.map_eq_some_iff.mp ho
    have hrel := hsome t t' ht'
    dsimp only
    generalize meaning t = m, meaning' t' = m' at hrel ⊢
    cases hrel with
    | none => exact hnone hd
    | some h =>
      dsimp only
      rw [bind_assoc, bind_assoc]
      exact (Course.takeNext hd (look_of_peek hpeek)).bind fun _ _ k z _ hz hk => by
        obtain ⟨-, -, rfl⟩ := hk
        exact h hz

theorem acceptKind {meaning : Kind → Option β} {f f' : Option β → Parse α}
    (hnone : (f none).Abreast (f' none) s s' j Q)
    (hsome : ∀ k b, meaning k = some b → (f (some b)).Abreast (f' (some b)) s s' (j + 1) Q) :
    (Parse.acceptMap (meaning ·.kind) >>= f).Abreast (Parse.acceptMap (meaning ·.kind) >>= f') s s' j Q := by
  refine acceptMap hnone fun t t' ht => ?_
  rw [ht]
  cases hm : meaning t.kind with
  | none => exact .none
  | some b => exact .some (hsome _ b hm)

theorem takeIf (wanted : Kind → Bool) {f f' : Option Token → Parse α} (hnone : (f none).Abreast (f' none) s s' j Q)
    (hsome : ∀ t t', t'.kind = t.kind → wanted t.kind = true →
      (f (some t)).Abreast (f' (some t')) s s' (j + 1) Q) :
    (Parse.takeIf (wanted ·.kind) >>= f).Abreast (Parse.takeIf (wanted ·.kind) >>= f') s s' j Q := by
  rw [takeIf_eq]
  refine acceptMap hnone fun t t' ht => ?_
  rw [ht]
  split
  · next hw => exact .some (hsome t t' ht hw)
  · exact .none

theorem accept {kind : Kind} {f f' : Option Token → Parse α} (hnone : (f none).Abreast (f' none) s s' j Q)
    (hsome : ∀ t t', t'.kind = t.kind → (f (some t)).Abreast (f' (some t')) s s' (j + 1) Q) :
    (Parse.accept kind >>= f).Abreast (Parse.accept kind >>= f') s s' j Q :=
  takeIf (·.same kind) hnone fun t t' ht _ => hsome t t' ht

theorem require {kind : Kind} {description : String} :
    (Parse.require kind description).Abreast (Parse.require kind description) s s' j
      fun t t' i => t'.kind = t.kind ∧ i = j + 1 :=
  accept .failWanting fun _ _ ht => .pure ⟨ht, rfl⟩

theorem requireName :
    Parse.requireName.Abreast Parse.requireName s s' j fun r r' i => r'.1 = r.1 ∧ i = j + 1 := by
  refine acceptMap .failWanting fun t t' ht => ?_
  rw [ht]
  split
  · exact .some (.pure ⟨rfl, rfl⟩)
  · exact .none

/-- The spans that readers put in their answers. -/
theorem spanFrom {start start' : Span} {f f' : Span → Parse α} (h : ∀ r r', (f r).Abreast (f' r') s s' j Q) :
    (Parse.spanFrom start >>= f).Abreast (Parse.spanFrom start' >>= f') s s' j Q := by
  have hspan : (Parse.spanFrom start).Abreast (Parse.spanFrom start') s s' j fun _ _ i => i = j :=
    fun c hc => .ok hc (.refl c) rfl ⟨start, rfl⟩ fun _ c' _ hc' => ⟨_, c', rfl, hc', rfl⟩
  refine hspan.bind ?_
  rintro r r' _ rfl
  exact h r r'

end Abreast

/-! ### Readers that take something -/

/-- Answers that are the same as far as `view` shows, with `j` items or more behind the readers. -/
def Shows {γ : Type} (view : α → γ) (j : Nat) (a a' : α) (i : Nat) : Prop := view a' = view a ∧ j ≤ i

/-- From each place behind `j` items or more, the readers run abreast, take an item and answer the same as far as `view`
    shows. -/
def Tracks {γ : Type} (p p' : Parse α) (s s' : List Item) (j : Nat) (view : α → γ) : Prop :=
  ∀ ⦃i : Nat⦄, j ≤ i → p.Abreast p' s s' i (Shows view (i + 1))

section
variable {γ : Type} {view : α → γ}

theorem Shows.of_le {a a' : α} {k m : Nat} (h : Shows view j a a' k) (hi : i ≤ m) : Shows view i a a' m := ⟨h.1, hi⟩

/-- Lists in a row. -/
theorem Shows.append {as as' bs bs' : List α} {k m : Nat} (has : Shows (List.map view) j as as' k)
    (hbs : Shows (List.map view) i bs bs' m) (hj : j ≤ m) : Shows (List.map view) j (as ++ bs) (as' ++ bs') m := by
  refine ⟨?_, hj⟩
  rw [List.map_append, List.map_append, has.1, hbs.1]

theorem Shows.single {a a' : α} {k : Nat} (h : Shows view j a a' k) : Shows (List.map view) j [a] [a'] k :=
  ⟨congrArg ([·]) h.1, h.2⟩

end

namespace Tracks
variable {γ : Type} {p p' q : Parse α} {view : α → γ}

theorem within {name : String} (h : p.Tracks p' s s' j view) :
    (Parse.within name p).Tracks (Parse.within name p') s s' j view :=
  fun _ hi => (h hi).within

theorem of_length_lt (h : p.Tracks q s s' j view) (hlt : s'.length < j) : p.Tracks p' s s' j view :=
  fun _ hi => (h hi).of_length_lt (Nat.lt_of_lt_of_le hlt hi)

/-- No cursor of the first list has more items behind it than there are. -/
theorem of_lt_length (hlt : s.length < j) : p.Tracks p' s s' j view := by
  intro i hi c hc
  have := hc.le
  omega

/-- Towers of storeys, each of which reads its parts one storey below and behind another item: neither ground floor is
    reached. -/
theorem tower {ι : Type} {f : Nat → ι → Parse α}
    (hstep : ∀ n n' j, (∀ r, (f n r).Tracks (f n' r) s s' (j + 1) view) →
      ∀ r, (f (n + 1) r).Tracks (f (n' + 1) r) s s' j view) (hn : s.length < j + n) (hn' : s'.length < j + n') (r : ι) :
    (f n r).Tracks (f n' r) s s' j view := by
  induction n generalizing n' j r with
  | zero => exact of_lt_length hn
  | succ n ih =>
    cases n' with
    | zero => exact (hstep n 0 j (ih (by omega) (by omega)) r).of_length_lt hn'
    | succ m => exact hstep n m j (ih (by omega) (by omega)) r

/-- Towers as high as there are items left. -/
theorem counted {ι : Type} {f : Nat → ι → Parse α}
    (hstep : ∀ n n' j, (∀ r, (f n r).Tracks (f n' r) s s' (j + 1) view) →
      ∀ r, (f (n + 1) r).Tracks (f (n' + 1) r) s s' j view) (r : ι) :
    Tracks (fun c => f (c.remaining + 1) r c) (fun c => f (c.remaining + 1) r c) s s' j view :=
  fun i _ => Abreast.bounded (f · r) (f · r)
    fun _ _ hn hn' => tower hstep hn hn' r (Nat.le_refl i)

end Tracks

end Parse

end Offside

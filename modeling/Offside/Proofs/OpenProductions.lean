import Offside.Proofs.StmtAbreast

/-! # Which productions are open

A parser is asked for tokens and for whole productions, one call after the other, and productions of the caller's own
may be opened around these calls. Wherever that leads: a call that answers leaves the same productions open as before
it, a call that fails has opened some more and its error names them all, and there are never more than may be open. -/

namespace Offside

/-! ### Calls -/

/-- The productions that a parser is asked for, with what they answer. -/
inductive Production : Type → Type
  | testlist : Production Expr
  | test : Production Expr
  | testOpt : Production (Option Expr)
  | suite : Production Block
  | module : Production Module

def Production.run {α : Type} : Production α → Parse α
  | .testlist => Parse.testlist
  | .test => Parse.test
  | .testOpt => Parse.testOpt
  | .suite => Parse.suite
  | .module => Parse.module

/-- A cursor over `items` that calls have moved to where it is. -/
inductive Cursor.Reachable (items : List Item) : Cursor → Prop
  | new : Reachable items { input := items }
  | ask {c : Cursor} (a : Ask) : Reachable items c → Reachable items (a.run.after c)
  | complaint {c : Cursor} (fault : Token → SyntaxFault) : Reachable items c →
    Reachable items ((Parse.complaint fault).after c)
  | production {c : Cursor} {α : Type} (p : Production α) : Reachable items c → Reachable items (p.run.after c)
  | opening {c : Cursor} (name : String) : Reachable items c → c.stack.length < nestingLimit →
    Reachable items { c with stack := c.stack ++ [name] }
  | closing {c : Cursor} : Reachable items c → Reachable items { c with stack := c.stack.dropLast }

namespace Parse
variable {α β : Type} {items : List Item}

/-- What a call that begins at `c` does to the open productions. -/
inductive Keeps (c : Cursor) : EStateM.Result SyntaxError Cursor α → Prop
  | ok {a : α} {d : Cursor} : d.stack = c.stack → Keeps c (.ok a d)
  | error {e : SyntaxError} {d : Cursor} : e.stack = some d.stack → c.stack <+: d.stack →
    d.stack.length ≤ nestingLimit → Keeps c (.error e d)

theorem Keeps.of_stack {c d : Cursor} {r : EStateM.Result SyntaxError Cursor α} (h : Keeps d r)
    (hstack : d.stack = c.stack) : Keeps c r := by
  cases h with
  | ok hd => exact .ok (hd.trans hstack)
  | error he hd hle => exact .error he (hstack ▸ hd) hle

/-! ### Readers that move as cursors do -/

/-- From every cursor that moves lead to, a reader moves on, and keeps track of the open productions. -/
def Orderly (p : Parse α) (items : List Item) : Prop :=
  ∀ ⦃c : Cursor⦄ ⦃taken : List Token⦄, c.Reached items taken → Keeps c (p c) ∧ ∃ more, (p.after c).Reached items more

theorem Course.orderly {s s' : List Item} {j : Nat} {c : Cursor} {p p' : Parse α} {Q : α → α → Nat → Prop}
    (h : Course s s' j c p' Q (p c)) : Keeps c (p c) ∧ ∃ more, (p.after c).Reached s more := by
  refine ⟨?_, h.reached⟩
  generalize p c = r at h
  cases h with
  | ok _ _ hstack => exact .ok hstack
  | error hd _ hstack he =>
    obtain ⟨more, hreached⟩ := hd.reached
    exact .error he hstack hreached.stack_le

namespace Orderly
variable {p : Parse α}

theorem of_abreast {p' : Parse α} {Q : Nat → α → α → Nat → Prop} (h : ∀ j, p.Abreast p' items items j (Q j)) :
    p.Orderly items := by
  intro c taken hc
  exact (h _ hc.stands).orderly

theorem pure (a : α) : (Pure.pure a : Parse α).Orderly items := fun _ taken hc => ⟨.ok rfl, taken, hc⟩

theorem bind {f : α → Parse β} (hp : p.Orderly items) (hf : ∀ a, (f a).Orderly items) : (p >>= f).Orderly items := by
  intro c taken hc
  obtain ⟨hkeeps, more, hreached⟩ := hp hc
  unfold after at hreached ⊢
  obtain ⟨r, hpc⟩ : ∃ r, p c = r := ⟨_, rfl⟩
  rw [hpc] at hkeeps hreached
  cases hkeeps with
  | error he hstack hle =>
    rw [bind_error hpc]
    exact ⟨.error he hstack hle, more, hreached⟩
  | @ok a d hstack =>
    rw [bind_ok hpc]
    obtain ⟨hrest, hleft⟩ := hf a hreached
    exact ⟨hrest.of_stack hstack, hleft⟩

theorem peek : Parse.peek.Orderly items := of_abreast fun _ => Abreast.peek

theorem takeNext : Parse.takeNext.Orderly items := by
  intro c taken hc
  obtain ⟨hkeeps, more, hreached⟩ := peek hc
  cases hpeek : Parse.peek c with
  | error e d =>
    have htake : Parse.takeNext c = .error e d := bind_error hpeek
    rw [after_error hpeek] at hreached
    rw [after_error htake, htake, ← hpeek]
    exact ⟨hkeeps, more, hreached⟩
  | ok o d =>
    rw [after_ok hpeek] at hreached
    rw [hpeek] at hkeeps
    cases hkeeps with
    | ok hstack =>
      cases o with
      | none =>
        have htake : Parse.takeNext c = .ok none d := bind_ok hpeek
        rw [after_ok htake, htake]
        exact ⟨.ok hstack, more, hreached⟩
      | some t =>
        have hl := look_of_peek hpeek
        have htake : Parse.takeNext c = Parse.takeNext d := bind_congr_at (hpeek.trans (peek_of_look hl).symm)
        have hcourse : Course items items _ d Parse.takeNext _ (Parse.takeNext d) := .takeNext hreached.stands hl
        obtain ⟨hkeeps, hleft⟩ := hcourse.orderly
        rw [after, htake]
        exact ⟨hkeeps.of_stack hstack, hleft⟩

theorem takeIf (wanted : Token → Bool) : (Parse.takeIf wanted).Orderly items := by
  refine peek.bind fun o => ?_
  cases o with
  | none => exact .pure none
  | some t =>
    dsimp only
    split
    · exact takeNext
    · exact .pure none

theorem ask (a : Ask) : a.run.Orderly items := by
  cases a with
  | peek => exact peek.bind fun o => .pure _
  | sees kind => exact (peek.bind fun o => .pure _).bind fun b => .pure _
  | takeNext => exact takeNext.bind fun o => .pure _
  | takeIf wanted => exact (takeIf wanted).bind fun o => .pure _
  | require kind description => exact (of_abreast fun _ => Abreast.require).bind fun t => .pure _
  | requireName => exact (of_abreast fun _ => Abreast.requireName).bind fun r => .pure _

theorem production (p : Production α) : p.run.Orderly items := by
  cases p with
  | testlist => exact of_abreast fun j => tracks_testlist (Nat.le_refl j)
  | test => exact of_abreast fun j => tracks_test (Nat.le_refl j)
  | testOpt => exact of_abreast fun _ => abreast_testOpt
  | suite => exact of_abreast fun j => tracks_suite (Nat.le_refl j)
  | module => exact of_abreast fun _ => abreast_module items items

end Orderly

/-- The error for what a cursor sees names the productions that are open. -/
theorem complaint_stack (fault : Token → SyntaxFault) {c : Cursor} {taken : List Token} (h : c.Reached items taken) :
    ∃ e d more, complaint fault c = .ok e d ∧ d.Reached items more ∧ e.stack = some d.stack := by
  obtain ⟨hkeeps, more, hreached⟩ := Orderly.peek h
  cases hpeek : peek c with
  | error e d =>
    rw [hpeek] at hkeeps
    rw [after_error hpeek] at hreached
    cases hkeeps with
    | error he => exact ⟨e, d, more, complaint_of_error fault hpeek, hreached, he⟩
  | ok o d =>
    rw [after_ok hpeek] at hreached
    exact ⟨_, d, more, complaint_of_peek fault hpeek, hreached, rfl⟩

end Parse

namespace Cursor
variable {items : List Item} {c : Cursor}

/-- What calls lead to, moves lead to. -/
theorem Reachable.exists_reached (h : c.Reachable items) : ∃ taken, c.Reached items taken := by
  induction h with
  | new => exact ⟨[], .new⟩
  | ask a _ ih =>
    obtain ⟨taken, hreached⟩ := ih
    exact (Parse.Orderly.ask a hreached).2
  | complaint fault _ ih =>
    obtain ⟨taken, hreached⟩ := ih
    obtain ⟨e, d, more, hcomplaint, hd, -⟩ := Parse.complaint_stack fault hreached
    rw [Parse.after_ok hcomplaint]
    exact ⟨more, hd⟩
  | production p _ ih =>
    obtain ⟨taken, hreached⟩ := ih
    exact (Parse.Orderly.production p hreached).2
  | opening name _ hroom ih =>
    obtain ⟨taken, hreached⟩ := ih
    exact ⟨taken, hreached.opening name hroom⟩
  | closing _ ih =>
    obtain ⟨taken, hreached⟩ := ih
    exact ⟨taken, hreached.closing⟩

/-- Wherever calls have led a parser: no more productions are open than may be, each call closes what it opened or
    fails with an error that names all that are open then, and so does the error that a caller asks for. -/
theorem Reachable.keeps_stack (h : c.Reachable items) :
    c.stack.length ≤ nestingLimit ∧ (∀ (α : Type) (p : Production α), Parse.Keeps c (p.run c)) ∧
      (∀ a : Ask, Parse.Keeps c (a.run c)) ∧
      ∀ fault e d, Parse.complaint fault c = .ok e d → e.stack = some d.stack ∧ d.stack.length ≤ nestingLimit := by
  obtain ⟨taken, hreached⟩ := h.exists_reached
  refine ⟨hreached.stack_le, fun α p => (Parse.Orderly.production p hreached).1,
    fun a => (Parse.Orderly.ask a hreached).1, fun fault e d hcomplaint => ?_⟩
  obtain ⟨e', d', more, hcomplaint', hd, he⟩ := Parse.complaint_stack fault hreached
  obtain ⟨rfl, rfl⟩ := EStateM.Result.ok.inj (hcomplaint.symm.trans hcomplaint')
  exact ⟨he, hd.stack_le⟩

/-- A test with nothing but a bracket, in a program. -/
theorem Reachable.keeps_stack_bracket :
    Reachable [.ok { kind := .symbol .leftParen, span := {} }]
        { input := [.ok { kind := .symbol .leftParen, span := {} }], stack := ["file_input"] } ∧
      Parse.Keeps { input := [.ok { kind := .symbol .leftParen, span := {} }], stack := ["file_input"] }
        (Parse.test { input := [.ok { kind := .symbol .leftParen, span := {} }], stack := ["file_input"] }) :=
  have hreachable := Reachable.new.opening "file_input" (by decide)
  ⟨hreachable, (Reachable.keeps_stack hreachable).2.1 Expr .test⟩

end Cursor

end Offside

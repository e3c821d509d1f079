import Mathlib.Logic.Function.Iterate
import Offside.Proofs.AbreastReading
import Offside.Proofs.Rounds

/-! # Readers unrolled

Expressions and suites are read by towers of productions, as high as there are items left. A production asks for the
ones below it only behind a token that it has taken, so the ground floor is never reached: whatever stands there, the
tower reads the same, and each production is the one that its own definition makes of itself. -/

namespace Offside.Parse
variable {α β : Type} {n : Nat}

/-! ### Readers that are alike -/

/-- Where fewer than `n` items are left, the readers do the same, and leave no more items than there were. -/
def Alike (n : Nat) (p p' : Parse α) : Prop :=
  ∀ ⦃c : Cursor⦄, c.remaining < n → p' c = p c ∧ ∀ ⦃a d⦄, p c = .ok a d → d.remaining ≤ c.remaining

namespace Alike
variable {p p' : Parse α}

theorem zero : Alike 0 p p' := fun _ h => absurd h (Nat.not_lt_zero _)

theorem mono {m : Nat} (h : Alike n p p') (hm : m ≤ n) : Alike m p p' := fun _ hc => h (Nat.lt_of_lt_of_le hc hm)

theorem of_takes {L : α → List Token → Prop} (h : p.Takes L) : Alike n p p := by
  refine fun c _ => ⟨rfl, fun a d hp => ?_⟩
  obtain ⟨w, -, hahead⟩ := h.exists_ahead hp
  rw [c.remaining_eq, d.remaining_eq, hahead, List.length_append]
  exact Nat.le_add_left _ _

theorem of_walks (h : ∀ stream u, p.Walks stream u fun _ v => u <+: v) : Alike n p p :=
  of_takes (L := fun _ _ => True) fun stream u => (h stream u).imp fun _ _ ⟨w, hw⟩ => ⟨w, hw.symm, trivial⟩

theorem pure (a : α) : Alike n (Pure.pure a) (Pure.pure a) := of_walks fun _ u => .pure (List.prefix_refl u)

theorem bind {f f' : α → Parse β} (hp : Alike n p p') (hf : ∀ a, Alike n (f a) (f' a)) :
    Alike n (p >>= f) (p' >>= f') := by
  intro c hc
  obtain ⟨heq, hle⟩ := hp hc
  cases hpc : p c with
  | error e d =>
    rw [bind_error hpc, bind_error (heq.trans hpc)]
    exact ⟨rfl, nofun⟩
  | ok a d =>
    have hd := hle hpc
    obtain ⟨heq', hle'⟩ := hf a (Nat.lt_of_le_of_lt hd hc)
    rw [bind_ok hpc, bind_ok (heq.trans hpc)]
    exact ⟨heq', fun _ _ h => (hle' h).trans hd⟩

theorem ite {b : Prop} [Decidable b] {q q' : Parse α} (hp : Alike n p p') (hq : Alike n q q') :
    Alike n (if b then p else q) (if b then p' else q') := by
  split
  · exact hp
  · exact hq

theorem within {name : String} (h : Alike n p p') : Alike n (Parse.within name p) (Parse.within name p') := by
  intro c hc
  obtain ⟨heq, hle⟩ := h (c := { c with stack := c.stack ++ [name] }) hc
  unfold Parse.within
  rw [heq]
  refine ⟨rfl, fun a d hd => ?_⟩
  split at hd
  · cases hd
  · split at hd
    · next b c' hpc =>
      obtain ⟨-, rfl⟩ := EStateM.Result.ok.inj hd
      exact hle (d := c') hpc
    · cases hd

/-- Behind a token that is taken, readers only have to be alike for fewer items. -/
theorem acceptMap {meaning meaning' : Token → Option β} {f f' : Option β → Parse α}
    (hnone : Alike (n + 1) (f none) (f' none))
    (hsome : ∀ t, Option.Rel (fun b b' => Alike n (f (some b)) (f' (some b'))) (meaning t) (meaning' t)) :
    Alike (n + 1) (Parse.acceptMap meaning >>= f) (Parse.acceptMap meaning' >>= f') := by
  intro c hc
  unfold Parse.acceptMap
  rw [bind_assoc, bind_assoc]
  cases hpeek : Parse.peek c with
  | error e d =>
    rw [bind_error hpeek, bind_error hpeek]
    exact ⟨rfl, nofun⟩
  | ok o d =>
    obtain ⟨hahead, -, hlook⟩ := ahead_of_peek hpeek
    rw [bind_ok hpeek, bind_ok hpeek]
    rw [c.remaining_eq, ← hahead, ← d.remaining_eq] at hc ⊢
    cases o with
    | none => exact hnone hc
    | some t =>
      have hrel := hsome t
      dsimp only
      generalize meaning t = m, meaning' t = m' at hrel ⊢
      cases hrel with
      | none => exact hnone hc
      | @some b b' h =>
        dsimp only
        rw [bind_assoc, bind_assoc]
        cases htake : takeNext d with
        | error e d' =>
          rw [bind_error htake, bind_error htake]
          exact ⟨rfl, nofun⟩
        | ok o d' =>
          obtain ⟨-, hahead, -⟩ := ahead_of_takeNext (hlook t rfl) htake
          have hlt : d'.remaining < d.remaining := Cursor.FurtherOn.remaining_lt ⟨[t], by simp, hahead⟩
          obtain ⟨heq, hle⟩ := h (c := d') (by omega)
          rw [bind_ok htake, bind_ok htake]
          exact ⟨heq, fun _ _ hr => (hle hr).trans hlt.le⟩

theorem take {meaning : Token → Option β} {f f' : Option β → Parse α} (hnone : Alike (n + 1) (f none) (f' none))
    (hsome : ∀ b, Alike n (f (some b)) (f' (some b))) :
    Alike (n + 1) (Parse.acceptMap meaning >>= f) (Parse.acceptMap meaning >>= f') := by
  refine acceptMap hnone fun t => ?_
  cases meaning t with
  | none => exact .none
  | some b => exact .some (hsome b)

theorem takeIf {wanted : Token → Bool} {f f' : Option Token → Parse α} (hnone : Alike (n + 1) (f none) (f' none))
    (hsome : ∀ t, Alike n (f (some t)) (f' (some t))) :
    Alike (n + 1) (Parse.takeIf wanted >>= f) (Parse.takeIf wanted >>= f') := by
  rw [takeIf_eq]
  exact take hnone hsome

/-- Loops begin with the same number of rounds ahead. -/
theorem loop {step step' : α → Parse (ForInStep α)} (h : ∀ a, Alike n (step a) (step' a)) (a : α) :
    Alike n (Parse.loop step a) (Parse.loop step' a) := by
  have hbounded : ∀ (bound : Nat) (a : α), Alike n (Parse.repeatUpTo step bound a) (Parse.repeatUpTo step' bound a) := by
    intro bound
    induction bound with
    | zero => exact fun a => .pure a
    | succ bound ih =>
      intro a
      refine (h a).bind fun r => ?_
      cases r with
      | done b => exact .pure b
      | yield b => exact ih b
  exact fun c hc => hbounded (c.remaining + 1) a hc

theorem accept {kind : Kind} : Alike n (Parse.accept kind) (Parse.accept kind) := by
  refine of_walks fun stream u => Walks.takeIf.imp fun o v ho => ?_
  rcases ho with ⟨-, rfl⟩ | ⟨t, -, -, rfl⟩
  · exact List.prefix_refl v
  · exact List.prefix_append u [t]

theorem failWanting {names : List String} : Alike n (Parse.failWanting names : Parse α) (Parse.failWanting names) :=
  of_walks fun _ _ => .failWanting

theorem require {kind : Kind} {description : String} :
    Alike n (Parse.require kind description) (Parse.require kind description) := by
  refine accept.bind fun o => ?_
  cases o with
  | none => exact failWanting
  | some t => exact .pure t

theorem sees {kind : Kind} : Alike n (Parse.sees kind) (Parse.sees kind) :=
  of_walks fun _ u => Walks.sees.imp fun _ _ h => h ▸ List.prefix_refl u

theorem seesExpr : Alike n Parse.seesExpr Parse.seesExpr :=
  of_walks fun _ u => Walks.seesExpr.imp fun _ _ h => h ▸ List.prefix_refl u

theorem requireName : Alike n Parse.requireName Parse.requireName :=
  of_walks fun _ u => Walks.requireName.imp fun _ _ ⟨t, _, _, h⟩ => h ▸ List.prefix_append u [t]

theorem spanFrom {start : Span} : Alike n (Parse.spanFrom start) (Parse.spanFrom start) :=
  of_walks fun _ u => walks_spanFrom.imp fun _ _ h => h ▸ List.prefix_refl u

end Alike

/-! ### Expressions -/

section
variable {operand operand' test test' : Parse Expr} {item item' : Parse α}

theorem alike_chain {node? : Kind → Option (Expr → Expr → Expr)} (h : Alike (n + 1) operand operand') :
    Alike (n + 1) (chain operand node?) (chain operand' node?) := by
  refine h.bind fun first => Alike.loop (fun l => ?_) first
  exact .take (.pure _) fun node => (h.mono (Nat.le_succ n)).bind fun r => .pure _

theorem alike_binaryFrom (h : Alike (n + 1) operand operand') (levels : List (List (Symbol × BinaryOp))) :
    Alike (n + 1) (binaryFrom operand levels) (binaryFrom operand' levels) := by
  induction levels with
  | nil => exact h
  | cons ops levels ih => exact alike_chain ih

theorem alike_commaList (h : Alike n item item') {close : Symbol} {description : String} :
    Alike n (commaList item close description) (commaList item' close description) := by
  refine (Alike.loop (fun items => ?_) []).bind fun items => Alike.require.bind fun _ => .pure items
  refine Alike.sees.bind fun b => .ite (.pure _) (h.bind fun a => Alike.accept.bind fun o => ?_)
  cases o <;> exact .pure _

theorem alike_testlistOf (h : Alike n test test') : Alike n (testlistOf test) (testlistOf test') := by
  refine .within (h.within.bind fun first => Alike.sees.bind fun b => .ite (.pure _) ?_)
  refine (Alike.loop (fun items => ?_) [first]).bind fun items => Alike.spanFrom.bind fun s => .pure _
  refine Alike.accept.bind fun o => ?_
  cases o with
  | none => exact .pure _
  | some t => exact Alike.seesExpr.bind fun b => .ite (h.within.bind fun e => .pure _) (.pure _)

end

section
variable {below below' : Rule → Parse Expr} (h : ∀ r, Alike n (below r) (below' r))
include h

theorem alike_dictEntry : Alike n (dictEntry below) (dictEntry below') :=
  (h .test).bind fun _ => Alike.require.bind fun _ => (h .test).bind fun _ => .pure _

theorem alike_atomBody (t : Token) : Alike n (atomBody below t) (atomBody below' t) := by
  unfold atomBody
  split
  · exact .pure _
  · exact .pure _
  · exact .pure _
  · exact .pure _
  · refine Alike.accept.bind fun o => ?_
    cases o with
    | none => exact (alike_testlistOf (h .test)).bind fun e => Alike.require.bind fun _ => .pure e
    | some t => exact .pure _
  · exact (alike_commaList (h .test)).bind fun items => .pure _
  · exact (alike_commaList (alike_dictEntry h)).bind fun entries => .pure _

theorem alike_atom : Alike (n + 1) (atom below) (atom below') := by
  refine .within (.takeIf .failWanting fun t => ?_)
  exact (alike_atomBody h t).bind fun e => Alike.spanFrom.bind fun s => .pure _

theorem alike_atomTrailers : Alike (n + 1) (atomTrailers below) (atomTrailers below') := by
  refine (alike_atom h).bind fun first => Alike.loop (fun owner => ?_) first
  refine .takeIf ?_ fun t => ?_
  · refine Alike.accept.bind fun o => ?_
    cases o with
    | none => exact .pure _
    | some t => exact Alike.requireName.bind fun r => .pure _
  · exact (alike_commaList (h .test)).bind fun args => Alike.spanFrom.bind fun s => .pure _

theorem alike_power : Alike (n + 1) (power below) (power below') :=
  (alike_atomTrailers h).bind fun _ => .takeIf (.pure _) fun _ => (h .factor).bind fun _ => .pure _

theorem alike_factorBody : Alike (n + 1) (factorBody below) (factorBody below') :=
  .take (alike_power h) fun _ => (h .factor).within.bind fun _ => .pure _

theorem alike_binary : Alike (n + 1) (binary below) (binary below') := alike_binaryFrom (alike_factorBody h) binaryLevels

theorem alike_comparison : Alike (n + 1) (comparison below) (comparison below') := by
  refine (alike_binary h).bind fun left => (Alike.of_takes takes_comparisonOp).bind fun o => ?_
  cases o with
  | none => exact .pure _
  | some op => exact (alike_binary h).bind fun right => .pure _

theorem alike_notTestBody : Alike (n + 1) (notTestBody below) (notTestBody below') :=
  .takeIf (alike_comparison h) fun _ => (h .notTest).within.bind fun _ => .pure _

theorem alike_orTest : Alike (n + 1) (orTest below) (orTest below') := alike_chain (alike_chain (alike_notTestBody h))

theorem alike_testBody : Alike (n + 1) (testBody below) (testBody below') := by
  refine (alike_orTest h).bind fun body => .takeIf (.pure _) fun t => ?_
  refine ((alike_orTest h).mono (Nat.le_succ n)).bind fun test => Alike.require.bind fun _ => ?_
  exact (h .test).bind fun orelse => .pure _

/-- Where a production asks for one below it, a token has been taken. -/
theorem alike_rule (r : Rule) : Alike (n + 1) (rule below r) (rule below' r) := by
  cases r with
  | test => exact alike_testBody h
  | notTest => exact alike_notTestBody h
  | factor => exact alike_factorBody h

end

/-! ### Statements -/

section
variable {suite suite' : Parse Block} (h : Alike n suite suite')
include h

theorem alike_guarded : Alike n (guarded suite) (guarded suite') :=
  (Alike.of_takes phrases_test).bind fun _ => Alike.require.bind fun _ => h.bind fun _ => .pure _

theorem alike_elseSuite : Alike n (elseSuite suite) (elseSuite suite') := by
  refine Alike.accept.bind fun o => ?_
  cases o with
  | none => exact .pure _
  | some t => exact Alike.require.bind fun _ => h.bind fun _ => .pure _

theorem alike_ifStmt (start : Span) : Alike n (ifStmt suite start) (ifStmt suite' start) := by
  refine .within ((alike_guarded h).bind fun first => ?_)
  refine (Alike.loop (fun branches => ?_) [first]).bind fun branches => (alike_elseSuite h).bind fun orelse => .pure _
  refine Alike.accept.bind fun o => ?_
  cases o with
  | none => exact .pure _
  | some t => exact (alike_guarded h).bind fun r => .pure _

theorem alike_whileStmt (start : Span) : Alike n (whileStmt suite start) (whileStmt suite' start) :=
  .within ((alike_guarded h).bind fun _ => (alike_elseSuite h).bind fun _ => .pure _)

theorem alike_forStmt (start : Span) : Alike n (forStmt suite start) (forStmt suite' start) :=
  .within (Alike.requireName.bind fun _ => Alike.require.bind fun _ => (alike_guarded h).bind fun _ =>
    (alike_elseSuite h).bind fun _ => .pure _)

theorem alike_closureStmt (start : Span) (isLazy : Bool) :
    Alike n (closureStmt suite start isLazy) (closureStmt suite' start isLazy) :=
  .within ((Alike.of_takes takes_closureHead).bind fun _ => Alike.require.bind fun _ => h.bind fun _ => .pure _)

theorem alike_compound (start : Span) (k : Kind) :
    Option.Rel (Alike n) (compound? suite start k) (compound? suite' start k) := by
  unfold compound?
  split
  · exact .some (alike_ifStmt h start)
  · exact .some (alike_whileStmt h start)
  · exact .some (alike_forStmt h start)
  · exact .some (alike_closureStmt h start true)
  · exact .some (alike_closureStmt h start false)
  · exact .none

theorem alike_statementOver : Alike (n + 1) (statementOver suite) (statementOver suite') := by
  refine .acceptMap (.of_takes takes_simpleStmt) fun t => ?_
  have hrel := alike_compound h t.span t.kind
  generalize compound? suite t.span t.kind = m, compound? suite' t.span t.kind = m' at hrel ⊢
  cases hrel with
  | none => exact .none
  | some hrest => exact .some (hrest.bind fun s => .pure _)

/-- Where a suite asks for one inside it, a token has been taken. -/
theorem alike_suiteOver : Alike (n + 1) (suiteOver suite) (suiteOver suite') := by
  refine .within (Alike.accept.bind fun o => ?_)
  cases o with
  | none => exact (Alike.of_takes takes_simpleStmt).bind fun ss => .pure _
  | some t =>
    refine Alike.require.bind fun _ => (Alike.loop (fun stmts => ?_) []).bind fun ss => .pure _
    refine Alike.accept.bind fun o => ?_
    cases o with
    | none => exact (alike_statementOver h).bind fun ss => .pure _
    | some t => exact .pure _

end

/-! ### Towers -/

section
variable (ground ground' : Rule → Parse Expr) (floor floor' : Parse Block)

/-- Towers of the same height read alike where there are fewer items than storeys, whatever they stand on. -/
theorem alike_iterate_rule (r : Rule) : Alike n (rule^[n] ground r) (rule^[n] ground' r) := by
  induction n generalizing r with
  | zero => exact .zero
  | succ n ih =>
    rw [Function.iterate_succ_apply', Function.iterate_succ_apply']
    exact alike_rule ih r

theorem alike_iterate_suiteOver : Alike n (suiteOver^[n] floor) (suiteOver^[n] floor') := by
  induction n with
  | zero => exact .zero
  | succ n ih =>
    rw [Function.iterate_succ_apply', Function.iterate_succ_apply']
    exact alike_suiteOver ih

theorem storey_eq_iterate (height : Nat) : storey height = rule^[height] fun _ => failUnexpected := by
  induction height with
  | zero => rfl
  | succ height ih =>
    rw [Function.iterate_succ_apply', ← ih]
    rfl

theorem suiteUpTo_eq_iterate (height : Nat) : suiteUpTo height = suiteOver^[height] failUnexpected := by
  induction height with
  | zero => rfl
  | succ height ih =>
    rw [Function.iterate_succ_apply', ← ih]
    rfl

/-- An expression is read by a tower that is higher than there are items left, on whatever ground. -/
theorem iterate_rule_eq (extra : Nat) (r : Rule) (c : Cursor) :
    rule^[c.remaining + 1 + extra] ground r c = expr r c := by
  rw [expr, storey_eq_iterate, Function.iterate_add_apply]
  exact (alike_iterate_rule _ _ r (Nat.lt_succ_self c.remaining)).1

/-- A suite is read by a tower that is higher than there are items left, on whatever ground. -/
theorem iterate_suiteOver_eq (extra : Nat) (c : Cursor) :
    suiteOver^[c.remaining + 1 + extra] floor c = suite c := by
  rw [suite, suiteUpTo_eq_iterate, Function.iterate_add_apply]
  exact (alike_iterate_suiteOver _ _ (Nat.lt_succ_self c.remaining)).1

end

/-- A production is the one that its definition makes of itself. -/
theorem expr_eq_rule (r : Rule) : expr r = rule expr r := by
  funext c
  have hbelow (r : Rule) : Alike c.remaining (expr r) (storey c.remaining r) := by
    intro d hd
    obtain ⟨extra, hextra⟩ := Nat.exists_eq_add_of_lt hd
    rw [storey_eq_iterate, hextra, Nat.add_right_comm]
    exact ⟨iterate_rule_eq _ extra r d, (Alike.of_takes (phrases_expr r) (Nat.lt_succ_self _)).2⟩
  exact (alike_rule hbelow r (Nat.lt_succ_self c.remaining)).1

/-- A suite is the one that its definition makes of itself. -/
theorem suite_eq_suiteOver : suite = suiteOver suite := by
  funext c
  have hbelow : Alike c.remaining suite (suiteUpTo c.remaining) := by
    intro d hd
    obtain ⟨extra, hextra⟩ := Nat.exists_eq_add_of_lt hd
    rw [suiteUpTo_eq_iterate, hextra, Nat.add_right_comm]
    exact ⟨iterate_suiteOver_eq _ extra d, (Alike.of_takes takes_suite (Nat.lt_succ_self _)).2⟩
  exact (alike_suiteOver hbelow (Nat.lt_succ_self c.remaining)).1

/-! ### Reading ends and goes on -/

/-- Whatever a cursor has left, readings from it end: expressions and suites are what their own definitions make of them,
    unrolled once more often than items are left, whatever is put in their place from there on, and no bound ends a loop
    that is in them. And readings go on: each round of a loop that does not leave it has taken a token, and so has each
    production that answers. -/
theorem reading_ends_and_goes_on :
    (∀ (ground : Rule → Parse Expr) (extra : Nat) (r : Rule) (c : Cursor),
      rule^[c.remaining + 1 + extra] ground r c = expr r c) ∧
    (∀ (ground : Parse Block) (extra : Nat) (c : Cursor), suiteOver^[c.remaining + 1 + extra] ground c = suite c) ∧
    (∀ r, expr r = rule expr r) ∧ suite = suiteOver suite ∧
    (∀ (α : Type) (l : Repetition α) (a : α) (c : Cursor), Rounds l.step a c (loop l.step a c)) ∧
    testlist.Progresses ∧ test.Progresses ∧ statement.Progresses ∧ suite.Progresses ∧ module.Progresses :=
  ⟨iterate_rule_eq, iterate_suiteOver_eq, expr_eq_rule, suite_eq_suiteOver, fun _ l => rounds_loop l.grows_step,
    phrases_testlist.progresses, phrases_test.progresses, progresses_statement, progresses_suite, progresses_module⟩

end Offside.Parse

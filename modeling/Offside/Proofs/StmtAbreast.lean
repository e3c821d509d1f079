import Offside.Proofs.ExprAbreast
import Offside.Proofs.StmtPlaces

/-! # Statements abreast

As with expressions, the kinds of the tokens decide which statements are read and how the reading of a program fails:
where a token stands and how it is marked changes spans and nothing else. -/

namespace Offside.Parse
variable {s s' : List Item} {i j : Nat}

/-! ### Simple statements -/

theorem targetOf_bare (e : Expr) : targetOf e.bare = (targetOf e).map Target.bare := by
  cases e <;> simp only [Expr.bare, targetOf] <;> rfl

theorem abreast_target {e e' : Expr} (h : e'.bare = e.bare) :
    (target e).Abreast (target e') s s' j (Shows Target.bare j) := by
  have hmap : (targetOf e').map Target.bare = (targetOf e).map Target.bare := by
    rw [← targetOf_bare, ← targetOf_bare, h]
  unfold target
  generalize targetOf e = r, targetOf e' = r' at hmap
  cases r with
  | ok x =>
    cases r' with
    | ok x' => exact .pure ⟨Except.ok.inj hmap, Nat.le_refl j⟩
    | error found' => cases hmap
  | error found =>
    cases r' with
    | ok x' => cases hmap
    | error found' =>
      obtain rfl := Except.error.inj hmap
      exact .fail rfl (fun _ => some e.span) fun _ => some e'.span

/-- A target on the left, and what is assigned to it. -/
theorem abreast_assign {lhs lhs' : Expr} {node node' : Target → Expr → Stmt} (h : lhs'.bare = lhs.bare)
    (hnode : ∀ x x' e e', x'.bare = x.bare → e'.bare = e.bare → (node' x' e').bare = (node x e).bare) (hi : i ≤ j) :
    (do let x ← target lhs; let e ← testlist; return node x e : Parse Stmt).Abreast
      (do let x ← target lhs'; let e ← testlist; return node' x e) s s' j (Shows Stmt.bare i) := by
  refine (abreast_target h).bind fun x x' k hx => ?_
  have hk := hx.2
  refine (tracks_testlist (Nat.le_refl k)).bind fun e e' m he => ?_
  have hm := he.2
  exact .pure ⟨hnode x x' e e' hx.1 he.1, by omega⟩

theorem tracks_exprStmt : exprStmt.Tracks exprStmt s s' j Stmt.bare := by
  refine Tracks.within fun i hi => ?_
  refine (tracks_testlist hi).bind fun lhs lhs' k hlhs => ?_
  have hk := hlhs.2
  refine .accept ?_ fun t t' _ => ?_
  · refine .acceptKind (.pure ⟨?_, hk⟩) fun kind op _ => ?_
    · simp only [Stmt.bare, hlhs.1]
    · refine abreast_assign hlhs.1 (fun x x' e e' hx he => ?_) (by omega)
      simp only [Stmt.bare, hx, he]
  · refine abreast_assign hlhs.1 (fun x x' e e' hx he => ?_) (by omega)
    simp only [Stmt.bare, hx, he]

section
variable {start start' : Span}

/-- A statement up to the token taken last. -/
theorem abreast_finish {node node' : Span → Stmt} (h : ∀ r r', (node' r').bare = (node r).bare) (hi : i ≤ j) :
    (do return node (← spanFrom start) : Parse Stmt).Abreast (do return node' (← spanFrom start')) s s' j
      (Shows Stmt.bare i) :=
  .spanFrom fun r r' => .pure ⟨h r r', hi⟩

theorem abreast_assertStmt : (assertStmt start).Abreast (assertStmt start') s s' j (Shows Stmt.bare j) := by
  refine (tracks_test (Nat.le_refl j)).bind fun test test' k htest => ?_
  have hk := htest.2
  refine .accept (abreast_finish (fun r r' => ?_) (by omega)) fun t t' _ => ?_
  · simp only [Stmt.bare, htest.1]
  · refine (tracks_test (Nat.le_refl _)).bind fun msg msg' m hmsg => abreast_finish (fun r r' => ?_) ?_
    · simp only [Stmt.bare, Option.map_some, htest.1, hmsg.1]
    · have := hmsg.2
      omega

theorem abreast_globalStmt : (globalStmt start).Abreast (globalStmt start') s s' j (Shows Stmt.bare j) := by
  refine Abreast.requireName.bind fun first first' k hfirst => ?_
  obtain ⟨hfirst, hk⟩ := hfirst
  refine .bind (Q := Shows id j) ?_ fun names names' m hnames => abreast_finish (fun r r' => ?_) hnames.2
  · refine .loop (R := Shows id j) ⟨congrArg ([·]) hfirst, by omega⟩ fun names names' m hm hnames => ?_
    refine .accept (.pure hnames) fun t t' _ => ?_
    refine Abreast.requireName.bind fun name name' n hname => ?_
    obtain ⟨hname, hn⟩ := hname
    refine .pure ⟨⟨?_, by omega⟩, by omega⟩
    exact congrArg₂ (· ++ [·]) hnames.1 hname
  · simp only [Stmt.bare, show names' = names from hnames.1]

theorem abreast_execStmt : (execStmt start).Abreast (execStmt start') s s' j (Shows Stmt.bare j) := by
  refine Abreast.requireName.bind fun code code' k hcode => ?_
  obtain ⟨hcode, hk⟩ := hcode
  refine Abreast.require.bind fun t t' m hm => ?_
  refine (tracks_test (Nat.le_refl _)).bind fun space space' n hspace => abreast_finish (fun r r' => ?_) ?_
  · simp only [Stmt.bare, hcode, hspace.1]
  · have := hspace.2
    omega

/-- The same keywords start simple statements, and what stands behind them is read abreast. -/
theorem rel_keywordStmt (kind : Kind) :
    Option.Rel (fun p p' => p.Abreast p' s s' j (Shows Stmt.bare j)) (keywordStmt? start kind)
      (keywordStmt? start' kind) := by
  cases hk : keywordStmt? start kind with
  | none =>
    rw [keywordStmt?_none_anywhere hk]
    exact .none
  | some p =>
    unfold keywordStmt? at hk
    split at hk
    · obtain rfl := Option.some.inj hk
      exact .some (abreast_finish (fun _ _ => rfl) (Nat.le_refl j))
    · obtain rfl := Option.some.inj hk
      exact .some (abreast_finish (fun _ _ => rfl) (Nat.le_refl j))
    · obtain rfl := Option.some.inj hk
      exact .some (abreast_finish (fun _ _ => rfl) (Nat.le_refl j))
    · obtain rfl := Option.some.inj hk
      exact .some abreast_assertStmt
    · obtain rfl := Option.some.inj hk
      exact .some abreast_globalStmt
    · obtain rfl := Option.some.inj hk
      exact .some abreast_execStmt
    · cases hk

end

theorem tracks_smallStmt : smallStmt.Tracks smallStmt s s' j Stmt.bare := by
  intro i hi
  refine .acceptMap ?_ fun t t' ht => ?_
  · exact .seesExpr fun b => .ite (fun _ => tracks_exprStmt hi) fun _ => .failUnexpected
  · rw [ht]
    exact rel_keywordStmt t.kind

theorem tracks_simpleStmt : simpleStmt.Tracks simpleStmt s s' j (List.map Stmt.bare) := by
  refine Tracks.within fun i hi => ?_
  refine (tracks_smallStmt hi).bind fun first first' k hfirst => ?_
  refine .bind (Q := Shows (List.map Stmt.bare) (i + 1)) ?_ fun stmts stmts' m hstmts => ?_
  · refine .loop (R := Shows (List.map Stmt.bare) (i + 1)) hfirst.single fun stmts stmts' m hm hstmts => ?_
    have hm := hstmts.2
    refine .accept (.pure hstmts) fun t t' _ => .sees fun newline => ?_
    refine .ite (fun _ => .pure (hstmts.of_le (by omega))) fun _ => ?_
    refine (tracks_smallStmt (Nat.le_refl _)).bind fun st st' n hst => ?_
    have hn := hst.2
    exact .pure ⟨hstmts.append hst.single (by omega), by omega⟩
  · refine .accept .failWanting fun t t' _ => .pure (hstmts.of_le ?_)
    have := hstmts.2
    omega

/-! ### Compound statements over the suites inside -/

theorem bare_ofStmts (stmts : List Stmt) : (Block.ofStmts stmts).bare = ⟨stmts.map Stmt.bare, {}⟩ := by
  rw [Block.bare_eq, Block.stmts_ofStmts]

section
variable {suite suite' : Parse Block} (h : suite.Tracks suite' s s' (j + 1) Block.bare)
include h

theorem abreast_guarded (hi : j + 1 ≤ i) :
    (guarded suite).Abreast (guarded suite') s s' i (Shows (Prod.map Expr.bare Block.bare) (i + 1)) := by
  refine (tracks_test (Nat.le_refl i)).bind fun test test' k htest => ?_
  have hk := htest.2
  refine Abreast.require.bind fun t t' m hm => ?_
  refine (h (by omega)).bind fun body body' n hbody => ?_
  have hn := hbody.2
  exact .pure ⟨Prod.ext htest.1 hbody.1, by omega⟩

theorem abreast_elseSuite (hi : j + 1 ≤ i) :
    (elseSuite suite).Abreast (elseSuite suite') s s' i (Shows (Option.map Block.bare) i) := by
  refine .accept (.pure ⟨rfl, Nat.le_refl i⟩) fun t t' _ => ?_
  refine Abreast.require.bind fun t t' m hm => ?_
  refine (h (by omega)).bind fun body body' n hbody => ?_
  have hn := hbody.2
  exact .pure ⟨congrArg some hbody.1, by omega⟩

section
variable {start start' : Span}

theorem abreast_ifStmt (hi : j + 1 ≤ i) :
    (ifStmt suite start).Abreast (ifStmt suite' start') s s' i (Shows Stmt.bare i) := by
  refine Abreast.within ?_
  refine (abreast_guarded h hi).bind fun first first' k hfirst => ?_
  refine .bind (Q := Shows (List.map (Prod.map Expr.bare Block.bare)) (i + 1)) ?_
    fun branches branches' m hbranches => ?_
  · refine .loop (R := Shows (List.map (Prod.map Expr.bare Block.bare)) (i + 1)) hfirst.single
      fun branches branches' m hm hbranches => ?_
    have hm := hbranches.2
    refine .accept (.pure hbranches) fun t t' _ => ?_
    refine (abreast_guarded h (by omega)).bind fun branch branch' n hbranch => ?_
    have hn := hbranch.2
    exact .pure ⟨hbranches.append hbranch.single (by omega), by omega⟩
  · have hm := hbranches.2
    refine (abreast_elseSuite h (by omega)).bind fun orelse orelse' n horelse => ?_
    refine .pure ⟨?_, by have := horelse.2; omega⟩
    have hpairs : branches'.map (fun b => (b.1.bare, b.2.bare)) = branches.map fun b => (b.1.bare, b.2.bare) :=
      hbranches.1
    simp only [Stmt.bare, bareBranches_eq_map, bareOption_eq_map, hpairs, horelse.1]

theorem abreast_whileStmt (hi : j + 1 ≤ i) :
    (whileStmt suite start).Abreast (whileStmt suite' start') s s' i (Shows Stmt.bare i) := by
  refine Abreast.within ?_
  refine (abreast_guarded h hi).bind fun (test, body) (test', body') k hloop => ?_
  obtain ⟨htest : test'.bare = test.bare, hbody : body'.bare = body.bare⟩ := Prod.ext_iff.mp hloop.1
  have hk := hloop.2
  refine (abreast_elseSuite h (by omega)).bind fun orelse orelse' n horelse => ?_
  refine .pure ⟨?_, by have := horelse.2; omega⟩
  simp only [Stmt.bare, bareOption_eq_map, htest, hbody, horelse.1]

theorem abreast_forStmt (hi : j + 1 ≤ i) :
    (forStmt suite start).Abreast (forStmt suite' start') s s' i (Shows Stmt.bare i) := by
  refine Abreast.within ?_
  refine Abreast.requireName.bind fun name name' k hname => ?_
  obtain ⟨hname, hk⟩ := hname
  refine Abreast.require.bind fun t t' m hm => ?_
  refine (abreast_guarded h (by omega)).bind fun (iter, body) (iter', body') n hloop => ?_
  obtain ⟨hiter : iter'.bare = iter.bare, hbody : body'.bare = body.bare⟩ := Prod.ext_iff.mp hloop.1
  have hn := hloop.2
  refine (abreast_elseSuite h (by omega)).bind fun orelse orelse' o horelse => ?_
  refine .pure ⟨?_, by have := horelse.2; omega⟩
  simp only [Stmt.bare, bareOption_eq_map, hname, hiter, hbody, horelse.1]

end

end

theorem exists_name_of_bare {e : Expr} {n : String} (h : e.bare = .name {} n) : ∃ r, e = .name r n := by
  cases e with
  | name r m =>
    rw [Expr.bare] at h
    cases h
    exact ⟨r, rfl⟩
  | _ => simp only [Expr.bare, reduceCtorEq] at h

theorem abreast_closureHead :
    closureHead.Abreast closureHead s s' j (Shows (Prod.map id (Option.map Expr.bare)) (j + 1)) := by
  refine (tracks_operation (Nat.le_refl j)).bind fun head head' k hhead => ?_
  have hk := hhead.2
  refine .sees fun colon => .ite (fun _ => ?_) fun _ => ?_
  · split
    · next r n =>
      obtain ⟨r', rfl⟩ := exists_name_of_bare hhead.1
      exact .pure ⟨rfl, hk⟩
    · next hnot =>
      split
      · next r' n =>
        obtain ⟨r, rfl⟩ := exists_name_of_bare hhead.1.symm
        exact (hnot r n rfl).elim
      · exact .failWanting
  · refine Abreast.requireName.bind fun name name' m hname => ?_
    obtain ⟨hname, hm⟩ := hname
    exact .pure ⟨Prod.ext hname (congrArg some hhead.1), by omega⟩

section
variable {suite suite' : Parse Block} (h : suite.Tracks suite' s s' (j + 1) Block.bare)
include h

theorem abreast_closureStmt {start start' : Span} (isLazy : Bool) (hi : j + 1 ≤ i) :
    (closureStmt suite start isLazy).Abreast (closureStmt suite' start' isLazy) s s' i (Shows Stmt.bare i) := by
  refine Abreast.within ?_
  refine abreast_closureHead.bind fun (name, wrapper) (name', wrapper') k hhead => ?_
  obtain ⟨rfl : name' = name, hwrapper : wrapper'.map Expr.bare = wrapper.map Expr.bare⟩ := Prod.ext_iff.mp hhead.1
  have hk := hhead.2
  refine Abreast.require.bind fun t t' m hm => ?_
  refine (h (by omega)).bind fun body body' n hbody => ?_
  refine .pure ⟨?_, by have := hbody.2; omega⟩
  simp only [Stmt.bare, Closure.bare, hwrapper, hbody.1]

/-- The same keywords start compound statements, and what stands behind them is read abreast. -/
theorem rel_compound (start start' : Span) (kind : Kind) (hi : j + 1 ≤ i) :
    Option.Rel (fun p p' => p.Abreast p' s s' i (Shows Stmt.bare i)) (compound? suite start kind)
      (compound? suite' start' kind) := by
  cases hk : compound? suite start kind with
  | none =>
    rw [compound?_none_anywhere hk]
    exact .none
  | some p =>
    unfold compound? at hk
    split at hk
    · obtain rfl := Option.some.inj hk
      exact .some (abreast_ifStmt h hi)
    · obtain rfl := Option.some.inj hk
      exact .some (abreast_whileStmt h hi)
    · obtain rfl := Option.some.inj hk
      exact .some (abreast_forStmt h hi)
    · obtain rfl := Option.some.inj hk
      exact .some (abreast_closureStmt h true hi)
    · obtain rfl := Option.some.inj hk
      exact .some (abreast_closureStmt h false hi)
    · cases hk

theorem tracks_statementOver :
    (statementOver suite).Tracks (statementOver suite') s s' j (List.map Stmt.bare) := by
  intro i hi
  refine .acceptMap (tracks_simpleStmt hi) fun t t' ht => ?_
  have hrel := rel_compound (i := i + 1) h t.span t'.span t.kind (by omega)
  rw [ht]
  generalize compound? suite t.span t.kind = o, compound? suite' t'.span t.kind = o' at hrel ⊢
  cases hrel with
  | none => exact .none
  | some hp => exact .some (hp.bind fun st st' k hst => .pure hst.single)

theorem tracks_suiteOver : (suiteOver suite).Tracks (suiteOver suite') s s' j Block.bare := by
  refine Tracks.within fun i hi => ?_
  refine .accept ?_ fun t t' _ => ?_
  · refine (tracks_simpleStmt hi).bind fun stmts stmts' k hstmts => .pure ⟨?_, hstmts.2⟩
    rw [bare_ofStmts, bare_ofStmts, hstmts.1]
  · refine Abreast.require.bind fun t t' k hk => ?_
    refine .bind (Q := Shows (List.map Stmt.bare) (i + 1)) ?_ fun stmts stmts' m hstmts => .pure ⟨?_, hstmts.2⟩
    · refine .loop (R := Shows (List.map Stmt.bare) (i + 1)) ⟨rfl, by omega⟩ fun stmts stmts' m hm hstmts => ?_
      have hm := hstmts.2
      refine .accept ?_ fun t t' _ => .pure (hstmts.of_le (by omega))
      refine (tracks_statementOver h (by omega)).bind fun more more' n hmore => ?_
      have hn := hmore.2
      exact .pure ⟨hstmts.append hmore (by omega), by omega⟩
    · rw [bare_ofStmts, bare_ofStmts, hstmts.1]

end

/-! ### The tower -/

theorem tracks_suite : suite.Tracks suite s s' j Block.bare :=
  Tracks.counted (f := fun n (_ : Unit) => suiteUpTo n) (fun _ _ _ h _ => tracks_suiteOver (h ())) ()

/-- Programs are read abreast. -/
theorem abreast_module (s s' : List Item) : module.Abreast module s s' j (Shows Module.bare j) := by
  refine Abreast.within ?_
  refine .bind (Q := Shows (List.map Stmt.bare) j) ?_ fun stmts stmts' k hstmts => ?_
  · refine .loop (R := Shows (List.map Stmt.bare) j) ⟨rfl, Nat.le_refl j⟩ fun stmts stmts' k hk hstmts => ?_
    refine .accept ?_ fun t t' _ => .pure ⟨hstmts.of_le (by omega), Nat.lt_succ_self k⟩
    refine .sees fun ending => .ite (fun _ => .pure hstmts) fun _ => ?_
    refine Abreast.peek.bind fun o o' m ho => ?_
    obtain ⟨ho, rfl⟩ := ho
    have hnone : o'.isNone = o.isNone := by rw [← Option.isNone_map, ho, Option.isNone_map]
    rw [hnone]
    refine .ite (fun _ => .failUnexpected) fun _ => ?_
    refine (tracks_statementOver tracks_suite (Nat.le_refl m)).bind fun more more' n hmore => ?_
    have hn := hmore.2
    exact .pure ⟨hstmts.append hmore (by omega), by omega⟩
  · refine Abreast.require.bind fun t t' m hm => .pure ⟨?_, by have := hstmts.2; omega⟩
    simp only [Module.bare, bare_ofStmts, hstmts.1]

end Offside.Parse

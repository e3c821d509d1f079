import Offside.Proofs.ExprReading
import Offside.Proofs.StmtGrammar

/-! # Simple statements are read by their grammar

Expression statements and assignments, the statements with a keyword, and lines of them. -/

namespace Offside.Parse
open Grammar

variable {all : List Token} {ks rest : List Kind} {room n : Nat} {err : SyntaxFault → Prop}

/-- A statement as the grammar makes it. -/
def alone (s : Stmt) : List Stmt := [s.bare]

/-- All that can stand behind a simple statement is a semicolon or the end of the line. -/
def smallMore (k : Kind) : Bool := k != .symbol .semicolon && k != .newline

theorem Stops.of_small {more : Kind → Bool} (h : Stops smallMore ks) (hs : more (.symbol .semicolon) = false)
    (hn : more .newline = false) : Stops more ks := by
  refine h.imp fun k hk => ?_
  unfold smallMore
  rw [Bool.and_eq_true, bne_iff_ne, bne_iff_ne]
  constructor
  · rintro rfl
    rw [hs] at hk
    cases hk
  · rintro rfl
    rw [hn] at hk
    cases hk

/-! ### Expressions and assignments -/

theorem assignable_of_targetOf {e : Expr} {t : Target} (h : targetOf e = .ok t) : Assignable e.bare t.bare := by
  unfold targetOf at h
  split at h
  · cases h
    exact .name
  · cases h
    exact .attribute
  all_goals cases h

theorem targetOf_of_assignable {e : Expr} {t : Target} (h : Assignable e.bare t) :
    ∃ t', targetOf e = .ok t' ∧ t'.bare = t := by
  cases e <;> cases h <;> exact ⟨_, rfl, rfl⟩

theorem Reads.target {e : Expr} : (Parse.target e).Reads all room ks (fun _ => True) fun t rest =>
    rest = ks ∧ Assignable e.bare t.bare := by
  intro c hc
  unfold Parse.target
  cases h : targetOf e with
  | ok t => exact ⟨ks, hc, rfl, assignable_of_targetOf h⟩
  | error found => trivial

theorem Reads.target_next {e : Expr} {t : Target} (h : Assignable e.bare t) :
    (Parse.target e).Reads all room ks err fun t' rest => rest = ks ∧ t'.bare = t := by
  obtain ⟨t', ht, rfl⟩ := targetOf_of_assignable h
  refine .of_ok fun c hc => ⟨t', c, ks, ?_, hc, rfl, rfl⟩
  rw [Parse.target, ht]

theorem stops_augOp {o : Kind} {op : AugOp} (h : augOp? o = some op) : Stops (listMore testMore) (o :: ks) := by
  refine stops_cons ?_
  unfold augOp? at h
  split at h <;> first | rfl | cases h

theorem parses_exprStmt : exprStmt.Parses alone (Makes .exprStmt) smallMore n where
  sound {all room ks} _ := by
    unfold exprStmt
    refine .within (fun _ => trivial) fun r hr => ?_
    subst hr
    refine (parses_testlist.sound (Nat.lt_succ_self _)).bind fun l ks₁ hl => ?_
    obtain ⟨w, rfl, hl⟩ := hl
    refine (Reads.accept).bind fun o ks₂ ho => ?_
    rcases ho with ⟨t, rfl, rfl⟩ | ⟨rfl, rfl, -⟩
    · refine Reads.target.bind fun t ks₃ ht => ?_
      obtain ⟨rfl, ht⟩ := ht
      refine (parses_testlist.sound (Nat.lt_succ_self _)).bind fun r ks₄ hr => ?_
      obtain ⟨v, rfl, hr⟩ := hr
      exact .pure ⟨w ++ .symbol .assign :: v, by simp, .assign hl ht hr⟩
    · refine Reads.acceptKind.bind fun o ks₃ ho => ?_
      rcases ho with ⟨k, op, rfl, hop, rfl⟩ | ⟨rfl, rfl, -⟩
      · refine Reads.target.bind fun t ks₄ ht => ?_
        obtain ⟨rfl, ht⟩ := ht
        refine (parses_testlist.sound (Nat.lt_succ_self _)).bind fun r ks₅ hr => ?_
        obtain ⟨v, rfl, hr⟩ := hr
        exact .pure ⟨w ++ k :: v, by simp, .augAssign hl ht hop hr⟩
      · exact .pure ⟨w, rfl, .expr hl⟩
  complete {all room depth w rest ss} _ hw hstop := by
    unfold exprStmt
    have hstop' : Stops (listMore testMore) rest := hstop.of_small rfl rfl
    obtain ⟨depth, rfl⟩ : ∃ d, depth = d + 1 := by cases hw <;> exact ⟨_, rfl⟩
    refine .within (fun h0 => ⟨by omega, rfl⟩) fun r hr => ?_
    subst hr
    refine Reads.imp ?_ (fun _ => TooDeep.succ) fun _ _ h => h
    cases hw with
    | expr hl =>
      refine (parses_testlist.complete (Nat.lt_succ_self _) hl hstop').bind fun l ks₁ hl => ?_
      obtain ⟨rfl, rfl⟩ := hl
      refine (Reads.accept_other (hstop.head?_ne rfl)).bind fun o ks₂ ho => ?_
      obtain ⟨rfl, rfl⟩ := ho
      refine Reads.acceptKind.bind fun o ks₃ ho => ?_
      rcases ho with ⟨k, op, rfl, hop, -⟩ | ⟨rfl, rfl, -⟩
      · refine absurd rfl (hstop.head?_ne (k := k) ?_)
        unfold augOp? at hop
        split at hop <;> first | rfl | cases hop
      · exact .pure ⟨rfl, rfl⟩
    | @assign _ w l t v r hl ht hr =>
      rw [List.append_assoc]
      refine (parses_testlist.complete (Nat.lt_succ_self _) hl (stops_cons rfl)).bind fun l ks₁ hl => ?_
      obtain ⟨rfl, rfl⟩ := hl
      refine (Reads.accept_next).bind fun o ks₂ ho => ?_
      obtain ⟨⟨u, rfl⟩, rfl⟩ := ho
      refine (Reads.target_next ht).bind fun t ks₃ ht => ?_
      obtain ⟨rfl, rfl⟩ := ht
      refine (parses_testlist.complete (Nat.lt_succ_self _) hr hstop').bind fun r ks₄ hr => ?_
      obtain ⟨rfl, rfl⟩ := hr
      exact .pure ⟨rfl, rfl⟩
    | @augAssign _ w l t o op v r hl ht hop hr =>
      rw [List.append_assoc]
      refine (parses_testlist.complete (Nat.lt_succ_self _) hl (stops_augOp hop)).bind fun l ks₁ hl => ?_
      obtain ⟨rfl, rfl⟩ := hl
      refine (Reads.accept_other ?_).bind fun o' ks₂ ho => ?_
      · intro he
        cases he
        cases hop
      obtain ⟨rfl, rfl⟩ := ho
      refine Reads.acceptKind.bind fun o' ks₃ ho => ?_
      rcases ho with ⟨k, op', hk, hop', rfl⟩ | ⟨-, -, ho⟩
      · obtain ⟨rfl, rfl⟩ := List.cons.inj hk
        cases hop.symm.trans hop'
        refine (Reads.target_next ht).bind fun t ks₄ ht => ?_
        obtain ⟨rfl, rfl⟩ := ht
        refine (parses_testlist.complete (Nat.lt_succ_self _) hr hstop').bind fun r ks₅ hr => ?_
        obtain ⟨rfl, rfl⟩ := hr
        exact .pure ⟨rfl, rfl⟩
      · cases hop.symm.trans (ho _ rfl)

/-! ### Statements with a keyword -/

/-- A statement whose keyword has been taken. -/
def AfterWord (p : Part) (word : Keyword) (k : Nat) (w : List Kind) (ss : List Stmt) : Prop :=
  Makes p k (.keyword word :: w) ss

/-- What follows a keyword that begins no expression is no expression statement. -/
theorem not_exprStmt {k : Nat} {word : Keyword} {w : List Kind} {ss : List Stmt} (hword : startsExpr (.keyword word) = false) :
    ¬Makes .exprStmt k (.keyword word :: w) ss :=
  fun h => h.begins_exprStmt.head?_ne hword rfl

theorem parses_done {word : Keyword} {node : Span → Stmt} {start : Span}
    (hnode : ∀ k w ss, AfterWord .small word k w ss ↔ w = [] ∧ ss = [(node {}).bare])
    (hbare : ∀ s, (node s).bare = (node {}).bare) :
    (do return node (← spanFrom start) : Parse Stmt).Parses alone (AfterWord .small word) smallMore n where
  sound _ := by
    refine Reads.spanFrom.bind fun s ks₁ hs => ?_
    subst hs
    exact .pure ⟨[], rfl, (hnode _ _ _).mpr ⟨rfl, by rw [alone, hbare]⟩⟩
  complete _ hw _ := by
    obtain ⟨rfl, rfl⟩ := (hnode _ _ _).mp hw
    refine Reads.spanFrom.bind fun s ks₁ hs => ?_
    subst hs
    exact .pure ⟨rfl, by rw [alone, hbare]⟩

theorem parses_assertStmt {start : Span} : (assertStmt start).Parses alone (AfterWord .small .assertKw) smallMore n where
  sound {all room ks} _ := by
    unfold assertStmt
    refine (parses_test.sound (Nat.lt_succ_self _)).bind fun e ks₁ he => ?_
    obtain ⟨w, rfl, hw⟩ := he
    cases room with
    | zero => exact hw.elim
    | succ room =>
      refine (Reads.accept).bind fun o ks₂ ho => ?_
      rcases ho with ⟨t, rfl, rfl⟩ | ⟨rfl, rfl, -⟩
      · refine (parses_test.sound (Nat.lt_succ_self _)).bind fun m ks₃ hm => ?_
        obtain ⟨v, rfl, hv⟩ := hm
        refine Reads.spanFrom.bind fun s ks₄ hs => ?_
        subst hs
        exact .pure ⟨w ++ .symbol .comma :: v, by simp, .assertWith hw hv⟩
      · refine Reads.spanFrom.bind fun s ks₃ hs => ?_
        subst hs
        exact .pure ⟨w, rfl, .assert hw⟩
  complete {all room depth w rest ss} _ hw hstop := by
    unfold assertStmt
    have hstop' : Stops testMore rest := hstop.of_small rfl rfl
    cases hw with
    | @assert depth w e hw =>
      have hw' : Opened (Derives .test) (depth + 1) w e := hw
      refine (parses_test.complete (Nat.lt_succ_self _) hw' hstop').bind fun e ks₁ he => ?_
      obtain ⟨rfl, rfl⟩ := he
      refine (Reads.accept_other (hstop.head?_ne rfl)).bind fun o ks₂ ho => ?_
      obtain ⟨rfl, rfl⟩ := ho
      refine Reads.spanFrom.bind fun s ks₃ hs => ?_
      subst hs
      exact .pure ⟨rfl, rfl⟩
    | @assertWith depth w e v m hw hv =>
      have hw' : Opened (Derives .test) (depth + 1) w e := hw
      have hv' : Opened (Derives .test) (depth + 1) v m := hv
      rw [List.append_assoc]
      refine (parses_test.complete (Nat.lt_succ_self _) hw' (stops_cons rfl)).bind fun e ks₁ he => ?_
      obtain ⟨rfl, rfl⟩ := he
      refine (Reads.accept_next).bind fun o ks₂ ho => ?_
      obtain ⟨⟨t, rfl⟩, rfl⟩ := ho
      refine (parses_test.complete (Nat.lt_succ_self _) hv' hstop').bind fun m ks₃ hm => ?_
      obtain ⟨rfl, rfl⟩ := hm
      refine Reads.spanFrom.bind fun s ks₄ hs => ?_
      subst hs
      exact .pure ⟨rfl, rfl⟩
    | expression h => exact absurd h (not_exprStmt rfl)

/-- A name alone. -/
def oneName : Parse String := do return (← Parse.requireName).1

theorem parses_oneName : oneName.Parses id (fun _ w name => w = [.name name]) (fun _ => false) n where
  sound _ := by
    refine (Reads.requireName fun _ _ => trivial).bind fun r ks₁ hr => ?_
    subst hr
    exact .pure ⟨[.name r.1], rfl, rfl⟩
  complete _ hw _ := by
    subst hw
    refine (Reads.requireName_next).bind fun r ks₁ hr => ?_
    obtain ⟨rfl, rfl⟩ := hr
    exact .pure ⟨rfl, rfl⟩

theorem globalStmt_eq (start : Span) : globalStmt start = do
    let first ← oneName
    let names ← moreItems .comma (pure true) oneName [first]
    return .global (← Parse.spanFrom start) names := by
  simp only [globalStmt, oneName, moreItems, bind_assoc, pure_bind, if_true]
  rfl

theorem reads_always : (pure true : Parse Bool).Reads all room ks err fun b rest => rest = ks ∧ (b = true ↔ True) :=
  .pure ⟨rfl, by simp⟩

theorem map_nameWords {pieces : List (List Kind × String)} (h : ∀ p ∈ pieces, p.1 = [.name p.2]) :
    pieces.map (·.1) = (pieces.map (·.2)).map fun name => [.name name] := by
  rw [List.map_map]
  exact List.map_congr_left h

theorem parses_globalStmt {start : Span} : (globalStmt start).Parses alone (AfterWord .small .globalKw) smallMore n where
  sound {all room ks} _ := by
    rw [globalStmt_eq]
    refine (parses_oneName.sound (Nat.lt_succ_self _)).bind fun first ks₁ hfirst => ?_
    obtain ⟨-, rfl, rfl⟩ := hfirst
    refine (sound_moreItems parses_oneName reads_always (Nat.lt_succ_self _)).bind fun names ks₂ hnames => ?_
    obtain ⟨trailing, pieces, rfl, hnames, hp, -, htrailing⟩ := hnames
    obtain rfl : trailing = false := by simpa using htrailing
    refine Reads.spanFrom.bind fun s ks₃ hs => ?_
    subst hs
    obtain rfl : names = first :: pieces.map (·.2) := by simpa using hnames
    refine .pure ⟨.name first :: followed .comma false (pieces.map (·.1)), by simp, ?_⟩
    rw [map_nameWords hp]
    exact Makes.global (List.cons_ne_nil first _)
  complete {all room depth w rest ss} _ hw hstop := by
    rw [globalStmt_eq]
    cases hw with
    | @global _ names hne =>
      obtain ⟨first, names, rfl⟩ := List.exists_cons_of_ne_nil hne
      have hmap : (names.map fun name => ([.name name], name)).map (·.1) = names.map fun name => [Kind.name name] := by
        simp
      rw [List.map_cons, separated, ← hmap, List.append_assoc]
      refine (parses_oneName.complete (Nat.lt_succ_self _) rfl stops_nothing).bind fun first' ks₁ hfirst => ?_
      obtain ⟨rfl, rfl⟩ := hfirst
      refine (complete_moreItems parses_oneName reads_always rfl (fun _ _ _ => trivial) ?_ (Nat.lt_succ_self _)
        stops_nothing (hstop.head?_ne (k := .symbol .comma) rfl) (by simp)).bind fun names' ks₂ hnames => ?_
      · intro p hp
        obtain ⟨name, -, rfl⟩ := List.mem_map.mp hp
        rfl
      obtain ⟨rfl, hnames⟩ := hnames
      refine Reads.spanFrom.bind fun s ks₃ hs => ?_
      subst hs
      obtain rfl : names' = first' :: names := by simpa [Function.comp_def] using hnames
      exact .pure ⟨rfl, rfl⟩
    | expression h => exact absurd h (not_exprStmt rfl)

theorem parses_execStmt {start : Span} : (execStmt start).Parses alone (AfterWord .small .execKw) smallMore n where
  sound {all room ks} _ := by
    unfold execStmt
    refine (Reads.requireName fun _ _ => trivial).bind fun r ks₁ hr => ?_
    subst hr
    refine (Reads.require fun _ _ => trivial).bind fun _ ks₂ hks => ?_
    subst hks
    refine (parses_test.sound (Nat.lt_succ_self _)).bind fun e ks₃ he => ?_
    obtain ⟨w, rfl, hw⟩ := he
    refine Reads.spanFrom.bind fun s ks₄ hs => ?_
    subst hs
    refine .pure ⟨.name r.1 :: .keyword .inKw :: w, rfl, ?_⟩
    cases room with
    | zero => exact hw.elim
    | succ room => exact .exec hw
  complete {all room depth w rest ss} _ hw hstop := by
    unfold execStmt
    cases hw with
    | @exec depth name w e hw =>
      have hw' : Opened (Derives .test) (depth + 1) w e := hw
      refine (Reads.requireName_next).bind fun r ks₁ hr => ?_
      obtain ⟨rfl, rfl⟩ := hr
      refine (Reads.require_next).bind fun _ ks₂ hks => ?_
      subst hks
      refine (parses_test.complete (Nat.lt_succ_self _) hw' (hstop.of_small rfl rfl)).bind fun e ks₃ he => ?_
      obtain ⟨rfl, rfl⟩ := he
      refine Reads.spanFrom.bind fun s ks₄ hs => ?_
      subst hs
      exact .pure ⟨rfl, rfl⟩
    | expression h => exact absurd h (not_exprStmt rfl)

/-- Each keyword of a simple statement is followed by what its statement wants. -/
theorem parses_keywordStmt {start : Span} {k : Kind} {p : Parse Stmt} (h : keywordStmt? start k = some p) :
    ∃ word, k = .keyword word ∧ p.Parses alone (AfterWord .small word) smallMore n := by
  unfold keywordStmt? at h
  split at h
  · cases h
    refine ⟨_, rfl, parses_done (fun k w ss => ⟨fun hw => ?_, ?_⟩) fun _ => rfl⟩
    · cases hw with
      | pass => exact ⟨rfl, rfl⟩
      | expression h => exact absurd h (not_exprStmt rfl)
    · rintro ⟨rfl, rfl⟩
      exact .pass
  · cases h
    refine ⟨_, rfl, parses_done (fun k w ss => ⟨fun hw => ?_, ?_⟩) fun _ => rfl⟩
    · cases hw with
      | breakLoop => exact ⟨rfl, rfl⟩
      | expression h => exact absurd h (not_exprStmt rfl)
    · rintro ⟨rfl, rfl⟩
      exact .breakLoop
  · cases h
    refine ⟨_, rfl, parses_done (fun k w ss => ⟨fun hw => ?_, ?_⟩) fun _ => rfl⟩
    · cases hw with
      | continueLoop => exact ⟨rfl, rfl⟩
      | expression h => exact absurd h (not_exprStmt rfl)
    · rintro ⟨rfl, rfl⟩
      exact .continueLoop
  · cases h
    exact ⟨_, rfl, parses_assertStmt⟩
  · cases h
    exact ⟨_, rfl, parses_globalStmt⟩
  · cases h
    exact ⟨_, rfl, parses_execStmt⟩
  · cases h

/-- A simple statement that begins with no keyword of one is an expression statement. -/
theorem exprStmt_of_small {start : Span} {k : Kind} {depth : Nat} {w : List Kind} {ss : List Stmt}
    (h : Makes .small depth (k :: w) ss) (hk : keywordStmt? start k = none) : Makes .exprStmt depth (k :: w) ss := by
  cases h with
  | expression h => exact h
  | _ => cases hk

theorem parses_smallStmt : smallStmt.Parses alone (Makes .small) smallMore n where
  sound {all room ks} _ := by
    unfold smallStmt
    refine Reads.acceptMap.bind fun o ks₁ ho => ?_
    rcases ho with ⟨t, rfl, hsome, rfl⟩ | ⟨rfl, rfl, -⟩
    · obtain ⟨p, hp⟩ := Option.isSome_iff_exists.mp hsome
      rw [hp]
      obtain ⟨word, hword, hparses⟩ := parses_keywordStmt (n := ks₁.length + 1) hp
      refine (hparses.sound (Nat.lt_succ_self _)).imp (fun _ h => h) fun s rest => ?_
      rintro ⟨w, rfl, hw⟩
      exact ⟨t.kind :: w, rfl, by rw [hword]; exact hw⟩
    · refine Reads.seesExpr.bind fun b ks₂ hb => ?_
      obtain ⟨rfl, -⟩ := hb
      refine .ite (fun _ => ?_) fun _ => .failUnexpected fun _ => trivial
      refine (parses_exprStmt.sound (Nat.lt_succ_self _)).imp (fun _ h => h) fun s rest => ?_
      rintro ⟨w, rfl, hw⟩
      exact ⟨w, rfl, .expression hw⟩
  complete {all room depth w rest ss} _ hw hstop := by
    unfold smallStmt
    obtain ⟨k, v, rfl, hk⟩ := hw.begins_small
    refine Reads.acceptMap.bind fun o ks₁ ho => ?_
    rcases ho with ⟨t, hks, hsome, rfl⟩ | ⟨rfl, rfl, ho⟩
    · obtain ⟨rfl, rfl⟩ := List.cons.inj hks
      obtain ⟨p, hp⟩ := Option.isSome_iff_exists.mp hsome
      rw [hp]
      obtain ⟨word, hword, hparses⟩ := parses_keywordStmt (n := (v ++ rest).length + 1) hp
      rw [hword] at hw
      exact hparses.complete (Nat.lt_succ_self _) hw hstop
    · obtain ⟨t, rfl, hnone⟩ := ho k rfl
      have hexpr := exprStmt_of_small hw hnone
      refine Reads.seesExpr.bind fun b ks₂ hb => ?_
      obtain ⟨rfl, hb⟩ := hb
      obtain rfl : b = true := by
        obtain ⟨l, u, hlu, hl⟩ := hexpr.begins_exprStmt
        exact hb.mpr ⟨l, by rw [hlu]; rfl, hl⟩
      exact parses_exprStmt.complete (Nat.lt_succ_self _) hexpr hstop

/-! ### Lines -/

/-- Whether the line goes on. -/
def lineGoesOn : Parse Bool := do return !(← sees .newline)

theorem reads_lineGoesOn : lineGoesOn.Reads all room ks err fun b rest =>
    rest = ks ∧ (b = true ↔ ks.head? ≠ some .newline) := by
  refine (Reads.sees).bind fun b ks₁ hb => ?_
  obtain ⟨rfl, hb⟩ := hb
  refine .pure ⟨rfl, ?_⟩
  rw [Bool.not_eq_true', ne_eq, ← hb, Bool.not_eq_true]

/-- The simple statements of a line, and the end of the line. -/
def lineBody : Parse (List Stmt) := do
  let first ← smallStmt
  let stmts ← moreItems .semicolon lineGoesOn smallStmt [first]
  match ← accept .newline with
  | some _ => return stmts
  | none => failWanting ["';'", "newline"]

theorem simpleStmt_eq : simpleStmt = Parse.within "simple_stmt" lineBody := by
  unfold simpleStmt lineBody moreItems
  refine congrArg (Parse.within "simple_stmt") (congrArg (smallStmt >>= ·) (funext fun first => ?_))
  refine congrArg (fun step => loop step [first] >>= _) (funext fun stmts => ?_)
  refine congrArg (accept (.symbol .semicolon) >>= ·) (funext fun o => ?_)
  cases o with
  | none => rfl
  | some t =>
    simp only [lineGoesOn, bind_assoc, pure_bind]
    refine congrArg (sees .newline >>= ·) (funext fun b => ?_)
    cases b <;> rfl

theorem parses_small : smallStmt.Parses Stmt.bare (fun k w s => Makes .small k w [s]) smallMore n :=
  ⟨parses_smallStmt.sound, fun hlt hw hstop =>
    (parses_smallStmt.complete hlt hw hstop).imp (fun _ h => h) fun _ _ h => ⟨h.1, List.singleton_inj.mp h.2⟩⟩

theorem parses_simpleStmt : simpleStmt.Parses (List.map Stmt.bare) (Makes .simple) (fun _ => false) n where
  sound {all room ks} _ := by
    rw [simpleStmt_eq]
    refine .within (fun _ => trivial) fun r hr => ?_
    subst hr
    unfold lineBody
    refine (parses_small.sound (Nat.lt_succ_self _)).bind fun first ks₁ hfirst => ?_
    obtain ⟨w, rfl, hw⟩ := hfirst
    refine (sound_moreItems parses_small reads_lineGoesOn (Nat.lt_succ_self _)).bind fun stmts ks₂ hstmts => ?_
    obtain ⟨trailing, pieces, rfl, hstmts, hp, -, -⟩ := hstmts
    refine (Reads.accept).bind fun o ks₃ ho => ?_
    rcases ho with ⟨t, rfl, rfl⟩ | ⟨rfl, -, -⟩
    · refine .pure ⟨w ++ (followed .semicolon trailing (pieces.map (·.1)) ++ [.newline]), by simp, ?_⟩
      rw [hstmts, ← List.append_assoc]
      have hall : ∀ p ∈ (w, first.bare) :: pieces, Makes .small r p.1 [p.2] := by
        intro p hmem
        rcases List.mem_cons.mp hmem with rfl | hmem
        · exact hw
        · exact hp p hmem
      exact Makes.simple (List.cons_ne_nil _ _) hall
    · exact .failWanting fun _ => trivial
  complete {all room depth w rest ss} _ hw _ := by
    rw [simpleStmt_eq]
    cases hw with
    | @simple depth trailing pieces hne hp =>
      obtain ⟨p, ps, rfl⟩ := List.exists_cons_of_ne_nil hne
      refine .within (fun h0 => ⟨by omega, rfl⟩) fun r hr => ?_
      subst hr
      refine Reads.imp ?_ (fun _ => TooDeep.succ) fun _ _ h => h
      unfold lineBody
      have hps : ∀ q ∈ ps, Makes .small depth q.1 [q.2] := fun q hq => hp q (List.mem_cons_of_mem _ hq)
      have hgoes : ∀ q ∈ ps, ∀ v, (q.1 ++ v).head? ≠ some .newline :=
        fun q hq v => ((hps q hq).begins_small.append v).head?_ne rfl
      have hnext : Stops smallMore (followed .semicolon trailing (ps.map (·.1)) ++ .newline :: rest) := by
        cases ps with
        | nil =>
          cases trailing with
          | false => exact stops_cons rfl
          | true => exact stops_cons rfl
        | cons q ps => exact stops_cons rfl
      rw [List.map_cons, separated, List.append_assoc, List.append_assoc, List.singleton_append]
      refine (parses_small.complete (Nat.lt_succ_self _) (hp p (List.mem_cons_self ..)) hnext).bind fun first ks₁ hfirst => ?_
      obtain ⟨rfl, hfirst⟩ := hfirst
      refine (complete_moreItems parses_small reads_lineGoesOn rfl hgoes hps (Nat.lt_succ_self _) (stops_cons rfl)
        (by simp) (by simp)).bind fun stmts ks₂ hstmts => ?_
      obtain ⟨rfl, hstmts⟩ := hstmts
      refine (Reads.accept_next).bind fun o ks₃ ho => ?_
      obtain ⟨⟨t, rfl⟩, rfl⟩ := ho
      exact .pure ⟨rfl, by rw [hstmts, List.map_singleton, hfirst]; rfl⟩

end Offside.Parse

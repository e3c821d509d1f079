import Offside.Proofs.LineReading

/-! # Compound statements and suites are read by their grammar

As for expressions, every production takes exactly the words of its part of the grammar. Suites are given in
terms of the suites inside them, which come behind a token that has been taken. -/

namespace Offside.Parse
open Grammar

variable {all : List Token} {ks rest : List Kind} {room n : Nat} {err : SyntaxFault → Prop}

/-! ### Compound statements -/

/-- The statements of a block as the grammar makes them. -/
def blockStmts (b : Block) : List Stmt := b.stmts.map Stmt.bare

def branchParts (b : Expr × Block) : Expr × List Stmt := (b.1.bare, blockStmts b.2)

theorem bare_block (b : Block) : b.bare = ⟨blockStmts b, {}⟩ := b.bare_eq

theorem bareBranches_eq (bs : List (Expr × Block)) :
    bareBranches bs = (bs.map branchParts).map fun p => (p.1, ⟨p.2, {}⟩) := by
  rw [bareBranches_eq_map, List.map_map]
  refine List.map_congr_left fun b _ => ?_
  rw [bare_block]
  rfl

theorem bareOption_eq (o : Option Block) : bareOption o = (o.map blockStmts).map fun ss => ⟨ss, {}⟩ := by
  cases o with
  | none => rfl
  | some b => rw [bareOption, bare_block]; rfl

theorem blockStmts_ofStmts (ss : List Stmt) : blockStmts (.ofStmts ss) = ss.map Stmt.bare := by
  unfold Block.ofStmts
  split <;> rfl

/-- The words of a compound statement are at their end unless another branch comes. -/
def stmtMore (k : Kind) : Bool := k == .keyword .elifKw || k == .keyword .elseKw

/-- What a branch is made from, while its statement is read. -/
structure BranchMade (k : Nat) (b : Branch) : Prop where
  test : Opened (Derives .test) k b.testWords b.test
  suite : Makes .suite k b.suiteWords b.body

/-- The words of a suite for when no condition holds, if there is one. -/
structure Orelse (k : Nat) (w : List Kind) (o : Option (List Stmt)) (orelse : Option (List Kind × List Stmt)) : Prop where
  words : w = elseWords orelse
  stmts : o = orelse.map (·.2)
  suite : ∀ p ∈ orelse, Makes .suite k p.1 p.2

/-- No statement goes on with what another one begins with. -/
theorem not_stmtMore_of_startsStmt {k : Kind} (h : startsStmt k = true) : stmtMore k = false := by
  cases hm : stmtMore k with
  | false => rfl
  | true =>
    rcases Bool.or_eq_true_iff.mp hm with he | he
    · rw [eq_of_beq he] at h
      cases h
    · rw [eq_of_beq he] at h
      cases h

theorem stops_stmt_body {k : Nat} {v : List Kind} {ts : List Stmt} (h : Makes .body k v ts) :
    Stops stmtMore (v ++ .blockEnd :: rest) := by
  cases h with
  | nil => exact stops_cons rfl
  | cons h _ =>
    obtain ⟨l, u, rfl, hl⟩ := h.begins_stmt
    exact stops_cons (not_stmtMore_of_startsStmt hl)

theorem stops_stmt_lines {k : Nat} {v : List Kind} {ts : List Stmt} (h : Makes .lines k v ts) :
    Stops stmtMore (v ++ rest) := by
  cases h with
  | ended => exact stops_cons rfl
  | blank _ => exact stops_cons rfl
  | next h _ =>
    obtain ⟨l, u, rfl, hl⟩ := h.begins_stmt
    exact stops_cons (not_stmtMore_of_startsStmt hl)

theorem not_simple {k : Nat} {word : Keyword} {w : List Kind} {ss : List Stmt} (hword : startsSmall (.keyword word) = false) :
    ¬Makes .simple k (.keyword word :: w) ss :=
  fun h => h.begins_simple.head?_ne hword rfl

/-- The words between the keyword of a closure block and its colon. -/
inductive Header : Nat → List Kind → String × Option Expr → Prop where
  | alone {k n w} (h : NameInParens n k w) : Header k w (n, none)
  | wrapped {k n w e} (h : Derives (.operation binaryLevels) k w e) : Header k (w ++ [.name n]) (n, some e)

theorem sound_closureHead : closureHead.Reads all room ks (fun _ => True) fun r rest =>
    ∃ w, ks = w ++ rest ∧ Header room w (r.1, r.2.map Expr.bare) := by
  unfold closureHead
  refine (parses_operation.sound (Nat.lt_succ_self _)).bind fun e ks₁ he => ?_
  obtain ⟨w, rfl, hw⟩ := he
  refine (Reads.sees).bind fun b ks₂ hb => ?_
  obtain ⟨rfl, -⟩ := hb
  refine .ite (fun _ => ?_) fun _ => ?_
  · cases e with
    | name s n => exact .pure ⟨w, rfl, .alone (derives_operation_name_iff.mp hw)⟩
    | _ => exact .failWanting fun _ => trivial
  · refine (Reads.requireName fun _ _ => trivial).bind fun r ks₃ hr => ?_
    subst hr
    exact .pure ⟨w ++ [.name r.1], by simp, .wrapped hw⟩

theorem complete_closureHead {depth : Nat} {w : List Kind} {h : String × Option Expr} (hw : Header depth w h) :
    closureHead.Reads all room (w ++ .symbol .colon :: rest) (TooDeep room depth) fun r left =>
      left = .symbol .colon :: rest ∧ (r.1, r.2.map Expr.bare) = h := by
  unfold closureHead
  cases hw with
  | alone hw =>
    refine (parses_operation.complete (Nat.lt_succ_self _) (derives_operation_name_iff.mpr hw) (stops_cons rfl)).bind
      fun e ks₁ he => ?_
    obtain ⟨rfl, he⟩ := he
    refine (Reads.sees).bind fun b ks₂ hb => ?_
    obtain ⟨rfl, hb⟩ := hb
    obtain rfl : b = true := hb.mpr rfl
    cases e with
    | name s n =>
      cases he
      exact .pure ⟨rfl, rfl⟩
    | _ => cases he
  | wrapped hw =>
    rw [List.append_assoc, List.singleton_append]
    refine (parses_operation.complete (Nat.lt_succ_self _) hw (stops_cons rfl)).bind fun e ks₁ he => ?_
    obtain ⟨rfl, rfl⟩ := he
    refine (Reads.sees).bind fun b ks₂ hb => ?_
    obtain ⟨rfl, hb⟩ := hb
    obtain rfl : b = false := by simpa using hb
    refine (Reads.requireName_next).bind fun r ks₃ hr => ?_
    obtain ⟨rfl, rfl⟩ := hr
    exact .pure ⟨rfl, rfl⟩

section
variable {suite : Parse Block} (hsuite : suite.Parses blockStmts (Makes .suite) (fun _ => false) n)
include hsuite

theorem parses_guarded : (guarded suite).Parses branchParts
    (Piecewise BranchMade Branch.words fun b => (b.test, b.body)) (fun _ => false) n where
  sound {all room ks} hlt := by
    unfold guarded
    refine (parses_test.sound (Nat.lt_succ_self _)).bind fun e ks₁ he => ?_
    obtain ⟨w, rfl, hw⟩ := he
    refine (Reads.require fun _ _ => trivial).bind fun _ ks₂ hks => ?_
    subst hks
    refine (hsuite.sound (by simp at hlt; omega)).bind fun b ks₃ hb => ?_
    obtain ⟨v, rfl, hv⟩ := hb
    exact .pure ⟨w ++ .symbol .colon :: v, by simp, ⟨w, e.bare, v, blockStmts b⟩, rfl, rfl, hw, hv⟩
  complete {all room depth w rest p} hlt hw _ := by
    obtain ⟨b, rfl, rfl, hb⟩ := hw
    unfold guarded
    rw [Branch.words, List.append_assoc, List.cons_append] at hlt ⊢
    refine (parses_test.complete (Nat.lt_succ_self _) hb.test (stops_cons rfl)).bind fun e ks₁ he => ?_
    obtain ⟨rfl, he⟩ := he
    refine (Reads.require_next).bind fun _ ks₂ hks => ?_
    subst hks
    refine (hsuite.complete (by simp at hlt ⊢; omega) hb.suite stops_nothing).bind fun b' ks₃ hb' => ?_
    obtain ⟨rfl, hb'⟩ := hb'
    exact .pure ⟨rfl, by rw [branchParts, he, hb']⟩

theorem parses_elseSuite : (elseSuite suite).Parses (Option.map blockStmts)
    (fun k w o => ∃ orelse, Orelse k w o orelse) (· == .keyword .elseKw) n where
  sound {all room ks} hlt := by
    unfold elseSuite
    refine (Reads.accept).bind fun o ks₁ ho => ?_
    rcases ho with ⟨t, rfl, rfl⟩ | ⟨rfl, rfl, -⟩
    · refine (Reads.require fun _ _ => trivial).bind fun _ ks₂ hks => ?_
      subst hks
      refine (hsuite.sound (by simp at hlt; omega)).bind fun b ks₃ hb => ?_
      obtain ⟨v, rfl, hv⟩ := hb
      refine .pure ⟨.keyword .elseKw :: .symbol .colon :: v, rfl, some (v, blockStmts b), rfl, rfl, ?_⟩
      rintro p ⟨⟩
      exact hv
    · exact .pure ⟨[], rfl, none, rfl, rfl, nofun⟩
  complete {all room depth w rest o} hlt hw hstop := by
    obtain ⟨orelse, rfl, rfl, ho⟩ := hw
    unfold elseSuite
    cases orelse with
    | none =>
      refine (Reads.accept_other (hstop.head?_ne (by simp))).bind fun o ks₁ ho => ?_
      obtain ⟨rfl, rfl⟩ := ho
      exact .pure ⟨rfl, rfl⟩
    | some p =>
      refine (Reads.accept_next).bind fun o ks₁ ho => ?_
      obtain ⟨⟨t, rfl⟩, rfl⟩ := ho
      refine (Reads.require_next).bind fun _ ks₂ hks => ?_
      subst hks
      refine (hsuite.complete (Nat.lt_of_succ_lt (Nat.lt_of_succ_lt hlt)) (ho p rfl) stops_nothing).bind
        fun b ks₃ hb => ?_
      obtain ⟨rfl, hb⟩ := hb
      exact .pure ⟨rfl, congrArg some hb⟩

theorem parses_whileStmt {start : Span} :
    (whileStmt suite start).Parses alone (AfterWord .stmt .whileKw) stmtMore n where
  sound {all room ks} hlt := by
    unfold whileStmt
    refine .within (fun _ => trivial) fun r hr => ?_
    subst hr
    refine ((parses_guarded hsuite).sound hlt).bind fun p ks₁ hp => ?_
    obtain ⟨-, rfl, b, rfl, hbp, hb⟩ := hp
    refine ((parses_elseSuite hsuite).sound (by simp at hlt; omega)).bind fun o ks₂ ho => ?_
    obtain ⟨v, rfl, orelse, rfl, ho, hos⟩ := ho
    obtain ⟨ht, hbody⟩ := Prod.mk.inj hbp
    refine .pure ⟨b.words ++ elseWords orelse, by simp, ?_⟩
    rw [alone, Stmt.bare, bare_block, bareOption_eq, ht, hbody, ho, Option.map_map]
    cases r with
    | zero => exact hb.test.elim
    | succ r => exact Makes.whileLoop hb.test hb.suite hos
  complete {all room depth w rest ss} hlt hw hstop := by
    unfold whileStmt
    cases hw with
    | line h => exact absurd h (not_simple rfl)
    | closure h => cases h
    | wrapped h => cases h
    | @whileLoop depth b orelse ht hs ho =>
      have hb : BranchMade (depth + 1) b := ⟨ht, hs⟩
      refine .within (fun h0 => ⟨by omega, rfl⟩) fun r hr => ?_
      subst hr
      refine Reads.imp ?_ (fun _ => TooDeep.succ) fun _ _ h => h
      rw [List.append_assoc] at hlt ⊢
      refine ((parses_guarded hsuite).complete hlt ⟨b, rfl, rfl, hb⟩ stops_nothing).bind fun p ks₁ hp => ?_
      obtain ⟨rfl, hbp⟩ := hp
      obtain ⟨ht, hbody⟩ := Prod.mk.inj hbp
      refine ((parses_elseSuite hsuite).complete (by simp at hlt ⊢; omega) ⟨orelse, rfl, rfl, ho⟩
        (hstop.imp fun k hk => by simp_all [stmtMore])).bind fun o ks₂ ho => ?_
      obtain ⟨rfl, ho⟩ := ho
      refine .pure ⟨rfl, ?_⟩
      rw [alone, Stmt.bare, bare_block, bareOption_eq, ht, hbody, ho, Option.map_map]
      rfl

theorem parses_forStmt {start : Span} : (forStmt suite start).Parses alone (AfterWord .stmt .forKw) stmtMore n where
  sound {all room ks} hlt := by
    unfold forStmt
    refine .within (fun _ => trivial) fun r hr => ?_
    subst hr
    refine (Reads.requireName fun _ _ => trivial).bind fun x ks₁ hx => ?_
    subst hx
    refine (Reads.require fun _ _ => trivial).bind fun _ ks₂ hks => ?_
    subst hks
    refine ((parses_guarded hsuite).sound (Nat.lt_of_succ_lt (Nat.lt_of_succ_lt hlt))).bind fun p ks₃ hp => ?_
    obtain ⟨-, rfl, b, rfl, hbp, hb⟩ := hp
    refine ((parses_elseSuite hsuite).sound (by simp at hlt; omega)).bind fun o ks₄ ho => ?_
    obtain ⟨v, rfl, orelse, rfl, ho, hos⟩ := ho
    obtain ⟨ht, hbody⟩ := Prod.mk.inj hbp
    refine .pure ⟨.name x.1 :: .keyword .inKw :: (b.words ++ elseWords orelse), by simp, ?_⟩
    rw [alone, Stmt.bare, bare_block, bareOption_eq, ht, hbody, ho, Option.map_map]
    cases r with
    | zero => exact hb.test.elim
    | succ r => exact Makes.forLoop hb.test hb.suite hos
  complete {all room depth w rest ss} hlt hw hstop := by
    unfold forStmt
    cases hw with
    | line h => exact absurd h (not_simple rfl)
    | closure h => cases h
    | wrapped h => cases h
    | @forLoop depth x b orelse ht hs ho =>
      have hb : BranchMade (depth + 1) b := ⟨ht, hs⟩
      refine .within (fun h0 => ⟨by omega, rfl⟩) fun r hr => ?_
      subst hr
      refine Reads.imp ?_ (fun _ => TooDeep.succ) fun _ _ h => h
      rw [List.cons_append, List.cons_append, List.append_assoc] at hlt ⊢
      refine (Reads.requireName_next).bind fun r ks₁ hr => ?_
      obtain ⟨rfl, rfl⟩ := hr
      refine (Reads.require_next).bind fun _ ks₂ hks => ?_
      subst hks
      refine ((parses_guarded hsuite).complete (Nat.lt_of_succ_lt (Nat.lt_of_succ_lt hlt)) ⟨b, rfl, rfl, hb⟩
        stops_nothing).bind fun p ks₃ hp => ?_
      obtain ⟨rfl, hbp⟩ := hp
      obtain ⟨ht, hbody⟩ := Prod.mk.inj hbp
      refine ((parses_elseSuite hsuite).complete (by simp at hlt ⊢; omega) ⟨orelse, rfl, rfl, ho⟩
        (hstop.imp fun k hk => by simp_all [stmtMore])).bind fun o ks₄ ho => ?_
      obtain ⟨rfl, ho⟩ := ho
      refine .pure ⟨rfl, ?_⟩
      rw [alone, Stmt.bare, bare_block, bareOption_eq, ht, hbody, ho, Option.map_map]
      rfl

theorem parses_ifStmt {start : Span} : (ifStmt suite start).Parses alone (AfterWord .stmt .ifKw) stmtMore n where
  sound {all room ks} hlt := by
    unfold ifStmt
    refine .within (fun _ => trivial) fun r hr => ?_
    subst hr
    refine ((parses_guarded hsuite).sound hlt).bind fun p ks₁ hp => ?_
    obtain ⟨-, rfl, b, rfl, hbp, hb⟩ := hp
    refine Reads.bind (Q := fun branches rest => ∃ others : List Branch,
      ks₁ = others.flatMap (fun b => .keyword .elifKw :: b.words) ++ rest ∧
      branches.map branchParts = (b :: others).map (fun b => (b.test, b.body)) ∧ ∀ b ∈ others, BranchMade r b) ?_
      fun branches ks₂ hbranches => ?_
    · refine .loop (R := fun branches rest => ∃ others : List Branch,
        ks₁ = others.flatMap (fun b => .keyword .elifKw :: b.words) ++ rest ∧
        branches.map branchParts = (b :: others).map (fun b => (b.test, b.body)) ∧ ∀ b ∈ others, BranchMade r b)
        ⟨[], rfl, by simp [hbp], nofun⟩ ?_
      rintro branches ks' ⟨others, rfl, hbranches, hothers⟩
      refine (Reads.accept).bind fun o ks₂ ho => ?_
      rcases ho with ⟨t, rfl, rfl⟩ | ⟨rfl, rfl, -⟩
      · refine ((parses_guarded hsuite).sound (by simp at hlt; omega)).bind fun q ks₃ hq => ?_
        obtain ⟨-, rfl, c, rfl, hcq, hc⟩ := hq
        refine .pure ⟨⟨others ++ [c], by simp, ?_, forall_mem_concat hothers hc⟩,
          by simp only [List.length_append, List.length_cons]; omega⟩
        rw [List.map_append, hbranches, List.map_singleton, hcq, ← List.cons_append, List.map_append, List.map_singleton]
      · exact .pure ⟨others, rfl, hbranches, hothers⟩
    · obtain ⟨others, rfl, hbranches, hothers⟩ := hbranches
      refine ((parses_elseSuite hsuite).sound (by simp at hlt; omega)).bind fun o ks₃ ho => ?_
      obtain ⟨v, rfl, orelse, rfl, ho, hos⟩ := ho
      refine .pure ⟨b.words ++ (others.flatMap (fun b => .keyword .elifKw :: b.words) ++ elseWords orelse), by simp, ?_⟩
      rw [alone, Stmt.bare, bareBranches_eq, bareOption_eq, hbranches, ho, Option.map_map, List.map_map]
      cases r with
      | zero => exact hb.test.elim
      | succ r =>
        have hall : ∀ c ∈ b :: others, BranchMade (r + 1) c := by
          intro c hmem
          rcases List.mem_cons.mp hmem with rfl | hmem
          · exact hb
          · exact hothers c hmem
        exact Makes.ifElse (fun c h => (hall c h).test) (fun c h => (hall c h).suite) hos
  complete {all room depth w rest ss} hlt hw hstop := by
    unfold ifStmt
    cases hw with
    | line h => exact absurd h (not_simple rfl)
    | closure h => cases h
    | wrapped h => cases h
    | @ifElse depth b others orelse ht hs ho =>
      have hall : ∀ c ∈ b :: others, BranchMade (depth + 1) c := fun c h => ⟨ht c h, hs c h⟩
      refine .within (fun h0 => ⟨by omega, rfl⟩) fun r hr => ?_
      subst hr
      refine Reads.imp ?_ (fun _ => TooDeep.succ) fun _ _ h => h
      rw [List.append_assoc, List.append_assoc] at hlt ⊢
      refine ((parses_guarded hsuite).complete hlt ⟨b, rfl, rfl, hall b (List.mem_cons_self ..)⟩ stops_nothing).bind
        fun p ks₁ hp => ?_
      obtain ⟨rfl, hbp⟩ := hp
      refine Reads.bind (Q := fun branches left => left = elseWords orelse ++ rest ∧
        branches.map branchParts = (b :: others).map (fun b => (b.test, b.body))) ?_ fun branches ks₂ hbranches => ?_
      · refine .loop (R := fun branches ks' => ks'.length < n ∧ ∃ cs : List Branch, (∀ c ∈ cs, c ∈ b :: others) ∧
            ks' = cs.flatMap (fun b => .keyword .elifKw :: b.words) ++ (elseWords orelse ++ rest) ∧
            branches.map branchParts ++ cs.map (fun b => (b.test, b.body)) = (b :: others).map (fun b => (b.test, b.body)))
          ⟨by simp at hlt ⊢; omega, others, fun c h => List.mem_cons_of_mem _ h, rfl, by simp [hbp]⟩ ?_
        rintro branches ks' ⟨hlt', cs, hsub, rfl, hbranches⟩
        cases cs with
        | nil =>
          have hnoelif : (elseWords orelse ++ rest).head? ≠ some (.keyword .elifKw) := by
            cases orelse with
            | none => exact hstop.head?_ne rfl
            | some o => simp [elseWords]
          refine (Reads.accept_other hnoelif).bind fun o ks₂ ho => ?_
          obtain ⟨rfl, rfl⟩ := ho
          exact .pure ⟨rfl, by simpa using hbranches⟩
        | cons c cs =>
          rw [List.flatMap_cons, List.cons_append, List.cons_append, List.append_assoc] at hlt' ⊢
          refine (Reads.accept_next).bind fun o ks₂ ho => ?_
          obtain ⟨⟨t, rfl⟩, rfl⟩ := ho
          refine ((parses_guarded hsuite).complete (Nat.lt_of_succ_lt hlt')
            ⟨c, rfl, rfl, hall c (hsub c (List.mem_cons_self ..))⟩ stops_nothing).bind fun q ks₃ hq => ?_
          obtain ⟨rfl, hcq⟩ := hq
          refine .pure ⟨⟨by simp at hlt' ⊢; omega, cs, fun d h => hsub d (List.mem_cons_of_mem _ h), rfl, ?_⟩,
            by simp only [List.length_append, List.length_cons]; omega⟩
          simpa [hcq] using hbranches
      · obtain ⟨rfl, hbranches⟩ := hbranches
        refine ((parses_elseSuite hsuite).complete (by simp at hlt ⊢; omega) ⟨orelse, rfl, rfl, ho⟩
          (hstop.imp fun k hk => by simp_all [stmtMore])).bind fun o ks₃ ho => ?_
        obtain ⟨rfl, ho⟩ := ho
        refine .pure ⟨rfl, ?_⟩
        rw [alone, Stmt.bare, bareBranches_eq, bareOption_eq, hbranches, ho, Option.map_map, List.map_map]
        rfl

theorem parses_closureStmt {start : Span} {word : Keyword} {isLazy : Bool} (hword : closureWord? word = some isLazy) :
    (closureStmt suite start isLazy).Parses alone (AfterWord .stmt word) stmtMore n where
  sound {all room ks} hlt := by
    unfold closureStmt
    refine .within (fun _ => trivial) fun r hr => ?_
    subst hr
    refine sound_closureHead.bind fun h ks₁ hh => ?_
    obtain ⟨w, rfl, hh⟩ := hh
    refine (Reads.require fun _ _ => trivial).bind fun _ ks₂ hks => ?_
    subst hks
    refine (hsuite.sound (by simp at hlt; omega)).bind fun b ks₃ hb => ?_
    obtain ⟨v, rfl, hv⟩ := hb
    refine .pure ⟨w ++ .symbol .colon :: v, by simp, ?_⟩
    rw [alone, Stmt.bare, Closure.bare, bare_block]
    generalize h.2.map Expr.bare = wrapper at hh ⊢
    cases hh with
    | alone hn => exact .closure hword hn hv
    | wrapped he =>
      rw [AfterWord, List.append_assoc]
      exact .wrapped hword he hv
  complete {all room depth w rest ss} hlt hw hstop := by
    unfold closureStmt
    obtain ⟨depth, u, v, h, ss', rfl, rfl, rfl, hh, hs⟩ : ∃ d u v h ss', depth = d + 1 ∧ w = u ++ .symbol .colon :: v ∧
        ss = [.closure {} ⟨h.1, h.2, ⟨ss', {}⟩, isLazy, none, {}⟩] ∧ Header d u h ∧ Makes .suite d v ss' := by
      cases hw with
      | line h =>
        refine absurd h (not_simple ?_)
        unfold closureWord? at hword
        split at hword <;> first | rfl | cases hword
      | ifElse => cases hword
      | whileLoop => cases hword
      | forLoop => cases hword
      | closure hw hn hs =>
        cases hword.symm.trans hw
        exact ⟨_, _, _, (_, none), _, rfl, rfl, rfl, .alone hn, hs⟩
      | wrapped hw he hs =>
        cases hword.symm.trans hw
        exact ⟨_, _, _, (_, some _), _, rfl, by simp, rfl, .wrapped he, hs⟩
    refine .within (fun h0 => ⟨by omega, rfl⟩) fun r hr => ?_
    subst hr
    refine Reads.imp ?_ (fun _ => TooDeep.succ) fun _ _ h => h
    rw [List.append_assoc, List.cons_append] at hlt ⊢
    refine (complete_closureHead hh).bind fun h' ks₁ hh' => ?_
    obtain ⟨rfl, rfl⟩ := hh'
    refine (Reads.require_next).bind fun _ ks₂ hks => ?_
    subst hks
    refine (hsuite.complete (by simp at hlt ⊢; omega) hs stops_nothing).bind fun b ks₃ hb => ?_
    obtain ⟨rfl, rfl⟩ := hb
    refine .pure ⟨rfl, ?_⟩
    rw [alone, Stmt.bare, Closure.bare, bare_block]

/-- Each keyword of a compound statement is followed by what its statement wants. -/
theorem parses_compound {start : Span} {k : Kind} {p : Parse Stmt} (h : compound? suite start k = some p) :
    ∃ word, k = .keyword word ∧ p.Parses alone (AfterWord .stmt word) stmtMore n := by
  unfold compound? at h
  split at h
  · cases h
    exact ⟨_, rfl, parses_ifStmt hsuite⟩
  · cases h
    exact ⟨_, rfl, parses_whileStmt hsuite⟩
  · cases h
    exact ⟨_, rfl, parses_forStmt hsuite⟩
  · cases h
    exact ⟨_, rfl, parses_closureStmt hsuite rfl⟩
  · cases h
    exact ⟨_, rfl, parses_closureStmt hsuite rfl⟩
  · cases h

omit hsuite in
/-- A statement that begins with no keyword of a compound one is a line. -/
theorem simple_of_stmt {start : Span} {k : Kind} {depth : Nat} {w : List Kind} {ss : List Stmt}
    (h : Makes .stmt depth (k :: w) ss) (hk : compound? suite start k = none) : Makes .simple depth (k :: w) ss := by
  cases h with
  | line h => exact h
  | closure hw =>
    unfold closureWord? at hw
    split at hw <;> first | cases hk | cases hw
  | wrapped hw =>
    unfold closureWord? at hw
    split at hw <;> first | cases hk | cases hw
  | _ => cases hk

theorem parses_statementOver : (statementOver suite).Parses (List.map Stmt.bare) (Makes .stmt) stmtMore (n + 1) where
  sound {all room ks} hlt := by
    unfold statementOver
    refine Reads.acceptMap.bind fun o ks₁ ho => ?_
    rcases ho with ⟨t, rfl, hsome, rfl⟩ | ⟨rfl, rfl, -⟩
    · obtain ⟨p, hp⟩ := Option.isSome_iff_exists.mp hsome
      rw [hp]
      obtain ⟨word, hword, hparses⟩ := parses_compound hsuite hp
      refine (hparses.sound (Nat.lt_of_succ_lt_succ hlt)).bind fun s ks₂ hs => ?_
      obtain ⟨w, rfl, hw⟩ := hs
      exact .pure ⟨t.kind :: w, rfl, by rw [hword]; exact hw⟩
    · refine (parses_simpleStmt.sound (Nat.lt_succ_self _)).imp (fun _ h => h) fun s rest => ?_
      rintro ⟨w, rfl, hw⟩
      exact ⟨w, rfl, .line hw⟩
  complete {all room depth w rest ss} hlt hw hstop := by
    unfold statementOver
    obtain ⟨k, v, rfl, hk⟩ := hw.begins_stmt
    refine Reads.acceptMap.bind fun o ks₁ ho => ?_
    rcases ho with ⟨t, hks, hsome, rfl⟩ | ⟨rfl, rfl, ho⟩
    · obtain ⟨rfl, rfl⟩ := List.cons.inj hks
      obtain ⟨p, hp⟩ := Option.isSome_iff_exists.mp hsome
      rw [hp]
      obtain ⟨word, hword, hparses⟩ := parses_compound hsuite hp
      rw [hword] at hw
      refine (hparses.complete (Nat.lt_of_succ_lt_succ hlt) hw hstop).bind fun s ks₂ hs => ?_
      obtain ⟨rfl, rfl⟩ := hs
      exact .pure ⟨rfl, rfl⟩
    · obtain ⟨t, rfl, hnone⟩ := ho k rfl
      exact parses_simpleStmt.complete (Nat.lt_succ_self _) (simple_of_stmt hw hnone) stops_nothing

theorem parses_suiteOver : (suiteOver suite).Parses blockStmts (Makes .suite) (fun _ => false) (n + 1) where
  sound {all room ks} hlt := by
    unfold suiteOver
    refine .within (fun _ => trivial) fun r hr => ?_
    subst hr
    refine (Reads.accept).bind fun o ks₁ ho => ?_
    rcases ho with ⟨t, rfl, rfl⟩ | ⟨rfl, rfl, -⟩
    · refine (Reads.require fun _ _ => trivial).bind fun _ ks₂ hks => ?_
      subst hks
      refine Reads.bind (Q := fun stmts rest => ∃ w, ks₂ = w ++ .blockEnd :: rest ∧
        Makes .body r w (stmts.map Stmt.bare)) ?_ fun stmts ks₃ hstmts => ?_
      · -- whatever comes as statements behind those that have been read can be put behind them
        refine .loop (R := fun (stmts : List Stmt) rest => ∃ u, ks₂ = u ++ rest ∧
          ∀ v ts, Makes .body r v ts → Makes .body r (u ++ v) (stmts.map Stmt.bare ++ ts)) ⟨[], rfl, fun _ _ h => h⟩ ?_
        rintro stmts ks' ⟨u, rfl, hstmts⟩
        refine (Reads.accept).bind fun o ks₃ ho => ?_
        rcases ho with ⟨t, rfl, rfl⟩ | ⟨rfl, rfl, -⟩
        · refine .pure ⟨u, rfl, ?_⟩
          have := hstmts [] [] .nil
          rwa [List.append_nil, List.append_nil] at this
        · refine ((parses_statementOver hsuite).sound (by simp at hlt; omega)).bind fun ss ks₄ hss => ?_
          obtain ⟨w, rfl, hw⟩ := hss
          refine .pure ⟨⟨u ++ w, by simp, fun v ts hv => ?_⟩, ?_⟩
          · have := hstmts (w ++ v) (ss.map Stmt.bare ++ ts) (.cons hw hv)
            simpa using this
          · obtain ⟨k, x, rfl, -⟩ := hw.begins_stmt
            simp only [List.length_append, List.length_cons]
            omega
      · obtain ⟨w, rfl, hw⟩ := hstmts
        refine .pure ⟨.newline :: .blockStart :: (w ++ [.blockEnd]), by simp, ?_⟩
        rw [blockStmts_ofStmts]
        exact .block hw
    · refine (parses_simpleStmt.sound (Nat.lt_succ_self _)).bind fun stmts ks₂ hstmts => ?_
      obtain ⟨w, rfl, hw⟩ := hstmts
      refine .pure ⟨w, rfl, ?_⟩
      rw [blockStmts_ofStmts]
      exact .inline hw
  complete {all room depth w rest ss} hlt hw _ := by
    unfold suiteOver
    obtain ⟨depth, rfl⟩ : ∃ d, depth = d + 1 := by cases hw <;> exact ⟨_, rfl⟩
    refine .within (fun h0 => ⟨by omega, rfl⟩) fun r hr => ?_
    subst hr
    refine Reads.imp ?_ (fun _ => TooDeep.succ) fun _ _ h => h
    cases hw with
    | inline hw =>
      refine (Reads.accept_other ((hw.begins_simple.append _).head?_ne rfl)).bind fun o ks₁ ho => ?_
      obtain ⟨rfl, rfl⟩ := ho
      refine (parses_simpleStmt.complete (Nat.lt_succ_self _) hw stops_nothing).bind fun stmts ks₂ hstmts => ?_
      obtain ⟨rfl, rfl⟩ := hstmts
      exact .pure ⟨rfl, blockStmts_ofStmts stmts⟩
    | @block _ w ss hw =>
      rw [List.cons_append, List.cons_append, List.append_assoc, List.singleton_append] at hlt ⊢
      refine (Reads.accept_next).bind fun o ks₁ ho => ?_
      obtain ⟨⟨t, rfl⟩, rfl⟩ := ho
      refine (Reads.require_next).bind fun _ ks₂ hks => ?_
      subst hks
      refine Reads.bind (Q := fun stmts left => left = rest ∧ stmts.map Stmt.bare = ss) ?_ fun stmts ks₃ hstmts => ?_
      · refine .loop (R := fun stmts ks' => ks'.length < n ∧ ∃ v ts, ks' = v ++ .blockEnd :: rest ∧
          Makes .body depth v ts ∧ stmts.map Stmt.bare ++ ts = ss)
          ⟨by simp at hlt ⊢; omega, w, ss, rfl, hw, rfl⟩ ?_
        rintro stmts ks' ⟨hlt', v, ts, rfl, hv, hstmts⟩
        cases hv with
        | nil =>
          refine (Reads.accept_next).bind fun o ks₃ ho => ?_
          obtain ⟨⟨t, rfl⟩, rfl⟩ := ho
          exact .pure ⟨rfl, by simpa using hstmts⟩
        | @cons _ w ss' v ts hw hv =>
          rw [List.append_assoc] at hlt' ⊢
          refine (Reads.accept_other ((hw.begins_stmt.append _).head?_ne rfl)).bind fun o ks₃ ho => ?_
          obtain ⟨rfl, rfl⟩ := ho
          refine ((parses_statementOver hsuite).complete (Nat.lt_succ_of_lt hlt') hw (stops_stmt_body hv)).bind
            fun ss ks₄ hss => ?_
          obtain ⟨rfl, rfl⟩ := hss
          refine .pure ⟨⟨by simp at hlt' ⊢; omega, v, ts, rfl, hv, by simpa using hstmts⟩, ?_⟩
          obtain ⟨k, x, rfl, -⟩ := hw.begins_stmt
          simp only [List.length_append, List.length_cons]
          omega
      · obtain ⟨rfl, rfl⟩ := hstmts
        exact .pure ⟨rfl, blockStmts_ofStmts stmts⟩

end

/-! ### The tower -/

theorem parses_suiteUpTo (height : Nat) :
    (suiteUpTo height).Parses blockStmts (Makes .suite) (fun _ => false) height := by
  induction height with
  | zero => exact ⟨fun h => absurd h (Nat.not_lt_zero _), fun h => absurd h (Nat.not_lt_zero _)⟩
  | succ height ih => exact parses_suiteOver ih

theorem parses_suite : suite.Parses blockStmts (Makes .suite) (fun _ => false) n where
  sound {all room ks} _ c hc := by
    have hlt : ks.length < c.remaining + 1 := by rw [hc.remaining]; exact Nat.lt_succ_self _
    exact (parses_suiteUpTo (c.remaining + 1)).sound hlt c hc
  complete {all room depth w rest ss} _ hw hstop c hc := by
    have hlt : (w ++ rest).length < c.remaining + 1 := by rw [hc.remaining]; exact Nat.lt_succ_self _
    exact (parses_suiteUpTo (c.remaining + 1)).complete hlt hw hstop c hc

theorem parses_statement : statement.Parses (List.map Stmt.bare) (Makes .stmt) stmtMore (n + 1) :=
  parses_statementOver parses_suite

end Offside.Parse

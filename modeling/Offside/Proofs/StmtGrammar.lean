import Offside.Parse.Stmt
import Offside.Proofs.ExprGrammar

/-! # The grammar of statements

Which kinds of tokens make which statements, up to spans. As for expressions, a derivation carries how many
productions may be open: an expression statement, a line of simple statements, a compound statement, a suite
and the whole file open one each, and so does a test that stands in a statement. -/

namespace Offside

def Target.bare : Target → Target
  | .name n => .name n
  | .attribute v a => .attribute v.bare a

mutual

/-- A statement without the places it was read from. -/
def Stmt.bare : Stmt → Stmt
  | .expr _ v => .expr {} v.bare
  | .assign _ t v => .assign {} t.bare v.bare
  | .augAssign _ op t v => .augAssign {} op t.bare v.bare
  | .ifElse _ bs o => .ifElse {} (bareBranches bs) (bareOption o)
  | .whileLoop _ t b o => .whileLoop {} t.bare b.bare (bareOption o)
  | .forLoop _ x i b o => .forLoop {} x i.bare b.bare (bareOption o)
  | .breakLoop _ => .breakLoop {}
  | .continueLoop _ => .continueLoop {}
  | .pass _ => .pass {}
  | .assert _ t m => .assert {} t.bare (m.map Expr.bare)
  | .global _ ns => .global {} ns
  | .exec _ c s => .exec {} c s.bare
  | .closure _ c => .closure {} c.bare

def Block.bare : Block → Block
  | ⟨ss, _⟩ => ⟨bareStmts ss, {}⟩

def Closure.bare : Closure → Closure
  | ⟨n, w, b, l, s, _⟩ => ⟨n, w.map Expr.bare, b.bare, l, s, {}⟩

def bareStmts : List Stmt → List Stmt
  | [] => []
  | s :: ss => s.bare :: bareStmts ss

def bareBranches : List (Expr × Block) → List (Expr × Block)
  | [] => []
  | (t, b) :: bs => (t.bare, b.bare) :: bareBranches bs

def bareOption : Option Block → Option Block
  | none => none
  | some b => some b.bare

end

theorem bareStmts_eq_map (ss : List Stmt) : bareStmts ss = ss.map Stmt.bare := by
  induction ss with
  | nil => simp only [bareStmts, List.map_nil]
  | cons s ss ih => simp only [bareStmts, List.map_cons, ih]

theorem bareBranches_eq_map (bs : List (Expr × Block)) : bareBranches bs = bs.map fun b => (b.1.bare, b.2.bare) := by
  induction bs with
  | nil => simp only [bareBranches, List.map_nil]
  | cons b bs ih => simp only [bareBranches, List.map_cons, ih]

theorem bareOption_eq_map (o : Option Block) : bareOption o = o.map Block.bare := by
  cases o with
  | none => simp only [bareOption, Option.map_none]
  | some b => simp only [bareOption, Option.map_some]

theorem Block.bare_eq (b : Block) : b.bare = ⟨b.stmts.map Stmt.bare, {}⟩ := by
  obtain ⟨ss, s⟩ := b
  rw [Block.bare, bareStmts_eq_map]

/-- A program without the places it was read from. -/
def Module.bare (m : Module) : Module := { m with body := m.body.bare }

namespace Grammar
open Parse (startsExpr binaryLevels augOp?)

/-! ### Words -/

/-- A condition and the suite for when it holds. -/
structure Branch where
  testWords : List Kind
  test : Expr
  suiteWords : List Kind
  body : List Stmt

def Branch.words (b : Branch) : List Kind := b.testWords ++ .symbol .colon :: b.suiteWords

/-- The words of a suite for when no condition holds, if there is one. -/
def elseWords : Option (List Kind × List Stmt) → List Kind
  | none => []
  | some o => .keyword .elseKw :: .symbol .colon :: o.1

/-- Whether a closure block with this keyword is lazy. -/
def closureWord? : Keyword → Option Bool
  | .defineKw => some true
  | .classKw => some false
  | _ => none

/-- The expressions that can stand on the left of an assignment. -/
inductive Assignable : Expr → Target → Prop where
  | name {n} : Assignable (.name {} n) (.name n)
  | attribute {v a} : Assignable (.attribute {} v a) (.attribute v a)

/-- A name, perhaps in parentheses. -/
inductive NameInParens (n : String) : Nat → List Kind → Prop where
  | name {k} : NameInParens n (k + 1) [.name n]
  | parens {k w} (h : NameInParens n k w) : NameInParens n (k + 3) (.symbol .leftParen :: (w ++ [.symbol .rightParen]))

/-! ### Derivations -/

/-- The nonterminals. -/
inductive Part where
  | exprStmt | small | simple | stmt | suite
  /-- Statements in a row. -/
  | body
  /-- Statements and empty lines up to the end marker. -/
  | lines
  | file

/-- `Makes p depth w ss`: the words `w` are a part `p` of a program and make the statements `ss`, and `depth`
    productions are enough to read them. -/
inductive Makes : Part → Nat → List Kind → List Stmt → Prop where
  | pass {k} : Makes .small k [.keyword .passKw] [.pass {}]
  | breakLoop {k} : Makes .small k [.keyword .breakKw] [.breakLoop {}]
  | continueLoop {k} : Makes .small k [.keyword .continueKw] [.continueLoop {}]
  | assert {k w t} (h : Derives .test k w t) : Makes .small (k + 1) (.keyword .assertKw :: w) [.assert {} t none]
  | assertWith {k w t v m} (h : Derives .test k w t) (hm : Derives .test k v m) :
      Makes .small (k + 1) (.keyword .assertKw :: (w ++ .symbol .comma :: v)) [.assert {} t (some m)]
  | global {k} {names : List String} (hne : names ≠ []) :
      Makes .small k (.keyword .globalKw :: separated .comma false (names.map fun n => [.name n])) [.global {} names]
  | exec {k n w e} (h : Derives .test k w e) :
      Makes .small (k + 1) (.keyword .execKw :: .name n :: .keyword .inKw :: w) [.exec {} n e]
  | expr {k w e} (h : Derives .testlist k w e) : Makes .exprStmt (k + 1) w [.expr {} e]
  | assign {k w l t v r} (hl : Derives .testlist k w l) (ht : Assignable l t) (hr : Derives .testlist k v r) :
      Makes .exprStmt (k + 1) (w ++ .symbol .assign :: v) [.assign {} t r]
  | augAssign {k w l t o op v r} (hl : Derives .testlist k w l) (ht : Assignable l t) (ho : augOp? o = some op)
      (hr : Derives .testlist k v r) : Makes .exprStmt (k + 1) (w ++ o :: v) [.augAssign {} op t r]
  | expression {k w ss} (h : Makes .exprStmt k w ss) : Makes .small k w ss
  | simple {k trailing} {pieces : List (List Kind × Stmt)} (hne : pieces ≠ [])
      (h : ∀ p ∈ pieces, Makes .small k p.1 [p.2]) :
      Makes .simple (k + 1) (separated .semicolon trailing (pieces.map (·.1)) ++ [.newline]) (pieces.map (·.2))
  | line {k w ss} (h : Makes .simple k w ss) : Makes .stmt k w ss
  | ifElse {k} {first : Branch} {others : List Branch} {orelse : Option (List Kind × List Stmt)}
      (ht : ∀ b ∈ first :: others, Derives .test k b.testWords b.test)
      (hs : ∀ b ∈ first :: others, Makes .suite (k + 1) b.suiteWords b.body)
      (ho : ∀ o ∈ orelse, Makes .suite (k + 1) o.1 o.2) :
      Makes .stmt (k + 2)
        (.keyword .ifKw :: (first.words ++ (others.flatMap (fun b => .keyword .elifKw :: b.words) ++ elseWords orelse)))
        [.ifElse {} ((first :: others).map fun b => (b.test, ⟨b.body, {}⟩)) (orelse.map fun o => ⟨o.2, {}⟩)]
  | whileLoop {k} {b : Branch} {orelse : Option (List Kind × List Stmt)} (ht : Derives .test k b.testWords b.test)
      (hs : Makes .suite (k + 1) b.suiteWords b.body) (ho : ∀ o ∈ orelse, Makes .suite (k + 1) o.1 o.2) :
      Makes .stmt (k + 2) (.keyword .whileKw :: (b.words ++ elseWords orelse))
        [.whileLoop {} b.test ⟨b.body, {}⟩ (orelse.map fun o => ⟨o.2, {}⟩)]
  | forLoop {k n} {b : Branch} {orelse : Option (List Kind × List Stmt)} (ht : Derives .test k b.testWords b.test)
      (hs : Makes .suite (k + 1) b.suiteWords b.body) (ho : ∀ o ∈ orelse, Makes .suite (k + 1) o.1 o.2) :
      Makes .stmt (k + 2) (.keyword .forKw :: .name n :: .keyword .inKw :: (b.words ++ elseWords orelse))
        [.forLoop {} n b.test ⟨b.body, {}⟩ (orelse.map fun o => ⟨o.2, {}⟩)]
  | closure {k n w v ss word isLazy} (hw : closureWord? word = some isLazy) (hn : NameInParens n k w)
      (hs : Makes .suite k v ss) :
      Makes .stmt (k + 1) (.keyword word :: (w ++ .symbol .colon :: v))
        [.closure {} ⟨n, none, ⟨ss, {}⟩, isLazy, none, {}⟩]
  | wrapped {k n w e v ss word isLazy} (hw : closureWord? word = some isLazy)
      (he : Derives (.operation binaryLevels) k w e) (hs : Makes .suite k v ss) :
      Makes .stmt (k + 1) (.keyword word :: (w ++ .name n :: .symbol .colon :: v))
        [.closure {} ⟨n, some e, ⟨ss, {}⟩, isLazy, none, {}⟩]
  | inline {k w ss} (h : Makes .simple k w ss) : Makes .suite (k + 1) w ss
  | block {k w ss} (h : Makes .body k w ss) :
      Makes .suite (k + 1) (.newline :: .blockStart :: (w ++ [.blockEnd])) ss
  | nil {k} : Makes .body k [] []
  | cons {k w ss v ts} (h : Makes .stmt k w ss) (ht : Makes .body k v ts) : Makes .body k (w ++ v) (ss ++ ts)
  | ended {k} : Makes .lines k [.endMarker] []
  | blank {k w ss} (h : Makes .lines k w ss) : Makes .lines k (.newline :: w) ss
  | next {k w ss v ts} (h : Makes .stmt k w ss) (ht : Makes .lines k v ts) : Makes .lines k (w ++ v) (ss ++ ts)
  | file {k w ss} (h : Makes .lines k w ss) : Makes .file (k + 1) w ss

theorem NameInParens.mono {n : String} {k m : Nat} {w : List Kind} (h : NameInParens n k w) (hm : k ≤ m) :
    NameInParens n m w := by
  induction h generalizing m with
  | name =>
    obtain ⟨m, rfl⟩ := Nat.exists_eq_add_of_le' hm
    exact .name
  | parens _ ih =>
    obtain ⟨m, rfl⟩ := Nat.exists_eq_add_of_le' hm
    exact .parens (ih (Nat.le_add_left ..))

/-- What can be read with some productions open can be read with more of them. -/
theorem Makes.mono {p : Part} {k m : Nat} {w : List Kind} {ss : List Stmt} (h : Makes p k w ss) (hm : k ≤ m) :
    Makes p m w ss := by
  induction h generalizing m with
  | pass => exact .pass
  | breakLoop => exact .breakLoop
  | continueLoop => exact .continueLoop
  | assert h =>
    obtain ⟨m, rfl⟩ := Nat.exists_eq_add_of_le' hm
    exact .assert (h.mono (Nat.le_add_left ..))
  | assertWith h hmsg =>
    obtain ⟨m, rfl⟩ := Nat.exists_eq_add_of_le' hm
    exact .assertWith (h.mono (Nat.le_add_left ..)) (hmsg.mono (Nat.le_add_left ..))
  | global hne => exact .global hne
  | exec h =>
    obtain ⟨m, rfl⟩ := Nat.exists_eq_add_of_le' hm
    exact .exec (h.mono (Nat.le_add_left ..))
  | expr h =>
    obtain ⟨m, rfl⟩ := Nat.exists_eq_add_of_le' hm
    exact .expr (h.mono (Nat.le_add_left ..))
  | assign hl ht hr =>
    obtain ⟨m, rfl⟩ := Nat.exists_eq_add_of_le' hm
    exact .assign (hl.mono (Nat.le_add_left ..)) ht (hr.mono (Nat.le_add_left ..))
  | augAssign hl ht ho hr =>
    obtain ⟨m, rfl⟩ := Nat.exists_eq_add_of_le' hm
    exact .augAssign (hl.mono (Nat.le_add_left ..)) ht ho (hr.mono (Nat.le_add_left ..))
  | expression _ ih => exact .expression (ih hm)
  | simple hne _ ih =>
    obtain ⟨m, rfl⟩ := Nat.exists_eq_add_of_le' hm
    exact .simple hne fun p hp => ih p hp (Nat.le_add_left ..)
  | line _ ih => exact .line (ih hm)
  | ifElse ht _ _ ihs iho =>
    obtain ⟨m, rfl⟩ := Nat.exists_eq_add_of_le' hm
    have hsucc : ∀ k, k + 1 ≤ m + k + 1 := fun k => Nat.succ_le_succ (Nat.le_add_left ..)
    exact .ifElse (fun b hb => (ht b hb).mono (Nat.le_add_left ..)) (fun b hb => ihs b hb (hsucc _))
      fun o h => iho o h (hsucc _)
  | whileLoop ht _ _ ihs iho =>
    obtain ⟨m, rfl⟩ := Nat.exists_eq_add_of_le' hm
    have hsucc : ∀ k, k + 1 ≤ m + k + 1 := fun k => Nat.succ_le_succ (Nat.le_add_left ..)
    exact .whileLoop (ht.mono (Nat.le_add_left ..)) (ihs (hsucc _)) fun o h => iho o h (hsucc _)
  | forLoop ht _ _ ihs iho =>
    obtain ⟨m, rfl⟩ := Nat.exists_eq_add_of_le' hm
    have hsucc : ∀ k, k + 1 ≤ m + k + 1 := fun k => Nat.succ_le_succ (Nat.le_add_left ..)
    exact .forLoop (ht.mono (Nat.le_add_left ..)) (ihs (hsucc _)) fun o h => iho o h (hsucc _)
  | closure hw hn _ ih =>
    obtain ⟨m, rfl⟩ := Nat.exists_eq_add_of_le' hm
    exact .closure hw (hn.mono (Nat.le_add_left ..)) (ih (Nat.le_add_left ..))
  | wrapped hw he _ ih =>
    obtain ⟨m, rfl⟩ := Nat.exists_eq_add_of_le' hm
    exact .wrapped hw (he.mono (Nat.le_add_left ..)) (ih (Nat.le_add_left ..))
  | inline _ ih =>
    obtain ⟨m, rfl⟩ := Nat.exists_eq_add_of_le' hm
    exact .inline (ih (Nat.le_add_left ..))
  | block _ ih =>
    obtain ⟨m, rfl⟩ := Nat.exists_eq_add_of_le' hm
    exact .block (ih (Nat.le_add_left ..))
  | nil => exact .nil
  | cons _ _ ih iht => exact .cons (ih hm) (iht hm)
  | ended => exact .ended
  | blank _ ih => exact .blank (ih hm)
  | next _ _ ih iht => exact .next (ih hm) (iht hm)
  | file _ ih =>
    obtain ⟨m, rfl⟩ := Nat.exists_eq_add_of_le' hm
    exact .file (ih (Nat.le_add_left ..))

/-! ### How parts begin -/

/-- The kinds that a simple statement can begin with. -/
def startsSmall (k : Kind) : Bool :=
  startsExpr k || [.passKw, .breakKw, .continueKw, .assertKw, .globalKw, .execKw].any (k == .keyword ·)

/-- The kinds that a statement can begin with. -/
def startsStmt (k : Kind) : Bool :=
  startsSmall k || [.ifKw, .whileKw, .forKw, .defineKw, .classKw].any (k == .keyword ·)

theorem Makes.begins_exprStmt {k : Nat} {w : List Kind} {ss : List Stmt} (h : Makes .exprStmt k w ss) :
    Begins startsExpr w := by
  cases h with
  | expr h => exact h.begins nofun
  | assign hl => exact (hl.begins nofun).append _
  | augAssign hl => exact (hl.begins nofun).append _

theorem Makes.begins_small {k : Nat} {w : List Kind} {ss : List Stmt} (h : Makes .small k w ss) : Begins startsSmall w := by
  cases h with
  | pass => exact ⟨_, _, rfl, rfl⟩
  | breakLoop => exact ⟨_, _, rfl, rfl⟩
  | continueLoop => exact ⟨_, _, rfl, rfl⟩
  | assert => exact ⟨_, _, rfl, rfl⟩
  | assertWith => exact ⟨_, _, rfl, rfl⟩
  | global => exact ⟨_, _, rfl, rfl⟩
  | exec => exact ⟨_, _, rfl, rfl⟩
  | expression h => exact h.begins_exprStmt.imp fun _ hk => by simp [startsSmall, hk]

theorem Makes.begins_simple {k : Nat} {w : List Kind} {ss : List Stmt} (h : Makes .simple k w ss) :
    Begins startsSmall w := by
  cases h with
  | @simple k trailing pieces hne h =>
    cases pieces with
    | nil => exact absurd rfl hne
    | cons p ps => exact ((h p (List.mem_cons_self ..)).begins_small.append _).append _

theorem startsStmt_of_closureWord {word : Keyword} {isLazy : Bool} (h : closureWord? word = some isLazy) :
    startsStmt (.keyword word) = true := by
  unfold closureWord? at h
  split at h
  · rfl
  · rfl
  · cases h

theorem Makes.begins_stmt {k : Nat} {w : List Kind} {ss : List Stmt} (h : Makes .stmt k w ss) : Begins startsStmt w := by
  cases h with
  | line h => exact h.begins_simple.imp fun k hk => by simp [startsStmt, hk]
  | ifElse => exact ⟨_, _, rfl, rfl⟩
  | whileLoop => exact ⟨_, _, rfl, rfl⟩
  | forLoop => exact ⟨_, _, rfl, rfl⟩
  | closure hw => exact ⟨_, _, rfl, startsStmt_of_closureWord hw⟩
  | wrapped hw => exact ⟨_, _, rfl, startsStmt_of_closureWord hw⟩

/-! ### Names in parentheses -/

/-- What a derivation of a name looks like. -/
def Phrase.NamedBy (n : String) : Phrase → Nat → List Kind → Expr → Prop
  | .testlist, k, w, e => e = .name {} n → ∃ j, k = j + 2 ∧ NameInParens n j w
  | .trailers o, _, w, e => e = .name {} n → w = [] ∧ o = .name {} n
  | _, k, w, e => e = .name {} n → NameInParens n k w

/-- A chain with links is no name. -/
theorem links_nil_of_grouped {n : String} {e : Expr} {links : List Link}
    (hnode : ∀ l ∈ links, ∀ a b, l.node a b ≠ .name {} n) (h : grouped e links = .name {} n) : links = [] := by
  rcases List.eq_nil_or_concat links with rfl | ⟨ls, l, rfl⟩
  · rfl
  · exfalso
    refine hnode l (by simp) (grouped e ls) l.tree ?_
    simpa [grouped] using h

theorem boolNode_ne_name {word : Keyword} {op : BoolOp} {k : Kind} {node : Expr → Expr → Expr}
    (h : boolNode? word op k = some node) (a b : Expr) (n : String) : node a b ≠ .name {} n := by
  unfold boolNode? at h
  split at h
  · cases h
    nofun
  · cases h

theorem levelNode_ne_name {ops : List (Symbol × BinaryOp)} {k : Kind} {node : Expr → Expr → Expr}
    (h : levelNode? ops k = some node) (a b : Expr) (n : String) : node a b ≠ .name {} n := by
  unfold levelNode? at h
  split at h
  · obtain ⟨op, -, rfl⟩ := Option.map_eq_some_iff.mp h
    nofun
  · cases h

theorem Derives.namedBy {s : Phrase} {k : Nat} {w : List Kind} {e : Expr} (h : Derives s k w e) (n : String) :
    s.NamedBy n k w e := by
  induction h with
  | only _ ih => exact fun he => ⟨_, rfl, ih he⟩
  | tuple => nofun
  | unconditional _ ih => exact ih
  | conditional => nofun
  | or _ hop _ ih _ =>
    intro he
    obtain rfl := links_nil_of_grouped (fun l hl a b => boolNode_ne_name (hop l hl) a b n) he
    simpa using ih he
  | and _ hop _ ih _ =>
    intro he
    obtain rfl := links_nil_of_grouped (fun l hl a b => boolNode_ne_name (hop l hl) a b n) he
    simpa using ih he
  | not => nofun
  | unnegated _ ih => exact ih
  | uncompared _ ih => exact ih
  | compare => nofun
  | noLevel _ ih => exact ih
  | level _ hop _ ih _ =>
    intro he
    obtain rfl := links_nil_of_grouped (fun l hl a b => levelNode_ne_name (hop l hl) a b n) he
    simpa using ih he
  | sign => nofun
  | unsigned _ ih => exact ih
  | unraised _ _ ih iht =>
    intro he
    obtain ⟨rfl, ho⟩ := iht he
    simpa using ih ho
  | raised => nofun
  | noTrailer => exact fun he => ⟨rfl, he⟩
  | call _ _ _ iht => exact fun he => absurd (iht he).2 nofun
  | member _ ih => exact fun he => absurd (ih he).2 nofun
  | name =>
    intro he
    cases he
    exact .name
  | literal => nofun
  | unit => nofun
  | parens _ ih =>
    intro he
    obtain ⟨j, rfl, hj⟩ := ih he
    exact .parens hj
  | list => nofun
  | dict => nofun

theorem NameInParens.derives {n : String} {k : Nat} {w : List Kind} (h : NameInParens n k w) :
    Derives .atom k w (.name {} n) := by
  induction h with
  | name => exact .name
  | parens _ ih => exact .parens (.only (derives_test_of_atom ih))

/-- An expression of binary operators is a name exactly if it is one in parentheses. -/
theorem derives_operation_name_iff {n : String} {k : Nat} {w : List Kind} :
    Derives (.operation binaryLevels) k w (.name {} n) ↔ NameInParens n k w :=
  ⟨fun h => h.namedBy n rfl, fun h => derives_operation_of_atom h.derives⟩

/-! ### Where the end marker stands -/

theorem mem_followed {k : Kind} {sep : Symbol} {trailing : Bool} {ws : List (List Kind)} (hk : k ≠ .symbol sep)
    (h : k ∈ followed sep trailing ws) : ∃ w ∈ ws, k ∈ w := by
  induction ws with
  | nil =>
    cases trailing with
    | false => cases h
    | true => exact absurd (List.mem_singleton.mp h) hk
  | cons w ws ih =>
    rcases List.mem_cons.mp h with h | h
    · exact absurd h hk
    · rcases List.mem_append.mp h with h | h
      · exact ⟨w, List.mem_cons_self .., h⟩
      · obtain ⟨v, hv, h⟩ := ih h
        exact ⟨v, List.mem_cons_of_mem _ hv, h⟩

theorem mem_separated {k : Kind} {sep : Symbol} {trailing : Bool} {ws : List (List Kind)} (hk : k ≠ .symbol sep)
    (h : k ∈ separated sep trailing ws) : ∃ w ∈ ws, k ∈ w := by
  cases ws with
  | nil => cases h
  | cons w ws =>
    rcases List.mem_append.mp h with h | h
    · exact ⟨w, List.mem_cons_self .., h⟩
    · obtain ⟨v, hv, h⟩ := mem_followed hk h
      exact ⟨v, List.mem_cons_of_mem _ hv, h⟩

theorem endMarker_not_mem_separated {β : Type} {sep : Symbol} {trailing : Bool} {words : β → List Kind} {pieces : List β}
    (h : ∀ p ∈ pieces, Kind.endMarker ∉ words p) : Kind.endMarker ∉ separated sep trailing (pieces.map words) := by
  intro hmem
  obtain ⟨w, hw, hmem⟩ := mem_separated (by nofun) hmem
  obtain ⟨p, hp, rfl⟩ := List.mem_map.mp hw
  exact h p hp hmem

theorem endMarker_not_mem_links {mark : Kind → Option (Expr → Expr → Expr)} {links : List Link}
    (hmark : mark .endMarker = none) (hop : ∀ l ∈ links, mark l.op = some l.node)
    (h : ∀ l ∈ links, Kind.endMarker ∉ l.words) : Kind.endMarker ∉ links.flatMap Link.allWords := by
  intro hmem
  obtain ⟨l, hl, hmem⟩ := List.mem_flatMap.mp hmem
  rcases List.mem_cons.mp hmem with hop' | hmem
  · have := hop l hl
    rw [← hop', hmark] at this
    cases this
  · exact h l hl hmem

theorem Compares.endMarker_not_mem {w : List Kind} {op : CompareOp} (h : Compares w op) : Kind.endMarker ∉ w := by
  cases h with
  | one h =>
    intro hmem
    rw [← List.mem_singleton.mp hmem] at h
    cases h
  | is => simp
  | isNot => simp
  | notIn => simp

theorem Derives.endMarker_not_mem {s : Phrase} {k : Nat} {w : List Kind} {e : Expr} (h : Derives s k w e) :
    Kind.endMarker ∉ w := by
  induction h with
  | only _ ih => exact ih
  | tuple _ _ ih => exact endMarker_not_mem_separated ih
  | unconditional _ ih => exact ih
  | conditional _ _ _ ihb iht iho => simp [ihb, iht, iho]
  | or _ hop _ ih ihl => simpa [ih] using endMarker_not_mem_links rfl hop ihl
  | and _ hop _ ih ihl => simpa [ih] using endMarker_not_mem_links rfl hop ihl
  | not _ ih => simpa using ih
  | unnegated _ ih => exact ih
  | uncompared _ ih => exact ih
  | compare _ hop _ ihl ihr =>
    simp [ihl, ihr, hop.endMarker_not_mem]
  | noLevel _ ih => exact ih
  | level _ hop _ ih ihl => simpa [ih] using endMarker_not_mem_links rfl hop ihl
  | sign hs _ ih =>
    intro hmem
    rcases List.mem_cons.mp hmem with rfl | hmem
    · cases hs
    · exact ih hmem
  | unsigned _ ih => exact ih
  | unraised _ _ ih iht => simp [ih, iht]
  | raised _ _ _ ih iht ihf => simp [ih, iht, ihf]
  | noTrailer => simp
  | call _ _ ih iht => simp [endMarker_not_mem_separated ih, iht]
  | member _ ih => simp [ih]
  | name => simp
  | literal hv =>
    intro hmem
    cases List.mem_singleton.mp hmem
    cases hv
  | unit => simp
  | parens _ ih => simp [ih]
  | list _ ih => simp [endMarker_not_mem_separated ih]
  | @dict k trailing entries _ _ ihk ihv =>
    have hwords : ∀ p ∈ entries, Kind.endMarker ∉ Entry.words p := fun p hp => by simp [Entry.words, ihk p hp, ihv p hp]
    simp [endMarker_not_mem_separated hwords]

theorem NameInParens.endMarker_not_mem {n : String} {k : Nat} {w : List Kind} (h : NameInParens n k w) :
    Kind.endMarker ∉ w :=
  h.derives.endMarker_not_mem

theorem augOp?_ne_endMarker {o : Kind} {op : AugOp} (h : augOp? o = some op) : Kind.endMarker ≠ o := by
  rintro rfl
  cases h

/-- A file has an end marker at its end, and no other part has one. -/
def Part.Ends : Part → List Kind → Prop
  | .lines, w | .file, w => ∃ v, w = v ++ [.endMarker] ∧ Kind.endMarker ∉ v
  | _, w => Kind.endMarker ∉ w

theorem elseWords_ends {orelse : Option (List Kind × List Stmt)} (h : ∀ o ∈ orelse, Kind.endMarker ∉ o.1) :
    Kind.endMarker ∉ elseWords orelse := by
  cases orelse with
  | none => simp [elseWords]
  | some o => simpa [elseWords] using h o rfl

theorem Makes.ends {p : Part} {k : Nat} {w : List Kind} {ss : List Stmt} (h : Makes p k w ss) : p.Ends w := by
  have hbranch : ∀ {b : Branch}, Kind.endMarker ∉ b.testWords → Kind.endMarker ∉ b.suiteWords →
      Kind.endMarker ∉ b.words := fun ht hs => by simp [Branch.words, ht, hs]
  induction h with
  | pass => simp [Part.Ends]
  | breakLoop => simp [Part.Ends]
  | continueLoop => simp [Part.Ends]
  | assert h => simp [Part.Ends, h.endMarker_not_mem]
  | assertWith h hm => simp [Part.Ends, h.endMarker_not_mem, hm.endMarker_not_mem]
  | @global k names hne =>
    have hnames : ∀ n ∈ names, Kind.endMarker ∉ [Kind.name n] := fun n _ => by simp
    simp [Part.Ends, endMarker_not_mem_separated hnames]
  | exec h => simp [Part.Ends, h.endMarker_not_mem]
  | expr h => exact h.endMarker_not_mem
  | assign hl _ hr => simp [Part.Ends, hl.endMarker_not_mem, hr.endMarker_not_mem]
  | augAssign hl _ ho hr => simp [Part.Ends, hl.endMarker_not_mem, hr.endMarker_not_mem, augOp?_ne_endMarker ho]
  | expression _ ih => exact ih
  | simple _ _ ih => simp [Part.Ends, endMarker_not_mem_separated ih]
  | line _ ih => exact ih
  | @ifElse k first others orelse ht _ _ ihs iho =>
    have hwords : ∀ b ∈ first :: others, Kind.endMarker ∉ b.words :=
      fun b hb => hbranch (ht b hb).endMarker_not_mem (ihs b hb)
    have hothers : ∀ b ∈ others, Kind.endMarker ∉ b.words := fun b hb => hwords b (List.mem_cons_of_mem _ hb)
    simpa [Part.Ends, hwords first (List.mem_cons_self ..), elseWords_ends iho] using hothers
  | whileLoop ht _ _ ihs iho => simp [Part.Ends, hbranch ht.endMarker_not_mem ihs, elseWords_ends iho]
  | forLoop ht _ _ ihs iho => simp [Part.Ends, hbranch ht.endMarker_not_mem ihs, elseWords_ends iho]
  | closure _ hn _ ih =>
    have hsuite : Kind.endMarker ∉ _ := ih
    simp [Part.Ends, hn.endMarker_not_mem, hsuite]
  | wrapped _ he _ ih =>
    have hsuite : Kind.endMarker ∉ _ := ih
    simp [Part.Ends, he.endMarker_not_mem, hsuite]
  | inline _ ih => exact ih
  | block _ ih =>
    have hbody : Kind.endMarker ∉ _ := ih
    simp [Part.Ends, hbody]
  | nil => simp [Part.Ends]
  | cons _ _ ih iht =>
    have hstmt : Kind.endMarker ∉ _ := ih
    have hbody : Kind.endMarker ∉ _ := iht
    simp [Part.Ends, hstmt, hbody]
  | ended => exact ⟨[], rfl, by simp⟩
  | blank _ ih =>
    obtain ⟨v, rfl, hv⟩ := ih
    exact ⟨.newline :: v, rfl, by simpa using hv⟩
  | @next k w ss v ts _ _ ih iht =>
    obtain ⟨u, rfl, hu⟩ := iht
    have hstmt : Kind.endMarker ∉ w := ih
    exact ⟨w ++ u, by simp, by simp [hstmt, hu]⟩
  | file _ ih => exact ih

end Grammar

end Offside

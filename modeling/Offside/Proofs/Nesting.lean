import Offside.Proofs.BlockColumns
import Offside.Proofs.ExprRoundTrip
import Offside.Proofs.FileReading

/-! # How deep expressions nest

Some parts of an expression the parser can only come to by reading an expression inside the one it is reading.
Items and operands it reads inside a production of its own, so that no way down a tree passes more of them than
productions may be open. An argument of a call, the right side of a power and the last branch of a conditional
it reads without opening any, and these nest without bound. -/

namespace Offside

/-! ### Ways down -/

/-- How a part hangs on an expression. -/
inductive Edge where
  /-- An argument of a call. -/
  | argument
  /-- An item of a list or a tuple, or a key or a value of a dictionary. -/
  | item
  /-- What a sign or a negation stands before. -/
  | operand
  /-- The right side of a power. -/
  | exponent
  /-- The last branch of a conditional. -/
  | orelse
  | other
deriving DecidableEq, Repr

namespace Edge

/-- Whether the parser comes to the part by reading an expression inside the one it is reading. -/
def isRecursive (x : Edge) : Bool := x ≠ .other

/-- Whether the parser opens a production for that. -/
def isGuarded : Edge → Bool
  | .item | .operand => true
  | _ => false

end Edge

/-- How the right side of an operator hangs on it. -/
def BinaryOp.rightEdge : BinaryOp → Edge
  | .pow => .exponent
  | _ => .other

@[simp] theorem BinaryOp.isGuarded_rightEdge (op : BinaryOp) : op.rightEdge.isGuarded = false := by
  cases op <;> rfl

namespace Expr

/-- The parts of an expression. -/
def parts : Expr → List (Edge × Expr)
  | .name .. | .constant .. => []
  | .attribute _ v _ => [(.other, v)]
  | .binary _ op l r => [(.other, l), (op.rightEdge, r)]
  | .bool _ _ l r | .compare _ _ l r => [(.other, l), (.other, r)]
  | .unary _ _ e => [(.operand, e)]
  | .call _ f as => (.other, f) :: as.map (.argument, ·)
  | .conditional _ t b o => [(.other, t), (.other, b), (.orelse, o)]
  | .list _ es | .tuple _ es => es.map (.item, ·)
  | .dict _ es => es.flatMap fun p => [(.item, p.1), (.item, p.2)]

/-- The edges on a way down from an expression. -/
inductive Down : Expr → List Edge → Expr → Prop where
  | stay (e : Expr) : Down e [] e
  | step {e part q : Expr} {x : Edge} {way : List Edge} : (x, part) ∈ e.parts → Down part way q → Down e (x :: way) q

/-- No way down passes more than `k` guarded edges. -/
def Shallow (k : Nat) (e : Expr) : Prop := ∀ way q, e.Down way q → way.countP Edge.isGuarded ≤ k

section
variable {k m : Nat} {e : Expr}

theorem Shallow.mono (h : e.Shallow k) (hm : k ≤ m) : e.Shallow m :=
  fun way q hd => Nat.le_trans (h way q hd) hm

theorem Shallow.of_open (h : ∀ p ∈ e.parts, p.1.isGuarded = false ∧ p.2.Shallow k) : e.Shallow k := by
  intro way q hd
  cases hd with
  | stay => exact Nat.zero_le k
  | step hpart hd =>
    obtain ⟨hx, hp⟩ := h _ hpart
    rw [List.countP_cons_of_neg (by simp [hx])]
    exact hp _ _ hd

/-- Whatever an edge is, it is one. -/
theorem Shallow.of_parts (h : ∀ p ∈ e.parts, p.2.Shallow k) : e.Shallow (k + 1) := by
  intro way q hd
  cases hd with
  | stay => exact Nat.zero_le _
  | step hpart hd =>
    have hp := h _ hpart _ _ hd
    rw [List.countP_cons]
    split <;> omega

theorem Shallow.bool {s : Span} {op : BoolOp} {l r : Expr} (hl : l.Shallow k) (hr : r.Shallow k) :
    (Expr.bool s op l r).Shallow k :=
  .of_open (by simp [parts, hl, hr, Edge.isGuarded])

theorem Shallow.binary {s : Span} {op : BinaryOp} {l r : Expr} (hl : l.Shallow k) (hr : r.Shallow k) :
    (Expr.binary s op l r).Shallow k :=
  .of_open (List.forall_mem_cons.mpr ⟨⟨rfl, hl⟩, by simp [hr]⟩)

end

/-! ### Places do not matter -/

theorem parts_bare (e : Expr) : e.bare.parts = e.parts.map fun p => (p.1, p.2.bare) := by
  cases e <;> simp [bare, parts, bareList_eq_map, bareEntries_eq_map, Function.comp_def, List.flatMap_map,
    List.map_flatMap]

theorem Down.bare {e q : Expr} {way : List Edge} (h : e.Down way q) : e.bare.Down way q.bare := by
  induction h with
  | stay => exact .stay _
  | step hpart _ ih =>
    refine .step ?_ ih
    rw [parts_bare]
    exact List.mem_map_of_mem hpart

theorem exists_down_of_bare {e q : Expr} {way : List Edge} (h : e.bare.Down way q) : ∃ p, e.Down way p := by
  induction way generalizing e with
  | nil => exact ⟨e, .stay e⟩
  | cons x way ih =>
    cases h with
    | step hpart hd =>
      rw [parts_bare] at hpart
      obtain ⟨⟨y, part⟩, hmem, heq⟩ := List.mem_map.mp hpart
      obtain ⟨rfl, rfl⟩ := Prod.mk.inj heq
      obtain ⟨p, hp⟩ := ih hd
      exact ⟨p, .step hmem hp⟩

theorem Shallow.of_bare {k : Nat} {e : Expr} (h : e.bare.Shallow k) : e.Shallow k :=
  fun way _ hd => h way _ hd.bare

end Expr

/-! ### What a derivation allows -/

namespace Grammar
variable {k : Nat}

/-- A tree of a phrase with `k` open productions passes at most `k` guarded edges; trailers keep the bound. -/
def Phrase.Bounds : Phrase → Nat → Expr → Prop
  | .trailers o, k, e => o.Shallow k → e.Shallow k
  | _, k, e => e.Shallow k

theorem shallow_grouped {e : Expr} {links : List Link} (he : e.Shallow k) (hl : ∀ l ∈ links, l.tree.Shallow k)
    (hnode : ∀ l ∈ links, ∀ a b, a.Shallow k → b.Shallow k → (l.node a b).Shallow k) :
    (grouped e links).Shallow k := by
  induction links generalizing e with
  | nil => exact he
  | cons l links ih =>
    obtain ⟨hfirst, hl⟩ := List.forall_mem_cons.mp hl
    obtain ⟨hlink, hnode⟩ := List.forall_mem_cons.mp hnode
    exact ih (hlink e l.tree he hfirst) hl hnode

theorem shallow_boolNode {word : Keyword} {op : BoolOp} {x : Kind} {node : Expr → Expr → Expr}
    (h : boolNode? word op x = some node) (a b : Expr) (ha : a.Shallow k) (hb : b.Shallow k) : (node a b).Shallow k := by
  unfold boolNode? at h
  split at h
  · cases h
    exact ha.bool hb
  · cases h

theorem shallow_levelNode {ops : List (Symbol × BinaryOp)} {x : Kind} {node : Expr → Expr → Expr}
    (h : levelNode? ops x = some node) (a b : Expr) (ha : a.Shallow k) (hb : b.Shallow k) : (node a b).Shallow k := by
  unfold levelNode? at h
  split at h
  · obtain ⟨op, -, rfl⟩ := Option.map_eq_some_iff.mp h
    exact ha.binary hb
  · cases h

/-- Each guarded edge is read inside a production of its own. -/
theorem Derives.bounds {s : Phrase} {w : List Kind} {e : Expr} (h : Derives s k w e) : s.Bounds k e := by
  -- A rule that opens a production may spend it on any edge; one that opens none has no guarded edge.
  induction h with
  | only _ ih => exact ih.mono (Nat.le_add_right _ 2)
  | tuple _ _ ih =>
    refine Expr.Shallow.mono (.of_parts ?_) (Nat.le_succ _)
    simp only [Expr.parts, List.forall_mem_map]
    exact ih
  | unconditional _ ih => exact ih
  | conditional _ _ _ ihb iht iho =>
    refine .of_open ?_
    simp only [Expr.parts, List.forall_mem_cons]
    exact ⟨⟨rfl, iht⟩, ⟨rfl, ihb⟩, ⟨rfl, iho⟩, List.forall_mem_nil _⟩
  | or _ hop _ ih ihl => exact shallow_grouped ih ihl fun l hl => shallow_boolNode (hop l hl)
  | and _ hop _ ih ihl => exact shallow_grouped ih ihl fun l hl => shallow_boolNode (hop l hl)
  | not _ ih => exact .of_parts (List.forall_mem_singleton.mpr ih)
  | unnegated _ ih => exact ih
  | uncompared _ ih => exact ih
  | compare _ _ _ ihl ihr => exact .of_open (List.forall_mem_cons.mpr ⟨⟨rfl, ihl⟩, List.forall_mem_singleton.mpr ⟨rfl, ihr⟩⟩)
  | noLevel _ ih => exact ih
  | level _ hop _ ih ihl => exact shallow_grouped ih ihl fun l hl => shallow_levelNode (hop l hl)
  | sign _ _ ih => exact .of_parts (List.forall_mem_singleton.mpr ih)
  | unsigned _ ih => exact ih
  | unraised _ _ ih iht => exact iht ih
  | raised _ _ _ ih iht ihf => exact (iht ih).binary ihf
  | noTrailer => exact id
  | call _ _ ih iht =>
    intro ho
    refine iht (.of_open ?_)
    simp only [Expr.parts, List.forall_mem_cons, List.forall_mem_map]
    exact ⟨⟨rfl, ho⟩, fun p hp => ⟨rfl, ih p hp⟩⟩
  | member _ ih => exact fun ho => ih (.of_open (List.forall_mem_singleton.mpr ⟨rfl, ho⟩))
  | name => exact .of_parts (List.forall_mem_nil _)
  | literal => exact .of_parts (List.forall_mem_nil _)
  | unit => exact .of_parts (List.forall_mem_nil _)
  | parens _ ih => exact ih.mono (Nat.le_succ _)
  | list _ ih =>
    refine .of_parts ?_
    simp only [Expr.parts, List.forall_mem_map]
    exact ih
  | dict _ _ ihk ihv =>
    refine .of_parts ?_
    simp only [Expr.parts, List.flatMap_map, List.forall_mem_flatMap, List.forall_mem_cons]
    exact fun p hp => ⟨ihk p hp, ihv p hp, List.forall_mem_nil _⟩

end Grammar

/-! ### Statements -/

def Target.exprs : Target → List Expr
  | .name _ => []
  | .attribute v _ => [v]

/-- The expressions that stand in a statement itself. -/
def Stmt.exprs : Stmt → List Expr
  | .expr _ e | .exec _ _ e => [e]
  | .assign _ t v | .augAssign _ _ t v => v :: t.exprs
  | .ifElse _ bs _ => bs.map (·.1)
  | .whileLoop _ t _ _ => [t]
  | .forLoop _ _ i _ _ => [i]
  | .assert _ t m => t :: m.toList
  | .closure _ c => c.wrapper.toList
  | .breakLoop _ | .continueLoop _ | .pass _ | .global .. => []

theorem Target.exprs_bare (t : Target) : t.bare.exprs = t.exprs.map Expr.bare := by
  cases t <;> rfl

namespace Stmt

theorem exprs_bare (s : Stmt) : s.bare.exprs = s.exprs.map Expr.bare := by
  cases s with
  | assign | augAssign => simp [bare, exprs, Target.exprs_bare]
  | ifElse => simp [bare, exprs, bareBranches_eq_map]
  | assert _ _ m => cases m <;> simp [bare, exprs]
  | closure _ c =>
    obtain ⟨_, wrapper, _, _, _, _⟩ := c
    cases wrapper <;> simp [bare, exprs, Closure.bare]
  | _ => simp [bare, exprs]

theorem suites_bare (s : Stmt) : s.bare.suites = s.suites.map Block.bare := by
  cases s with
  | ifElse _ _ o => cases o <;> simp [bare, suites, bareBranches_eq_map, bareOption_eq_map]
  | whileLoop _ _ _ o | forLoop _ _ _ _ o => cases o <;> simp [bare, suites, bareOption_eq_map]
  | closure _ c =>
    obtain ⟨_, _, _, _, _, _⟩ := c
    simp [bare, suites, Closure.bare]
  | _ => simp [bare, suites]

end Stmt

theorem Inside.bare {ss : List Stmt} {s : Stmt} (h : Inside ss s) : Inside (ss.map Stmt.bare) s.bare := by
  induction h with
  | here hs => exact .here (List.mem_map_of_mem hs)
  | @deeper ss owner s b howner hb _ ih =>
    refine .deeper (List.mem_map_of_mem howner) (b := b.bare) ?_ ?_
    · rw [Stmt.suites_bare]
      exact List.mem_map_of_mem hb
    · rw [Block.bare_eq]
      exact ih

/-- No expression of statements in a row, however deep, passes more than `k` guarded edges. -/
def AllShallow (k : Nat) (ss : List Stmt) : Prop := ∀ s, Inside ss s → ∀ e ∈ s.exprs, e.Shallow k

namespace AllShallow
variable {k m : Nat} {ss ts : List Stmt} {s : Stmt}

theorem mono (h : AllShallow k ss) (hm : k ≤ m) : AllShallow m ss := fun s hs e he => (h s hs e he).mono hm

theorem nil : AllShallow k [] := by
  intro s hs
  cases hs with
  | here h => cases h
  | deeper h => cases h

theorem single (hs : ∀ e ∈ s.exprs, e.Shallow k) (hb : ∀ b ∈ s.suites, AllShallow k b.stmts) : AllShallow k [s] := by
  intro t ht
  cases ht with
  | here h => exact List.mem_singleton.mp h ▸ hs
  | deeper howner hmem hin => exact hb _ (List.mem_singleton.mp howner ▸ hmem) t hin

theorem of_mem (h : ∀ s ∈ ss, AllShallow k [s]) : AllShallow k ss := by
  intro t ht
  cases ht with
  | here hs => exact h t hs t (.here (List.mem_singleton_self t))
  | deeper howner hb hin => exact h _ howner t (.deeper (List.mem_singleton_self _) hb hin)

theorem append (hs : AllShallow k ss) (ht : AllShallow k ts) : AllShallow k (ss ++ ts) :=
  fun s h => h.of_append.elim (hs s) (ht s)

theorem of_bare (h : AllShallow k (ss.map Stmt.bare)) : AllShallow k ss := by
  intro s hs e he
  refine .of_bare (h s.bare hs.bare e.bare ?_)
  rw [Stmt.exprs_bare]
  exact List.mem_map_of_mem he

end AllShallow

namespace Grammar
variable {k : Nat}

theorem Assignable.shallow {l : Expr} {t : Target} (h : Assignable l t) (hl : l.Shallow k) :
    ∀ e ∈ t.exprs, e.Shallow k := by
  cases h
  · exact nofun
  · refine List.forall_mem_singleton.mpr fun way q hd => ?_
    exact hl (.other :: way) q (.step List.mem_cons_self hd)

theorem allShallow_orelse {orelse : Option (List Kind × List Stmt)} (h : ∀ o ∈ orelse, AllShallow k o.2) :
    ∀ b ∈ (orelse.map fun o => (⟨o.2, {}⟩ : Block)).toList, AllShallow k b.stmts := by
  cases orelse with
  | none => exact nofun
  | some o => exact List.forall_mem_singleton.mpr (h o rfl)

theorem Makes.allShallow {p : Part} {w : List Kind} {ss : List Stmt} (h : Makes p k w ss) : AllShallow k ss := by
  -- No statement adds an edge, so the productions it opens are slack.
  induction h with
  | pass | breakLoop | continueLoop | global => exact .single nofun nofun
  | assert h | exec h | expr h =>
    exact .single (List.forall_mem_singleton.mpr (h.bounds.mono (Nat.le_succ _))) nofun
  | assertWith h hm =>
    refine .single (List.forall_mem_cons.mpr ⟨h.bounds.mono (Nat.le_succ _), ?_⟩) nofun
    exact List.forall_mem_singleton.mpr (hm.bounds.mono (Nat.le_succ _))
  | assign hl ht hr | augAssign hl ht _ hr =>
    refine .single (List.forall_mem_cons.mpr ⟨hr.bounds.mono (Nat.le_succ _), ?_⟩) nofun
    exact fun e he => (ht.shallow hl.bounds e he).mono (Nat.le_succ _)
  | expression _ ih | line _ ih => exact ih
  | simple _ _ ih =>
    refine .of_mem ?_
    simp only [List.forall_mem_map]
    exact fun p hp => (ih p hp).mono (Nat.le_succ _)
  | ifElse ht _ _ ihs iho =>
    refine .single ?_ fun b hb => ?_
    · simp only [Stmt.exprs, List.forall_mem_map]
      exact fun b hb => (ht b hb).bounds.mono (Nat.le_add_right _ 2)
    · rcases List.mem_append.mp hb with hb | hb
      · rw [List.map_map] at hb
        obtain ⟨branch, hbranch, rfl⟩ := List.mem_map.mp hb
        exact (ihs branch hbranch).mono (Nat.le_succ _)
      · exact (allShallow_orelse iho b hb).mono (Nat.le_succ _)
  | whileLoop ht _ _ ihs iho | forLoop ht _ _ ihs iho =>
    refine .single (List.forall_mem_singleton.mpr (ht.bounds.mono (Nat.le_add_right _ 2))) fun b hb => ?_
    rcases List.mem_cons.mp hb with rfl | hb
    · exact ihs.mono (Nat.le_succ _)
    · exact (allShallow_orelse iho b hb).mono (Nat.le_succ _)
  | closure _ _ _ ih => exact .single nofun (List.forall_mem_singleton.mpr (ih.mono (Nat.le_succ _)))
  | wrapped _ he _ ih =>
    refine .single (List.forall_mem_singleton.mpr (he.bounds.mono (Nat.le_succ _))) ?_
    exact List.forall_mem_singleton.mpr (ih.mono (Nat.le_succ _))
  | inline _ ih | block _ ih | file _ ih => exact ih.mono (Nat.le_succ _)
  | nil | ended => exact .nil
  | cons _ _ ih iht | next _ _ ih iht => exact ih.append iht
  | blank _ ih => exact ih

end Grammar

/-! ### The tokens of a program -/

theorem ne_endMarker_of_mem_bodyOf {items : List Item} : ∀ t ∈ bodyOf items, t.kind ≠ .endMarker := by
  induction items with
  | nil => exact List.forall_mem_nil _
  | cons item items ih =>
    cases item with
    | error => exact List.forall_mem_nil _
    | ok t =>
      unfold bodyOf
      split
      · exact List.forall_mem_nil _
      · next ht => exact List.forall_mem_cons.mpr ⟨ht, ih⟩

theorem exists_tokens {items : List Item} (h : ∀ fault, .error fault ∉ items) : ∃ ts : List Token, items = ts.map .ok := by
  induction items with
  | nil => exact ⟨[], rfl⟩
  | cons item items ih =>
    cases item with
    | error fault => exact absurd List.mem_cons_self (h fault)
    | ok t =>
      obtain ⟨ts, rfl⟩ := ih fun fault hf => h fault (List.mem_cons_of_mem _ hf)
      exact ⟨t :: ts, rfl⟩

/-- A program that has been read has no fault behind what was read. -/
theorem tokens_of_parse {dialect : Dialect} {source : String} {m : Module} (h : parse dialect source = .ok m) :
    ∃ (ts : List Token) (d : Cursor), tokenStream dialect source = ts.map .ok ∧
      Parse.module { input := ts.map .ok } = .ok m d := by
  unfold parse Parse.run at h
  split at h
  · next m' d hm =>
    obtain rfl := Except.ok.inj h
    have hruled := ruled_markLines dialect source
    have hlines : tokenStream dialect source = layByLines (markLines (lex dialect source)) := layOut_eq_layByLines hruled
    have hhands : HandsOn _ (endingOf (markLines (lex dialect source))) (layByLines (markLines (lex dialect source))) :=
      handsOn_layLines (fun _ => kind_of_endingOf) [0] false fun l hl t ht =>
        hruled.isSynthetic t (mem_of_mem_handed hl ht)
    rw [← hlines] at hhands
    suffices hnone : ∀ fault, .error fault ∉ tokenStream dialect source by
      obtain ⟨ts, hts⟩ := exists_tokens hnone
      exact ⟨ts, d, hts, hts ▸ hm⟩
    cases hhands with
    | ended _ hnone | broken _ hnone => exact hnone
    | stopped fault _ hpre =>
      -- The end marker that was read would be among the tokens of the lines.
      obtain ⟨_, hd, _, rfl, v, t, rfl, hkind, -⟩ := Parse.takes_file (tokenStream dialect source) [] ⟨rfl, rfl⟩ hm
      have hmem : t ∈ carried (tokenStream dialect source) := by
        rw [hd.ahead, carried_map_append]
        simp [hkind, Kind.isSynthetic]
      obtain ⟨l, hl, ht⟩ := List.mem_flatMap.mp (hpre.subset hmem)
      exact absurd hkind (ne_endMarker_of_mem_bodyOf t (mem_of_mem_handed hl ht))
  · cases h

/-! ### The bound -/

/-- A program that has been read passes at most as many guarded edges as productions may be open. -/
theorem allShallow_of_parse {dialect : Dialect} {source : String} {m : Module} (h : parse dialect source = .ok m) :
    AllShallow nestingLimit m.body.stmts := by
  obtain ⟨ts, d, -, hm⟩ := tokens_of_parse h
  have hread := (Parse.parses_module (n := (ts.map (·.kind)).length + 1)).sound (Nat.lt_succ_self _) _ (Cursor.at_new ts)
  rw [hm] at hread
  obtain ⟨_, -, w, -, ss, hbare, hw⟩ := hread
  have hss : m.body.stmts.map Stmt.bare = ss := by
    have hbody := congrArg (·.body.stmts) hbare
    rwa [Module.bare, Block.bare_eq] at hbody
  exact .of_bare (hss ▸ hw.allShallow)

/-- Tokens that make a program with more guarded edges on a way down are refused as nested too deeply. -/
theorem parse_refuses_of_deep {dialect : Dialect} {source : String} {w rest : List Token} {depth : Nat} {ss : List Stmt}
    (hstream : tokenStream dialect source = (w ++ rest).map .ok) (hw : Grammar.Makes .file depth (w.map (·.kind)) ss)
    (hdeep : ¬AllShallow nestingLimit ss) :
    ∃ err, parse dialect source = .error err ∧ err.fault = .tooDeeplyNested nestingLimit := by
  have hstop : Parse.Stops (fun _ => false) (rest.map (·.kind)) := Parse.stops_nothing
  have hno : ¬∃ k ≤ nestingLimit, ∃ ss', ({ body := ⟨ss, {}⟩ } : Module) = { body := ⟨ss', {}⟩ } ∧
      Grammar.Makes .file k (w.map (·.kind)) ss' := by
    rintro ⟨k, hk, ss', heq, hw'⟩
    cases heq
    exact hdeep (hw'.allShallow.mono hk)
  obtain ⟨err, d, hm, hfault⟩ :=
    Parse.Parses.error_of_too_deep (w := w) (fun _ => Parse.parses_module) hstop ⟨ss, rfl, hw⟩ hno
  refine ⟨err, ?_, hfault⟩
  rw [parse, Parse.run, hstream, hm]

/-! ### What nests without bound -/

theorem makes_of_test {k : Nat} {w : List Kind} {e : Expr} (h : Grammar.Derives .test k w e) :
    Grammar.Makes .file (k + 5) (w ++ [.newline, .endMarker]) [.expr {} e] := by
  have hsmall : Grammar.Makes .small (k + 3) w [.expr {} e] := .expression (.expr (.only h))
  have hline : Grammar.Makes .simple (k + 4) (Grammar.separated .semicolon false [w] ++ [.newline]) [.expr {} e] :=
    .simple (List.cons_ne_nil (w, Stmt.expr {} e) []) (by simpa using hsmall)
  have hfile := Grammar.Makes.file (.next (.line hline) .ended)
  simpa [Grammar.separated, Grammar.followed] using hfile

/-- A text of one line that spells a test is read as that test. -/
theorem parse_of_test {k : Nat} {cs : List Char} {w : List Kind} {e : Expr} (hr : Renders cs w)
    (hw : Grammar.Derives .test k w e) (hk : k + 5 ≤ nestingLimit) :
    ∃ m, parse .english (String.ofList cs) = .ok m ∧ m.bare = { body := ⟨[.expr {} e], {}⟩ } := by
  obtain ⟨⟨c, ds, rfl, hc⟩, hfills⟩ := hr
  have hspells : Spells .english (c :: ds) w := by simpa using (hfills apart_nil .nil).2
  have hne : w ≠ [] := by
    obtain ⟨_, _, rfl, -⟩ := hw.begins nofun
    exact List.cons_ne_nil _ _
  obtain ⟨ts, marker, hkinds, hmarker, hstream⟩ := tokenStream_of_spells hspells hne (by simpa using hc)
  have hkinds : (ts ++ [Layout.synthetic .newline marker, marker]).map (·.kind) = w ++ [.newline, .endMarker] := by
    simp [hkinds, hmarker, Layout.synthetic]
  have hmakes := hkinds ▸ makes_of_test hw
  have hstop : Parse.Stops (fun _ => false) (([] : List Token).map (·.kind)) := Parse.stops_nothing
  obtain ⟨m, d, hm, -, hbare⟩ := (Parse.Parses.ok_iff (fun _ => Parse.parses_module) hstop
    fun hle h => h.imp fun _ h => ⟨h.1, h.2.mono hle⟩).mpr ⟨k + 5, hk, _, rfl, hmakes⟩
  rw [List.append_nil] at hm
  exact ⟨m, by rw [parse, Parse.run, hstream, hm], hbare⟩

/-- The parts that the parser comes to without opening a production. -/
inductive OpenEdge where
  | argument | exponent | orelse

namespace OpenEdge
open Grammar (Derives Phrase Primary)
variable (x : OpenEdge)

def edge : OpenEdge → Edge
  | .argument => .argument
  | .exponent => .exponent
  | .orelse => .orelse

/-- The text with a text as such a part. -/
def chars (cs : List Char) : List Char :=
  match x with
  | .argument => ['x'] ++ '(' :: (cs ++ [')'])
  | .exponent => ['x'] ++ ' ' :: ("**".toList ++ ' ' :: cs)
  | .orelse => ['x'] ++ " if ".toList ++ ['x'] ++ " else ".toList ++ cs

def words (w : List Kind) : List Kind :=
  match x with
  | .argument => [.name "x"] ++ Expr.parenthesized w
  | .exponent => [.name "x"] ++ .symbol .power :: w
  | .orelse => [.name "x"] ++ .keyword .ifKw :: ([.name "x"] ++ .keyword .elseKw :: w)

def tree (e : Expr) : Expr :=
  match x with
  | .argument => .call {} (.name {} "x") [e]
  | .exponent => .binary {} .pow (.name {} "x") e
  | .orelse => .conditional {} (.name {} "x") (.name {} "x") e

/-- What such a part is read as. -/
def phrase : Phrase :=
  match x with
  | .exponent => .factor
  | .argument | .orelse => .test

/-- A name under `n` such edges. -/
def nested (n : Nat) : String := String.ofList (Nat.repeat x.chars n ['x'])

variable {x} {k : Nat} {cs : List Char} {w : List Kind} {e : Expr}

theorem renders_x : Renders ['x'] [.name "x"] := renders_name (n := "x") rfl

theorem primary_x : Primary 1 [.name "x"] (.name {} "x") := .of_atom .name

theorem renders (h : Renders cs w) : Renders (x.chars cs) (x.words w) := by
  cases x with
  | argument => exact renders_x.append rfl h.fills.parenthesized.fills
  | exponent =>
    refine renders_x.append rfl fun rest ks hrest hspells => ⟨endsSymbol_cons rfl, ?_⟩
    simpa [Symbol.spelling] using ((h.fills hrest hspells).2.spacedSymbol .power).space
  | orelse => exact ⟨⟨'x', _, rfl, by decide⟩, fills_conditional renders_x.fills renders_x.fills h.fills⟩

theorem derives (h : Derives x.phrase 1 w e) : Derives x.phrase 1 (x.words w) (x.tree e) := by
  cases x with
  | argument =>
    have hcall : Derives (.trailers (.name {} "x")) 1
        (.symbol .leftParen :: (Grammar.separated .comma false ([(w, e)].map (·.1)) ++ [.symbol .rightParen]))
        (.call {} (.name {} "x") ([(w, e)].map (·.2))) :=
      .call (List.forall_mem_singleton.mpr h) .noTrailer
    have htest := (primary_x.trailed hcall).test
    simpa [phrase, words, tree, Expr.parenthesized, Grammar.separated, Grammar.followed] using htest
  | exponent => exact .unsigned (.raised .name .noTrailer h)
  | orelse => exact .conditional primary_x.orTest primary_x.orTest h

theorem derives_test (h : Derives x.phrase k w e) : Derives .test k w e := by
  cases x with
  | argument | orelse => exact h
  | exponent => exact Grammar.derives_test_of_comparison (.uncompared (Grammar.derives_operation_of_factor h _))

theorem mem_parts (x : OpenEdge) (e : Expr) : (x.edge, e) ∈ (x.tree e).parts := by
  cases x <;> simp [edge, tree, Expr.parts, BinaryOp.rightEdge]

/-- A name under any number of such edges is written, and can be read with few productions open. -/
theorem exists_nested (x : OpenEdge) (n : Nat) : ∃ w e q, Renders (Nat.repeat x.chars n ['x']) w ∧
    Derives x.phrase 1 w e ∧ e.Down (List.replicate n x.edge) q := by
  induction n with
  | zero =>
    refine ⟨[.name "x"], .name {} "x", _, renders_x, ?_, .stay _⟩
    cases x with
    | argument | orelse => exact primary_x.test
    | exponent => exact primary_x.factor
  | succ n ih =>
    obtain ⟨w, e, q, hr, hd, hdown⟩ := ih
    exact ⟨x.words w, x.tree e, q, renders hr, derives hd, .step (mem_parts x e) hdown⟩

/-- The parser reads a name under any number of such edges. -/
theorem parse_nested (x : OpenEdge) (n : Nat) : ∃ m, parse .english (x.nested n) = .ok m ∧
    ∃ s, Inside m.body.stmts s ∧ ∃ e ∈ s.exprs, ∃ q, e.Down (List.replicate n x.edge) q := by
  obtain ⟨w, e, q, hr, hd, hdown⟩ := exists_nested x n
  obtain ⟨m, hm, hbare⟩ := parse_of_test hr (derives_test hd) (by decide)
  have hstmts : m.body.stmts.map Stmt.bare = [.expr {} e] := by
    have hbody := congrArg (·.body.stmts) hbare
    rwa [Module.bare, Block.bare_eq] at hbody
  obtain ⟨s, hs, hexpr⟩ := List.map_eq_singleton_iff.mp hstmts
  refine ⟨m, hm, s, .here (hs ▸ List.mem_singleton_self s), ?_⟩
  have hexprs : s.exprs.map Expr.bare = [e] := by rw [← Stmt.exprs_bare, hexpr, Stmt.exprs]
  obtain ⟨e', he', rfl⟩ := List.map_eq_singleton_iff.mp hexprs
  exact ⟨e', he' ▸ List.mem_singleton_self e', Expr.exists_down_of_bare hdown⟩

end OpenEdge

/-! ### The results -/

/-- No way down an expression of a program that has been read passes more guarded edges than productions may be
    open, and a program on which one does is refused as nested too deeply. -/
theorem guarded_of_parse (dialect : Dialect) (source : String) :
    (∀ m, parse dialect source = .ok m → ∀ s, Inside m.body.stmts s → ∀ e ∈ s.exprs, ∀ way q, e.Down way q →
      way.countP Edge.isGuarded ≤ nestingLimit) ∧
    ∀ (w rest : List Token) (depth : Nat) (ss : List Stmt), tokenStream dialect source = (w ++ rest).map .ok →
      Grammar.Makes .file depth (w.map (·.kind)) ss →
      (∃ s, Inside ss s ∧ ∃ e ∈ s.exprs, ∃ way q, e.Down way q ∧ nestingLimit < way.countP Edge.isGuarded) →
      ∃ err, parse dialect source = .error err ∧ err.fault = .tooDeeplyNested nestingLimit := by
  refine ⟨fun m hm => allShallow_of_parse hm, fun w rest depth ss hstream hw hdeep => ?_⟩
  refine parse_refuses_of_deep hstream hw fun hshallow => ?_
  obtain ⟨s, hs, e, he, way, q, hdown, hlt⟩ := hdeep
  exact absurd (hshallow s hs e he way q hdown) (Nat.not_le_of_lt hlt)

/-- Calls in the arguments of calls are read beyond the bound. -/
theorem parse_nestedCalls : ∃ m, parse .english (OpenEdge.argument.nested 101) = .ok m ∧
    ∃ s, Inside m.body.stmts s ∧ ∃ e ∈ s.exprs, ∃ way q, e.Down way q ∧
      nestingLimit < way.countP Edge.isRecursive := by
  obtain ⟨m, hm, s, hs, e, he, q, hdown⟩ := OpenEdge.argument.parse_nested 101
  exact ⟨m, hm, s, hs, e, he, _, q, hdown, by rw [List.countP_replicate]; decide⟩

end Offside

import Offside.Proofs.LineMarks
import Offside.Proofs.StmtReading
import Offside.Proofs.TreePlaces
import Offside.Proofs.VisitOrder

/-! # The headers of closure blocks

A closure block begins with a keyword and a header: what wraps it, if anything does, its name, and a colon. All in front
of the colon is read as one expression if there is no second name, and only the tree of it is kept. So the name of a
wrapped block stands right in front of the colon, behind exactly the tokens of its wrapper, but the name of any other
block may stand in parentheses: these leave no trace in the tree. -/

namespace Offside
open Grammar

/-! ### Closure blocks among statements -/

/-- The closure blocks in a statement, as a visit meets them. -/
def Stmt.closures (st : Stmt) : List Closure := st.trail.closures

/-- The closure blocks in a block, as a visit meets them. -/
def Block.closures (b : Block) : List Closure := b.trail.closures

namespace Block

theorem closures_trailStmts (stmts : List Stmt) : (trailStmts stmts).closures = stmts.flatMap Stmt.closures := by
  induction stmts with
  | nil => rfl
  | cons st stmts ih => rw [trailStmts, Trail.closures_append, ih]; rfl

theorem closures_ofStmts (stmts : List Stmt) : (ofStmts stmts).closures = stmts.flatMap Stmt.closures := by
  have hblock (b : Block) : b.closures = b.stmts.flatMap Stmt.closures := by
    cases b with
    | mk stmts span => exact closures_trailStmts stmts
  rw [hblock, stmts_ofStmts]

theorem closures_trailBranches (bs : List (Expr × Block)) :
    (trailBranches bs).closures = (bs.map (·.2)).flatMap closures := by
  induction bs with
  | nil => rfl
  | cons b bs ih =>
    simp only [trailBranches, Trail.closures_append, Trail.closures_along, List.nil_append, ih]
    rfl

theorem closures_trailOption (o : Option Block) : (trailOption o).closures = o.toList.flatMap closures := by
  cases o with
  | none => rfl
  | some b => exact (List.flatMap_singleton ..).symm

end Block

/-- A closure block in a statement is the statement, or it is in a suite of it. -/
theorem Stmt.of_mem_closures {st : Stmt} {c : Closure} (hc : c ∈ st.closures) :
    (∃ span, st = .closure span c) ∨ c ∈ st.suites.flatMap Block.closures := by
  unfold closures at hc
  cases st with
  | closure span d =>
    obtain ⟨name, wrapper, body, isLazy, scope, place⟩ := d
    rcases List.mem_cons.mp hc with rfl | hc
    · exact .inl ⟨span, rfl⟩
    · refine .inr ?_
      simpa [Trail.closures, suites, Block.closures] using hc
  | ifElse span branches orelse =>
    refine .inr ?_
    simpa [trail, Trail.closures, suites, Block.closures_trailBranches, Block.closures_trailOption] using hc
  | whileLoop span test body orelse | forLoop span target iter body orelse =>
    refine .inr ?_
    simpa [trail, Trail.closures, suites, Block.closures_trailOption, Block.closures] using hc
  | _ => simp [trail, Trail.closures] at hc

theorem Stmt.closures_of_not_isCompound {st : Stmt} (h : st.isCompound = false) : st.closures = [] := by
  refine List.eq_nil_iff_forall_not_mem.mpr fun c hc => ?_
  rcases of_mem_closures hc with ⟨span, rfl⟩ | hc
  · cases h
  · rw [suites_of_not_isCompound h] at hc
    cases hc

theorem forall_closures_append {stmts rs : List Stmt} {P : Closure → Prop} (hs : ∀ c ∈ stmts.flatMap Stmt.closures, P c)
    (hr : ∀ c ∈ rs.flatMap Stmt.closures, P c) : ∀ c ∈ (stmts ++ rs).flatMap Stmt.closures, P c := by
  rw [List.flatMap_append]
  exact List.forall_mem_append.mpr ⟨hs, hr⟩

/-! ### Headers -/

/-- The tokens between the keyword of a closure block and the colon, with the name and the wrapper read from them. -/
inductive Heading : String → Option Expr → List Token → Prop
  | alone {name : String} {depth : Nat} {w : List Token} : NameInParens name depth (w.map (·.kind)) →
    Heading name none w
  | wrapped {name : String} {depth : Nat} {e : Expr} {w : List Token} {t : Token} : Lies e w →
    Derives (.operation Parse.binaryLevels) depth (w.map (·.kind)) e.bare → t.kind = .name name →
    Heading name (some e) (w ++ [t])

/-- Where a closure block stands in a stream: it starts at a keyword, behind that comes its header up to a colon, and
    behind the colon its body. -/
inductive Closure.Headed (c : Closure) (s : List Item) : Prop
  | intro {before header body : List Token} {word colon : Token} {keyword : Keyword} {rest : List Item} :
    s = (before ++ [word] ++ header ++ [colon] ++ body).map .ok ++ rest → word.kind = .keyword keyword →
    closureWord? keyword = some c.isLazy → Opens c.span [word] → Heading c.name c.wrapper header →
    colon.kind = .symbol .colon → Bears [.block c.body] body → c.Headed s

namespace Parse
variable {all : List Token} {s : List Item} {u w : List Token} {t : Token} {c c' : Cursor}

/-- What is read of a header, by its tokens and by their kinds. -/
theorem heading_of_header {room : Nat} {r : String × Option Expr} {ks : List Kind} (hwraps : Wraps r w)
    (hheader : Header room ks (r.1, r.2.map Expr.bare)) (hkinds : w.map (·.kind) = ks) : Heading r.1 r.2 w := by
  obtain ⟨name, wrapper⟩ := r
  cases wrapper with
  | none =>
    cases hheader with
    | alone h => exact .alone (hkinds ▸ h)
  | some e =>
    obtain ⟨v, t, rfl, ht, hv⟩ := hwraps e rfl
    cases hheader with
    | wrapped h =>
      rw [List.map_append] at hkinds
      obtain rfl := List.append_inj_left' hkinds rfl
      exact .wrapped hv h ht

/-- In a stream without faults, a cursor stands before the kinds of all tokens that it has not taken. -/
theorem exists_at (h : Twin (all.map .ok) c c' u) (hlimit : c.stack.length ≤ nestingLimit) :
    ∃ ts, all = u ++ ts ∧ c.At all (ts.map (·.kind)) (nestingLimit - c.stack.length) := by
  obtain ⟨t, -, hl, -, -, -, hs⟩ := h.exists_sight
  obtain ⟨taken, ts, rfl, htaken, hts⟩ := List.map_eq_append_iff.mp hs
  obtain rfl := map_ok_inj htaken
  refine ⟨ts, rfl, ⟨ts, ?_, List.suffix_append _ _, rfl⟩, Nat.add_sub_cancel' hlimit⟩
  obtain ⟨x, rest, rfl, hx, hrest⟩ := List.map_eq_cons_iff.mp hts
  obtain rfl := Except.ok.inj hx
  simp only [Cursor.Faces, hl]
  exact ⟨rest, rfl, hrest.symm⟩

/-- What the kinds of the tokens say of an answer. -/
theorem Outcome.reads {α : Type} {p : Parse α} {Q : α → List Token → Prop} {R : α → List Kind → Prop} {room : Nat}
    {ks : List Kind} {err : SyntaxFault → Prop} (h : Outcome (all.map .ok) Q (p c) (p c')) (hc : c.At all ks room)
    (hp : p.Reads all room ks err R) :
    Outcome (all.map .ok) (fun a v => Q a v ∧ ∃ ts, all = v ++ ts ∧ R a (ts.map (·.kind))) (p c) (p c') := by
  refine h.and fun a d d' v hpc hd => ?_
  have hread := hp c hc
  rw [hpc] at hread
  obtain ⟨rest, hat, hr⟩ := hread
  obtain ⟨ts, hall, hat'⟩ := exists_at hd (Nat.le.intro hat.room)
  obtain ⟨taken, hfaces, -, rfl⟩ := hat.faces
  obtain ⟨taken', hfaces', -, hkinds⟩ := hat'.faces
  rw [hfaces.unique hfaces', hkinds] at hr
  exact ⟨ts, hall, hr⟩

theorem outcome_closureHead (hc : Twin (all.map .ok) c c' u) (hlimit : c.stack.length ≤ nestingLimit) :
    Outcome (all.map .ok) (fun r v => ∃ w, v = u ++ w ∧ Heading r.1 r.2 w) (closureHead c) (closureHead c') := by
  obtain ⟨ts, hall, hat⟩ := exists_at hc hlimit
  refine ((yields_closureHead u hc).reads hat sound_closureHead).imp fun r v h => ?_
  obtain ⟨⟨w, rfl, hwraps⟩, rest, hrest, ks, hks, hheader⟩ := h
  refine ⟨w, rfl, heading_of_header hwraps hheader ?_⟩
  rw [hall, List.append_assoc] at hrest
  rw [List.append_cancel_left hrest, List.map_append] at hks
  exact List.append_cancel_right hks

/-! ### Headers of what is read -/

/-- The closure blocks in what is read have their headers in the stream. -/
def Heads {α : Type} (p : Parse α) (s : List Item) (closures : α → List Closure) : Prop :=
  p.Yields s fun a _ => ∀ c ∈ closures a, c.Headed s

theorem heads_simpleStmt : simpleStmt.Heads s (·.flatMap Stmt.closures) := by
  refine fun u => ((yields_simpleStmt.walked takes_simpleStmt) u).imp fun stmts v hv => ?_
  obtain ⟨w, rfl, -, x, t, -, hrow, -⟩ := hv
  refine ⟨w, rfl, fun c hc => ?_⟩
  obtain ⟨st, hst, hc⟩ := List.mem_flatMap.mp hc
  rw [Stmt.closures_of_not_isCompound (hrow.not_isCompound st hst)] at hc
  cases hc

/-- A statement starts at its keyword if its suite stands behind that. -/
theorem opens_stmtSpan {b : Block} {v : List Token} (ht : t.kind.isText = true) (hb : Bears [.block b] v)
    (ho : Ordered ([t] ++ w ++ v)) : Opens (stmtSpan t.span b none) [t] := by
  obtain ⟨x, hx, hover⟩ := hb.nodes.exists_over
  have hfilled : b.stmts ≠ [] := hover.filled
  have hspan : stmtSpan t.span b none = t.span.join b.span := if_neg (by simpa using hfilled)
  obtain ⟨f, hf, hopens⟩ := (((leads_token ht).append w).around hover.ends (ho.sublist (hx.append_left _))).opens
  rw [List.append_assoc, texts_append, texts_singleton ht] at hf
  rw [hspan]
  exact ⟨f, by rwa [texts_singleton ht], hopens⟩

section
variable {suite : Parse Block} (hbears : suite.Yields s fun b => Bears [.block b]) (h : suite.Heads s Block.closures)

section
include h

theorem heads_guarded : (guarded suite).Heads s (·.2.closures) := by
  intro u
  refine Yields.bind yields_test fun test w _ => ?_
  refine (Proceeds.require rfl).bind fun colon v hcolon => ?_
  obtain ⟨-, rfl⟩ := hcolon
  refine Yields.bind h fun body x hx => ?_
  exact .pure ⟨w ++ [colon] ++ x, by simp, hx⟩

theorem heads_elseSuite : (elseSuite suite).Heads s (·.toList.flatMap Block.closures) := by
  intro u
  refine (Proceeds.accept rfl).bind fun o v ho => ?_
  rcases ho with ⟨rfl, rfl⟩ | ⟨t, rfl, -, rfl⟩
  · exact .pure ⟨[], by simp, nofun⟩
  · refine (Proceeds.require rfl).bind fun colon v hcolon => ?_
    obtain ⟨-, rfl⟩ := hcolon
    refine Yields.bind h fun body x hx => ?_
    exact .pure ⟨[t] ++ [colon] ++ x, by simp, by simpa using hx⟩

theorem heads_whileStmt {start : Span} : (whileStmt suite start).Heads s Stmt.closures := by
  refine Yields.within fun u => ?_
  refine Yields.bind (heads_guarded h) fun r w hr => ?_
  obtain ⟨test, body⟩ := r
  refine Yields.bind (heads_elseSuite h) fun orelse x ho => ?_
  refine .pure ⟨w ++ x, by simp, fun c hc => ?_⟩
  exact (List.forall_mem_append.mpr ⟨hr, ho⟩) c ((Stmt.of_mem_closures hc).resolve_left nofun)

theorem heads_forStmt {start : Span} : (forStmt suite start).Heads s Stmt.closures := by
  refine Yields.within fun u => ?_
  refine Proceeds.requireName.bind fun r v hr => ?_
  obtain ⟨x, -, -, rfl⟩ := hr
  refine (Proceeds.require rfl).bind fun y v hy => ?_
  obtain ⟨-, rfl⟩ := hy
  refine Yields.bind (heads_guarded h) fun r w hr => ?_
  obtain ⟨iter, body⟩ := r
  refine Yields.bind (heads_elseSuite h) fun orelse z ho => ?_
  refine .pure ⟨[x] ++ [y] ++ w ++ z, by simp, fun c hc => ?_⟩
  exact (List.forall_mem_append.mpr ⟨hr, ho⟩) c ((Stmt.of_mem_closures hc).resolve_left nofun)

theorem heads_ifStmt {start : Span} : (ifStmt suite start).Heads s Stmt.closures := by
  refine Yields.within fun u => ?_
  refine Yields.bind (heads_guarded h) fun first w hfirst => ?_
  let read (branches : List (Expr × Block)) (v : List Token) : Prop :=
    ∃ w, v = u ++ w ∧ ∀ c ∈ (branches.map (·.2)).flatMap Block.closures, c.Headed s
  refine Proceeds.bind (Q := read) ?_ fun branches v hv => ?_
  · refine Proceeds.loop (R := read) ⟨w, rfl, by simpa using hfirst⟩ ?_
    rintro branches _ ⟨w, rfl, hw⟩
    refine (Proceeds.accept rfl).bind fun o v ho => ?_
    rcases ho with ⟨rfl, rfl⟩ | ⟨word, rfl, -, rfl⟩
    · exact .pure ⟨w, rfl, hw⟩
    · refine Yields.bind (heads_guarded h) fun r x hr => ?_
      refine .pure ⟨⟨w ++ [word] ++ x, by simp, ?_⟩, by simp⟩
      rw [List.map_append, List.flatMap_append]
      exact List.forall_mem_append.mpr ⟨hw, by simpa using hr⟩
  · obtain ⟨w, rfl, hw⟩ := hv
    refine Yields.bind (heads_elseSuite h) fun orelse x ho => ?_
    refine .pure ⟨w ++ x, by simp, fun c hc => ?_⟩
    have hc := (Stmt.of_mem_closures hc).resolve_left nofun
    rw [Stmt.suites, List.flatMap_append] at hc
    exact (List.forall_mem_append.mpr ⟨hw, ho⟩) c hc

end

include hbears h

theorem yieldsFrom_closureStmt_headed {keyword : Keyword} {isLazy : Bool} (hs : s = all.map .ok)
    (hword : t.kind = .keyword keyword) (hlazy : closureWord? keyword = some isLazy) :
    (closureStmt suite t.span isLazy).YieldsFrom s t fun st _ => ∀ c ∈ st.closures, c.Headed s := by
  refine fun u => .withinLimit fun c c' hc hlimit => ?_
  subst hs
  refine (outcome_closureHead hc hlimit).bind fun r v hr => ?_
  obtain ⟨name, wrapper⟩ := r
  obtain ⟨w, rfl, hheading⟩ := hr
  refine (Proceeds.require rfl).bind fun colon v hcolon => ?_
  obtain ⟨hcolon, rfl⟩ := hcolon
  refine (hbears.both h).bind fun body x hx => ?_
  obtain ⟨hbody, hinside⟩ := hx
  have htaken : u ++ [t] ++ w ++ [colon] ++ x = u ++ ([t] ++ (w ++ [colon]) ++ x) := by simp
  refine .facing fun rest hrest => .known fun hu => .pure ⟨_, by rw [htaken, List.append_assoc], fun c hc => ?_⟩
  rcases Stmt.of_mem_closures hc with ⟨span, hclosure⟩ | hc
  · cases hclosure
    have hopens := opens_stmtSpan (by rw [hword]; rfl) hbody (hu.rest htaken)
    exact .intro hrest hword hlazy hopens hheading hcolon hbody
  · exact hinside c (by simpa [Stmt.suites] using hc)

theorem yieldsFrom_compound_headed {p : Parse Stmt} (hs : s = all.map .ok)
    (hp : compound? suite t.span t.kind = some p) : p.YieldsFrom s t fun st _ => ∀ c ∈ st.closures, c.Headed s := by
  have hany {p : Parse Stmt} (hp : p.Heads s Stmt.closures) :
      p.YieldsFrom s t fun st _ => ∀ c ∈ st.closures, c.Headed s := by
    refine fun u => (hp (u ++ [t])).imp fun st v hv => ?_
    obtain ⟨w, rfl, hw⟩ := hv
    exact ⟨[t] ++ w, by simp, hw⟩
  unfold compound? at hp
  split at hp
  · obtain rfl := Option.some.inj hp
    exact hany (heads_ifStmt h)
  · obtain rfl := Option.some.inj hp
    exact hany (heads_whileStmt h)
  · obtain rfl := Option.some.inj hp
    exact hany (heads_forStmt h)
  · next hword =>
    obtain rfl := Option.some.inj hp
    exact yieldsFrom_closureStmt_headed hbears h hs hword rfl
  · next hword =>
    obtain rfl := Option.some.inj hp
    exact yieldsFrom_closureStmt_headed hbears h hs hword rfl
  · cases hp

theorem heads_statementOver (hs : s = all.map .ok) : (statementOver suite).Heads s (·.flatMap Stmt.closures) := by
  intro u
  refine Proceeds.bind (Proceeds.acceptMap (fun t p hp => Kind.isText_of_isFlat (isFlat_of_compound hp))
    fun t t' ht hnone => ?_) fun o v ho => ?_
  · rw [ht]
    exact compound?_none_anywhere hnone
  rcases ho with ⟨rfl, rfl⟩ | ⟨t, p, rfl, hp, rfl⟩
  · exact heads_simpleStmt _
  · refine (yieldsFrom_compound_headed hbears h hs hp u).bind fun st v hv => ?_
    obtain ⟨w, rfl, hw⟩ := hv
    exact .pure ⟨w, rfl, by simpa using hw⟩

theorem heads_suiteOver (hs : s = all.map .ok) : (suiteOver suite).Heads s Block.closures := by
  refine Yields.within fun u => ?_
  refine Proceeds.mark nofun (fun _ _ => rfl) ?_ fun nl _ => ?_
  · refine Yields.bind heads_simpleStmt fun stmts w hw => ?_
    exact .pure ⟨w, rfl, by rwa [Block.closures_ofStmts]⟩
  refine Proceeds.requireMark nofun (fun _ _ => rfl) fun first _ => ?_
  let read (stmts : List Stmt) (v : List Token) : Prop :=
    ∃ w, v = u ++ w ∧ ∀ c ∈ stmts.flatMap Stmt.closures, c.Headed s
  refine Proceeds.bind (Q := read) ?_ fun stmts v hv => ?_
  · refine Proceeds.loop (R := read) ⟨[nl] ++ [first], by simp, nofun⟩ ?_
    rintro stmts _ ⟨w, rfl, hw⟩
    refine Proceeds.mark nofun (fun _ _ => rfl) ?_ fun last _ => ?_
    · refine ((yields_statementOver hbears).both (heads_statementOver hbears h hs)).bind fun rs x hx => ?_
      obtain ⟨hrow, hx⟩ := hx
      exact .pure ⟨⟨w ++ x, by simp, forall_closures_append hw hx⟩, hrow.length_lt _⟩
    · exact .pure ⟨w ++ [last], by simp, hw⟩
  · obtain ⟨w, rfl, hw⟩ := hv
    exact .pure ⟨w, rfl, by rwa [Block.closures_ofStmts]⟩

end

theorem heads_suiteUpTo (hs : s = all.map .ok) (height : Nat) : (suiteUpTo height).Heads s Block.closures := by
  induction height with
  | zero => exact fun _ => .failUnexpected
  | succ height ih => exact heads_suiteOver (yields_suiteUpTo height) ih hs

theorem heads_suite (hs : s = all.map .ok) : suite.Heads s Block.closures :=
  fun u => Proceeds.counted (f := fun n => suiteUpTo (n + 1)) fun n => heads_suiteUpTo hs (n + 1) u

/-- The closure blocks of a program have their headers in its stream. -/
theorem concludes_module_headed (hs : s = all.map .ok) :
    module.Concludes s [] fun m => ∀ c ∈ m.closures, c.Headed s := by
  refine Concludes.within ?_
  let read (stmts : List Stmt) (_ : List Token) : Prop := ∀ c ∈ stmts.flatMap Stmt.closures, c.Headed s
  refine Proceeds.conclude (Q := read) ?_ fun stmts w hw => concludes_endMarker fun t rest _ _ => ?_
  · refine Proceeds.loop (R := read) nofun fun stmts w hw => ?_
    refine Proceeds.mark nofun (fun _ _ => rfl) ?_ fun nl _ => .pure ⟨hw, by simp⟩
    refine Proceeds.sees.bind fun b v hv => ?_
    subst hv
    refine .ite (fun _ => .pure hw) fun _ => .present ?_
    refine ((yields_statementOver yields_suite).both (heads_statementOver yields_suite (heads_suite hs) hs)).bind
      fun rs x hx => ?_
    obtain ⟨hrow, hx⟩ := hx
    exact .pure ⟨forall_closures_append hw hx, hrow.length_lt _⟩
  · have hclosures : Module.closures { body := .ofStmts stmts } = stmts.flatMap Stmt.closures :=
      (Module.closures_eq _).trans (Block.closures_ofStmts stmts)
    rwa [hclosures]

end Parse

/-- Each closure block of a program has its header in the stream: what wraps it in front of its name, and its name in
    front of the colon; a name that nothing wraps may stand in parentheses. -/
theorem headed_of_parse {dialect : Dialect} {source : String} {m : Module} (h : parse dialect source = .ok m) :
    ∀ c ∈ m.closures, c.Headed (tokenStream dialect source) := by
  obtain ⟨w, t, hstream, -⟩ := exists_program h
  exact (Parse.concludes_module_headed hstream).of_run (bounded_tokenStream dialect source) h

/-- The names of the closure blocks of a program, and whether something wraps them. -/
def Module.headings (m : Module) : List (String × Bool) := m.closures.map fun c => (c.name, c.wrapper.isSome)

/-- A wrapped closure block with another one in it. -/
def wrappedSteps : String := "class make(1).wrap Point:\n  def area: pass\n"

theorem headed_of_parse_wrappedSteps : ∃ m, parse .english wrappedSteps = .ok m ∧
    m.headings = [("Point", true), ("area", false)] ∧
    ∀ c ∈ m.closures, c.Headed (tokenStream .english wrappedSteps) := by
  have hread : (parse .english wrappedSteps).toOption.map Module.headings =
      some [("Point", true), ("area", false)] := by
    decide +kernel
  obtain ⟨m, hm, hheadings⟩ := Option.map_eq_some_iff.mp hread
  have hparse := ok_of_toOption hm
  exact ⟨m, hparse, hheadings, headed_of_parse hparse⟩

/-- A name in parentheses is taken for a name alone, and what stands in front of the colon is no name. -/
theorem parse_name_in_parens : ∃ m, parse .english "def (f): pass" = .ok m ∧ m.headings = [("f", false)] ∧
    ¬[.name "f", .symbol .colon] <:+: kindsOf (tokenStream .english "def (f): pass") := by
  have hread : (parse .english "def (f): pass").toOption.map Module.headings = some [("f", false)] := by
    decide +kernel
  have hkinds : kindsOf (tokenStream .english "def (f): pass") = [.keyword .defineKw, .symbol .leftParen, .name "f",
      .symbol .rightParen, .symbol .colon, .keyword .passKw, .newline, .endMarker] := by
    decide +kernel
  obtain ⟨m, hm, hheadings⟩ := Option.map_eq_some_iff.mp hread
  refine ⟨m, ok_of_toOption hm, hheadings, ?_⟩
  rw [hkinds]
  decide

end Offside

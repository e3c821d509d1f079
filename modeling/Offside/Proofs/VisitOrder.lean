import Mathlib.Data.List.Basic
import Offside.Tree.Visit

/-! # The order of a visit

A visit meets the nodes of a program one after the other. Its trail is the list of these nodes, with the body of each
closure block set apart from what is around it, so that one can go along a block with or without the bodies of the
closure blocks in it. Along a trail lie exactly the nodes that a visitor meets, in the same order. -/

namespace Offside

/-! ### Trails -/

/-- What a visit meets, one node after the other, with the bodies of closure blocks set apart. -/
inductive Trail where
  | done
  | meet (node : Node) (next : Trail)
  /-- A closure block: itself and its wrapper, then its body, then what comes behind it. -/
  | enter (closure : Closure) (inner next : Trail)

namespace Expr

mutual

/-- An expression and the expressions inside it, in visiting order. -/
def nodes : Expr → List Node
  | e@(.name ..) => [.expr e]
  | e@(.constant ..) => [.expr e]
  | e@(.attribute _ v _) => .expr e :: v.nodes
  | e@(.binary _ _ l r) => .expr e :: (l.nodes ++ r.nodes)
  | e@(.bool _ _ l r) => .expr e :: (l.nodes ++ r.nodes)
  | e@(.unary _ _ o) => .expr e :: o.nodes
  | e@(.compare _ _ l r) => .expr e :: (l.nodes ++ r.nodes)
  | e@(.call _ f as) => .expr e :: (f.nodes ++ nodesList as)
  | e@(.conditional _ t b o) => .expr e :: (t.nodes ++ (b.nodes ++ o.nodes))
  | e@(.list _ es) => .expr e :: nodesList es
  | e@(.tuple _ es) => .expr e :: nodesList es
  | e@(.dict _ es) => .expr e :: nodesEntries es

def nodesList : List Expr → List Node
  | [] => []
  | e :: es => e.nodes ++ nodesList es

def nodesEntries : List (Expr × Expr) → List Node
  | [] => []
  | (k, v) :: es => k.nodes ++ (v.nodes ++ nodesEntries es)

end

def nodesOption : Option Expr → List Node
  | none => []
  | some e => e.nodes

end Expr

/-- A target and the expressions inside it. -/
def Target.nodes : Target → List Node
  | t@(.name _) => [.target t]
  | t@(.attribute v _) => .target t :: v.nodes

/-- A closure block without its body, in visiting order. -/
def Closure.head (c : Closure) : List Node := .closure c :: Expr.nodesOption c.wrapper

namespace Trail

def append : Trail → Trail → Trail
  | done, u => u
  | meet n next, u => meet n (next.append u)
  | enter c inner next, u => enter c inner (next.append u)

instance : Append Trail := ⟨append⟩

/-- The trail along nodes that are no closure blocks. -/
def along : List Node → Trail
  | [] => done
  | n :: ns => meet n (along ns)

/-- All nodes along a trail. -/
def nodes : Trail → List Node
  | done => []
  | meet n next => n :: next.nodes
  | enter c inner next => c.head ++ (inner.nodes ++ next.nodes)

/-- The nodes along a trail without those in the bodies of closure blocks. -/
def own : Trail → List Node
  | done => []
  | meet n next => n :: next.own
  | enter c _ next => c.head ++ next.own

/-- All closure blocks along a trail. -/
def closures : Trail → List Closure
  | done => []
  | meet _ next => next.closures
  | enter c inner next => c :: (inner.closures ++ next.closures)

/-- The closure blocks along a trail that are in no other. -/
def outermost : Trail → List Closure
  | done => []
  | meet _ next => next.outermost
  | enter c _ next => c :: next.outermost

section
variable (u v : Trail) (ns : List Node)

@[simp] theorem done_append : done ++ v = v := rfl

@[simp] theorem meet_append (n : Node) : meet n u ++ v = meet n (u ++ v) := rfl

@[simp] theorem enter_append (c : Closure) (inner : Trail) : enter c inner u ++ v = enter c inner (u ++ v) := rfl

@[simp] theorem nodes_append : (u ++ v).nodes = u.nodes ++ v.nodes := by
  induction u with
  | done => rfl
  | meet n next ih => simp [nodes, ih]
  | enter c inner next _ ih => simp [nodes, ih]

@[simp] theorem closures_append : (u ++ v).closures = u.closures ++ v.closures := by
  induction u with
  | done => rfl
  | meet n next ih => simp [closures, ih]
  | enter c inner next _ ih => simp [closures, ih]

@[simp] theorem nodes_along : (along ns).nodes = ns := by
  induction ns with
  | nil => rfl
  | cons n ns ih => simp [along, nodes, ih]

@[simp] theorem closures_along : (along ns).closures = [] := by
  induction ns with
  | nil => rfl
  | cons n ns ih => exact ih

end

end Trail

mutual

/-- The trail along a statement. -/
def Stmt.trail : Stmt → Trail
  | s@(.expr _ e) => .meet (.stmt s) (.along e.nodes)
  | s@(.assign _ t e) => .meet (.stmt s) (.along (e.nodes ++ t.nodes))
  | s@(.augAssign _ _ t e) => .meet (.stmt s) (.along (e.nodes ++ t.nodes))
  | s@(.ifElse _ bs o) => .meet (.stmt s) (Block.trailBranches bs ++ Block.trailOption o)
  | s@(.whileLoop _ t b o) => .meet (.stmt s) (.along t.nodes ++ (b.trail ++ Block.trailOption o))
  | s@(.forLoop _ _ i b o) => .meet (.stmt s) (.along i.nodes ++ (b.trail ++ Block.trailOption o))
  | s@(.breakLoop _) => .meet (.stmt s) .done
  | s@(.continueLoop _) => .meet (.stmt s) .done
  | s@(.pass _) => .meet (.stmt s) .done
  | s@(.assert _ t msg) => .meet (.stmt s) (.along (t.nodes ++ Expr.nodesOption msg))
  | s@(.global ..) => .meet (.stmt s) .done
  | s@(.exec _ _ e) => .meet (.stmt s) (.along e.nodes)
  | s@(.closure _ c) => .meet (.stmt s) c.trail

/-- The trail along a block. -/
def Block.trail : Block → Trail
  | b@⟨stmts, _⟩ => .meet (.block b) (Block.trailStmts stmts)

/-- The trail along a closure block. -/
def Closure.trail : Closure → Trail
  | c@⟨_, _, body, _, _, _⟩ => .enter c body.trail .done

def Block.trailStmts : List Stmt → Trail
  | [] => .done
  | s :: ss => s.trail ++ Block.trailStmts ss

def Block.trailBranches : List (Expr × Block) → Trail
  | [] => .done
  | (t, b) :: bs => .along t.nodes ++ (b.trail ++ Block.trailBranches bs)

def Block.trailOption : Option Block → Trail
  | none => .done
  | some b => b.trail

end

/-- The nodes of a block without those in the bodies of closure blocks. -/
def Block.own (b : Block) : List Node := b.trail.own

/-- All nodes of a program, in visiting order. -/
def Module.nodes (m : Module) : List Node := .module m :: m.body.trail.nodes

/-! ### What a visitor meets -/

section
variable {M : Type → Type} [Monad M] (act : Node → M Unit)

/-- A visitor that goes into every node and acts at it first. -/
def listener (n : Node) : M Bool := do
  act n
  return true

/-- A visit that acts at some nodes, one after the other. -/
def Hears (p : M Unit) (ns : List Node) : Prop := p = forM ns act

variable {act}

theorem Hears.pure : Hears act (Pure.pure ()) [] := rfl

variable [LawfulMonad M]

theorem Hears.bind {p q : M Unit} {ns ms : List Node} (hp : Hears act p ns) (hq : Hears act q ms) :
    Hears act (p >>= fun _ => q) (ns ++ ms) := by
  unfold Hears at *
  rw [hp, hq, List.forM_append]

theorem Hears.meet {n : Node} {inside : M Unit} {ns : List Node} (h : Hears act inside ns) :
    Hears act (meet (listener act) n inside) (n :: ns) := by
  unfold Hears at *
  simp only [Offside.meet, listener, bind_assoc, pure_bind, if_true, h, List.forM_cons]

mutual

theorem Expr.hears_visit : ∀ e : Expr, Hears act (e.visit (listener act)) e.nodes
  | .name .. => .meet .pure
  | .constant .. => .meet .pure
  | .attribute _ v _ => .meet v.hears_visit
  | .binary _ _ l r => .meet (l.hears_visit.bind r.hears_visit)
  | .bool _ _ l r => .meet (l.hears_visit.bind r.hears_visit)
  | .unary _ _ o => .meet o.hears_visit
  | .compare _ _ l r => .meet (l.hears_visit.bind r.hears_visit)
  | .call _ f as => .meet (f.hears_visit.bind (Expr.hears_visitList as))
  | .conditional _ t b o => .meet (t.hears_visit.bind (b.hears_visit.bind o.hears_visit))
  | .list _ es => .meet (Expr.hears_visitList es)
  | .tuple _ es => .meet (Expr.hears_visitList es)
  | .dict _ es => .meet (Expr.hears_visitEntries es)

theorem Expr.hears_visitList : ∀ es : List Expr, Hears act (Expr.visitList (listener act) es) (Expr.nodesList es)
  | [] => .pure
  | e :: es => e.hears_visit.bind (Expr.hears_visitList es)

theorem Expr.hears_visitEntries :
    ∀ es : List (Expr × Expr), Hears act (Expr.visitEntries (listener act) es) (Expr.nodesEntries es)
  | [] => .pure
  | (k, v) :: es => k.hears_visit.bind (v.hears_visit.bind (Expr.hears_visitEntries es))

end

theorem Expr.hears_visitOption : ∀ o : Option Expr, Hears act (Expr.visitOption (listener act) o) (Expr.nodesOption o)
  | none => .pure
  | some e => e.hears_visit

theorem Target.hears_visit : ∀ t : Target, Hears act (t.visit (listener act)) t.nodes
  | .name _ => .meet .pure
  | .attribute v _ => .meet v.hears_visit

/-- A visit that acts at the nodes along a trail. -/
def Treads (act : Node → M Unit) (p : M Unit) (u : Trail) : Prop := Hears act p u.nodes

omit [LawfulMonad M] in
theorem Hears.along {p : M Unit} {ns : List Node} (h : Hears act p ns) : Treads act p (.along ns) := by
  rwa [Treads, Trail.nodes_along]

theorem Treads.bind {p q : M Unit} {u v : Trail} (hp : Treads act p u) (hq : Treads act q v) :
    Treads act (p >>= fun _ => q) (u ++ v) := by
  rw [Treads, Trail.nodes_append]
  exact Hears.bind hp hq

theorem Treads.enter {c : Closure} {p q : M Unit} {inner : Trail}
    (hp : Hears act p (Expr.nodesOption c.wrapper)) (hq : Treads act q inner) :
    Treads act (Offside.meet (listener act) (.closure c) (p >>= fun _ => q)) (.enter c inner .done) := by
  rw [Treads, Trail.nodes, Trail.nodes, List.append_nil]
  exact Hears.meet (hp.bind hq)

set_option linter.unusedSectionVars false in
mutual

theorem Stmt.treads_visit : ∀ s : Stmt, Treads act (s.visit (listener act)) s.trail
  | .expr _ e => Hears.meet e.hears_visit.along
  | .assign _ t e => Hears.meet (e.hears_visit.bind t.hears_visit).along
  | .augAssign _ _ t e => Hears.meet (e.hears_visit.bind t.hears_visit).along
  | .ifElse _ bs o => Hears.meet ((Block.treads_visitBranches bs).bind (Block.treads_visitOption o))
  | .whileLoop _ t b o => Hears.meet (t.hears_visit.along.bind (b.treads_visit.bind (Block.treads_visitOption o)))
  | .forLoop _ _ i b o => Hears.meet (i.hears_visit.along.bind (b.treads_visit.bind (Block.treads_visitOption o)))
  | .breakLoop _ => Hears.meet .pure
  | .continueLoop _ => Hears.meet .pure
  | .pass _ => Hears.meet .pure
  | .assert _ t msg => Hears.meet (t.hears_visit.bind (Expr.hears_visitOption msg)).along
  | .global .. => Hears.meet .pure
  | .exec _ _ e => Hears.meet e.hears_visit.along
  | .closure _ c => Hears.meet c.treads_visit

theorem Block.treads_visit : ∀ b : Block, Treads act (b.visit (listener act)) b.trail
  | ⟨ss, _⟩ => Hears.meet (Block.treads_visitStmts ss)

theorem Closure.treads_visit : ∀ c : Closure, Treads act (c.visit (listener act)) c.trail
  | ⟨_, w, body, _, _, _⟩ => .enter (Expr.hears_visitOption w) body.treads_visit

theorem Block.treads_visitStmts :
    ∀ ss : List Stmt, Treads act (Block.visitStmts (listener act) ss) (Block.trailStmts ss)
  | [] => Hears.pure
  | s :: ss => s.treads_visit.bind (Block.treads_visitStmts ss)

theorem Block.treads_visitBranches :
    ∀ bs : List (Expr × Block), Treads act (Block.visitBranches (listener act) bs) (Block.trailBranches bs)
  | [] => Hears.pure
  | (t, b) :: bs => t.hears_visit.along.bind (b.treads_visit.bind (Block.treads_visitBranches bs))

theorem Block.treads_visitOption :
    ∀ o : Option Block, Treads act (Block.visitOption (listener act) o) (Block.trailOption o)
  | none => Hears.pure
  | some b => b.treads_visit

end

/-- A visitor that goes into every node acts at all nodes, and in an order that does not depend on what it does. -/
theorem Module.hears_visit (m : Module) : Hears act (m.visit (listener act)) m.nodes := .meet m.body.treads_visit

end

theorem forM_modify_append {α : Type} (tell : Node → List α) (ns : List Node) (log : List α) :
    (forM ns fun n => (modify (· ++ tell n) : StateM (List α) Unit)) log = ((), log ++ ns.flatMap tell) := by
  induction ns generalizing log with
  | nil => exact congrArg (Prod.mk ()) (List.append_nil log).symm
  | cons n ns ih =>
    show (forM ns fun n => (modify (· ++ tell n) : StateM (List α) Unit)) (log ++ tell n) = _
    rw [ih, List.flatMap_cons, List.append_assoc]

/-- What a program's nodes have to tell, they tell in visiting order. -/
theorem Module.collect_eq {α : Type} (m : Module) (tell : Node → List α) : m.collect tell = m.nodes.flatMap tell := by
  have hvisit : Hears (fun n => (modify (· ++ tell n) : StateM (List α) Unit))
      (m.visit (listener fun n => modify (· ++ tell n))) m.nodes := m.hears_visit
  exact congrArg Prod.snd ((congrFun hvisit []).trans (forM_modify_append tell m.nodes []))

/-! ### Closure blocks along a trail -/

def Node.closure? : Node → Option Closure
  | .closure c => some c
  | _ => none

/-- Nodes among which there is no closure block. -/
def ClosureFree (ns : List Node) : Prop := ∀ n ∈ ns, n.closure? = none

theorem ClosureFree.append {ns ms : List Node} (hn : ClosureFree ns) (hm : ClosureFree ms) : ClosureFree (ns ++ ms) :=
  List.forall_mem_append.mpr ⟨hn, hm⟩

theorem ClosureFree.cons {n : Node} {ns : List Node} (hn : n.closure? = none) (h : ClosureFree ns) :
    ClosureFree (n :: ns) :=
  List.forall_mem_cons.mpr ⟨hn, h⟩

mutual

theorem Expr.closureFree_nodes : ∀ e : Expr, ClosureFree e.nodes
  | .name .. => .cons rfl (List.forall_mem_nil _)
  | .constant .. => .cons rfl (List.forall_mem_nil _)
  | .attribute _ v _ => .cons rfl v.closureFree_nodes
  | .binary _ _ l r => .cons rfl (l.closureFree_nodes.append r.closureFree_nodes)
  | .bool _ _ l r => .cons rfl (l.closureFree_nodes.append r.closureFree_nodes)
  | .unary _ _ o => .cons rfl o.closureFree_nodes
  | .compare _ _ l r => .cons rfl (l.closureFree_nodes.append r.closureFree_nodes)
  | .call _ f as => .cons rfl (f.closureFree_nodes.append (Expr.closureFree_nodesList as))
  | .conditional _ t b o => .cons rfl (t.closureFree_nodes.append (b.closureFree_nodes.append o.closureFree_nodes))
  | .list _ es => .cons rfl (Expr.closureFree_nodesList es)
  | .tuple _ es => .cons rfl (Expr.closureFree_nodesList es)
  | .dict _ es => .cons rfl (Expr.closureFree_nodesEntries es)

theorem Expr.closureFree_nodesList : ∀ es : List Expr, ClosureFree (Expr.nodesList es)
  | [] => List.forall_mem_nil _
  | e :: es => e.closureFree_nodes.append (Expr.closureFree_nodesList es)

theorem Expr.closureFree_nodesEntries : ∀ es : List (Expr × Expr), ClosureFree (Expr.nodesEntries es)
  | [] => List.forall_mem_nil _
  | (k, v) :: es => k.closureFree_nodes.append (v.closureFree_nodes.append (Expr.closureFree_nodesEntries es))

end

theorem Expr.closureFree_nodesOption : ∀ o : Option Expr, ClosureFree (Expr.nodesOption o)
  | none => List.forall_mem_nil _
  | some e => e.closureFree_nodes

theorem Target.closureFree_nodes : ∀ t : Target, ClosureFree t.nodes
  | .name _ => .cons rfl (List.forall_mem_nil _)
  | .attribute v _ => .cons rfl v.closureFree_nodes

namespace Trail

/-- A trail that enters every closure block it meets, and goes along its body there. -/
inductive Faithful : Trail → Prop
  | done : Faithful .done
  | meet {n : Node} {next : Trail} : n.closure? = none → Faithful next → Faithful (.meet n next)
  | enter {c : Closure} {next : Trail} : Faithful c.body.trail → Faithful next → Faithful (.enter c c.body.trail next)

variable {u v : Trail} {ns : List Node}

theorem Faithful.append (hu : u.Faithful) (hv : v.Faithful) : (u ++ v).Faithful := by
  induction hu with
  | done => exact hv
  | meet hn _ ih => exact .meet hn ih
  | enter hbody _ _ ih => exact .enter hbody ih

theorem Faithful.along (h : ClosureFree ns) : (Trail.along ns).Faithful := by
  induction ns with
  | nil => exact .done
  | cons n ns ih =>
    obtain ⟨hn, h⟩ := List.forall_mem_cons.mp h
    exact .meet hn (ih h)

end Trail

open Trail in
mutual

theorem Stmt.faithful_trail : ∀ s : Stmt, s.trail.Faithful
  | .expr _ e => .meet rfl (.along e.closureFree_nodes)
  | .assign _ t e => .meet rfl (.along (e.closureFree_nodes.append t.closureFree_nodes))
  | .augAssign _ _ t e => .meet rfl (.along (e.closureFree_nodes.append t.closureFree_nodes))
  | .ifElse _ bs o => .meet rfl ((Block.faithful_trailBranches bs).append (Block.faithful_trailOption o))
  | .whileLoop _ t b o => .meet rfl
    ((Faithful.along t.closureFree_nodes).append (b.faithful_trail.append (Block.faithful_trailOption o)))
  | .forLoop _ _ i b o => .meet rfl
    ((Faithful.along i.closureFree_nodes).append (b.faithful_trail.append (Block.faithful_trailOption o)))
  | .breakLoop _ => .meet rfl .done
  | .continueLoop _ => .meet rfl .done
  | .pass _ => .meet rfl .done
  | .assert _ t msg => .meet rfl (.along (t.closureFree_nodes.append (Expr.closureFree_nodesOption msg)))
  | .global .. => .meet rfl .done
  | .exec _ _ e => .meet rfl (.along e.closureFree_nodes)
  | .closure _ c => .meet rfl c.faithful_trail

theorem Block.faithful_trail : ∀ b : Block, b.trail.Faithful
  | ⟨ss, _⟩ => .meet rfl (Block.faithful_trailStmts ss)

theorem Closure.faithful_trail : ∀ c : Closure, c.trail.Faithful
  | ⟨_, _, body, _, _, _⟩ => .enter body.faithful_trail .done

theorem Block.faithful_trailStmts : ∀ ss : List Stmt, (Block.trailStmts ss).Faithful
  | [] => .done
  | s :: ss => s.faithful_trail.append (Block.faithful_trailStmts ss)

theorem Block.faithful_trailBranches : ∀ bs : List (Expr × Block), (Block.trailBranches bs).Faithful
  | [] => .done
  | (t, b) :: bs =>
    (Faithful.along t.closureFree_nodes).append (b.faithful_trail.append (Block.faithful_trailBranches bs))

theorem Block.faithful_trailOption : ∀ o : Option Block, (Block.trailOption o).Faithful
  | none => .done
  | some b => b.faithful_trail

end

namespace Trail
variable {u : Trail} {ns : List Node}

theorem filterMap_closureFree (h : ClosureFree ns) : ns.filterMap Node.closure? = [] :=
  List.filterMap_eq_nil_iff.mpr h

theorem filterMap_head (c : Closure) : c.head.filterMap Node.closure? = [c] := by
  rw [Closure.head, List.filterMap_cons_some (f := Node.closure?) (a := .closure c) rfl,
    filterMap_closureFree (Expr.closureFree_nodesOption c.wrapper)]

theorem Faithful.filterMap_nodes (h : u.Faithful) : u.nodes.filterMap Node.closure? = u.closures := by
  induction h with
  | done => rfl
  | meet hn _ ih => rw [nodes, closures, List.filterMap_cons_none hn, ih]
  | enter _ _ ihbody ih =>
    rw [nodes, closures, List.filterMap_append, List.filterMap_append, filterMap_head, ihbody, ih]
    rfl

theorem Faithful.filterMap_own (h : u.Faithful) : u.own.filterMap Node.closure? = u.outermost := by
  induction h with
  | done => rfl
  | meet hn _ ih => rw [own, outermost, List.filterMap_cons_none hn, ih]
  | enter _ _ _ ih =>
    rw [own, outermost, List.filterMap_append, filterMap_head, ih]
    rfl

/-- Each closure block is in no other, or directly in the body of another. -/
theorem Faithful.mem_closures {c : Closure} (h : u.Faithful) (hc : c ∈ u.closures) :
    c ∈ u.outermost ∨ ∃ d ∈ u.closures, c ∈ d.body.trail.outermost := by
  induction h with
  | done => cases hc
  | meet _ _ ih => exact ih hc
  | @enter d next _ _ ihbody ih =>
    rcases List.mem_cons.mp hc with rfl | hc
    · exact .inl List.mem_cons_self
    rcases List.mem_append.mp hc with hc | hc
    · refine .inr ?_
      rcases ihbody hc with hc | ⟨e, he, hc⟩
      · exact ⟨d, List.mem_cons_self, hc⟩
      · exact ⟨e, List.mem_cons_of_mem _ (List.mem_append_left _ he), hc⟩
    · rcases ih hc with hc | ⟨e, he, hc⟩
      · exact .inl (List.mem_cons_of_mem _ hc)
      · exact .inr ⟨e, List.mem_cons_of_mem _ (List.mem_append_right _ he), hc⟩

end Trail

theorem Module.closures_eq (m : Module) : m.closures = m.body.trail.closures :=
  calc
    m.closures = m.nodes.flatMap fun n => n.closure?.toList :=
      (collect_eq m _).trans (List.flatMap_congr fun n _ => by cases n <;> rfl)
    _ = m.body.trail.nodes.filterMap Node.closure? := (List.filterMap_eq_flatMap_toList Node.closure? m.nodes).symm
    _ = m.body.trail.closures := m.body.faithful_trail.filterMap_nodes

theorem Block.mem_outermost_iff {b : Block} {c : Closure} : c ∈ b.trail.outermost ↔ .closure c ∈ b.own := by
  rw [← b.faithful_trail.filterMap_own, List.mem_filterMap]
  refine ⟨fun ⟨n, hn, hc⟩ => ?_, fun h => ⟨_, h, rfl⟩⟩
  cases n <;> cases hc
  exact hn

end Offside

import Mathlib.Data.List.Flatten
import Offside.Proofs.VisitOrder
import Offside.Tree.Edit

/-! # Visits and edits go the same way

A visit and an edit are written one beside the other. Both meet every node of a program once, each before the nodes
inside it. A visitor that notes what it likes, goes into the nodes it likes and fails where it likes notes the same and
fails at the same node in both, and an edit that renames nothing leaves the program as it is, whether it fails or
not. -/

namespace Offside

/-! ### Places in a tree -/

/-- The expressions directly inside an expression. -/
def Expr.inside : Expr → List Expr
  | .name .. | .constant .. => []
  | .attribute _ v _ => [v]
  | .unary _ _ o => [o]
  | .binary _ _ l r | .bool _ _ l r | .compare _ _ l r => [l, r]
  | .call _ f as => f :: as
  | .conditional _ t b o => [t, b, o]
  | .list _ es | .tuple _ es => es
  | .dict _ es => es.flatMap fun e => [e.1, e.2]

/-- The nodes directly inside a statement. -/
def Stmt.inside : Stmt → List Node
  | .expr _ e | .exec _ _ e => [.expr e]
  | .assign _ t e | .augAssign _ _ t e => [.expr e, .target t]
  | .ifElse _ bs o => bs.flatMap (fun b => [.expr b.1, .block b.2]) ++ o.toList.map .block
  | .whileLoop _ e b o | .forLoop _ _ e b o => .expr e :: .block b :: o.toList.map .block
  | .assert _ t msg => .expr t :: msg.toList.map .expr
  | .closure _ c => [.closure c]
  | .breakLoop _ | .continueLoop _ | .pass _ | .global .. => []

namespace Node

/-- The nodes directly inside a node. -/
def inside : Node → List Node
  | .module m => [.block m.body]
  | .block b => b.stmts.map .stmt
  | .stmt s => s.inside
  | .closure c => c.wrapper.toList.map .expr ++ [.block c.body]
  | .target (.name _) => []
  | .target (.attribute v _) => [.expr v]
  | .expr e => e.inside.map .expr

/-- The node at a place: where to go on from each node to one of those directly inside it. -/
def at? : Node → List Nat → Option Node
  | n, [] => some n
  | n, i :: place => n.inside[i]?.bind fun c => c.at? place

/-- A node and all nodes inside it, in visiting order. -/
def nodes : Node → List Node
  | .module m => m.nodes
  | .block b => b.trail.nodes
  | .stmt s => s.trail.nodes
  | .closure c => c.trail.nodes
  | .target t => t.nodes
  | .expr e => e.nodes

end Node

theorem Expr.nodesList_eq (es : List Expr) : Expr.nodesList es = es.flatMap Expr.nodes := by
  induction es with
  | nil => rfl
  | cons e es ih => rw [Expr.nodesList, ih, List.flatMap_cons]

theorem Expr.nodesEntries_eq (es : List (Expr × Expr)) :
    Expr.nodesEntries es = (es.flatMap fun e => [e.1, e.2]).flatMap Expr.nodes := by
  induction es with
  | nil => rfl
  | cons e es ih => rw [Expr.nodesEntries, ih]; rfl

theorem Expr.nodesOption_eq (o : Option Expr) : Expr.nodesOption o = o.toList.flatMap Expr.nodes := by
  cases o with
  | none => rfl
  | some e => exact (List.append_nil _).symm

namespace Block

theorem nodes_trailStmts (ss : List Stmt) : (trailStmts ss).nodes = ss.flatMap (·.trail.nodes) := by
  induction ss with
  | nil => rfl
  | cons s ss ih => rw [trailStmts, Trail.nodes_append, ih, List.flatMap_cons]

theorem nodes_trailBranches (bs : List (Expr × Block)) :
    (trailBranches bs).nodes = (bs.flatMap fun b => [Node.expr b.1, .block b.2]).flatMap Node.nodes := by
  induction bs with
  | nil => rfl
  | cons b bs ih =>
    rw [trailBranches, Trail.nodes_append, Trail.nodes_append, Trail.nodes_along, ih]
    rfl

theorem nodes_trailOption (o : Option Block) : (trailOption o).nodes = o.toList.flatMap (·.trail.nodes) := by
  cases o with
  | none => rfl
  | some b => exact (List.append_nil _).symm

end Block

theorem Expr.nodes_eq (e : Expr) : e.nodes = .expr e :: e.inside.flatMap Expr.nodes := by
  cases e <;> simp [Expr.nodes, Expr.inside, Expr.nodesList_eq, Expr.nodesEntries_eq]

theorem Stmt.nodes_eq (s : Stmt) : s.trail.nodes = .stmt s :: s.inside.flatMap Node.nodes := by
  cases s <;> simp [Stmt.trail, Stmt.inside, Trail.nodes, Node.nodes, Expr.nodesOption_eq, Block.nodes_trailBranches,
    Block.nodes_trailOption, List.flatMap_map]

/-- A visit meets a node, and then goes through the nodes directly inside it from the first to the last. -/
theorem Node.nodes_eq (n : Node) : n.nodes = n :: n.inside.flatMap Node.nodes := by
  cases n with
  | module m => exact congrArg (_ :: ·) (List.append_nil _).symm
  | block b =>
    obtain ⟨ss, span⟩ := b
    simp [nodes, Block.trail, Trail.nodes, Block.nodes_trailStmts, inside, List.flatMap_map]
  | stmt s => exact s.nodes_eq
  | closure c =>
    obtain ⟨name, wrapper, body, isLazy, scope, span⟩ := c
    simp [nodes, Closure.trail, Trail.nodes, Closure.head, Expr.nodesOption_eq, inside, List.flatMap_map]
  | target t => cases t <;> simp [nodes, Target.nodes, inside]
  | expr e =>
    rw [nodes, e.nodes_eq, inside, List.flatMap_map]
    rfl

/-! ### Every place once -/

/-- The places where a list of nodes stands: all places at which `find` finds a node, and none before one above it or
    twice. -/
structure Charts (find : List Nat → Option Node) (places : List (List Nat)) (ns : List Node) : Prop where
  found : places.map find = ns.map some
  complete : ∀ place, (find place).isSome → place ∈ places
  ordered : places.Pairwise fun place later => ¬ later <+: place

/-- The node at a place among nodes: in which one of them, and where in that. -/
def Node.amid (cs : List Node) : List Nat → Option Node
  | [] => none
  | i :: place => cs[i]?.bind fun c => c.at? place

/-- A place among nodes with one more before them. -/
def shifted : List Nat → List Nat
  | [] => []
  | i :: place => (i + 1) :: place

namespace Charts
variable {c n : Node} {cs ns ms : List Node} {places others : List (List Nat)} {place : List Nat}

theorem isSome {find : List Nat → Option Node} (h : Charts find places ns) (hplace : place ∈ places) :
    (find place).isSome := by
  have hmem : find place ∈ ns.map some := h.found ▸ List.mem_map_of_mem hplace
  obtain ⟨n, -, hn⟩ := List.mem_map.mp hmem
  exact hn ▸ rfl

/-- A place among nodes is in one of them. -/
theorem exists_cons (h : Charts (Node.amid cs) places ns) (hplace : place ∈ places) : ∃ i rest, place = i :: rest := by
  cases place with
  | nil => exact nomatch h.isSome hplace
  | cons i rest => exact ⟨i, rest, rfl⟩

theorem nil : Charts (Node.amid []) [] [] where
  found := rfl
  complete place hplace := by cases place <;> cases hplace
  ordered := .nil

theorem cons (hc : Charts c.at? places ns) (hcs : Charts (Node.amid cs) others ms) :
    Charts (Node.amid (c :: cs)) (places.map (0 :: ·) ++ others.map shifted) (ns ++ ms) where
  found := by
    have hothers : (others.map shifted).map (Node.amid (c :: cs)) = others.map (Node.amid cs) := by
      rw [List.map_map]
      refine List.map_congr_left fun place hplace => ?_
      obtain ⟨i, rest, rfl⟩ := hcs.exists_cons hplace
      rfl
    rw [List.map_append, hothers, hcs.found, List.map_map, List.map_append, ← hc.found]
    rfl
  complete place hplace := by
    match place with
    | [] => cases hplace
    | 0 :: rest => exact List.mem_append_left _ (List.mem_map_of_mem (hc.complete rest hplace))
    | (i + 1) :: rest =>
      exact List.mem_append_right _ (List.mem_map.mpr ⟨i :: rest, hcs.complete (i :: rest) hplace, rfl⟩)
  ordered := by
    refine List.pairwise_append.mpr ⟨?_, ?_, ?_⟩
    · refine List.pairwise_map.mpr (hc.ordered.imp fun h hprefix => h ?_)
      exact (List.prefix_cons_inj 0).mp hprefix
    · refine List.pairwise_map.mpr (hcs.ordered.imp_of_mem fun {p q} hp hq h hprefix => h ?_)
      obtain ⟨i, rest, rfl⟩ := hcs.exists_cons hp
      obtain ⟨j, rest', rfl⟩ := hcs.exists_cons hq
      obtain ⟨hij, hrest⟩ := List.cons_prefix_cons.mp hprefix
      exact List.cons_prefix_cons.mpr ⟨Nat.succ.inj hij, hrest⟩
    · intro p hp q hq hprefix
      obtain ⟨rest, -, rfl⟩ := List.mem_map.mp hp
      obtain ⟨place, hplace, rfl⟩ := List.mem_map.mp hq
      obtain ⟨i, rest', rfl⟩ := hcs.exists_cons hplace
      exact Nat.succ_ne_zero i (List.cons_prefix_cons.mp hprefix).1

/-- A node stands above the nodes inside it. -/
theorem node (h : Charts (Node.amid n.inside) places ns) : Charts n.at? ([] :: places) (n :: ns) where
  found := by
    have hinside : places.map n.at? = places.map (Node.amid n.inside) := by
      refine List.map_congr_left fun place hplace => ?_
      obtain ⟨i, rest, rfl⟩ := h.exists_cons hplace
      rfl
    rw [List.map_cons, hinside, h.found]
    rfl
  complete place hplace := by
    cases place with
    | nil => exact List.mem_cons_self
    | cons i rest => exact List.mem_cons_of_mem _ (h.complete (i :: rest) hplace)
  ordered := by
    refine List.pairwise_cons.mpr ⟨fun place hplace hprefix => ?_, h.ordered⟩
    obtain ⟨i, rest, rfl⟩ := h.exists_cons hplace
    cases List.prefix_nil.mp hprefix

theorem exists_flatMap (h : ∀ c ∈ cs, ∃ places, Charts c.at? places c.nodes) :
    ∃ places, Charts (Node.amid cs) places (cs.flatMap Node.nodes) := by
  induction cs with
  | nil => exact ⟨[], .nil⟩
  | cons c cs ih =>
    obtain ⟨hc, hcs⟩ := List.forall_mem_cons.mp h
    obtain ⟨places, hplaces⟩ := hc
    obtain ⟨others, hothers⟩ := ih hcs
    exact ⟨_, hplaces.cons hothers⟩

end Charts

theorem Node.length_nodes_lt {c n : Node} (h : c ∈ n.inside) : c.nodes.length < n.nodes.length := by
  have hsub := ((List.singleton_sublist.mpr h).flatMap nodes).length_le
  rw [List.flatMap_singleton] at hsub
  rw [n.nodes_eq, List.length_cons]
  exact Nat.lt_succ_of_le hsub

/-- A visit comes to every place in a tree once, and to none before one above it. -/
theorem Node.exists_charts (n : Node) : ∃ places, Charts n.at? places n.nodes := by
  have hinside : ∀ c ∈ n.inside, ∃ places, Charts c.at? places c.nodes := fun c _ => c.exists_charts
  obtain ⟨places, hplaces⟩ := Charts.exists_flatMap hinside
  rw [n.nodes_eq]
  exact ⟨_, hplaces.node⟩
termination_by n.nodes.length
decreasing_by exact Node.length_nodes_lt ‹_›

/-! ### Visitors that edit nothing -/

section
variable {σ ε : Type}

/-- Why a visit has ended before its end, if it has. -/
def failure? : Except ε Unit → Option ε
  | .ok _ => none
  | .error e => some e

/-- How far an edit has come when a visit has come to an outcome and a state. -/
def Progress.of (r : Except ε Unit × σ) : Progress σ ε := { state := r.2, failure := failure? r.1 }

/-- An edit that makes `a` and goes as a visit goes: from a state both come to the same state and the same failure, and
    an edit that has failed before stays where it is. -/
structure Follows {α : Type} (p : StateM (Progress σ ε) α) (a : α) (q : ExceptT ε (StateM σ) Unit) : Prop where
  going : ∀ state, p { state } = (a, .of (q state))
  failed : ∀ state e, p { state, failure := some e } = (a, { state, failure := some e })

namespace Follows
variable {α β : Type} {p : StateM (Progress σ ε) α} {a : α} {q q' : ExceptT ε (StateM σ) Unit}

theorem pure (a : α) : Follows (Pure.pure a : StateM (Progress σ ε) α) a (Pure.pure ()) := ⟨fun _ => rfl, fun _ _ => rfl⟩

theorem map {f : α → β} (h : Follows p a q) : Follows (p >>= fun x => Pure.pure (f x)) (f a) q where
  going state := by
    show (Pure.pure (f (p { state }).1) : StateM (Progress σ ε) β) (p { state }).2 = _
    rw [h.going]
    rfl
  failed state e := by
    show (Pure.pure (f (p { state, failure := some e }).1) : StateM (Progress σ ε) β) (p { state, failure := some e }).2 = _
    rw [h.failed]
    rfl

theorem bind {g : α → StateM (Progress σ ε) β} {b : β} (h : Follows p a q) (hg : Follows (g a) b q') :
    Follows (p >>= g) b (q >>= fun _ => q') where
  going state := by
    show g (p { state }).1 (p { state }).2 = (b, .of (ExceptT.bindCont (fun _ => q') (q state).1 (q state).2))
    rw [h.going]
    obtain ⟨outcome, state'⟩ := q state
    cases outcome with
    | ok _ => exact hg.going state'
    | error e => exact hg.failed state' e
  failed state e := by
    show g (p { state, failure := some e }).1 (p { state, failure := some e }).2 = _
    rw [h.failed]
    exact hg.failed state e

end Follows

variable (note : Node → StateM σ (Except ε Bool))

/-- The edit that renames nothing and does at a node what `note` says. -/
def Editor.onlooker : Editor σ ε := { enter := note }

/-- The visitor that does at a node what `note` says. -/
def visitor (n : Node) : ExceptT ε (StateM σ) Bool := ExceptT.mk (note n)

variable {note}

namespace Follows
variable {α : Type} {p : StateM (Progress σ ε) α} {a : α} {q : ExceptT ε (StateM σ) Unit}

theorem meet {n : Node} (h : Follows p a q) :
    Follows ((Editor.onlooker note).meet n a p) a (Offside.meet (visitor note) n q) where
  going state := by
    have seen : Offside.meet (visitor note) n q state =
        ExceptT.bindCont (fun inside => if inside = true then q else Pure.pure ()) (note n state).1 (note n state).2 := rfl
    rw [seen, Editor.meet, Editor.onlooker]
    dsimp only
    obtain ⟨outcome, state'⟩ := note n state
    cases outcome with
    | error e => rfl
    | ok inside =>
      cases inside with
      | false => rfl
      | true => exact h.going state'
  failed state e := rfl

/-- A name stays, and the visit does not see that it could have changed. -/
theorem renamed {site : NameSite} {x : String} {g : String → StateM (Progress σ ε) α} (h : Follows (g x) a q) :
    Follows ((Editor.onlooker note).renamed site x >>= g) a q where
  going state := h.going state
  failed state e := h.failed state e

end Follows

mutual

theorem Expr.follows_visit : ∀ e : Expr, Follows ((Editor.onlooker note).expr e) e (e.visit (visitor note))
  | .name .. => .renamed (.meet (.pure _))
  | .constant .. => .meet (.pure _)
  | .attribute _ v _ => .meet v.follows_visit.map
  | .binary _ _ l r => .meet (l.follows_visit.bind r.follows_visit.map)
  | .bool _ _ l r => .meet (l.follows_visit.bind r.follows_visit.map)
  | .unary _ _ o => .meet o.follows_visit.map
  | .compare _ _ l r => .meet (l.follows_visit.bind r.follows_visit.map)
  | .call _ f as => .meet (f.follows_visit.bind (Expr.follows_visitList as).map)
  | .conditional _ t b o => .meet (t.follows_visit.bind (b.follows_visit.bind o.follows_visit.map))
  | .list _ es => .meet (Expr.follows_visitList es).map
  | .tuple _ es => .meet (Expr.follows_visitList es).map
  | .dict _ es => .meet (Expr.follows_visitEntries es).map

theorem Expr.follows_visitList :
    ∀ es : List Expr, Follows ((Editor.onlooker note).exprs es) es (Expr.visitList (visitor note) es)
  | [] => .pure _
  | e :: es => e.follows_visit.bind (Expr.follows_visitList es).map

theorem Expr.follows_visitEntries :
    ∀ es : List (Expr × Expr), Follows ((Editor.onlooker note).entries es) es (Expr.visitEntries (visitor note) es)
  | [] => .pure _
  | (k, v) :: es => k.follows_visit.bind (v.follows_visit.bind (Expr.follows_visitEntries es).map)

end

theorem Expr.follows_visitOption :
    ∀ o : Option Expr, Follows ((Editor.onlooker note).exprOption o) o (Expr.visitOption (visitor note) o)
  | none => .pure _
  | some e => e.follows_visit.map

theorem Target.follows_visit : ∀ t : Target, Follows ((Editor.onlooker note).target t) t (t.visit (visitor note))
  | .name _ => .renamed (.meet (.pure _))
  | .attribute v _ => .meet v.follows_visit.map

mutual

theorem Stmt.follows_visit : ∀ s : Stmt, Follows ((Editor.onlooker note).stmt s) s (s.visit (visitor note))
  | .expr _ e => .meet e.follows_visit.map
  | .assign _ t e => .meet (e.follows_visit.bind t.follows_visit.map)
  | .augAssign _ _ t e => .meet (e.follows_visit.bind t.follows_visit.map)
  | .ifElse _ bs o => .meet ((Block.follows_visitBranches bs).bind (Block.follows_visitOption o).map)
  | .whileLoop _ t b o => .meet (t.follows_visit.bind (b.follows_visit.bind (Block.follows_visitOption o).map))
  | .forLoop _ _ i b o => .meet (i.follows_visit.bind (b.follows_visit.bind (Block.follows_visitOption o).map))
  | .breakLoop _ => .meet (.pure _)
  | .continueLoop _ => .meet (.pure _)
  | .pass _ => .meet (.pure _)
  | .assert _ t msg => .meet (t.follows_visit.bind (Expr.follows_visitOption msg).map)
  | .global .. => .meet (.pure _)
  | .exec _ _ e => .meet e.follows_visit.map
  | .closure _ c => .meet c.follows_visit.map

theorem Block.follows_visit : ∀ b : Block, Follows ((Editor.onlooker note).block b) b (b.visit (visitor note))
  | ⟨ss, _⟩ => .meet (Block.follows_visitStmts ss).map

theorem Closure.follows_visit : ∀ c : Closure, Follows ((Editor.onlooker note).closure c) c (c.visit (visitor note))
  | ⟨_, w, body, _, _, _⟩ => .renamed (.meet ((Expr.follows_visitOption w).bind body.follows_visit.map))

theorem Block.follows_visitStmts :
    ∀ ss : List Stmt, Follows ((Editor.onlooker note).stmts ss) ss (Block.visitStmts (visitor note) ss)
  | [] => .pure _
  | s :: ss => s.follows_visit.bind (Block.follows_visitStmts ss).map

theorem Block.follows_visitBranches : ∀ bs : List (Expr × Block),
    Follows ((Editor.onlooker note).branches bs) bs (Block.visitBranches (visitor note) bs)
  | [] => .pure _
  | (t, b) :: bs => t.follows_visit.bind (b.follows_visit.bind (Block.follows_visitBranches bs).map)

theorem Block.follows_visitOption :
    ∀ o : Option Block, Follows ((Editor.onlooker note).blockOption o) o (Block.visitOption (visitor note) o)
  | none => .pure _
  | some b => b.follows_visit.map

end

theorem Module.follows_visit (m : Module) : Follows ((Editor.onlooker note).module m) m (m.visit (visitor note)) :=
  .meet m.body.follows_visit.map

/-- An edit that renames nothing leaves the program as it is, and comes to the same state and the same failure as a visit
    with the same visitor. -/
theorem Editor.run_onlooker (m : Module) (state : σ) :
    (Editor.onlooker note).run m state =
      (m, (m.visit (visitor note) state).2, failure? (m.visit (visitor note) state).1) := by
  rw [run, m.follows_visit.going]
  rfl

end

/-! ### Visitors that write nodes down -/

section
variable {ε : Type} (fails : Nat → Option ε)

/-- Writes a node down, and fails if `fails` says so for the number of nodes before it. -/
def noting (n : Node) : StateM (List Node) (Except ε Bool) := fun log =>
  ((fails log.length).elim (.ok true) .error, log ++ [n])

/-- What `noting` does at a node, apart from going into it. -/
def noted (n : Node) : ExceptT ε (StateM (List Node)) Unit := fun log =>
  ((fails log.length).elim (.ok ()) .error, log ++ [n])

variable {fails}

theorem visitor_noting : visitor (noting fails) = listener (noted fails) := by
  funext n log
  show ((fails log.length).elim (.ok true) .error, log ++ [n]) =
    ExceptT.bindCont (fun _ => (Pure.pure true : ExceptT ε (StateM (List Node)) Bool))
      ((fails log.length).elim (.ok ()) .error) (log ++ [n])
  cases fails log.length <;> rfl

theorem noted_of_none {log : List Node} (n : Node) (h : fails log.length = none) :
    noted fails n log = (.ok (), log ++ [n]) := by
  rw [noted, h]
  rfl

/-- Nodes are written down up to one at which the visitor fails. -/
theorem forM_noted {ns log : List Node} (h : ∀ i < ns.length, fails (log.length + i) = none) :
    (forM ns (noted fails) : ExceptT ε (StateM (List Node)) Unit) log = (.ok (), log ++ ns) := by
  induction ns generalizing log with
  | nil => exact congrArg (Prod.mk _) (List.append_nil log).symm
  | cons n ns ih =>
    have hrest : ∀ i < ns.length, fails ((log ++ [n]).length + i) = none := fun i hi => by
      have hnext := h (i + 1) (Nat.succ_lt_succ hi)
      rwa [List.length_append, List.length_singleton, Nat.add_assoc, Nat.add_comm 1]
    show ExceptT.bindCont (fun _ => (forM ns (noted fails) : ExceptT ε (StateM (List Node)) Unit))
      (noted fails n log).1 (noted fails n log).2 = _
    have hrestNoted := ih hrest
    rw [List.append_assoc, List.singleton_append] at hrestNoted
    rw [noted_of_none n (h 0 (Nat.succ_pos _))]
    exact hrestNoted

theorem forM_noted_of_some {before after log : List Node} {n : Node} {e : ε}
    (h : ∀ i < before.length, fails (log.length + i) = none) (hn : fails (log.length + before.length) = some e) :
    (forM (before ++ n :: after) (noted fails) : ExceptT ε (StateM (List Node)) Unit) log =
      (.error e, log ++ (before ++ [n])) := by
  have hnoted : noted fails n (log ++ before) = (.error e, log ++ before ++ [n]) := by
    rw [noted, List.length_append, hn]
    rfl
  rw [List.forM_append]
  show ExceptT.bindCont (fun _ => (forM (n :: after) (noted fails) : ExceptT ε (StateM (List Node)) Unit))
    ((forM before (noted fails) : ExceptT ε (StateM (List Node)) Unit) log).1
    ((forM before (noted fails) : ExceptT ε (StateM (List Node)) Unit) log).2 = _
  rw [forM_noted h]
  show ExceptT.bindCont (fun _ => (forM after (noted fails) : ExceptT ε (StateM (List Node)) Unit))
    (noted fails n (log ++ before)).1 (noted fails n (log ++ before)).2 = _
  rw [hnoted, List.append_assoc]
  rfl

end

/-- A visit and an edit that renames nothing come to every place in the tree once and to none before one above it, and
    meet the same nodes there in the same order. With a visitor that fails at one of the nodes both end there with its
    failure, and the edit leaves the tree as it is; and so they agree for every visitor, whatever it notes and wherever
    it fails. -/
theorem Module.visit_and_edit_agree (m : Module) :
    (∃ places, Charts (Node.module m).at? places m.nodes) ∧
    (∀ ε : Type, m.visit (visitor (noting fun _ => (none : Option ε))) [] = (.ok (), m.nodes) ∧
      (Editor.onlooker (noting fun _ => (none : Option ε))).run m [] = (m, m.nodes, none)) ∧
    (∀ (ε : Type) (e : ε) (k : Fin m.nodes.length),
      m.visit (visitor (noting fun i => if i = k then some e else none)) [] = (.error e, m.nodes.take (k + 1)) ∧
      (Editor.onlooker (noting fun i => if i = k then some e else none)).run m [] =
        (m, m.nodes.take (k + 1), some e)) ∧
    ∀ (σ ε : Type) (act : Node → StateM σ (Except ε Bool)) (state : σ),
      (Editor.onlooker act).run m state =
        (m, (m.visit (visitor act) state).2, failure? (m.visit (visitor act) state).1) := by
  have hall (ε : Type) : m.visit (visitor (noting fun _ => (none : Option ε))) [] = (.ok (), m.nodes) := by
    rw [visitor_noting, m.hears_visit]
    exact forM_noted fun _ _ => rfl
  have hone (ε : Type) (e : ε) (k : Fin m.nodes.length) :
      m.visit (visitor (noting fun i => if i = k then some e else none)) [] = (.error e, m.nodes.take (k + 1)) := by
    have hbefore : (m.nodes.take k).length = k := List.length_take_of_le (Nat.le_of_lt k.isLt)
    have hsplit : m.nodes = m.nodes.take k ++ m.nodes[k.val] :: m.nodes.drop (k + 1) := by
      rw [← List.drop_eq_getElem_cons k.isLt, List.take_append_drop]
    have hmet : (forM (m.nodes.take k ++ m.nodes[k.val] :: m.nodes.drop (k + 1))
        (noted fun i => if i = k then some e else none) : ExceptT ε (StateM (List Node)) Unit) [] =
        (.error e, [] ++ (m.nodes.take k ++ [m.nodes[k.val]])) :=
      forM_noted_of_some (fun i hi => if_neg (by rw [List.length_nil, Nat.zero_add]; omega))
        (if_pos (by rw [hbefore, List.length_nil, Nat.zero_add]))
    rw [← hsplit] at hmet
    rw [visitor_noting, m.hears_visit]
    refine hmet.trans ?_
    rw [List.nil_append, List.take_append_getElem k.isLt]
  refine ⟨(Node.module m).exists_charts, fun ε => ⟨hall ε, ?_⟩, fun ε e k => ⟨hone ε e k, ?_⟩, fun σ ε act state => ?_⟩
  · rw [Editor.run_onlooker, hall]
    rfl
  · rw [Editor.run_onlooker, hone]
    rfl
  · exact Editor.run_onlooker m state

end Offside

import Offside.Proofs.ScopeTree
import Offside.Proofs.VisitOrder

/-! # The walk that finds scopes

The walk goes along the trail of a program. At each node it writes down in the scope it is in what the node has to say
about names; at the body of a closure block it makes a scope for it and goes on inside. So a table of scopes can be read
off the trail alone. -/

namespace Offside

/-! ### What a node says about names -/

namespace Node

/-- The names that a node binds: targets of assignments, names of loops and of closure blocks. -/
def binds : Node → List String
  | .stmt (.assign _ t _) => t.bound?.toList
  | .stmt (.augAssign _ _ t _) => t.bound?.toList
  | .stmt (.forLoop _ n _ _ _) => [n]
  | .closure c => [c.name]
  | _ => []

/-- The names that a node declares to be global. -/
def declares : Node → List String
  | .stmt (.global _ names) => names
  | _ => []

/-- The names that a node reads, with its place. A name that an augmented assignment writes to is read by the statement,
    and a wrapped closure block reads its own name. -/
def uses : Node → List (String × Span)
  | .expr (.name s n) => [(n, s)]
  | .stmt (.augAssign s _ t _) => (t.bound?.map (·, s)).toList
  | .stmt (.exec s n _) => [(n, s)]
  | .closure c => (c.wrapper.map fun _ => (c.name, c.span)).toList
  | _ => []

end Node

/-- A scope with readings in a row written down. -/
def Scope.useAll (s : Scope) (reads : List (String × Span)) : Scope := reads.foldl (fun s r => s.use r.1 r.2) s

/-- A scope with what a node says about names written down. -/
def Scope.note (s : Scope) (n : Node) : Scope :=
  (n.declares.foldl Scope.declare (n.binds.foldl Scope.bind s)).useAll n.uses

/-- A scope with what nodes in a row say about names written down. -/
def Scope.noteAll (s : Scope) (ns : List Node) : Scope := ns.foldl Scope.note s

/-- The table of scopes after a walk along a trail in the scope `id`. -/
def Trail.walk : Trail → ScopeId → Scopes → Scopes
  | done, _, t => t
  | meet n next, id, t => next.walk id (t.modify id (·.note n))
  | enter c inner next, id, t =>
    let t := t.modify id (·.noteAll c.head)
    next.walk id (inner.walk t.nextId (t.create c.name id))

namespace Scope
variable (s : Scope) (ns ms : List Node)

theorem noteAll_append : s.noteAll (ns ++ ms) = (s.noteAll ns).noteAll ms := List.foldl_append

theorem useAll_append (xs ys : List (String × Span)) : s.useAll (xs ++ ys) = (s.useAll xs).useAll ys :=
  List.foldl_append

theorem foldl_bind (names : List String) : names.foldl bind s = { s with locals := names.foldl addName s.locals } := by
  induction names generalizing s with
  | nil => rfl
  | cons n names ih => exact ih (s.bind n)

theorem foldl_declare (names : List String) :
    names.foldl declare s = { s with globals := names.foldl addName s.globals } := by
  induction names generalizing s with
  | nil => rfl
  | cons n names ih => exact ih (s.declare n)

theorem useAll_eq (reads : List (String × Span)) :
    s.useAll reads = { s with uses := reads.foldl (fun es r => addFirst es r.1 r.2) s.uses } := by
  induction reads generalizing s with
  | nil => rfl
  | cons r reads ih => exact ih (s.use r.1 r.2)

/-- Nodes in a row change nothing but the names that a scope binds, declares and reads. -/
theorem noteAll_eq : s.noteAll ns =
    { s with
      locals := (ns.flatMap Node.binds).foldl addName s.locals
      globals := (ns.flatMap Node.declares).foldl addName s.globals
      uses := (ns.flatMap Node.uses).foldl (fun es r => addFirst es r.1 r.2) s.uses } := by
  induction ns generalizing s with
  | nil => rfl
  | cons n ns ih =>
    show (s.note n).noteAll ns = _
    rw [ih, note, useAll_eq, foldl_declare, foldl_bind]
    simp only [List.flatMap_cons, List.foldl_append]

end Scope

namespace Scopes

theorem modify_modify (t : Scopes) (id : ScopeId) (f g : Scope → Scope) :
    (t.modify id f).modify id g = t.modify id fun s => g (f s) := by
  simp only [modify, List.modify_modify_eq]
  rfl

theorem modify_id (t : Scopes) (id : ScopeId) : (t.modify id fun s => s) = t :=
  congrArg Scopes.mk (List.modify_id id.index t.scopes)

end Scopes

namespace Trail

theorem walk_append (u v : Trail) (id : ScopeId) (t : Scopes) : (u ++ v).walk id t = v.walk id (u.walk id t) := by
  induction u generalizing t with
  | done => rfl
  | meet n next ih => exact ih _
  | enter c inner next _ ih => exact ih _

theorem walk_along (ns : List Node) (id : ScopeId) (t : Scopes) : (along ns).walk id t = t.modify id (·.noteAll ns) := by
  induction ns generalizing t with
  | nil => exact (t.modify_id id).symm
  | cons n ns ih =>
    rw [along, walk, ih, Scopes.modify_modify]
    rfl

/-- A node that says nothing about names is passed by. -/
theorem walk_silent {n : Node} (h : ∀ s : Scope, s.note n = s) (u : Trail) (id : ScopeId) (t : Scopes) :
    (meet n u).walk id t = u.walk id t := by
  rw [walk, show (fun s : Scope => s.note n) = fun s => s from funext h, Scopes.modify_id]

/-- What holds of a table as nodes are noted and scopes are made holds after every walk. -/
theorem walk_invariant {P : Scopes → Prop} (hnote : ∀ t id ns, P t → P (t.modify id (·.noteAll ns)))
    (hcreate : ∀ t name id, id.index < t.size → P t → P (t.create name id)) (u : Trail) {id : ScopeId} {t : Scopes}
    (hid : id.index < t.size) (ht : P t) : P (u.walk id t) ∧ t.size ≤ (u.walk id t).size := by
  induction u generalizing id t with
  | done => exact ⟨ht, Nat.le_refl _⟩
  | meet n next ih =>
    have hsize : (t.modify id (·.note n)).size = t.size := Scopes.size_modify ..
    rw [← hsize] at hid ⊢
    exact ih hid (hnote t id [n] ht)
  | enter c inner next ihinner ih =>
    have hsize₁ : (t.modify id (·.noteAll c.head)).size = t.size := Scopes.size_modify ..
    have hsize₂ := Scopes.size_create (t.modify id (·.noteAll c.head)) c.name id
    have ht₂ := hcreate _ c.name id (by rwa [hsize₁]) (hnote t id c.head ht)
    obtain ⟨ht₃, hle⟩ := ihinner (by rw [hsize₂]; exact Nat.lt_succ_self _) ht₂
    have hle₃ : t.size ≤ _ := Nat.le_trans (by rw [hsize₂, hsize₁]; exact Nat.le_succ _) hle
    obtain ⟨ht₄, hle₄⟩ := ih (Nat.lt_of_lt_of_le hid hle₃) ht₃
    exact ⟨ht₄, Nat.le_trans hle₃ hle₄⟩

end Trail

/-! ### Expressions and targets -/

/-- Nodes that read names and say nothing else. -/
def Reads (ns : List Node) (reads : List (String × Span)) : Prop := ∀ s : Scope, s.noteAll ns = s.useAll reads

theorem Reads.append {ns ms : List Node} {xs ys : List (String × Span)} (hn : Reads ns xs) (hm : Reads ms ys) :
    Reads (ns ++ ms) (xs ++ ys) := fun s => by
  rw [Scope.noteAll_append, Scope.useAll_append, hn, hm]

mutual

theorem Expr.reads_nodes : ∀ e : Expr, Reads e.nodes e.reads
  | .name .. => fun _ => rfl
  | .constant .. => fun _ => rfl
  | .attribute _ v _ => v.reads_nodes
  | .binary _ _ l r => l.reads_nodes.append r.reads_nodes
  | .bool _ _ l r => l.reads_nodes.append r.reads_nodes
  | .unary _ _ o => o.reads_nodes
  | .compare _ _ l r => l.reads_nodes.append r.reads_nodes
  | .call _ f as => f.reads_nodes.append (Expr.reads_nodesList as)
  | .conditional _ t b o => t.reads_nodes.append (b.reads_nodes.append o.reads_nodes)
  | .list _ es => Expr.reads_nodesList es
  | .tuple _ es => Expr.reads_nodesList es
  | .dict _ es => Expr.reads_nodesEntries es

theorem Expr.reads_nodesList : ∀ es : List Expr, Reads (Expr.nodesList es) (Expr.readsList es)
  | [] => fun _ => rfl
  | e :: es => e.reads_nodes.append (Expr.reads_nodesList es)

theorem Expr.reads_nodesEntries : ∀ es : List (Expr × Expr), Reads (Expr.nodesEntries es) (Expr.readsEntries es)
  | [] => fun _ => rfl
  | (k, v) :: es => k.reads_nodes.append (v.reads_nodes.append (Expr.reads_nodesEntries es))

end

theorem Expr.reads_nodesOption : ∀ o : Option Expr, Reads (Expr.nodesOption o) (Scopes.readsOption o)
  | none => fun _ => rfl
  | some e => e.reads_nodes

theorem Target.reads_nodes : ∀ t : Target, Reads t.nodes t.reads
  | .name _ => fun _ => rfl
  | .attribute v _ => v.reads_nodes

/-! ### The walk -/

namespace Scopes
variable {α β : Type} {id : ScopeId}

/-- A step of the walk that changes the scope `id` and no other. -/
def Edits (id : ScopeId) (p : StateM Scopes α) (f : Scope → Scope) : Prop := ∀ t, (p t).2 = t.modify id f

theorem Edits.pure (a : α) : Edits id (Pure.pure a) fun s => s := fun t => (t.modify_id id).symm

theorem Edits.bind {p : StateM Scopes α} {q : α → StateM Scopes β} {f g : Scope → Scope} (hp : Edits id p f)
    (hq : ∀ a, Edits id (q a) g) : Edits id (p >>= q) fun s => g (f s) := fun t => by
  show (q (p t).1 (p t).2).2 = _
  rw [hq, hp, modify_modify]

theorem edits_bindTarget (t : Target) : Edits id (bindTarget id t) fun s => t.bound?.toList.foldl Scope.bind s := by
  intro table
  unfold bindTarget
  cases t.bound? with
  | none => exact (table.modify_id id).symm
  | some n => rfl

theorem edits_use (reads : List (String × Span)) : Edits id (use id reads) (·.useAll reads) := fun _ => rfl

/-- Steps that change the scope `id` are a walk along nodes without closure blocks. -/
theorem Edits.walk {p : StateM Scopes α} {f : Scope → Scope} (h : Edits id p f) (ns : List Node)
    (hf : ∀ s, s.noteAll ns = f s) (t : Scopes) : (p t).2 = (Trail.along ns).walk id t := by
  rw [h, Trail.walk_along]
  exact congrArg _ (funext fun s => (hf s).symm)

theorem Reads.walk {ns : List Node} {reads : List (String × Span)} (h : Reads ns reads) (u : Trail) (t : Scopes) :
    (Trail.along ns ++ u).walk id t = u.walk id (t.modify id (·.useAll reads)) := by
  rw [Trail.walk_append, Trail.walk_along, funext h]

mutual

theorem stmt_eq_walk (id : ScopeId) : ∀ (s : Stmt) (t : Scopes), (stmt id s t).2 = s.trail.walk id t
  | .expr s e, t => ((edits_use _).bind fun _ => .pure _).walk (.stmt (.expr s e) :: e.nodes) e.reads_nodes t
  | .assign s x e, t =>
    ((edits_bindTarget x).bind fun _ => (edits_use (e.reads ++ x.reads)).bind fun _ => .pure _).walk
      (.stmt (.assign s x e) :: (e.nodes ++ x.nodes)) (fun _ => (e.reads_nodes.append x.reads_nodes) _) t
  | .augAssign s op x e, t => by
    refine ((edits_bindTarget x).bind fun _ => (edits_use _).bind fun _ => .pure _).walk
      (.stmt (.augAssign s op x e) :: (e.nodes ++ x.nodes)) (fun r => ?_) t
    rw [Scope.useAll_append, ← (e.reads_nodes.append x.reads_nodes) _]
    rfl
  | .ifElse _ bs o, t => by
    rw [Stmt.trail, Trail.walk_silent fun _ => rfl, Trail.walk_append, ← branches_eq_walk id bs,
      ← blockOption_eq_walk id o]
    rfl
  | .whileLoop _ e b o, t => by
    rw [Stmt.trail, Trail.walk_silent fun _ => rfl, Reads.walk e.reads_nodes, Trail.walk_append, ← block_eq_walk id b,
      ← blockOption_eq_walk id o]
    rfl
  | .forLoop _ _ e b o, t => by
    rw [Stmt.trail, Trail.walk, Reads.walk e.reads_nodes, Trail.walk_append, ← block_eq_walk id b,
      ← blockOption_eq_walk id o]
    rfl
  | .breakLoop s, t => (Edits.pure (Stmt.breakLoop s)).walk [.stmt (.breakLoop s)] (fun _ => rfl) t
  | .continueLoop s, t => (Edits.pure (Stmt.continueLoop s)).walk [.stmt (.continueLoop s)] (fun _ => rfl) t
  | .pass s, t => (Edits.pure (Stmt.pass s)).walk [.stmt (.pass s)] (fun _ => rfl) t
  | .assert s e msg, t =>
    ((edits_use _).bind fun _ => .pure _).walk (.stmt (.assert s e msg) :: (e.nodes ++ Expr.nodesOption msg))
      (e.reads_nodes.append (Expr.reads_nodesOption msg)) t
  | .global .., _ => rfl
  | .exec s n e, t =>
    ((edits_use ((n, s) :: e.reads)).bind fun _ => .pure _).walk (.stmt (.exec s n e) :: e.nodes)
      (fun _ => e.reads_nodes _) t
  | .closure _ c, t => by
    rw [Stmt.trail, Trail.walk_silent fun _ => rfl, ← closure_eq_walk id c]
    rfl

theorem block_eq_walk (id : ScopeId) : ∀ (b : Block) (t : Scopes), (block id b t).2 = b.trail.walk id t
  | ⟨ss, _⟩, t => by
    rw [Block.trail, Trail.walk_silent fun _ => rfl, ← stmts_eq_walk id ss]
    rfl

theorem closure_eq_walk (id : ScopeId) : ∀ (c : Closure) (t : Scopes), (closure id c t).2 = c.trail.walk id t
  | ⟨name, w, body, isLazy, scope, span⟩, t => by
    have hhead (s : Scope) : s.noteAll (Closure.head ⟨name, w, body, isLazy, scope, span⟩) =
        (s.bind name).useAll ((w.map fun _ => (name, span)).toList ++ readsOption w) := by
      rw [Scope.useAll_append, ← Expr.reads_nodesOption w]
      rfl
    have hmodify : t.modify id (·.noteAll (Closure.head ⟨name, w, body, isLazy, scope, span⟩)) =
        (t.modify id (·.bind name)).modify id
          (·.useAll ((w.map fun _ => (name, span)).toList ++ readsOption w)) := by
      rw [modify_modify, funext hhead]
    rw [Closure.trail, Trail.walk, Trail.walk, hmodify, ← block_eq_walk _ body]
    rfl

theorem stmts_eq_walk (id : ScopeId) :
    ∀ (ss : List Stmt) (t : Scopes), (stmts id ss t).2 = (Block.trailStmts ss).walk id t
  | [], _ => rfl
  | s :: ss, t => by
    rw [Block.trailStmts, Trail.walk_append, ← stmt_eq_walk id s, ← stmts_eq_walk id ss]
    rfl

theorem branches_eq_walk (id : ScopeId) :
    ∀ (bs : List (Expr × Block)) (t : Scopes), (branches id bs t).2 = (Block.trailBranches bs).walk id t
  | [], _ => rfl
  | (e, b) :: bs, t => by
    rw [Block.trailBranches, Reads.walk e.reads_nodes, Trail.walk_append, ← block_eq_walk id b,
      ← branches_eq_walk id bs]
    rfl

theorem blockOption_eq_walk (id : ScopeId) :
    ∀ (o : Option Block) (t : Scopes), (blockOption id o t).2 = (Block.trailOption o).walk id t
  | none, _ => rfl
  | some b, t => block_eq_walk id b t

end

/-- The scopes of a program are found by a walk along its trail. -/
theorem collect_eq_walk (m : Module) : (collect m).2 = m.body.trail.walk rootId (createRoot {} rootName) :=
  block_eq_walk rootId m.body _

end Scopes

end Offside

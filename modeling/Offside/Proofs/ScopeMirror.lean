import Offside.Proofs.Occurrences

/-! # Scopes mirror the tree

The scopes of a program stand to each other as the blocks they belong to: there is one for the program and one for each
closure block, in visiting order, and each is inside the scope of what is directly around its block. The program comes
back with the numbers of the scopes marked on it and otherwise as it was. -/

namespace Offside

/-! ### Programs without the marks of scopes -/

mutual

/-- A statement without the marks of scopes. -/
def Stmt.unscoped : Stmt → Stmt
  | .ifElse s bs o => .ifElse s (unscopedBranches bs) (unscopedOption o)
  | .whileLoop s t b o => .whileLoop s t b.unscoped (unscopedOption o)
  | .forLoop s n i b o => .forLoop s n i b.unscoped (unscopedOption o)
  | .closure s c => .closure s c.unscoped
  | s => s

def Block.unscoped : Block → Block
  | ⟨ss, s⟩ => ⟨unscopedStmts ss, s⟩

def Closure.unscoped : Closure → Closure
  | ⟨n, w, b, l, _, s⟩ => ⟨n, w, b.unscoped, l, none, s⟩

def unscopedStmts : List Stmt → List Stmt
  | [] => []
  | s :: ss => s.unscoped :: unscopedStmts ss

def unscopedBranches : List (Expr × Block) → List (Expr × Block)
  | [] => []
  | (t, b) :: bs => (t, b.unscoped) :: unscopedBranches bs

def unscopedOption : Option Block → Option Block
  | none => none
  | some b => some b.unscoped

end

/-- A program without the marks of scopes. -/
def Module.unscoped (m : Module) : Module := { body := m.body.unscoped }

namespace Scopes

/-! The walk changes nothing but the marks. -/

mutual

theorem unscoped_stmt (id : ScopeId) : ∀ (s : Stmt) (t : Scopes), (stmt id s t).1.unscoped = s.unscoped
  | .expr .., _ => rfl
  | .assign .., _ => rfl
  | .augAssign .., _ => rfl
  | .ifElse s bs o, t => congrArg₂ (Stmt.ifElse s) (unscoped_branches id bs t) (unscoped_blockOption id o _)
  | .whileLoop s e b o, _ => congrArg₂ (Stmt.whileLoop s e) (unscoped_block id b _) (unscoped_blockOption id o _)
  | .forLoop s n e b o, _ => congrArg₂ (Stmt.forLoop s n e) (unscoped_block id b _) (unscoped_blockOption id o _)
  | .breakLoop _, _ => rfl
  | .continueLoop _, _ => rfl
  | .pass _, _ => rfl
  | .assert .., _ => rfl
  | .global .., _ => rfl
  | .exec .., _ => rfl
  | .closure s c, t => congrArg (Stmt.closure s) (unscoped_closure id c t)

theorem unscoped_block (id : ScopeId) : ∀ (b : Block) (t : Scopes), (block id b t).1.unscoped = b.unscoped
  | ⟨ss, s⟩, t => congrArg (Block.mk · s) (unscoped_stmts id ss t)

theorem unscoped_closure (id : ScopeId) : ∀ (c : Closure) (t : Scopes), (closure id c t).1.unscoped = c.unscoped
  | ⟨n, w, b, l, _, s⟩, _ => congrArg (Closure.mk n w · l none s) (unscoped_block _ b _)

theorem unscoped_stmts (id : ScopeId) :
    ∀ (ss : List Stmt) (t : Scopes), unscopedStmts (stmts id ss t).1 = unscopedStmts ss
  | [], _ => rfl
  | s :: ss, t => congrArg₂ List.cons (unscoped_stmt id s t) (unscoped_stmts id ss _)

theorem unscoped_branches (id : ScopeId) :
    ∀ (bs : List (Expr × Block)) (t : Scopes), unscopedBranches (branches id bs t).1 = unscopedBranches bs
  | [], _ => rfl
  | (e, b) :: bs, _ => congrArg₂ (fun x xs => (e, x) :: xs) (unscoped_block id b _) (unscoped_branches id bs _)

theorem unscoped_blockOption (id : ScopeId) :
    ∀ (o : Option Block) (t : Scopes), unscopedOption (blockOption id o t).1 = unscopedOption o
  | none, _ => rfl
  | some b, t => congrArg some (unscoped_block id b t)

end

/-! The walk does not look at the marks. -/

mutual

theorem stmt_unscoped (id : ScopeId) : ∀ s : Stmt, stmt id s.unscoped = stmt id s
  | .expr .. => rfl
  | .assign .. => rfl
  | .augAssign .. => rfl
  | .ifElse _ bs o => by rw [Stmt.unscoped, stmt, stmt, branches_unscoped id bs, blockOption_unscoped id o]
  | .whileLoop _ _ b o => by rw [Stmt.unscoped, stmt, stmt, block_unscoped id b, blockOption_unscoped id o]
  | .forLoop _ _ _ b o => by rw [Stmt.unscoped, stmt, stmt, block_unscoped id b, blockOption_unscoped id o]
  | .breakLoop _ => rfl
  | .continueLoop _ => rfl
  | .pass _ => rfl
  | .assert .. => rfl
  | .global .. => rfl
  | .exec .. => rfl
  | .closure _ c => by rw [Stmt.unscoped, stmt, stmt, closure_unscoped id c]

theorem block_unscoped (id : ScopeId) : ∀ b : Block, block id b.unscoped = block id b
  | ⟨ss, _⟩ => by rw [Block.unscoped, block, block, stmts_unscoped id ss]

theorem closure_unscoped (id : ScopeId) : ∀ c : Closure, closure id c.unscoped = closure id c
  | ⟨_, _, b, _, _, _⟩ => by
    rw [Closure.unscoped, closure, closure]
    simp only [fun inner => block_unscoped inner b]

theorem stmts_unscoped (id : ScopeId) : ∀ ss : List Stmt, stmts id (unscopedStmts ss) = stmts id ss
  | [] => rfl
  | s :: ss => by rw [unscopedStmts, stmts, stmts, stmt_unscoped id s, stmts_unscoped id ss]

theorem branches_unscoped (id : ScopeId) :
    ∀ bs : List (Expr × Block), branches id (unscopedBranches bs) = branches id bs
  | [] => rfl
  | (_, b) :: bs => by rw [unscopedBranches, branches, branches, block_unscoped id b, branches_unscoped id bs]

theorem blockOption_unscoped (id : ScopeId) : ∀ o : Option Block, blockOption id (unscopedOption o) = blockOption id o
  | none => rfl
  | some b => by rw [unscopedOption, blockOption, blockOption, block_unscoped id b]

end

theorem unscoped_collect (m : Module) : (collect m).1.unscoped = m.unscoped :=
  congrArg (fun b => ({ body := b } : Module)) (unscoped_block rootId m.body _)

theorem collect_unscoped (m : Module) : collect m.unscoped = collect m := by
  unfold collect Module.unscoped
  rw [block_unscoped rootId m.body]

/-- The scopes of a program that has been marked are those it is marked with. -/
theorem collect_collect (m : Module) : collect (collect m).1 = collect m := by
  rw [← collect_unscoped, unscoped_collect, collect_unscoped]

end Scopes

/-! ### The numbers on the closure blocks -/

/-- A trail whose closure blocks are marked with the scopes from number `n` up to but not including `k`, in the order in
    which they are entered. -/
inductive Trail.Numbered : Trail → Nat → Nat → Prop
  | done {n : Nat} : Numbered .done n n
  | meet {node : Node} {next : Trail} {n k : Nat} : Numbered next n k → Numbered (.meet node next) n k
  | enter {c : Closure} {next : Trail} {n m k : Nat} : c.scope = some ⟨n⟩ → Numbered c.body.trail (n + 1) m →
    Numbered next m k → Numbered (.enter c c.body.trail next) n k

namespace Trail.Numbered
variable {u v : Trail} {n m k : Nat}

theorem append (hu : u.Numbered n m) (hv : v.Numbered m k) : (u ++ v).Numbered n k := by
  induction hu with
  | done => exact hv
  | meet _ ih => exact .meet (ih hv)
  | enter hscope hbody _ _ ih => exact .enter hscope hbody (ih hv)

theorem along (ns : List Node) (n : Nat) : (Trail.along ns).Numbered n n := by
  induction ns with
  | nil => exact .done
  | cons _ _ ih => exact .meet ih

theorem scopes (h : u.Numbered n k) :
    k = n + u.closures.length ∧
      u.closures.map (·.scope) = (List.range' n u.closures.length).map fun i => some ⟨i⟩ := by
  induction h with
  | done => exact ⟨rfl, rfl⟩
  | meet _ ih => exact ih
  | @enter c next n m k hscope _ _ ihbody ih =>
    obtain ⟨rfl, hbody⟩ := ihbody
    obtain ⟨rfl, hnext⟩ := ih
    refine ⟨by simp only [closures, List.length_cons, List.length_append]; omega, ?_⟩
    rw [closures, List.map_cons, List.map_append, hscope, hbody, hnext, ← List.map_append, List.range'_append_1,
      List.length_cons, List.length_append, List.range'_succ, List.map_cons]

end Trail.Numbered

namespace Scopes
variable {α : Type} {id : ScopeId} {u : Trail} {k : Nat}

/-- A step that changes one scope makes none. -/
theorem Edits.numbered {p : StateM Scopes α} {f : Scope → Scope} (h : Edits id p f) {t : Scopes}
    (hu : u.Numbered (p t).2.size k) : u.Numbered t.size k := by
  rwa [h, size_modify] at hu

theorem edits_bind (n : String) : Edits id (bind id n) (·.bind n) := fun _ => rfl

theorem edits_declare (names : List String) : Edits id (declare id names) fun s => names.foldl Scope.declare s :=
  fun _ => rfl

/-! The walk marks the closure blocks with the numbers of the scopes that it makes for them. -/

mutual

theorem numbered_stmt (id : ScopeId) :
    ∀ (s : Stmt) (t : Scopes), (stmt id s t).1.trail.Numbered t.size (stmt id s t).2.size
  | .expr _ e, t => .meet ((edits_use e.reads).numbered (t := t) (.along _ _))
  | .assign _ x e, t => .meet ((edits_bindTarget x).numbered (t := t)
    ((edits_use (e.reads ++ x.reads)).numbered (.along _ _)))
  | .augAssign _ _ x _, t => .meet ((edits_bindTarget x).numbered (t := t) ((edits_use _).numbered (.along _ _)))
  | .ifElse _ bs o, t => .meet ((numbered_branches id bs t).append (numbered_blockOption id o _))
  | .whileLoop _ e b o, t => .meet ((edits_use e.reads).numbered (t := t)
    ((Trail.Numbered.along _ _).append ((numbered_block id b _).append (numbered_blockOption id o _))))
  | .forLoop _ n e b o, t => .meet ((edits_bind n).numbered (t := t) ((edits_use e.reads).numbered
    ((Trail.Numbered.along _ _).append ((numbered_block id b _).append (numbered_blockOption id o _)))))
  | .breakLoop _, _ => .meet .done
  | .continueLoop _, _ => .meet .done
  | .pass _, _ => .meet .done
  | .assert _ e msg, t => .meet ((edits_use (e.reads ++ readsOption msg)).numbered (t := t) (.along _ _))
  | .global _ names, t => .meet ((edits_declare names).numbered (t := t) .done)
  | .exec s n e, t => .meet ((edits_use ((n, s) :: e.reads)).numbered (t := t) (.along _ _))
  | .closure _ c, t => .meet (numbered_closure id c t)

theorem numbered_block (id : ScopeId) :
    ∀ (b : Block) (t : Scopes), (block id b t).1.trail.Numbered t.size (block id b t).2.size
  | ⟨ss, _⟩, t => .meet (numbered_stmts id ss t)

theorem numbered_closure (id : ScopeId) :
    ∀ (c : Closure) (t : Scopes), (closure id c t).1.trail.Numbered t.size (closure id c t).2.size
  | ⟨name, w, body, _, _, span⟩, t => by
    let reads := (w.map fun _ => (name, span)).toList ++ readsOption w
    let t₁ := (bind id name t).2
    let t₂ := (use id reads t₁).2
    have hbody := numbered_block t₂.nextId body (t₂.create name id)
    rw [size_create] at hbody
    have hbind : Edits id (bind id name) (·.bind name) := edits_bind name
    have huse : Edits id (use id reads) (·.useAll reads) := edits_use reads
    exact hbind.numbered (t := t) (huse.numbered (t := t₁) (.enter rfl hbody .done))

theorem numbered_stmts (id : ScopeId) :
    ∀ (ss : List Stmt) (t : Scopes), (Block.trailStmts (stmts id ss t).1).Numbered t.size (stmts id ss t).2.size
  | [], _ => .done
  | s :: ss, t => (numbered_stmt id s t).append (numbered_stmts id ss _)

theorem numbered_branches (id : ScopeId) : ∀ (bs : List (Expr × Block)) (t : Scopes),
    (Block.trailBranches (branches id bs t).1).Numbered t.size (branches id bs t).2.size
  | [], _ => .done
  | (e, b) :: bs, t => (edits_use e.reads).numbered (t := t)
    ((Trail.Numbered.along _ _).append ((numbered_block id b _).append (numbered_branches id bs _)))

theorem numbered_blockOption (id : ScopeId) : ∀ (o : Option Block) (t : Scopes),
    (Block.trailOption (blockOption id o t).1).Numbered t.size (blockOption id o t).2.size
  | none, _ => .done
  | some b, t => numbered_block id b t

end

end Scopes

/-! ### Scopes inside scopes -/

theorem Scope.recording_noteAll (ns : List Node) : Scopes.Recording (·.noteAll ns) := by
  refine ⟨fun s => ?_, fun s => ?_, fun s => ?_, fun s => ?_⟩ <;> rw [noteAll_eq]
  · exact List.Subset.refl _
  · exact ⟨rfl, rfl, rfl⟩

namespace Scopes
variable {t : Scopes} {id : ScopeId} {inner outer : Option ScopeId}

/-- The scope `inner` is directly inside the scope `outer`. -/
def Inside (t : Scopes) (inner outer : Option ScopeId) : Prop :=
  ∃ s, inner.bind t.get? = some s ∧ s.parent = outer

theorem Inside.modify (h : t.Inside inner outer) {f : Scope → Scope} (hf : Recording f) :
    (t.modify id f).Inside inner outer := by
  obtain ⟨s, hs, rfl⟩ := h
  obtain ⟨i, rfl, hs⟩ := Option.bind_eq_some_iff.mp hs
  have hs' : t.scopes[i.index]? = some s := hs
  refine ⟨if id.index = i.index then f s else s, ?_, ?_⟩
  · show (t.scopes.modify id.index f)[i.index]? = _
    rw [List.getElem?_modify, hs']
    rfl
  · split
    · rw [Scope.parent, hf.outer, Scope.parent]
    · rfl

theorem Inside.append (h : t.Inside inner outer) (s : Scope) : Inside ⟨t.scopes ++ [s]⟩ inner outer := by
  obtain ⟨r, hr, hparent⟩ := h
  obtain ⟨i, rfl, hr⟩ := Option.bind_eq_some_iff.mp hr
  have hi : i.index < t.scopes.length := (List.getElem?_eq_some_iff.mp hr).1
  exact ⟨r, (List.getElem?_append_left hi).trans hr, hparent⟩

theorem Inside.create (h : t.Inside inner outer) (name : String) (id : ScopeId) :
    (t.create name id).Inside inner outer :=
  (h.modify (.addChild t.nextId)).append _

/-- A scope that is made is inside the one it is made in. -/
theorem inside_create (t : Scopes) (name : String) (id : ScopeId) :
    (t.create name id).Inside (some t.nextId) (some id) := by
  refine ⟨{ id := t.nextId, name, outer := id :: (t.get id).outer }, ?_, rfl⟩
  simp [get?, Scopes.create, nextId, size, Scopes.modify]

/-- Which scope is inside which does not change any more. -/
theorem Inside.walk (h : t.Inside inner outer) (u : Trail) (hid : id.index < t.size) :
    (u.walk id t).Inside inner outer :=
  (u.walk_invariant (P := (Inside · inner outer)) (fun _ _ ns h => h.modify (Scope.recording_noteAll ns))
    (fun _ name id _ h => h.create name id) hid h).1

end Scopes

namespace Trail.Numbered
variable {u : Trail} {n k : Nat} {t : Scopes} {id : ScopeId}

theorem size_walk (h : u.Numbered n k) (hsize : t.size = n) : (u.walk id t).size = k := by
  induction h generalizing id t with
  | done => exact hsize
  | meet _ ih => exact ih (by rwa [Scopes.size_modify])
  | enter _ _ _ ihbody ih => exact ih (ihbody (by rw [Scopes.size_create, Scopes.size_modify, hsize]))

/-- A walk along a trail that is marked with the scopes it makes puts each closure block's scope into that of what is
    directly around it. -/
theorem inside_walk (h : u.Numbered n k) (hsize : t.size = n) (hid : id.index < n) :
    (∀ c ∈ u.outermost, (u.walk id t).Inside c.scope (some id)) ∧
      ∀ d ∈ u.closures, ∀ c ∈ d.body.trail.outermost, (u.walk id t).Inside c.scope d.scope := by
  induction h generalizing id t with
  | done => exact ⟨List.forall_mem_nil _, List.forall_mem_nil _⟩
  | meet _ ih => exact ih (by rwa [Scopes.size_modify]) hid
  | @enter c next n m k hscope hbody hnext ihbody ih =>
    let t₁ := t.modify id (·.noteAll c.head)
    let t₂ := t₁.create c.name id
    let t₃ := c.body.trail.walk t₁.nextId t₂
    have hsize₁ : t₁.size = n := by rw [Scopes.size_modify, hsize]
    have hsize₂ : t₂.size = n + 1 := by rw [Scopes.size_create, hsize₁]
    have hsize₃ : t₃.size = m := hbody.size_walk hsize₂
    have hle : n + 1 ≤ m := by have := hbody.scopes.1; omega
    have hlast : t₁.nextId.index < n + 1 := by rw [← hsize₁]; exact Nat.lt_succ_self _
    have hinner : c.scope = some t₁.nextId := by rw [hscope, Scopes.nextId, hsize₁]
    -- what is known once the body has been walked along stays so behind it
    have hkeep {inner outer : Option ScopeId} (h : t₃.Inside inner outer) : (next.walk id t₃).Inside inner outer :=
      h.walk next (by omega)
    have hself : t₂.Inside c.scope (some id) := hinner ▸ t₁.inside_create c.name id
    obtain ⟨houtermost, hclosures⟩ := ihbody hsize₂ hlast
    obtain ⟨houtermost', hclosures'⟩ := ih hsize₃ (show id.index < m by omega)
    refine ⟨List.forall_mem_cons.mpr ⟨?_, houtermost'⟩, List.forall_mem_cons.mpr ⟨fun c' hc' => ?_,
      List.forall_mem_append.mpr ⟨fun d hd c' hc' => ?_, hclosures'⟩⟩⟩
    · exact hkeep (hself.walk _ (by rwa [hsize₂]))
    · exact hkeep (hinner ▸ houtermost c' hc')
    · exact hkeep (hclosures d hd c' hc')

end Trail.Numbered

/-! ### The scopes directly inside a scope -/

theorem Scope.isNested_iff (s : Scope) : s.isNested ↔ s.parent ≠ none := by
  rw [isNested, parent]
  cases s.outer <;> simp

namespace Scopes
variable {t : Scopes} {id : ScopeId}

/-- The numbers of the scopes that are directly inside a scope, in increasing order. -/
def inside (t : Scopes) (id : ScopeId) : List ScopeId := (t.scopes.filter (·.parent = some id)).map (·.id)

/-- A tree in which every scope lists the scopes directly inside it. -/
structure Family (t : Scopes) : Prop extends t.Tree where
  children : ∀ id : ScopeId, id.index < t.size → (t.get id).children = t.inside id

theorem inside_modify {f : Scope → Scope} (hf : Recording f) (t : Scopes) (id p : ScopeId) :
    (t.modify id f).inside p = t.inside p := by
  have hmap (l : List Scope) (i : Nat) :
      ((l.modify i f).filter (·.parent = some p)).map (·.id) = (l.filter (·.parent = some p)).map (·.id) := by
    induction l generalizing i with
    | nil => simp
    | cons s l ih =>
      cases i with
      | zero =>
        have hparent : (f s).parent = s.parent := congrArg List.head? (hf.outer s)
        by_cases hs : s.parent = some p <;> simp [hparent, hs, hf.id]
      | succ i => by_cases hs : s.parent = some p <;> simp [hs, ih]
  exact hmap _ _

theorem Family.noteAll (h : t.Family) (id : ScopeId) (ns : List Node) : (t.modify id (·.noteAll ns)).Family where
  toTree := (Scope.recording_noteAll ns).tree h.toTree
  children p hp := by
    rw [size_modify] at hp
    rw [inside_modify (Scope.recording_noteAll ns), ← h.children p hp]
    by_cases hpid : p = id
    · rw [hpid, get_modify_self (hpid ▸ hp), Scope.noteAll_eq]
    · rw [get_modify_of_ne hpid]

theorem inside_create_eq (t : Scopes) (name : String) (id p : ScopeId) :
    (t.create name id).inside p = t.inside p ++ if id = p then [t.nextId] else [] := by
  rw [← inside_modify (.addChild t.nextId) t id p, inside, inside, Scopes.create, List.filter_append, List.map_append]
  by_cases hp : id = p <;> simp [hp, Scope.parent]

theorem Tree.inside_nextId (h : t.Tree) : t.inside t.nextId = [] := by
  rw [inside, List.map_eq_nil_iff, List.filter_eq_nil_iff]
  intro s hs hparent
  exact Nat.lt_irrefl _ (h.parent_lt hs (of_decide_eq_true hparent))

theorem Family.create (h : t.Family) (name : String) (hid : id.index < t.size) : (t.create name id).Family where
  toTree := h.toTree.create name hid
  children p hp := by
    let added := t.modify id fun s => { s with children := s.children ++ [t.nextId] }
    rw [inside_create_eq]
    rw [size_create] at hp
    rcases Nat.lt_succ_iff_lt_or_eq.mp hp with hp | hp
    · have hget : (t.create name id).get p = added.get p := get_append_of_lt (by rwa [size_modify])
      rw [hget, ← h.children p hp]
      by_cases hpid : p = id
      · rw [hpid, get_modify_self hid, if_pos rfl]
      · rw [get_modify_of_ne hpid, if_neg (Ne.symm hpid), List.append_nil]
    · obtain rfl : p = t.nextId := congrArg ScopeId.mk hp
      have hne : id ≠ t.nextId := fun he => Nat.lt_irrefl _ (he ▸ hid)
      rw [h.inside_nextId, if_neg hne]
      simp [get, get?, Scopes.create, nextId, size, Scopes.modify]

theorem family_collect (m : Module) : (collect m).2.Family := by
  have hroot : (createRoot {} rootName).Family := by
    refine ⟨tree_createRoot rootName, fun p hp => ?_⟩
    obtain rfl : p = ⟨0⟩ := congrArg ScopeId.mk (Nat.lt_one_iff.mp hp)
    rfl
  rw [collect_eq_walk]
  exact (m.body.trail.walk_invariant (fun _ id ns h => h.noteAll id ns) (fun _ name _ hid h => h.create name hid)
    Nat.zero_lt_one hroot).1

theorem Tree.ids (h : t.Tree) : t.scopes.map (·.id) = (List.range t.size).map ScopeId.mk := by
  refine List.ext_getElem (by simp [size]) fun i hi _ => ?_
  have hi' : i < t.scopes.length := by rwa [List.length_map] at hi
  rw [List.getElem_map, List.getElem_map, List.getElem_range, h.id_eq (List.getElem?_eq_getElem hi')]

/-- Only the first scope of a tree is inside no other, and a scope has a larger number than the one around it. -/
theorem Tree.parents (h : t.Tree) {s : Scope} (hs : s ∈ t.scopes) :
    (s.parent = none ↔ s.id = rootId) ∧ ∀ p, s.parent = some p → p.index < s.id.index := by
  by_cases hroot : s.id = rootId
  · have hparent : s.parent = none := congrArg List.head? (h.root s hs hroot)
    exact ⟨iff_of_true hparent hroot, fun p hp => by rw [hparent] at hp; cases hp⟩
  · obtain ⟨q, hq, houter⟩ := h.inner s hs hroot
    have hparent : s.parent = some q := congrArg List.head? houter
    refine ⟨iff_of_false (by simp [hparent]) hroot, fun p hp => ?_⟩
    rw [hparent] at hp
    exact Option.some.inj hp ▸ hq

/-! Finding out how names are stored leaves the tree of scopes as it is. -/

section
variable {u : Scopes} (h : u.outline = t.outline)
include h

theorem map_of_outline {α : Type} (g : Scope → α) :
    u.scopes.map (fun s => g s.outline) = t.scopes.map fun s => g s.outline := by
  simpa only [outline, List.map_map, Function.comp_def] using congrArg (List.map g) h

theorem forall_of_outline {P : Scope → Prop} (ht : ∀ s ∈ t.scopes, P s.outline) : ∀ s ∈ u.scopes, P s.outline := by
  rw [← List.forall_mem_map] at ht ⊢
  rwa [← outline, h]

theorem inside_of_outline (p : ScopeId) : u.inside p = t.inside p := by
  have hinside (t : Scopes) : t.inside p = (t.outline.filter (·.parent = some p)).map (·.id) := by
    rw [outline, List.filter_map, List.map_map]
    rfl
  rw [hinside, hinside, h]

theorem Inside.of_outline {inner outer : Option ScopeId} (ht : t.Inside inner outer) : u.Inside inner outer := by
  obtain ⟨s, hbind, hparent⟩ := ht
  obtain ⟨i, rfl, hs⟩ := Option.bind_eq_some_iff.mp hbind
  have hi : i.index < t.size := (List.getElem?_eq_some_iff.mp hs).1
  have hget : t.get i = s := by rw [get, hs, Option.getD_some]
  refine ⟨u.get i, get?_eq_some_get (by rwa [size_of_outline h]), ?_⟩
  rw [Scope.parent, (Scope.eq_of_outline (outline_get h i)).2.1, hget]
  exact hparent

end

end Scopes

/-! ### The program and its scopes -/

/-- The scope of what is directly around a closure block: of the closure block whose body it is in, or of the
    program. -/
inductive Module.Around (m : Module) (c : Closure) : Option ScopeId → Prop
  | module : .closure c ∈ m.body.own → m.Around c m.scope
  | closure {d : Closure} : d ∈ m.closures → .closure c ∈ d.body.own → m.Around c d.scope

/-- The scopes stand to each other as the blocks of the program `m`, whose closure blocks are marked with them. -/
structure Resolved.Mirrors (r : Resolved) (m : Module) : Prop where
  /-- One scope for the program and one for each closure block, numbered in a row. -/
  ids : r.table.scopes.map (·.id) = (List.range (m.closures.length + 1)).map ScopeId.mk
  names : r.table.scopes.map (·.name) = Scopes.rootName :: m.closures.map (·.name)
  nested : ∀ s ∈ r.table.scopes, s.isNested ↔ s.id ≠ Scopes.rootId
  root : ∀ s ∈ r.table.scopes, s.parent = none ↔ s.id = Scopes.rootId
  parent_lt : ∀ s ∈ r.table.scopes, ∀ p, s.parent = some p → p.index < s.id.index
  children : ∀ s ∈ r.table.scopes, s.children = r.table.inside s.id
  /-- The program and the closure blocks are marked with the numbers of their scopes. -/
  moduleMark : r.module.scope = some Scopes.rootId
  closureMarks : r.module.closures.map (·.scope) = (List.range' 1 m.closures.length).map fun i => some ⟨i⟩
  /-- Something is around every closure block, and the scope of what is around it is that around its own. -/
  around : ∀ c ∈ r.module.closures, ∃ p, r.module.Around c p
  parent : ∀ c p, r.module.Around c p → ∃ s, r.scopeOf? c = some s ∧ s.parent = p
  /-- But for the marks, the program is as it was. -/
  unscoped : r.module.unscoped = m.unscoped

theorem Module.exists_around (m : Module) {c : Closure} (hc : c ∈ m.closures) : ∃ p, m.Around c p := by
  rw [m.closures_eq] at hc
  rcases m.body.faithful_trail.mem_closures hc with hc | ⟨d, hd, hc⟩
  · exact ⟨_, .module (Block.mem_outermost_iff.mp hc)⟩
  · exact ⟨_, .closure (m.closures_eq ▸ hd) (Block.mem_outermost_iff.mp hc)⟩

namespace Scopes
variable (m : Module)

theorem numbered_collect : (collect m).1.body.trail.Numbered 1 (collect m).2.size :=
  numbered_block rootId m.body (createRoot {} rootName)

theorem names_collect : (collect m).2.scopes.map (·.name) = rootName :: m.closures.map (·.name) := by
  have hfresh (name : String) (ns : List Node) : (Scope.fresh name ns).name = name := by
    rw [Scope.fresh, Scope.noteAll_eq]
  calc
    (collect m).2.scopes.map (·.name) = (collect m).2.notes.map (·.name) := by rw [notes, List.map_map]; rfl
    _ = rootName :: m.closures.map (·.name) := by simp [notes_collect, hfresh]

theorem size_collect : (collect m).2.size = m.closures.length + 1 := by
  simpa [size] using congrArg List.length (names_collect m)

/-- A program has as many closure blocks once they are marked. -/
theorem length_closures_collect : (collect m).1.closures.length = m.closures.length := by
  have hsize := size_collect (collect m).1
  rw [collect_collect, size_collect] at hsize
  exact (Nat.succ.inj hsize).symm

theorem inside_collect {c : Closure} {p : Option ScopeId} (h : (collect m).1.Around c p) :
    (collect m).2.Inside c.scope p := by
  have htable : (collect m).2 = (collect m).1.body.trail.walk rootId (createRoot {} rootName) := by
    rw [← collect_eq_walk, collect_collect]
  obtain ⟨houtermost, hclosures⟩ :=
    (numbered_collect m).inside_walk (t := createRoot {} rootName) rfl (show rootId.index < 1 from Nat.zero_lt_one)
  rw [htable]
  cases h with
  | module hc => exact houtermost c (Block.mem_outermost_iff.mpr hc)
  | closure hd hc => exact hclosures _ (Module.closures_eq _ ▸ hd) c (Block.mem_outermost_iff.mpr hc)

end Scopes

/-- The scopes of a program mirror its blocks, and finding the scopes of the marked program again changes nothing. -/
theorem mirrors_resolve (builtins : List String) (m : Module) :
    (resolve builtins m).Mirrors m ∧ resolve builtins (resolve builtins m).module = resolve builtins m := by
  have hline := outline_resolve builtins m
  have hfamily := Scopes.family_collect m
  have htree := hfamily.toTree
  have hroot := Scopes.forall_of_outline hline (P := fun s => s.parent = none ↔ s.id = Scopes.rootId) fun s hs =>
    (htree.parents hs).1
  have hchildren := Scopes.forall_of_outline hline (P := fun s => s.children = (Scopes.collect m).2.inside s.id)
    fun s hs => (congrArg (·.children) (htree.get_id hs)).symm.trans (hfamily.children s.id (htree.index_lt hs))
  have hmarks := (Scopes.numbered_collect m).scopes.2
  rw [← Module.closures_eq, Scopes.length_closures_collect] at hmarks
  refine ⟨?_, ?_⟩
  · exact {
      ids := by
        rw [← Scopes.size_collect m, ← htree.ids]
        exact Scopes.map_of_outline hline (·.id)
      names := by
        rw [← Scopes.names_collect m]
        exact Scopes.map_of_outline hline (·.name)
      nested := fun s hs => s.isNested_iff.trans (not_congr (hroot s hs))
      root := hroot
      parent_lt := Scopes.forall_of_outline hline (P := fun s => ∀ p, s.parent = some p → p.index < s.id.index)
        fun s hs => (htree.parents hs).2
      children := fun s hs => (hchildren s hs).trans (Scopes.inside_of_outline hline s.id).symm
      moduleMark := rfl
      closureMarks := hmarks
      around := fun c hc => Module.exists_around _ hc
      parent := fun c p hp => (Scopes.inside_collect m hp).of_outline hline
      unscoped := Scopes.unscoped_collect m }
  · show resolve builtins (Scopes.collect m).1 = resolve builtins m
    unfold resolve
    rw [Scopes.collect_collect]

end Offside

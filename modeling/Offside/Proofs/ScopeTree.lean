import Offside.Scope.Classify

/-! # The tree of scopes

The walk over a program numbers the scopes as it enters them. Each scope knows its own number and the
numbers of the scopes around it, and a scope inside another one has the larger number. The walk says
nothing yet about how names are stored. -/

namespace Offside

namespace Scopes

/-! ### Reading and changing one scope -/

theorem get?_eq_some_get {t : Scopes} {id : ScopeId} (h : id.index < t.size) :
    t.scopes[id.index]? = some (t.get id) := by
  have h' : id.index < t.scopes.length := h
  simp [get, get?, h']

theorem get_mem {t : Scopes} {id : ScopeId} (h : id.index < t.size) : t.get id ∈ t.scopes :=
  List.mem_of_getElem? (get?_eq_some_get h)

@[simp] theorem size_modify (t : Scopes) (id : ScopeId) (f : Scope → Scope) :
    (t.modify id f).size = t.size := by
  simp [modify, size]

theorem get_modify_self {t : Scopes} {id : ScopeId} (h : id.index < t.size) (f : Scope → Scope) :
    (t.modify id f).get id = f (t.get id) := by
  have h' : id.index < t.scopes.length := h
  simp [get, get?, modify, h']

theorem get_modify_of_ne {t : Scopes} {id id' : ScopeId} (h : id' ≠ id) (f : Scope → Scope) :
    (t.modify id f).get id' = t.get id' := by
  have hne : id.index ≠ id'.index := fun he => h (by cases id; cases id'; simp_all)
  simp [get, get?, modify, hne]

theorem size_create (t : Scopes) (name : String) (p : ScopeId) : (t.create name p).size = t.size + 1 := by
  simp [create, size, modify]

/-! ### What the numbers mean -/

/-- Scopes that carry their own numbers and know the scopes around them and those directly inside, and in
    which nothing has been found out about how names are stored. -/
structure Tree (t : Scopes) : Prop where
  id_eq : ∀ {i : Nat} {s : Scope}, t.scopes[i]? = some s → s.id = ⟨i⟩
  root : ∀ s ∈ t.scopes, s.id = rootId → s.outer = []
  inner : ∀ s ∈ t.scopes, s.id ≠ rootId → ∃ p : ScopeId, p.index < s.id.index ∧ s.outer = p :: (t.get p).outer
  child : ∀ s ∈ t.scopes, ∀ p, s.parent = some p → s.id ∈ (t.get p).children
  fresh : ∀ s ∈ t.scopes, s.frees = [] ∧ s.cells = [] ∧ s.classes = []

section
variable {t : Scopes}

theorem Tree.id_get (h : t.Tree) {id : ScopeId} (hid : id.index < t.size) : (t.get id).id = id :=
  h.id_eq (get?_eq_some_get hid)

theorem Tree.index_lt (h : t.Tree) {s : Scope} (hs : s ∈ t.scopes) : s.id.index < t.size := by
  obtain ⟨i, hi, rfl⟩ := List.mem_iff_getElem.mp hs
  rw [h.id_eq (List.getElem?_eq_getElem hi)]
  exact hi

theorem Tree.get_id (h : t.Tree) {s : Scope} (hs : s ∈ t.scopes) : t.get s.id = s := by
  obtain ⟨i, hi, rfl⟩ := List.mem_iff_getElem.mp hs
  rw [h.id_eq (List.getElem?_eq_getElem hi)]
  simp [get, get?, hi]

end

/-- A change to a scope that keeps its number, its place and what is known about its names, and takes
    no scope inside it away. -/
structure Recording (f : Scope → Scope) : Prop where
  id : ∀ s, (f s).id = s.id
  outer : ∀ s, (f s).outer = s.outer
  children : ∀ s, s.children ⊆ (f s).children
  stored : ∀ s, (f s).frees = s.frees ∧ (f s).cells = s.cells ∧ (f s).classes = s.classes

namespace Recording

theorem foldl {α : Type} {g : Scope → α → Scope} (hg : ∀ a, Recording (g · a)) (as : List α) :
    Recording fun s => as.foldl g s := by
  induction as with
  | nil => exact ⟨fun _ => rfl, fun _ => rfl, fun _ => List.Subset.refl _, fun _ => ⟨rfl, rfl, rfl⟩⟩
  | cons a as ih =>
    refine ⟨fun s => ?_, fun s => ?_, fun s => ?_, fun s => ?_⟩
    · exact (ih.id (g s a)).trans ((hg a).id s)
    · exact (ih.outer (g s a)).trans ((hg a).outer s)
    · exact List.Subset.trans ((hg a).children s) (ih.children (g s a))
    · obtain ⟨f1, f2, f3⟩ := ih.stored (g s a)
      obtain ⟨g1, g2, g3⟩ := (hg a).stored s
      exact ⟨f1.trans g1, f2.trans g2, f3.trans g3⟩

theorem bind (n : String) : Recording (·.bind n) :=
  ⟨fun _ => rfl, fun _ => rfl, fun _ => List.Subset.refl _, fun _ => ⟨rfl, rfl, rfl⟩⟩

theorem declare (n : String) : Recording (·.declare n) :=
  ⟨fun _ => rfl, fun _ => rfl, fun _ => List.Subset.refl _, fun _ => ⟨rfl, rfl, rfl⟩⟩

theorem use (r : String × Span) : Recording (·.use r.1 r.2) :=
  ⟨fun _ => rfl, fun _ => rfl, fun _ => List.Subset.refl _, fun _ => ⟨rfl, rfl, rfl⟩⟩

theorem addChild (c : ScopeId) : Recording fun s => { s with children := s.children ++ [c] } :=
  ⟨fun _ => rfl, fun _ => rfl, fun _ => List.subset_append_left .., fun _ => ⟨rfl, rfl, rfl⟩⟩

variable {f : Scope → Scope} {t : Scopes} {id : ScopeId}

theorem outer_get (hf : Recording f) (x : ScopeId) : ((t.modify id f).get x).outer = (t.get x).outer := by
  by_cases hx : x = id
  · subst hx
    by_cases hs : x.index < t.size
    · rw [get_modify_self hs, hf.outer]
    · have hs' : t.scopes.length ≤ x.index := Nat.le_of_not_lt hs
      simp [get, get?, modify, hs']
  · rw [get_modify_of_ne hx]

theorem children_get (hf : Recording f) (x : ScopeId) : (t.get x).children ⊆ ((t.modify id f).get x).children := by
  by_cases hx : x = id
  · subst hx
    by_cases hs : x.index < t.size
    · rw [get_modify_self hs]
      exact hf.children _
    · have hs' : t.scopes.length ≤ x.index := Nat.le_of_not_lt hs
      simp [get, get?, modify, hs']
  · rw [get_modify_of_ne hx]
    exact List.Subset.refl _

/-- Every scope of the changed table is a scope from before, or the change of one. -/
theorem getElem?_modify (hf : Recording f) {i : Nat} {s : Scope} (h : (t.modify id f).scopes[i]? = some s) :
    ∃ s₀, t.scopes[i]? = some s₀ ∧ s.id = s₀.id ∧ s.outer = s₀.outer ∧
      s.frees = s₀.frees ∧ s.cells = s₀.cells ∧ s.classes = s₀.classes := by
  simp only [modify, List.getElem?_modify] at h
  obtain ⟨s₀, hs₀, rfl⟩ := Option.map_eq_some_iff.mp h
  refine ⟨s₀, hs₀, ?_⟩
  split
  · exact ⟨hf.id s₀, hf.outer s₀, hf.stored s₀⟩
  · exact ⟨rfl, rfl, rfl, rfl, rfl⟩

theorem tree (hf : Recording f) (h : t.Tree) : (t.modify id f).Tree where
  id_eq hs := by
    obtain ⟨s₀, hs₀, hid, -⟩ := hf.getElem?_modify hs
    exact hid.trans (h.id_eq hs₀)
  root s hs hroot := by
    obtain ⟨i, hi⟩ := List.mem_iff_getElem?.mp hs
    obtain ⟨s₀, hs₀, hid, hout, -⟩ := hf.getElem?_modify hi
    exact hout.trans (h.root s₀ (List.mem_of_getElem? hs₀) (hid ▸ hroot))
  inner s hs hne := by
    obtain ⟨i, hi⟩ := List.mem_iff_getElem?.mp hs
    obtain ⟨s₀, hs₀, hid, hout, -⟩ := hf.getElem?_modify hi
    obtain ⟨p, hp, hpo⟩ := h.inner s₀ (List.mem_of_getElem? hs₀) (hid ▸ hne)
    exact ⟨p, hid ▸ hp, by rw [hout, hpo, hf.outer_get]⟩
  child s hs p hp := by
    obtain ⟨i, hi⟩ := List.mem_iff_getElem?.mp hs
    obtain ⟨s₀, hs₀, hid, hout, -⟩ := hf.getElem?_modify hi
    rw [Scope.parent, hout] at hp
    rw [hid]
    exact hf.children_get p (h.child s₀ (List.mem_of_getElem? hs₀) p hp)
  fresh s hs := by
    obtain ⟨i, hi⟩ := List.mem_iff_getElem?.mp hs
    obtain ⟨s₀, hs₀, -, -, h1, h2, h3⟩ := hf.getElem?_modify hi
    rw [h1, h2, h3]
    exact h.fresh s₀ (List.mem_of_getElem? hs₀)

end Recording

theorem get_append_of_lt {t : Scopes} {s : Scope} {id : ScopeId} (h : id.index < t.size) :
    get ⟨t.scopes ++ [s]⟩ id = t.get id := by
  have h' : id.index < t.scopes.length := h
  simp [get, get?, List.getElem?_append_left h']

theorem Tree.parent_lt {t : Scopes} (h : t.Tree) {s : Scope} (hs : s ∈ t.scopes) {p : ScopeId} (hp : s.parent = some p) :
    p.index < t.size := by
  have hne : s.id ≠ rootId := fun hroot => by simp [Scope.parent, h.root s hs hroot] at hp
  obtain ⟨q, hq, hout⟩ := h.inner s hs hne
  obtain rfl : q = p := by simpa [Scope.parent, hout] using hp
  exact Nat.lt_trans hq (h.index_lt hs)

/-- A further scope fits into the tree if it has the next number and stands inside a scope of the tree. -/
theorem Tree.append {t : Scopes} (h : t.Tree) {s : Scope} (hid : s.id = t.nextId) {p : ScopeId} (hp : p.index < t.size)
    (hout : s.outer = p :: (t.get p).outer) (hchild : s.id ∈ (t.get p).children) (hfresh : s.frees = [] ∧ s.cells = [] ∧ s.classes = []) :
    Tree ⟨t.scopes ++ [s]⟩ := by
  refine ⟨fun {i r} hr => ?_, fun r hr hroot => ?_, fun r hr hne => ?_, fun r hr q hq => ?_, fun r hr => ?_⟩
  · rw [List.getElem?_append] at hr
    split at hr
    · exact h.id_eq hr
    · next hlt =>
      simp only [List.getElem?_singleton] at hr
      split at hr
      · cases hr
        rw [hid, nextId, size, ScopeId.mk.injEq]
        omega
      · cases hr
  · rcases List.mem_append.mp hr with hr | hr
    · exact h.root r hr hroot
    · rw [List.mem_singleton.mp hr, hid] at hroot
      have : t.size = 0 := congrArg ScopeId.index hroot
      omega
  · rcases List.mem_append.mp hr with hr | hr
    · obtain ⟨q, hq, hqo⟩ := h.inner r hr hne
      have hqt : q.index < t.size := Nat.lt_trans hq (h.index_lt hr)
      exact ⟨q, hq, by rw [get_append_of_lt hqt, hqo]⟩
    · rw [List.mem_singleton.mp hr]
      exact ⟨p, by rw [hid]; exact hp, by rw [get_append_of_lt hp, hout]⟩
  · rcases List.mem_append.mp hr with hr | hr
    · rw [get_append_of_lt (h.parent_lt hr hq)]
      exact h.child r hr q hq
    · rw [List.mem_singleton.mp hr] at hq ⊢
      obtain rfl : p = q := by simpa [Scope.parent, hout] using hq
      rw [get_append_of_lt hp]
      exact hchild
  · rcases List.mem_append.mp hr with hr | hr
    · exact h.fresh r hr
    · rw [List.mem_singleton.mp hr]
      exact hfresh

theorem Tree.create {t : Scopes} (h : t.Tree) (name : String) {p : ScopeId} (hp : p.index < t.size) :
    (t.create name p).Tree := by
  have hrec := Recording.addChild t.nextId
  have h' : (t.modify p fun s => { s with children := s.children ++ [t.nextId] }).Tree := hrec.tree h
  refine h'.append ?_ (p := p) ?_ ?_ ?_ ⟨rfl, rfl, rfl⟩
  · simp [nextId]
  · rw [size_modify]
    exact hp
  · rw [hrec.outer_get]
  · rw [get_modify_self hp]
    exact List.mem_append_right _ (List.mem_singleton_self _)

theorem tree_createRoot (name : String) : (createRoot {} name).Tree where
  id_eq {i s} hs := by
    simp only [createRoot, List.nil_append, List.getElem?_singleton] at hs
    split at hs
    · next hi =>
      cases hs
      simp [nextId, size, hi]
    · cases hs
  root s hs _ := by
    rw [List.mem_singleton.mp hs]
  inner s hs hne := by
    rw [List.mem_singleton.mp hs] at hne
    exact absurd rfl hne
  child s hs p hp := by
    rw [List.mem_singleton.mp hs] at hp
    cases hp
  fresh s hs := by
    rw [List.mem_singleton.mp hs]
    exact ⟨rfl, rfl, rfl⟩

/-! ### The walk -/

/-- Whatever the walk does inside the scope `id` keeps the tree and takes no scope away. -/
def Keeps {α : Type} (id : ScopeId) (p : StateM Scopes α) : Prop :=
  ∀ t : Scopes, t.Tree → id.index < t.size → (p t).2.Tree ∧ t.size ≤ (p t).2.size

section
variable {α β : Type} {id : ScopeId}

theorem Keeps.pure (a : α) : Keeps id (Pure.pure a : StateM Scopes α) := fun _ ht _ => ⟨ht, Nat.le_refl _⟩

theorem Keeps.bind {p : StateM Scopes α} {f : α → StateM Scopes β} (hp : Keeps id p) (hf : ∀ a, Keeps id (f a)) :
    Keeps id (p >>= f) := fun t ht hid => by
  obtain ⟨ht₁, hle₁⟩ := hp t ht hid
  obtain ⟨ht₂, hle₂⟩ := hf (p t).1 (p t).2 ht₁ (Nat.lt_of_lt_of_le hid hle₁)
  exact ⟨ht₂, Nat.le_trans hle₁ hle₂⟩

theorem Recording.keeps {f : Scope → Scope} (hf : Recording f) :
    Keeps id (StateT.modifyGet fun t => ((), t.modify id f)) :=
  fun _ ht _ => ⟨hf.tree ht, Nat.le_of_eq (size_modify ..).symm⟩

theorem keeps_bind (n : String) : Keeps id (Scopes.bind id n) := (Recording.bind n).keeps

theorem keeps_declare (names : List String) : Keeps id (Scopes.declare id names) :=
  (Recording.foldl Recording.declare names).keeps

theorem keeps_use (reads : List (String × Span)) : Keeps id (Scopes.use id reads) :=
  (Recording.foldl Recording.use reads).keeps

theorem keeps_bindTarget (t : Target) : Keeps id (bindTarget id t) := by
  unfold bindTarget
  split
  · exact keeps_bind _
  · exact .pure ()

/-- A scope that is entered is one of the tree, so what happens in it keeps the tree as well. -/
theorem Keeps.enter {name : String} {f : ScopeId → StateM Scopes α} (hf : ∀ inner, Keeps inner (f inner)) :
    Keeps id (Scopes.enter name id >>= f) := fun t ht hid => by
  have hsz := size_create t name id
  obtain ⟨ht', hle⟩ := hf t.nextId (t.create name id) (ht.create name hid) (by rw [hsz]; exact Nat.lt_succ_self _)
  exact ⟨ht', by rw [hsz] at hle; exact Nat.le_of_succ_le hle⟩

end

/-! The walk keeps the tree, whatever it walks over. -/

mutual

theorem keeps_stmt (id : ScopeId) : ∀ s : Stmt, Keeps id (stmt id s)
  | .expr .. => (keeps_use _).bind fun _ => .pure _
  | .assign .. => (keeps_bindTarget _).bind fun _ => (keeps_use _).bind fun _ => .pure _
  | .augAssign .. => (keeps_bindTarget _).bind fun _ => (keeps_use _).bind fun _ => .pure _
  | .ifElse _ bs o => (keeps_branches id bs).bind fun _ => (keeps_blockOption id o).bind fun _ => .pure _
  | .whileLoop _ _ b o => (keeps_use _).bind fun _ => (keeps_block id b).bind fun _ =>
    (keeps_blockOption id o).bind fun _ => .pure _
  | .forLoop _ _ _ b o => (keeps_bind _).bind fun _ => (keeps_use _).bind fun _ => (keeps_block id b).bind fun _ =>
    (keeps_blockOption id o).bind fun _ => .pure _
  | .breakLoop _ | .continueLoop _ | .pass _ => .pure _
  | .assert .. => (keeps_use _).bind fun _ => .pure _
  | .global .. => (keeps_declare _).bind fun _ => .pure _
  | .exec .. => (keeps_use _).bind fun _ => .pure _
  | .closure _ c => (keeps_closure id c).bind fun _ => .pure _

theorem keeps_block (id : ScopeId) : ∀ b : Block, Keeps id (block id b)
  | ⟨ss, _⟩ => (keeps_stmts id ss).bind fun _ => .pure _

theorem keeps_closure (id : ScopeId) : ∀ c : Closure, Keeps id (closure id c)
  | ⟨_, _, body, _, _, _⟩ => (keeps_bind _).bind fun _ => (keeps_use _).bind fun _ =>
    .enter fun inner => (keeps_block inner body).bind fun _ => .pure _

theorem keeps_stmts (id : ScopeId) : ∀ ss : List Stmt, Keeps id (stmts id ss)
  | [] => .pure _
  | s :: ss => (keeps_stmt id s).bind fun _ => (keeps_stmts id ss).bind fun _ => .pure _

theorem keeps_branches (id : ScopeId) : ∀ bs : List (Expr × Block), Keeps id (branches id bs)
  | [] => .pure _
  | (_, b) :: bs => (keeps_use _).bind fun _ => (keeps_block id b).bind fun _ =>
    (keeps_branches id bs).bind fun _ => .pure _

theorem keeps_blockOption (id : ScopeId) : ∀ o : Option Block, Keeps id (blockOption id o)
  | none => .pure _
  | some b => (keeps_block id b).bind fun _ => .pure _

end

theorem tree_collect (m : Module) : (collect m).2.Tree := by
  refine (keeps_block rootId m.body _ (tree_createRoot rootName) ?_).1
  exact Nat.zero_lt_one

theorem size_collect_pos (m : Module) : 0 < (collect m).2.size :=
  (keeps_block rootId m.body _ (tree_createRoot rootName) Nat.zero_lt_one).2

end Scopes

end Offside

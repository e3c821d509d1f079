import Mathlib.Data.List.Forall2
import Mathlib.Data.List.Nodup
import Mathlib.Data.List.Perm.Basic
import Offside.Proofs.MatchingScopes
import Offside.Proofs.ScopePaths

/-! # The order of statements

How names are stored does not depend on the order in which statements stand. If the statements of one block of a
program change places, the scopes get other numbers and are gone through in another order, but each block with a scope
of its own still binds, declares and reads the same names inside the same blocks. -/

namespace Offside

/-! ### Statements in another order -/

/-- The members of a list in the order of the numbers given, if these are the numbers of all members, each once. -/
def arrange {α : Type} (order : List Nat) (l : List α) : List α :=
  if order.Perm (List.range l.length) then order.filterMap (l[·]?) else l

section
variable {α β : Type} (order : List Nat) (l : List α)

theorem filterMap_range_getElem? : (List.range l.length).filterMap (l[·]?) = l := by
  have hmap : (List.range l.length).map (l[·]?) = l.map some := by
    refine List.ext_getElem (by simp) fun i hi _ => ?_
    rw [List.length_map, List.length_range] at hi
    simp [hi]
  calc
    (List.range l.length).filterMap (l[·]?) = ((List.range l.length).map (l[·]?)).filterMap id := by
      rw [List.filterMap_map, Function.id_comp]
    _ = l := by rw [hmap, List.filterMap_map, Function.id_comp, List.filterMap_some]

theorem perm_arrange : (arrange order l).Perm l := by
  unfold arrange
  split
  · next h =>
    have := h.filterMap (l[·]?)
    rwa [filterMap_range_getElem?] at this
  · exact .refl l

/-- Every order of the members is the order of some numbers. -/
theorem exists_arrange {l l' : List α} (h : l'.Perm l) : ∃ order, arrange order l = l' := by
  have hnumbers : List.Forall₂ (fun a i => l[i]? = some a) l (List.range l.length) := by
    refine List.forall₂_iff_get.mpr ⟨by simp, fun i hi _ => ?_⟩
    simp [hi]
  obtain ⟨order, horder, hperm⟩ := List.perm_comp_forall₂ h hnumbers
  refine ⟨order, ?_⟩
  rw [arrange, if_pos hperm]
  clear hperm hnumbers h
  induction horder with
  | nil => rfl
  | cons hi _ ih => rw [List.filterMap_cons_some hi, ih]

theorem arrange_map (f : α → β) : arrange order (l.map f) = (arrange order l).map f := by
  unfold arrange
  rw [List.length_map]
  split
  · simp [List.map_filterMap]
  · rfl

end

/-- Which of the blocks inside a statement is meant. -/
inductive Turn where
  /-- The block of a condition, by its number. -/
  | branch (number : Nat)
  /-- The body of a loop or of a closure block. -/
  | body
  | orelse
deriving DecidableEq, Repr, Inhabited

/-- A statement with one of the blocks inside it changed, if it has that block. -/
def Stmt.change (f : Block → Block) : Turn → Stmt → Stmt
  | .branch i, .ifElse s bs o => .ifElse s (bs.modify i fun b => (b.1, f b.2)) o
  | .orelse, .ifElse s bs o => .ifElse s bs (o.map f)
  | .body, .whileLoop s t b o => .whileLoop s t (f b) o
  | .orelse, .whileLoop s t b o => .whileLoop s t b (o.map f)
  | .body, .forLoop s n i b o => .forLoop s n i (f b) o
  | .orelse, .forLoop s n i b o => .forLoop s n i b (o.map f)
  | .body, .closure s c => .closure s { c with body := f c.body }
  | _, s => s

/-- The way from a block to one inside it: the number of a statement and a block of that statement, again and again. -/
abbrev Address := List (Nat × Turn)

/-- A block with the statements of the block at an address in another order. -/
def Block.permute (order : List Nat) : Address → Block → Block
  | [], b => ⟨arrange order b.stmts, b.span⟩
  | (i, turn) :: a, b => ⟨b.stmts.modify i (Stmt.change (permute order a) turn), b.span⟩

/-- A program with the statements of the block at an address in another order. -/
def Module.permute (m : Module) (a : Address) (order : List Nat) : Module := { m with body := m.body.permute order a }

/-! The marks of scopes play no part in it. -/

section
variable {f : Block → Block}

theorem unscopedStmts_eq_map (ss : List Stmt) : unscopedStmts ss = ss.map Stmt.unscoped := by
  induction ss with
  | nil => rfl
  | cons s ss ih => rw [unscopedStmts, ih, List.map_cons]

theorem Block.unscoped_eq (b : Block) : b.unscoped = { b with stmts := b.stmts.map Stmt.unscoped } := by
  cases b
  rw [unscoped, unscopedStmts_eq_map]

theorem Closure.unscoped_eq (c : Closure) : c.unscoped = { c with body := c.body.unscoped, scope := none } := by
  cases c
  rfl

theorem unscopedBranches_eq_map (bs : List (Expr × Block)) :
    unscopedBranches bs = bs.map fun b => (b.1, b.2.unscoped) := by
  induction bs with
  | nil => rfl
  | cons b bs ih => rw [unscopedBranches, ih, List.map_cons]

theorem unscopedOption_map (hf : ∀ b, (f b).unscoped = f b.unscoped) (o : Option Block) :
    unscopedOption (o.map f) = (unscopedOption o).map f := by
  cases o with
  | none => rfl
  | some b => exact congrArg some (hf b)

theorem Stmt.unscoped_change (hf : ∀ b, (f b).unscoped = f b.unscoped) (turn : Turn) (s : Stmt) :
    (s.change f turn).unscoped = s.unscoped.change f turn := by
  have hbranches (bs : List (Expr × Block)) (i : Nat) : unscopedBranches (bs.modify i fun b => (b.1, f b.2)) =
      (unscopedBranches bs).modify i fun b => (b.1, f b.2) := by
    rw [unscopedBranches_eq_map, unscopedBranches_eq_map]
    exact map_modify fun b => by simp only [hf]
  cases turn <;> cases s <;>
    simp only [Stmt.change, Stmt.unscoped, Closure.unscoped_eq, hbranches, unscopedOption_map hf, hf]

theorem Block.unscoped_permute (order : List Nat) (a : Address) (b : Block) :
    (b.permute order a).unscoped = b.unscoped.permute order a := by
  induction a generalizing b with
  | nil => simp only [permute, unscoped_eq, arrange_map]
  | cons step a ih =>
    simp only [permute, unscoped_eq]
    rw [map_modify fun s => s.unscoped_change ih step.2]

theorem Module.unscoped_permute (m : Module) (a : Address) (order : List Nat) :
    (m.permute a order).unscoped = m.unscoped.permute a order :=
  congrArg (fun b => ({ body := b } : Module)) (m.body.unscoped_permute order a)

/-- Where the statements of a program change places, it is all the same for finding the scopes whether it is marked. -/
theorem Scopes.collect_permute (m : Module) (a : Address) (order : List Nat) :
    collect ((collect m).1.permute a order) = collect (m.permute a order) := by
  rw [← collect_unscoped, Module.unscoped_permute, unscoped_collect, ← Module.unscoped_permute, collect_unscoped]

end

/-! ### Trails that tell the same -/

/-- Nodes that bind, declare and read the same names. -/
structure NamesAlike (ns ms : List Node) : Prop where
  binds : ∀ n, n ∈ ns.flatMap Node.binds ↔ n ∈ ms.flatMap Node.binds
  declares : ∀ n, n ∈ ns.flatMap Node.declares ↔ n ∈ ms.flatMap Node.declares
  uses : ∀ n, n ∈ (ns.flatMap Node.uses).map (·.1) ↔ n ∈ (ms.flatMap Node.uses).map (·.1)

namespace NamesAlike
variable {ns ms ks ns' ms' : List Node}

theorem of_perm (h : ns.Perm ms) : NamesAlike ns ms where
  binds _ := (h.flatMap_right _).mem_iff
  declares _ := (h.flatMap_right _).mem_iff
  uses _ := ((h.flatMap_right _).map _).mem_iff

theorem trans (h : NamesAlike ns ms) (h' : NamesAlike ms ks) : NamesAlike ns ks where
  binds n := (h.binds n).trans (h'.binds n)
  declares n := (h.declares n).trans (h'.declares n)
  uses n := (h.uses n).trans (h'.uses n)

theorem of_eq (hb : ns.flatMap Node.binds = ms.flatMap Node.binds)
    (hd : ns.flatMap Node.declares = ms.flatMap Node.declares) (hu : ns.flatMap Node.uses = ms.flatMap Node.uses) :
    NamesAlike ns ms := by
  constructor <;> simp only [hb, hd, hu, implies_true]

theorem append (h : NamesAlike ns ms) (h' : NamesAlike ns' ms') : NamesAlike (ns ++ ns') (ms ++ ms') where
  binds n := by simp only [List.flatMap_append, List.mem_append, h.binds, h'.binds]
  declares n := by simp only [List.flatMap_append, List.mem_append, h.declares, h'.declares]
  uses n := by simp only [List.flatMap_append, List.map_append, List.mem_append, h.uses, h'.uses]

/-- Scopes that record the names of blocks with the same names have the same names. -/
theorem sameNames {b b' : Block} (h : NamesAlike b.own b'.own) {s r : Scope} (hs : s.Records b) (hr : r.Records b') :
    s.SameNames r where
  locals n := by rw [hs.locals, hr.locals, List.mem_eraseDups, List.mem_eraseDups, h.binds]
  globals n := by rw [hs.globals, hr.globals, List.mem_eraseDups, List.mem_eraseDups, h.declares]
  uses n := by rw [hs.uses, hr.uses, List.mem_eraseDups, List.mem_eraseDups, h.uses]

end NamesAlike

/-- Blocks with one mark in one place that say the same about names. -/
structure ScopedBlock.Alike (x y : ScopedBlock) : Prop where
  mark : x.mark = y.mark
  around : x.around = y.around
  names : NamesAlike x.block.own y.block.own

/-- Trails that say the same about names, in the same places and under the same marks. -/
structure Trail.Alike (u v : Trail) : Prop where
  own : NamesAlike u.own v.own
  marks : (u.closures.map (·.scope)).Perm (v.closures.map (·.scope))
  bodies : ∀ around, ∀ y ∈ v.bodies around, ∃ x ∈ u.bodies around, x.Alike y

namespace Trail.Alike
variable {u v w u' v' : Trail}

theorem of_bodies (hown : u.own.Perm v.own) (hclosures : u.closures.Perm v.closures)
    (hbodies : ∀ around, ∀ x ∈ v.bodies around, x ∈ u.bodies around) : u.Alike v where
  own := .of_perm hown
  marks := hclosures.map _
  bodies around x hx := ⟨x, hbodies around x hx, rfl, rfl, .of_perm (.refl _)⟩

theorem refl (u : Trail) : u.Alike u := .of_bodies (.refl _) (.refl _) fun _ _ => id

theorem trans (h : u.Alike v) (h' : v.Alike w) : u.Alike w where
  own := h.own.trans h'.own
  marks := h.marks.trans h'.marks
  bodies around z hz := by
    obtain ⟨y, hy, hyz⟩ := h'.bodies around z hz
    obtain ⟨x, hx, hxy⟩ := h.bodies around y hy
    exact ⟨x, hx, hxy.mark.trans hyz.mark, hxy.around.trans hyz.around, hxy.names.trans hyz.names⟩

theorem append (h : u.Alike v) (h' : u'.Alike v') : (u ++ u').Alike (v ++ v') where
  own := by simpa using h.own.append h'.own
  marks := by simpa using h.marks.append h'.marks
  bodies around y hy := by
    simp only [bodies_append, List.mem_append] at hy ⊢
    rcases hy with hy | hy
    · obtain ⟨x, hx, hxy⟩ := h.bodies around y hy
      exact ⟨x, .inl hx, hxy⟩
    · obtain ⟨x, hx, hxy⟩ := h'.bodies around y hy
      exact ⟨x, .inr hx, hxy⟩

theorem append_comm (u v w : Trail) : (u ++ (v ++ w)).Alike (v ++ (u ++ w)) := by
  refine .of_bodies ?_ ?_ fun around x hx => ?_
  · simpa using List.perm_append_comm_assoc u.own v.own w.own
  · simpa using List.perm_append_comm_assoc u.closures v.closures w.closures
  · simpa [or_left_comm] using hx

theorem meet {n n' : Node} (hn : NamesAlike [n] [n']) (h : u.Alike v) : (meet n u).Alike (meet n' v) where
  own := hn.append h.own
  marks := h.marks
  bodies := h.bodies

theorem enter {c c' : Closure} (hscope : c.scope = c'.scope) (hhead : NamesAlike c.head c'.head)
    (hbody : c.body.trail.Alike c'.body.trail) (h : u.Alike v) :
    (enter c c.body.trail u).Alike (enter c' c'.body.trail v) where
  own := hhead.append h.own
  marks := by
    have hrest := hbody.marks.append h.marks
    simpa only [closures, List.map_cons, List.map_append, hscope] using hrest.cons c'.scope
  bodies around y hy := by
    simp only [Trail.bodies, List.mem_cons, List.mem_append] at hy ⊢
    rcases hy with rfl | hy | hy
    · exact ⟨_, .inl rfl, hscope, rfl, hbody.own⟩
    · obtain ⟨x, hx, hxy⟩ := hbody.bodies _ y hy
      exact ⟨x, .inr (.inl (hscope ▸ hx)), hxy⟩
    · obtain ⟨x, hx, hxy⟩ := h.bodies around y hy
      exact ⟨x, .inr (.inr hx), hxy⟩

end Trail.Alike

/-! Statements in another order tell the same. -/

section
variable {f : Block → Block}

theorem Block.alike_trailStmts {ss ss' : List Stmt} (h : ss.Perm ss') :
    (trailStmts ss).Alike (trailStmts ss') := by
  induction h with
  | nil => exact .refl _
  | cons s _ ih => exact .append (.refl _) ih
  | swap s s' ss => exact .append_comm ..
  | trans _ _ ih ih' => exact ih.trans ih'

theorem Block.alike_modify {g : Stmt → Stmt} (hg : ∀ s : Stmt, s.trail.Alike (g s).trail) (ss : List Stmt)
    (i : Nat) : (trailStmts ss).Alike (trailStmts (ss.modify i g)) := by
  induction ss generalizing i with
  | nil =>
    rw [List.modify_nil]
    exact .refl _
  | cons s ss ih =>
    cases i with
    | zero => exact .append (hg s) (.refl _)
    | succ i => exact .append (.refl _) (ih i)

variable (hf : ∀ b : Block, b.trail.Alike (f b).trail)
include hf

theorem Block.alike_trailBranches (bs : List (Expr × Block)) (i : Nat) :
    (trailBranches bs).Alike (trailBranches (bs.modify i fun b => (b.1, f b.2))) := by
  induction bs generalizing i with
  | nil =>
    rw [List.modify_nil]
    exact .refl _
  | cons b bs ih =>
    cases i with
    | zero => exact .append (.refl _) (.append (hf b.2) (.refl _))
    | succ i => exact .append (.refl _) (.append (.refl _) (ih i))

theorem Block.alike_trailOption (o : Option Block) : (trailOption o).Alike (trailOption (o.map f)) := by
  cases o with
  | none => exact .refl _
  | some b => exact hf b

theorem Closure.alike_trail (c : Closure) : c.trail.Alike (Closure.trail { c with body := f c.body }) := by
  obtain ⟨_, _, body, _, _, _⟩ := c
  exact .enter rfl (by exact .of_eq rfl rfl rfl) (hf body) (.refl .done)

/-- What a statement says about names itself does not depend on the blocks inside it. -/
theorem Stmt.alike_change (turn : Turn) (s : Stmt) : s.trail.Alike (s.change f turn).trail := by
  unfold change
  split
  case h_8 => exact .refl _
  -- the statement itself keeps its names, which leaves what comes behind it
  all_goals refine .meet (by exact .of_eq rfl rfl rfl) ?_
  · exact .append (Block.alike_trailBranches hf _ _) (.refl _)
  · exact .append (.refl _) (Block.alike_trailOption hf _)
  · exact .append (.refl _) (.append (hf _) (.refl _))
  · exact .append (.refl _) (.append (.refl _) (Block.alike_trailOption hf _))
  · exact .append (.refl _) (.append (hf _) (.refl _))
  · exact .append (.refl _) (.append (.refl _) (Block.alike_trailOption hf _))
  · exact Closure.alike_trail hf _

omit hf in
theorem Block.alike_permute (order : List Nat) (a : Address) (b : Block) :
    b.trail.Alike (b.permute order a).trail := by
  induction a generalizing b with
  | nil =>
    obtain ⟨ss, span⟩ := b
    exact .meet (by exact .of_eq rfl rfl rfl) (alike_trailStmts (perm_arrange order ss).symm)
  | cons step a ih =>
    obtain ⟨ss, span⟩ := b
    exact .meet (by exact .of_eq rfl rfl rfl) (alike_modify (Stmt.alike_change ih step.2) ss step.1)

end

namespace Module
variable (m : Module) (a : Address) (order : List Nat)

theorem marks_permute : ((m.permute a order).bodies.map (·.mark)).Perm (m.bodies.map (·.mark)) := by
  rw [map_mark_bodies, map_mark_bodies, closures_eq, closures_eq]
  exact ((m.body.alike_permute order a).marks.cons m.scope).symm

theorem alike_permute : ∀ y ∈ (m.permute a order).bodies, ∃ x ∈ m.bodies, x.Alike y := by
  have h := m.body.alike_permute order a
  refine List.forall_mem_cons.mpr ⟨⟨_, List.mem_cons_self, rfl, rfl, h.own⟩, fun y hy => ?_⟩
  obtain ⟨x, hx, hxy⟩ := h.bodies _ y hy
  exact ⟨x, List.mem_cons_of_mem _ hx, hxy⟩

end Module

/-! ### Other numbers for the same scopes -/

/-- Marks in another order are the marks in a row after the numbers have been exchanged among themselves. -/
theorem exists_renumbering {marks : List (Option ScopeId)} {k : Nat}
    (h : marks.Perm ((List.range k).map fun i => some ⟨i⟩)) :
    ∃ φ : ScopeId → ScopeId, φ.Bijective ∧ (∀ y, (φ y).index < k ↔ y.index < k) ∧
      marks = (List.range k).map fun i => some (φ ⟨i⟩) := by
  have hlength : marks.length = k := by simpa using h.length_eq
  have hmem (x : ScopeId) : some x ∈ marks ↔ x.index < k := by
    rw [h.mem_iff, List.mem_map]
    exact ⟨fun ⟨i, hi, hx⟩ => Option.some.inj hx ▸ List.mem_range.mp hi, fun hx => ⟨x.index, List.mem_range.mpr hx, rfl⟩⟩
  have hnodup : marks.Nodup := by
    rw [h.nodup_iff]
    exact List.Nodup.map (fun i j hij => by simpa using hij) List.nodup_range
  -- a number that no scope has stays what it is
  let φ (y : ScopeId) : ScopeId := (marks[y.index]?.getD (some y)).getD y
  have hin {y : ScopeId} (hy : y.index < k) : marks[y.index]? = some (some (φ y)) := by
    have hy' : y.index < marks.length := hlength ▸ hy
    obtain ⟨i, -, hi⟩ := List.mem_map.mp (h.mem_iff.mp (List.getElem_mem hy'))
    simp [φ, hy', ← hi]
  have hout {y : ScopeId} (hy : ¬y.index < k) : φ y = y := by
    simp [φ, List.getElem?_eq_none (Nat.le_of_not_lt (hlength ▸ hy))]
  have hvalid (y : ScopeId) : (φ y).index < k ↔ y.index < k := by
    by_cases hy : y.index < k
    · exact iff_of_true ((hmem _).mp (List.mem_of_getElem? (hin hy))) hy
    · rw [hout hy]
  refine ⟨φ, ⟨fun y z hyz => ?_, fun x => ?_⟩, hvalid, ?_⟩
  · by_cases hy : y.index < k
    · have hz : z.index < k := (hvalid z).mp (hyz ▸ (hvalid y).mpr hy)
      have hsame : marks[y.index]? = marks[z.index]? := by rw [hin hy, hin hz, hyz]
      exact congrArg ScopeId.mk ((List.getElem?_inj (hlength ▸ hy) hnodup).mp hsame)
    · have hz : ¬z.index < k := fun hz => hy ((hvalid y).mp (hyz ▸ (hvalid z).mpr hz))
      rwa [hout hy, hout hz] at hyz
  · by_cases hx : x.index < k
    · obtain ⟨i, hi⟩ := List.mem_iff_getElem?.mp ((hmem x).mpr hx)
      have hik : i < k := hlength ▸ (List.getElem?_eq_some_iff.mp hi).1
      exact ⟨⟨i⟩, Option.some.inj (Option.some.inj ((hin (y := ⟨i⟩) hik).symm.trans hi))⟩
    · exact ⟨x, hout hx⟩
  · refine List.ext_getElem? fun i => ?_
    by_cases hi : i < k
    · rw [hin (y := ⟨i⟩) hi]
      simp [hi]
    · simp [hi, hlength]

namespace Scopes
variable {m p : Module} {φ : ScopeId → ScopeId}

/-- Programs whose blocks with scopes tell the same have scopes that match, the numbers of the second going by its
    marks. -/
theorem matches_of_alike (hφ : φ.Bijective)
    (hvalid : ∀ y, (φ y).index < (collect m).2.size ↔ y.index < (collect p).2.size) (hm : m.MarkedBy some)
    (hp : p.MarkedBy fun y => some (φ y)) (h : ∀ y ∈ p.bodies, ∃ x ∈ m.bodies, x.Alike y) :
    (collect m).2.Matches (collect p).2 φ := by
  have hmatch (y : ScopeId) : ((collect m).2.get (φ y)).outer = ((collect p).2.get y).outer.map φ ∧
      ((collect m).2.get (φ y)).SameNames ((collect p).2.get y) := by
    by_cases hy : y.index < (collect p).2.size
    · have hy' : y.index < p.bodies.length := p.length_bodies ▸ hy
      obtain ⟨x, hx, hxy⟩ := h _ (List.getElem_mem hy')
      obtain ⟨j, hj⟩ := List.mem_iff_getElem?.mp hx
      obtain ⟨hmark, houter, hrecords⟩ := scopedBlock_collect hm hj
      obtain ⟨hmark', houter', hrecords'⟩ := scopedBlock_collect hp (List.getElem?_eq_getElem hy')
      have hnumber : φ y = ⟨j⟩ := Option.some.inj (hmark'.symm.trans (hxy.mark.symm.trans hmark))
      have hmarks : ((collect m).2.get ⟨j⟩).outer.map some = (((collect p).2.get y).outer.map φ).map some := by
        rw [houter, hxy.around, ← houter', List.map_map]
        rfl
      rw [hnumber]
      exact ⟨List.map_injective_iff.mpr (fun _ _ => Option.some.inj) hmarks, hxy.names.sameNames hrecords hrecords'⟩
    · -- what is no scope of the one is none of the other
      have hget {t : Scopes} {x : ScopeId} (hx : ¬x.index < t.size) : t.get x = { id := x, name := "" } := by
        rw [get, get?, List.getElem?_eq_none (Nat.le_of_not_lt hx), Option.getD_none]
      rw [hget hy, hget (mt (hvalid y).mp hy)]
      exact ⟨rfl, fun _ => Iff.rfl, fun _ => Iff.rfl, fun _ => Iff.rfl⟩
  exact ⟨hφ, hvalid, fun y => (hmatch y).1, fun y => (hmatch y).2⟩

/-- The marked program whose statements have changed places says which numbers its scopes had before. -/
theorem exists_matches (m : Module) (a : Address) (order : List Nat) :
    ∃ φ, (collect m).2.Matches (collect (m.permute a order)).2 φ ∧
      ((collect m).1.permute a order).MarkedBy fun y => some (φ y) := by
  let marked := (collect m).1
  have hmarked : marked.MarkedBy some := markedBy_collect m
  have hmarks := marked.marks_permute a order
  rw [hmarked] at hmarks
  obtain ⟨φ, hφ, hvalid, hmoved⟩ := exists_renumbering hmarks
  have hlength : marked.bodies.length = (marked.permute a order).bodies.length := by
    simpa using hmarks.length_eq.symm
  have hmoved' : (marked.permute a order).MarkedBy fun y => some (φ y) := by
    rw [Module.MarkedBy, hmoved, hlength]
  refine ⟨φ, ?_, hmoved'⟩
  rw [← collect_collect m, ← collect_permute]
  refine matches_of_alike hφ (fun y => ?_) hmarked hmoved' (marked.alike_permute a order)
  rw [← marked.length_bodies, ← Module.length_bodies, ← hlength, hvalid]

end Scopes

/-! ### The result -/

/-- A closure block finds its scope by its mark. -/
theorem scopeOf?_resolve (builtins : List String) (m : Module) {c : Closure} {id : ScopeId} (h : c.scope = some id)
    (hid : id.index < (Scopes.collect m).2.size) :
    (resolve builtins m).scopeOf? c = some ((resolve builtins m).table.get id) := by
  rw [Resolved.scopeOf?, h]
  exact Scopes.get?_eq_some_get (by rwa [Scopes.size_of_outline (outline_resolve builtins m)])

/-- If the statements of one block of a program change places, its closure blocks get other scopes, but the scope of the
    program and those of the closure blocks still bind, declare and read the same names, need the same ones from further
    out, keep the same ones for the scopes inside and store each name in the same way, and the same names are bound
    nowhere. Which scopes are those of the same closure block, one sees by moving the statements of the marked program:
    what comes of it is, but for the marks, the program with the marks of the new scopes. -/
theorem resolve_permute (builtins : List String) (m : Module) (a : Address) (order : List Nat) :
    let r := resolve builtins m
    let r' := resolve builtins (m.permute a order)
    let moved := r.module.permute a order
    moved.unscoped = r'.module.unscoped ∧
    (r.module.closures.map (·.scope)).Perm (moved.closures.map (·.scope)) ∧
    r.moduleScope.Agrees r'.moduleScope ∧
    List.Forall₂ (fun c c' => ∃ s s', r.scopeOf? c = some s ∧ r'.scopeOf? c' = some s' ∧ s.Agrees s')
      moved.closures r'.module.closures ∧
    ∀ n, n ∈ r.unbound.map (·.name) ↔ n ∈ r'.unbound.map (·.name) := by
  intro r r' moved
  obtain ⟨φ, hmatches, hmoved⟩ := Scopes.exists_matches m a order
  obtain ⟨hagrees, hunbound⟩ := hmatches.resolve builtins
  have hmarked : r'.module.MarkedBy some := Scopes.markedBy_collect (m.permute a order)
  have hcollect : Scopes.collect moved = (r'.module, (Scopes.collect (m.permute a order)).2) :=
    Scopes.collect_permute m a order
  have hlength : moved.closures.length = r'.module.closures.length := by
    rw [← Scopes.length_closures_collect, hcollect]
  refine ⟨?_, ?_, ?_, ?_, hunbound⟩
  · rw [← Scopes.unscoped_collect, hcollect]
  · rw [Module.closures_eq, Module.closures_eq]
    exact (r.module.body.alike_permute order a).marks
  · have hroot : Scopes.rootId = φ Scopes.rootId := Option.some.inj hmoved.cons.1
    have h := hagrees Scopes.rootId (Scopes.size_collect_pos _)
    rwa [← hroot] at h
  · refine (hmoved.forall₂_closures hmarked hlength).imp fun c c' hc => ?_
    obtain ⟨i, hi, hscope, hscope'⟩ := hc
    rw [Scopes.collect_permute] at hi
    have hi' : (φ ⟨i⟩).index < (Scopes.collect m).2.size := (hmatches.valid ⟨i⟩).mpr hi
    exact ⟨_, _, scopeOf?_resolve builtins m hscope hi', scopeOf?_resolve builtins _ hscope' hi, hagrees ⟨i⟩ hi⟩

/-- Two closure blocks that change places exchange the numbers of their scopes, and the name of the one stays a free name
    of the other. -/
example :
    let block (name : String) (body : List Stmt) : Stmt := .closure {} ⟨name, none, ⟨body, {}⟩, true, none, {}⟩
    let m : Module := { body := ⟨[block "f" [], block "g" [.expr {} (.name {} "f")]], {}⟩ }
    ((resolve [] m).module.permute [] [1, 0]).closures.map (·.scope) = [some ⟨2⟩, some ⟨1⟩] ∧
      ((resolve [] m).table.get ⟨2⟩).class? "f" = some .free ∧
      ((resolve [] (m.permute [] [1, 0])).table.get ⟨1⟩).class? "f" = some .free := by
  decide

end Offside

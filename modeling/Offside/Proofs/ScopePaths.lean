import Offside.Proofs.ScopeMirror

/-! # The scopes around each scope

A scope knows the scopes around it by their numbers. A trail whose closure blocks are marked tells the same by the
marks: around the scope of a closure block are the scopes of the closure blocks that one is inside of on the way to it.
The marks may be those of a walk along the trail itself or those of another walk; then one has to say which mark stands
for which number. -/

namespace Offside

/-- A block with a scope of its own, its mark and the marks of the scopes around it, innermost first. -/
structure ScopedBlock where
  mark : Option ScopeId
  around : List (Option ScopeId)
  block : Block

namespace Trail

/-- The bodies of the closure blocks along a trail; `around` are the marks around the trail. -/
def bodies : Trail → (around : List (Option ScopeId)) → List ScopedBlock
  | done, _ => []
  | meet _ next, around => next.bodies around
  | enter c inner next, around => ⟨c.scope, around, c.body⟩ :: (inner.bodies (c.scope :: around) ++ next.bodies around)

section
variable (u v : Trail) (around : List (Option ScopeId))

@[simp] theorem own_append : (u ++ v).own = u.own ++ v.own := by
  induction u with
  | done => rfl
  | meet n next ih => simp [own, ih]
  | enter c inner next _ ih => simp [own, ih]

@[simp] theorem bodies_append : (u ++ v).bodies around = u.bodies around ++ v.bodies around := by
  induction u with
  | done => rfl
  | meet n next ih => simp [bodies, ih]
  | enter c inner next _ ih => simp [bodies, ih]

theorem map_mark_bodies : (u.bodies around).map (·.mark) = u.closures.map (·.scope) := by
  induction u generalizing around with
  | done => rfl
  | meet n next ih => exact ih around
  | enter c inner next ihinner ih => simp [bodies, closures, ihinner, ih]

theorem map_block_bodies : (u.bodies around).map (·.block) = u.closures.map (·.body) := by
  induction u generalizing around with
  | done => rfl
  | meet n next ih => exact ih around
  | enter c inner next ihinner ih => simp [bodies, closures, ihinner, ih]

theorem length_bodies : (u.bodies around).length = u.closures.length := by
  simpa using congrArg List.length (u.map_mark_bodies around)

end

end Trail

/-! ### What the scopes around each scope are called -/

namespace Scopes
variable {t u : Scopes} {id : ScopeId} (g : ScopeId → Option ScopeId)

/-- The scopes around each scope, by what their numbers stand for. -/
def outers (t : Scopes) : List (List (Option ScopeId)) := t.scopes.map (·.outer.map g)

@[simp] theorem length_outers : (t.outers g).length = t.size := List.length_map _

theorem getElem?_outers (h : id.index < t.size) : (t.outers g)[id.index]? = some ((t.get id).outer.map g) := by
  rw [outers, List.getElem?_map, get?_eq_some_get h]
  rfl

theorem outers_modify {f : Scope → Scope} (hf : Recording f) : (t.modify id f).outers g = t.outers g := by
  have hmap : (t.scopes.modify id.index f).map (·.outer.map g) = (t.outers g).modify id.index fun path => path :=
    map_modify fun s => by rw [hf.outer]
  exact hmap.trans (List.modify_id id.index (t.outers g))

theorem outers_create (name : String) : (t.create name id).outers g = t.outers g ++ [(t.path id).map g] := by
  have hadded : (t.modify id _).outers g = t.outers g := outers_modify g (.addChild t.nextId)
  rw [outers, create, List.map_append, ← hadded]
  rfl

theorem path_create (t : Scopes) (name : String) (id : ScopeId) :
    (t.create name id).path t.nextId = t.nextId :: t.path id := by
  simp [path, get, get?, create, nextId, size, modify]

/-- Scopes that are put behind others change nothing about what is around these. -/
theorem path_of_outers {more : List (List (Option ScopeId))} (h : u.outers g = t.outers g ++ more)
    (hid : id.index < t.size) : (u.path id).map g = (t.path id).map g := by
  have hsize : t.size ≤ u.size := by
    have := congrArg List.length h
    rw [List.length_append, length_outers, length_outers] at this
    omega
  have hget := getElem?_outers g (t := u) (Nat.lt_of_lt_of_le hid hsize)
  rw [h, List.getElem?_append_left (by rwa [length_outers]), getElem?_outers g hid, Option.some.injEq] at hget
  rw [path, path, List.map_cons, List.map_cons, hget]

end Scopes

/-- A walk along a trail whose marks stand for the scopes that it makes puts around each of them what the marks tell. -/
theorem Trail.Faithful.outers_walk {u : Trail} (h : u.Faithful) (g : ScopeId → Option ScopeId) {id : ScopeId}
    {t : Scopes} (hid : id.index < t.size)
    (hmarks : u.closures.map (·.scope) = (List.range' t.size u.closures.length).map fun i => g ⟨i⟩) :
    (u.walk id t).outers g = t.outers g ++ (u.bodies ((t.path id).map g)).map (·.around) := by
  induction h generalizing id t with
  | done => exact (List.append_nil _).symm
  | @meet n next _ _ ih =>
    have hnote := Scope.recording_noteAll [n]
    have hpath : (t.modify id (·.noteAll [n])).path id = t.path id := by
      rw [Scopes.path, hnote.outer_get, Scopes.path]
    have hwalk := ih (t := t.modify id (·.noteAll [n])) (by rwa [Scopes.size_modify]) (by rwa [Scopes.size_modify])
    rwa [hpath, Scopes.outers_modify g hnote] at hwalk
  | @enter c next _ _ ihbody ih =>
    let t₁ := t.modify id (·.noteAll c.head)
    let t₂ := t₁.create c.name id
    let t₃ := c.body.trail.walk t₁.nextId t₂
    have hsize₁ : t₁.size = t.size := Scopes.size_modify ..
    have hsize₂ : t₂.size = t.size + 1 := by rw [Scopes.size_create, hsize₁]
    have hhead := Scope.recording_noteAll c.head
    have hpath₁ : t₁.path id = t.path id := by rw [Scopes.path, hhead.outer_get, Scopes.path]
    have houters₂ : t₂.outers g = t.outers g ++ [(t.path id).map g] := by
      rw [Scopes.outers_create, Scopes.outers_modify g hhead, hpath₁]
    obtain ⟨hscope, hbody, hnext⟩ : c.scope = g t₁.nextId ∧
        c.body.trail.closures.map (·.scope) =
          (List.range' t₂.size c.body.trail.closures.length).map (fun i => g ⟨i⟩) ∧
        next.closures.map (·.scope) =
          (List.range' (t₂.size + c.body.trail.closures.length) next.closures.length).map fun i => g ⟨i⟩ := by
      rw [closures, List.length_cons, List.length_append, List.range'_succ, ← List.range'_append_1, List.map_cons,
        List.map_cons, List.map_append, List.map_append, List.cons.injEq] at hmarks
      obtain ⟨hscope, hrest⟩ := hmarks
      rw [hsize₂, Scopes.nextId, hsize₁]
      exact ⟨hscope, List.append_inj hrest (by simp)⟩
    -- the body is walked along with one more scope around it, and what follows with the same ones as before
    have houters₃ : t₃.outers g = t.outers g ++
        (t.path id).map g :: (c.body.trail.bodies (c.scope :: (t.path id).map g)).map (·.around) := by
      have hpath₂ : t₂.path t₁.nextId = t₁.nextId :: t.path id := by rw [Scopes.path_create, hpath₁]
      rw [ihbody (by rw [hsize₂, ← hsize₁]; exact Nat.lt_succ_self _) hbody, houters₂, hpath₂, List.map_cons, hscope,
        List.append_assoc, List.singleton_append]
    have hsize₃ : t₃.size = t₂.size + c.body.trail.closures.length := by
      have hlength := congrArg List.length houters₃
      rw [Scopes.length_outers, List.length_append, List.length_cons, List.length_map, length_bodies,
        Scopes.length_outers] at hlength
      omega
    rw [← hsize₃] at hnext
    rw [walk, ih (show id.index < t₃.size by omega) hnext, Scopes.path_of_outers g houters₃ hid, houters₃, bodies,
      List.map_cons, List.map_append, List.append_assoc, List.cons_append]

/-! ### The scopes of a program -/

namespace Module
variable (m : Module)

/-- The block of a program and the bodies of its closure blocks, in visiting order. -/
def bodies : List ScopedBlock := ⟨m.scope, [], m.body⟩ :: m.body.trail.bodies [m.scope]

/-- The marks of a program are what the numbers of its scopes stand for. -/
def MarkedBy (g : ScopeId → Option ScopeId) : Prop :=
  m.bodies.map (·.mark) = (List.range m.bodies.length).map fun i => g ⟨i⟩

theorem map_mark_bodies : m.bodies.map (·.mark) = m.scope :: m.closures.map (·.scope) := by
  rw [bodies, List.map_cons, Trail.map_mark_bodies, m.closures_eq]

theorem map_block_bodies : m.bodies.map (·.block) = m.body :: m.closures.map (·.body) := by
  rw [bodies, List.map_cons, Trail.map_block_bodies, m.closures_eq]

theorem length_bodies : m.bodies.length = (Scopes.collect m).2.size := by
  rw [Scopes.size_collect, bodies, List.length_cons, Trail.length_bodies, m.closures_eq]

variable {m} {g : ScopeId → Option ScopeId}

theorem MarkedBy.cons (h : m.MarkedBy g) : m.scope = g Scopes.rootId ∧
    m.closures.map (·.scope) = (List.range' 1 m.closures.length).map fun i => g ⟨i⟩ := by
  rw [MarkedBy, map_mark_bodies, length_bodies, Scopes.size_collect, List.range_eq_range', List.range'_succ,
    List.map_cons, List.cons.injEq] at h
  exact h

/-- The closure blocks of two programs with the same number of them are marked for the same numbers. -/
theorem MarkedBy.forall₂_closures {p : Module} {g' : ScopeId → Option ScopeId} (h : m.MarkedBy g) (h' : p.MarkedBy g')
    (hlength : m.closures.length = p.closures.length) :
    List.Forall₂ (fun c c' => ∃ i < (Scopes.collect m).2.size, c.scope = g ⟨i⟩ ∧ c'.scope = g' ⟨i⟩)
      m.closures p.closures := by
  have hmarks : List.Forall₂ (fun b b' => ∃ i < (Scopes.collect m).2.size, b = g ⟨i⟩ ∧ b' = g' ⟨i⟩)
      (m.closures.map (·.scope)) (p.closures.map (·.scope)) := by
    rw [h.cons.2, h'.cons.2, ← hlength, List.forall₂_map_left_iff, List.forall₂_map_right_iff, List.forall₂_same]
    intro i hi
    rw [List.mem_range'_1] at hi
    exact ⟨i, by rw [Scopes.size_collect]; omega, rfl, rfl⟩
  rwa [List.forall₂_map_left_iff, List.forall₂_map_right_iff] at hmarks

end Module

namespace Scopes

/-- The marks that a program gets stand for themselves. -/
theorem markedBy_collect (m : Module) : (collect m).1.MarkedBy some := by
  have hmarks := (numbered_collect m).scopes.2
  rw [← Module.closures_eq] at hmarks
  rw [Module.MarkedBy, Module.map_mark_bodies, hmarks, Module.length_bodies, size_collect, List.range_eq_range',
    List.range'_succ]
  rfl

section
variable {m : Module} {g : ScopeId → Option ScopeId}

theorem outers_collect (h : m.MarkedBy g) : (collect m).2.outers g = m.bodies.map (·.around) := by
  obtain ⟨hscope, hmarks⟩ := h.cons
  rw [m.closures_eq] at hmarks
  have hroot : rootId.index < (createRoot {} rootName).size := Nat.zero_lt_one
  rw [collect_eq_walk, m.body.faithful_trail.outers_walk g hroot hmarks, Module.bodies, hscope]
  rfl

/-- A scope of a program has around it what the marks tell and records the names of its block. -/
theorem scopedBlock_collect (h : m.MarkedBy g) {i : Nat} {s : ScopedBlock} (hs : m.bodies[i]? = some s) :
    s.mark = g ⟨i⟩ ∧ ((collect m).2.get ⟨i⟩).outer.map g = s.around ∧ ((collect m).2.get ⟨i⟩).Records s.block := by
  have hlt : i < m.bodies.length := (List.getElem?_eq_some_iff.mp hs).1
  have hsize : i < (collect m).2.size := m.length_bodies ▸ hlt
  refine ⟨?_, ?_, ?_⟩
  · have hmark := congrArg (·[i]?) h
    simpa [hs, List.getElem?_range hlt] using hmark
  · have houter := congrArg (·[i]?) (outers_collect h)
    have hget : ((collect m).2.outers g)[i]? = _ := getElem?_outers g hsize
    simpa [hs, hget] using houter
  · have hrecords : (collect m).2.Records m := .of_notes (notes_collect m)
    rw [Records, ← m.map_block_bodies, List.forall₂_map_right_iff] at hrecords
    have hget : (collect m).2.scopes[i]? = some ((collect m).2.get ⟨i⟩) := get?_eq_some_get hsize
    rw [List.getElem?_eq_some_iff] at hget hs
    rw [← hget.2, ← hs.2]
    exact hrecords.get hsize hlt

end

end Scopes

end Offside

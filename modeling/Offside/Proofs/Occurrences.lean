import Mathlib.Data.List.Forall2
import Mathlib.Data.List.Induction
import Offside.Proofs.ScopeWalk
import Offside.Proofs.StrictNames

/-! # The names that scopes record

A scope records the names that occur in its block: in the statements of the block and of the blocks inside them, but not
in the bodies of closure blocks, which have scopes of their own. Each list keeps the names in the order in which a visit
first comes upon them, and the place of a reading is that of the first one. -/

namespace Offside

/-! ### Lists without repetitions -/

theorem foldl_addName (ns : List String) : ns.foldl addName [] = ns.eraseDups := by
  induction ns using List.reverseRecOn with
  | nil => rfl
  | append_singleton ns n ih =>
    rw [List.foldl_append, List.foldl_cons, List.foldl_nil, ih, List.eraseDups_append, addName]
    by_cases hn : n ∈ ns
    · simp [hn, List.removeAll]
    · simp [hn, List.removeAll, List.eraseDups_cons]

/-- The entries of names with values, in which only the first of a name counts. -/
def firsts {α : Type} (entries : List (String × α)) : List (String × α) :=
  entries.foldl (fun es e => addFirst es e.1 e.2) []

section
variable {α : Type} (entries : List (String × α))

theorem map_fst_addFirst (n : String) (a : α) : (addFirst entries n a).map (·.1) = addName (entries.map (·.1)) n := by
  unfold addName addFirst
  split
  · rfl
  · rw [List.map_append, List.map_singleton]

theorem map_fst_firsts : (firsts entries).map (·.1) = (entries.map (·.1)).eraseDups := by
  rw [← foldl_addName]
  induction entries using List.reverseRecOn with
  | nil => rfl
  | append_singleton es e ih =>
    rw [firsts, List.foldl_append, List.foldl_cons, List.foldl_nil, map_fst_addFirst, ← firsts, ih, List.map_append,
      List.foldl_append]
    rfl

theorem lookup_addFirst (n m : String) (a : α) : (addFirst entries m a).lookup n = (entries ++ [(m, a)]).lookup n := by
  unfold addFirst
  split
  · next hm =>
    rw [List.lookup_append]
    cases hn : entries.lookup n with
    | some b => rfl
    | none =>
      have hne : (n == m) = false := by
        refine beq_false_of_ne fun h => ?_
        obtain ⟨e, he, rfl⟩ := List.mem_map.mp hm
        exact absurd (beq_iff_eq.mpr h) (by simpa using List.lookup_eq_none_iff.mp hn e he)
      rw [List.lookup_cons, hne, List.lookup_nil]
      rfl
  · rfl

theorem lookup_firsts (n : String) : (firsts entries).lookup n = entries.lookup n := by
  induction entries using List.reverseRecOn with
  | nil => rfl
  | append_singleton es e ih =>
    rw [firsts, List.foldl_append, List.foldl_cons, List.foldl_nil, lookup_addFirst, List.lookup_append, ← firsts, ih,
      ← List.lookup_append]

end

/-! ### What a scope records -/

/-- A scope records the names that occur in a block, each once, as a visit first comes upon them. -/
structure Scope.Records (s : Scope) (b : Block) : Prop where
  locals : s.locals = (b.own.flatMap Node.binds).eraseDups
  globals : s.globals = (b.own.flatMap Node.declares).eraseDups
  uses : s.uses.map (·.1) = ((b.own.flatMap Node.uses).map (·.1)).eraseDups
  useSite : ∀ n, s.useSite? n = (b.own.flatMap Node.uses).lookup n

/-- The scopes record the names that occur in the block of a program and in the bodies of its closure blocks. -/
def Scopes.Records (t : Scopes) (m : Module) : Prop :=
  List.Forall₂ Scope.Records t.scopes (m.body :: m.closures.map (·.body))

namespace Scope

/-- What is written down in a scope about names, wherever the scope stands. -/
def notes (s : Scope) : Scope :=
  { id := Scopes.rootId, name := s.name, locals := s.locals, globals := s.globals, uses := s.uses }

/-- A scope of a name with what nodes in a row say written down. -/
def fresh (name : String) (ns : List Node) : Scope := noteAll { id := Scopes.rootId, name } ns

theorem notes_noteAll (s : Scope) (ns : List Node) : (s.noteAll ns).notes = s.notes.noteAll ns := by
  rw [noteAll_eq, noteAll_eq]
  rfl

theorem Records.of_notes {s : Scope} {name : String} {b : Block} (h : s.notes = fresh name b.own) : s.Records b := by
  rw [fresh, noteAll_eq] at h
  have huses : s.uses = firsts (b.own.flatMap Node.uses) := congrArg (·.uses) h
  refine ⟨?_, ?_, ?_, fun n => ?_⟩
  · exact (congrArg (·.locals) h).trans (foldl_addName _)
  · exact (congrArg (·.globals) h).trans (foldl_addName _)
  · rw [huses, map_fst_firsts]
  · rw [useSite?, huses, lookup_firsts]

end Scope

/-! ### The walk -/

section
variable {α β : Type} {l r : List α} {i : Nat} {f : α → α}

theorem map_modify {g : α → β} {f' : β → β} (h : ∀ a, g (f a) = f' (g a)) :
    (l.modify i f).map g = (l.map g).modify i f' := by
  induction l generalizing i with
  | nil => simp
  | cons a l ih =>
    cases i with
    | zero => simp [h]
    | succ i => simp [ih]

theorem modify_append_of_lt (hi : i < l.length) : (l ++ r).modify i f = l.modify i f ++ r := by
  induction l generalizing i with
  | nil => cases hi
  | cons a l ih =>
    cases i with
    | zero => rfl
    | succ i => simpa using ih (Nat.lt_of_succ_lt_succ hi)

theorem modify_concat (l : List α) (a : α) : (l ++ [a]).modify l.length f = l ++ [f a] := by
  induction l with
  | nil => rfl
  | cons b l ih => simpa using ih

end

namespace Scopes
variable {t : Scopes} {id : ScopeId}

/-- What is written down in the scopes about names. -/
def notes (t : Scopes) : List Scope := t.scopes.map Scope.notes

theorem length_notes (t : Scopes) : t.notes.length = t.size := List.length_map _

theorem notes_modify (t : Scopes) (id : ScopeId) (ns : List Node) :
    (t.modify id (·.noteAll ns)).notes = t.notes.modify id.index (·.noteAll ns) :=
  map_modify fun s => s.notes_noteAll ns

theorem notes_create (t : Scopes) (name : String) (id : ScopeId) :
    (t.create name id).notes = t.notes ++ [Scope.fresh name []] := by
  have hchild : ((t.modify id fun s => { s with children := s.children ++ [t.nextId] }).scopes).map Scope.notes =
      t.notes.modify id.index fun s => s := map_modify fun _ => rfl
  rw [notes, create, List.map_append, hchild]
  exact congrArg (· ++ [Scope.fresh name []]) (List.modify_id id.index t.notes)

end Scopes

/-- A walk writes down what the nodes of its own say in the scope it is in, and in the scopes it makes what the nodes of
    the bodies of closure blocks say. -/
theorem Trail.Faithful.notes_walk {u : Trail} (h : u.Faithful) {id : ScopeId} {t : Scopes} (hid : id.index < t.size) :
    (u.walk id t).notes =
      t.notes.modify id.index (·.noteAll u.own) ++ u.closures.map fun c => Scope.fresh c.name c.body.own := by
  induction h generalizing id t with
  | done =>
    rw [closures, List.map_nil, List.append_nil]
    exact (List.modify_id id.index t.notes).symm
  | @meet n next _ _ ih =>
    have hnote : (t.modify id (·.note n)).notes = t.notes.modify id.index (·.noteAll [n]) := t.notes_modify id [n]
    rw [walk, ih (by rwa [Scopes.size_modify]), hnote, List.modify_modify_eq]
    rfl
  | @enter c next _ _ ihbody ih =>
    -- the head goes to the scope around, the body to the scope that is made, and the rest to the scope around again
    let t₁ := t.modify id (·.noteAll c.head)
    let t₂ := t₁.create c.name id
    have hsize₁ : t₁.size = t.size := Scopes.size_modify ..
    have hsize₂ : t₂.size = t.size + 1 := by rw [Scopes.size_create, hsize₁]
    have hinner : (c.body.trail.walk t₁.nextId t₂).notes =
        t₁.notes ++ Scope.fresh c.name c.body.own ::
          c.body.trail.closures.map fun c => Scope.fresh c.name c.body.own := by
      have hnotes : t₂.notes = t₁.notes ++ [Scope.fresh c.name []] := Scopes.notes_create ..
      have hlast : t₁.nextId.index = t₁.notes.length := (Scopes.length_notes t₁).symm
      rw [ihbody (by rw [hsize₂]; exact Nat.lt_succ_of_le (Nat.le_of_eq hsize₁)), hnotes, hlast, modify_concat]
      simp [Scope.fresh, Scope.noteAll, Block.own]
    have hid' : id.index < (c.body.trail.walk t₁.nextId t₂).size := by
      rw [← Scopes.length_notes, hinner, List.length_append, Scopes.length_notes, hsize₁]
      omega
    rw [walk, ih hid', hinner, modify_append_of_lt (by rwa [Scopes.length_notes, hsize₁]), Scopes.notes_modify,
      List.modify_modify_eq]
    have hown : (fun s : Scope => s.noteAll (c.head ++ next.own)) = (·.noteAll next.own) ∘ (·.noteAll c.head) :=
      funext fun s => s.noteAll_append c.head next.own
    rw [own, hown, closures, List.map_cons, List.map_append, List.append_assoc, List.cons_append]

/-- The walk over a program writes down the names of its block and those of the bodies of its closure blocks. -/
theorem Scopes.notes_collect (m : Module) : (collect m).2.notes =
    Scope.fresh rootName m.body.own :: m.closures.map fun c => Scope.fresh c.name c.body.own := by
  rw [collect_eq_walk, m.body.faithful_trail.notes_walk Nat.zero_lt_one, m.closures_eq]
  rfl

theorem Scopes.Records.of_notes {t : Scopes} {m : Module} (h : t.notes =
    Scope.fresh rootName m.body.own :: m.closures.map fun c => Scope.fresh c.name c.body.own) : t.Records m := by
  let blocks : List (String × Block) := (rootName, m.body) :: m.closures.map fun c => (c.name, c.body)
  have hnotes : t.scopes.map Scope.notes = blocks.map fun p => Scope.fresh p.1 p.2.own := by
    refine h.trans ?_
    simp [blocks, Function.comp_def]
  have hsame : List.Forall₂ (· = ·) (t.scopes.map Scope.notes) (blocks.map fun p => Scope.fresh p.1 p.2.own) := by
    rw [List.forall₂_eq_eq_eq, hnotes]
  have hpairs : List.Forall₂ (fun s p => s.notes = Scope.fresh p.1 p.2.own) t.scopes blocks :=
    List.forall₂_map_right_iff.mp (List.forall₂_map_left_iff.mp hsame)
  have hblocks : m.body :: m.closures.map (·.body) = blocks.map (·.2) := by simp [blocks]
  rw [Scopes.Records, hblocks, List.forall₂_map_right_iff]
  exact hpairs.imp fun s p hs => .of_notes hs

/-- The scopes found by the walk record the names that occur in their blocks, and finding out how the names are stored
    leaves these records as they are. -/
theorem records_resolve (builtins : List String) (m : Module) :
    (Scopes.collect m).2.Records m ∧ (resolve builtins m).table.Records m := by
  have hcollect := Scopes.notes_collect m
  have hnotes (t : Scopes) : t.notes = t.outline.map Scope.notes := by
    rw [Scopes.outline, List.map_map]
    rfl
  refine ⟨.of_notes hcollect, .of_notes ?_⟩
  rw [hnotes, outline_resolve, ← hnotes, hcollect]

/-- The program `x += y + x`. -/
def ownAddition : Module :=
  let whole : Span := ⟨0, 10, 1, 0⟩
  let sum : Expr := .binary ⟨5, 5, 1, 5⟩ .add (.name ⟨5, 1, 1, 5⟩ "y") (.name ⟨9, 1, 1, 9⟩ "x")
  { body := ⟨[.augAssign whole (.binary .add) (.name "x") sum], whole⟩ }

/-- A visit comes upon the value of an augmented assignment before the target, but the name that is written to is read
    by the statement itself, which comes before both. -/
theorem uses_ownAddition :
    let met := ownAddition.collect fun
      | .expr (.name _ n) => [n]
      | .target (.name n) => [n]
      | _ => []
    let scope := (resolve [] ownAddition).moduleScope
    met = ["y", "x", "x"] ∧ scope.uses.map (·.1) ≠ met.eraseDups ∧ scope.useSite? "x" ≠ some ⟨9, 1, 1, 9⟩ := by
  decide

end Offside

import Offside.Proofs.Classification

/-! # Captured names form unbroken chains

A scope that needs a name from further out finds it in the scope directly around it, either bound there for
the scopes inside or needed in turn from further out. So from every scope where a name is free a chain of
free ones leads to the scope that keeps the name in a cell, and no cell is kept that no scope inside needs. -/

namespace Offside

/-! ### One link of a chain -/

namespace Scopes
variable {t : Scopes} {n : String} {id b : ScopeId} {outer path : List ScopeId}

/-- A scope further out that a walk reaches was reached from a scope directly inside it. -/
theorem IsPath.exists_before (h : t.IsPath path) {y : ScopeId} (hy : y ∈ (t.reach n path).tail) :
    ∃ x ∈ t.reach n path, ¬(t.get x).Settles n ∧ x.index < t.size ∧ x ≠ y ∧ (t.get x).outer = t.path y := by
  induction h with
  | nil => cases hy
  | @cons id outer hid hout hnot hp ih =>
    by_cases hs : (t.get id).Settles n
    · rw [reach_of_settles hs] at hy
      cases hy
    · rw [reach_of_not_settles hs, List.tail_cons] at hy
      rw [reach_of_not_settles hs]
      cases hp with
      | nil => cases hy
      | @cons z rest hz hzout hznot hprest =>
        rw [reach, List.mem_cons] at hy
        rcases hy with rfl | hy
        · have hne : id ≠ y := fun h => hnot (h ▸ List.mem_cons_self)
          exact ⟨id, List.mem_cons_self, hs, hid, hne, by rw [hout, Scopes.path, hzout]⟩
        · have htail : y ∈ (t.reach n (z :: rest)).tail := by
            rw [reach, List.tail_cons]
            exact hy
          obtain ⟨x, hx, h⟩ := ih htail
          exact ⟨x, List.mem_cons_of_mem _ hx, h⟩

/-- A scope that finds a name bound further out does not settle it, and the scope around it finds the same. -/
theorem IsPath.around_of_bound (h : t.IsPath (id :: outer)) (hb : t.lookup n (id :: outer) = .bound b) (hne : b ≠ id) :
    ¬(t.get id).Settles n ∧ ∃ z rest, outer = z :: rest ∧ z.index < t.size ∧ t.path z = outer ∧
      t.lookup n outer = .bound b := by
  have hreach := (lookup_eq_bound_iff.mp hb).1
  have hs : ¬(t.get id).Settles n := by
    intro hs
    rw [reach_of_settles hs, List.mem_singleton] at hreach
    exact hne hreach
  rw [lookup_of_not_settles hs] at hb
  refine ⟨hs, ?_⟩
  obtain ⟨-, -, -, hp⟩ := h.cons_inv
  cases hp with
  | nil => cases hb
  | @cons z rest hz hzout hnot hp => exact ⟨z, rest, rfl, hz, by rw [Scopes.path, hzout], hb⟩

end Scopes

theorem Place.storage_eq_free_iff {place : Place} {id : ScopeId} {needed : Bool} :
    place.storage id needed = .free ↔ ∃ b, place = .bound b ∧ b ≠ id := by
  cases place with
  | global => simp [Place.storage]
  | bound b => cases needed <;> by_cases h : b = id <;> simp [Place.storage, h]

theorem Place.storage_eq_cell_iff {place : Place} {id : ScopeId} {needed : Bool} :
    place.storage id needed = .cell ↔ place = .bound id ∧ needed = true := by
  cases place with
  | global => simp [Place.storage]
  | bound b => cases needed <;> by_cases h : b = id <;> simp [Place.storage, h]

namespace Asking
variable {a : Asking} {t : Scopes} {n : String} {id : ScopeId}

theorem storage_eq_some_iff {c : Storage} :
    a.storage t n id = some c ↔ a.asked id = true ∧ (t.lookup n (t.path id)).storage id (a.needed id) = c := by
  cases h : a.asked id <;> simp [storage, h]

/-- The scope around one that stores a name as free stores it as free or as a cell. -/
theorem Closed.storage_around (hc : a.Closed t n) (hp : t.IsPath (t.path id)) (h : a.storage t n id = some .free) :
    ∃ z rest, (t.get id).outer = z :: rest ∧ z.index < t.size ∧
      (a.storage t n z = some .free ∨ a.storage t n z = some .cell) := by
  obtain ⟨hasked, hfree⟩ := storage_eq_some_iff.mp h
  obtain ⟨b, hb, hne⟩ := Place.storage_eq_free_iff.mp hfree
  obtain ⟨hs, z, rest, hout, hz, hpath, hbz⟩ := hp.around_of_bound hb hne
  obtain ⟨haz, hnz⟩ := hc hasked hs hout
  refine ⟨z, rest, hout, hz, ?_⟩
  rw [storage_eq_some_iff, storage_eq_some_iff, hpath, hbz, hnz]
  by_cases hbz' : b = z
  · exact .inr ⟨haz, by simp [Place.storage, hbz']⟩
  · exact .inl ⟨haz, by simp [Place.storage, hbz']⟩

end Asking

namespace Findings
variable {t : Scopes} {questions : List (ScopeId × String)} {n : String}

/-- Where a name is a cell, a scope directly inside stores it as free. -/
theorem storage_inside (ht : t.Tree) (hq : ∀ q ∈ questions, q.1.index < t.size) {id : ScopeId}
    (h : (asking t questions n).storage t n id = some .cell) :
    ∃ x, x.index < t.size ∧ (t.get x).outer = t.path id ∧ (asking t questions n).storage t n x = some .free := by
  obtain ⟨-, hcell⟩ := Asking.storage_eq_some_iff.mp h
  obtain ⟨hbound, hneeded⟩ := Place.storage_eq_cell_iff.mp hcell
  simp only [asking, List.any_eq_true, decide_eq_true_eq] at hneeded
  obtain ⟨q, hmem, hn, hid⟩ := hneeded
  obtain ⟨x, hx, hs, hlt, hne, hout⟩ := (ht.isPath q.1.index (hq q hmem)).1.exists_before hid
  have hasked : (asking t questions n).asked x = true := by
    simp only [asking, List.any_eq_true, decide_eq_true_eq]
    exact ⟨q, hmem, hn, hx⟩
  have hplace : t.lookup n (t.path x) = .bound id := by
    rw [Scopes.path, Scopes.lookup_of_not_settles hs, hout]
    exact hbound
  refine ⟨x, hlt, hout, Asking.storage_eq_some_iff.mpr ⟨hasked, ?_⟩⟩
  exact Place.storage_eq_free_iff.mpr ⟨id, hplace, Ne.symm hne⟩

end Findings

/-! ### Whole chains -/

namespace Scopes

/-- The scope directly around a scope. -/
def around? (t : Scopes) (s : Scope) : Option Scope := s.parent.bind t.get?

/-- Following the scopes around a scope outwards, a name is free in all of them up to one where it is a cell. -/
inductive Chained (t : Scopes) (n : String) : Scope → Prop
  | bound {s p : Scope} : t.around? s = some p → p.class? n = some .cell → Chained t n s
  | passed {s p : Scope} : t.around? s = some p → p.class? n = some .free → Chained t n p → Chained t n s

section
variable {t u : Scopes}

theorem children_of_outline (h : u.outline = t.outline) (id : ScopeId) : (u.get id).children = (t.get id).children :=
  congrArg (·.children) (outline_get h id : (u.get id).outline = (t.get id).outline)

theorem around?_of_outline (h : u.outline = t.outline) {id z : ScopeId} {rest : List ScopeId}
    (hz : z.index < t.size) (hout : (t.get id).outer = z :: rest) : u.around? (u.get id) = some (u.get z) := by
  obtain ⟨-, houter, -⟩ := Scope.eq_of_outline (outline_get h id)
  have hzu : z.index < u.size := by rwa [size_of_outline h]
  rw [around?, Scope.parent, houter, hout]
  exact get?_eq_some_get hzu

end

end Scopes

namespace Findings
variable {t : Scopes} {questions : List (ScopeId × String)} {k : Findings} {n : String}

/-- A free name is free outwards up to the scope that keeps it in a cell. -/
theorem Known.chained (ht : t.Tree) (h : Known t questions k) {s : Scope} (hs : s ∈ k.table.scopes)
    (hfree : s.class? n = some .free) : k.table.Chained n s := by
  induction hi : s.id.index using Nat.strongRecOn generalizing s with
  | _ i ih =>
    obtain ⟨hid, hget⟩ := Scopes.get_of_outline h.outline ht hs
    have hstore := (h.stores s.id n hid).class_eq
    rw [hget, hfree] at hstore
    obtain ⟨hp, hsmall⟩ := ht.isPath s.id.index hid
    obtain ⟨z, rest, hout, hz, hclass⟩ := Asking.Closed.storage_around (closed_asking ht h.valid) hp hstore.symm
    have haround := Scopes.around?_of_outline h.outline hz hout
    rw [hget] at haround
    have hclass' := (h.stores z n hz).class_eq
    rcases hclass with hc | hc
    · have hzk : z.index < k.table.size := by rwa [Scopes.size_of_outline h.outline]
      have hzid : (k.table.get z).id = z := by
        rw [(Scope.eq_of_outline (Scopes.outline_get h.outline z)).1]
        exact ht.id_get hz
      have hlt : (k.table.get z).id.index < i := by
        rw [hzid, ← hi]
        exact hsmall z (hout ▸ List.mem_cons_self)
      have hzfree : (k.table.get z).class? n = some .free := hclass'.trans hc
      exact .passed haround hzfree (ih _ hlt (Scopes.get_mem hzk) hzfree rfl)
    · exact .bound haround (hclass'.trans hc)

end Findings

/-- The names a scope needs from further out and those it keeps for the scopes inside are the ones it stores
    as free and as cells; the module needs none and only a scope's own names are kept. What is free in a scope
    is free or a cell in the one around it, and so on outwards to a cell, and what is a cell is free in a
    scope directly inside. -/
theorem chained_of_resolve (builtins : List String) (m : Module) :
    let r := resolve builtins m
    r.moduleScope ∈ r.table.scopes ∧ r.moduleScope.frees = [] ∧
    ∀ s ∈ r.table.scopes, ∀ n,
      (n ∈ s.frees ↔ s.class? n = some .free) ∧
      (n ∈ s.cells ↔ s.class? n = some .cell) ∧
      ¬(n ∈ s.frees ∧ n ∈ s.cells) ∧
      (n ∈ s.cells → n ∈ s.locals ∧ n ∉ s.globals) ∧
      (s.class? n = some .free →
        (∃ p, r.table.around? s = some p ∧ (p.class? n = some .free ∨ p.class? n = some .cell)) ∧
          r.table.Chained n s) ∧
      (s.class? n = some .cell → ∃ id ∈ s.children, ∃ c,
        r.table.get? id = some c ∧ r.table.around? c = some s ∧ c.class? n = some .free) := by
  intro r
  have ht : (Scopes.collect m).2.Tree := Scopes.tree_collect m
  obtain ⟨questions, hknown, -⟩ := Findings.known_run ht ((Scopes.collect m).2.moduleNames ++ builtins)
  have hline : r.table.outline = (Scopes.collect m).2.outline := hknown.outline
  have hsize := Scopes.size_of_outline hline
  have hroot : Scopes.rootId.index < (Scopes.collect m).2.size := Scopes.size_collect_pos m
  have hmodule : r.moduleScope = r.table.get Scopes.rootId := rfl
  refine ⟨?_, ?_, fun s hs n => ?_⟩
  · rw [hmodule]
    exact Scopes.get_mem (by rw [hsize]; exact hroot)
  · refine List.eq_nil_iff_forall_not_mem.mpr fun n hn => ?_
    have hfree := (hknown.stores Scopes.rootId n hroot).free_iff.mp hn
    obtain ⟨z, rest, hout, -⟩ :=
      Asking.Closed.storage_around (Findings.closed_asking ht hknown.valid) (ht.isPath _ hroot).1 hfree
    rw [ht.root _ (Scopes.get_mem hroot) (ht.id_get hroot)] at hout
    cases hout
  · obtain ⟨hid, hget⟩ := Scopes.get_of_outline hline ht hs
    have hst : s.Stores n _ := hget ▸ hknown.stores s.id n hid
    obtain ⟨-, -, hlocals, hglobals, -⟩ := Scope.eq_of_outline (Scopes.outline_get hline s.id)
    rw [hget] at hlocals hglobals
    refine ⟨?_, ?_, ?_, ?_, fun hfree => ?_, fun hcell => ?_⟩
    · rw [hst.free_iff, hst.class_eq]
    · rw [hst.cell_iff, hst.class_eq]
    · rintro ⟨hfree, hcell⟩
      have := (hst.free_iff.mp hfree).symm.trans (hst.cell_iff.mp hcell)
      cases this
    · intro hcell
      obtain ⟨-, hcell⟩ := Asking.storage_eq_some_iff.mp (hst.cell_iff.mp hcell)
      obtain ⟨hbound, -⟩ := Place.storage_eq_cell_iff.mp hcell
      rw [hlocals, hglobals]
      exact (Scopes.lookup_eq_bound_iff.mp hbound).2
    · have hchained : r.table.Chained n s := hknown.chained ht hs hfree
      refine ⟨?_, hchained⟩
      cases hchained with
      | bound haround hcell => exact ⟨_, haround, .inr hcell⟩
      | passed haround hfree _ => exact ⟨_, haround, .inl hfree⟩
    · rw [hst.class_eq] at hcell
      obtain ⟨x, hx, hout, hfree⟩ := Findings.storage_inside ht hknown.valid hcell
      have hparent : ((Scopes.collect m).2.get x).parent = some s.id := by
        rw [Scope.parent, hout]
        rfl
      have hchild := ht.child _ (Scopes.get_mem hx) _ hparent
      rw [ht.id_get hx, ← Scopes.children_of_outline hline, hget] at hchild
      refine ⟨x, hchild, r.table.get x, Scopes.get?_eq_some_get (by rw [hsize]; exact hx), ?_, ?_⟩
      · have haround := Scopes.around?_of_outline hline hid hout
        rwa [hget] at haround
      · exact (hknown.stores x n hx).class_eq.trans hfree

/-- `x` of the module passes through the outer one of two nested closure blocks. -/
theorem chained_of_nestedReader :
    let t := (resolve [] nestedReader).table
    t.get ⟨2⟩ ∈ t.scopes ∧ (t.get ⟨2⟩).class? "x" = some .free ∧ t.Chained "x" (t.get ⟨2⟩) := by
  intro t
  have hmem : t.get ⟨2⟩ ∈ t.scopes := by decide
  have hfree : (t.get ⟨2⟩).class? "x" = some .free := by decide
  obtain ⟨-, -, -, -, hchain, -⟩ := (chained_of_resolve [] nestedReader).2.2 _ hmem "x"
  exact ⟨hmem, hfree, (hchain hfree).2⟩

end Offside

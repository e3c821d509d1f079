import Offside.Proofs.ScopeTree

/-! # What is written down about a name

A scope keeps what it knows about a name in three places: its classes, the names it needs from further
out and the names of its own that are needed inside. Here is how the classifier's notes keep the three
in step, and what one question to a scope comes down to. -/

namespace Offside

/-! ### What a scope says about one name -/

section
variable {α : Type} {n m : String}

theorem lookup_putName_self (entries : List (String × α)) (n : String) (a : α) :
    (putName entries n a).lookup n = some a := by
  unfold putName
  induction entries with
  | nil => simp
  | cons e entries ih =>
    obtain ⟨k, v⟩ := e
    by_cases hk : k = n
    · simp [hk]
    · have hne : (n == k) = false := by simpa using Ne.symm hk
      by_cases hm : n ∈ entries.map (·.1)
      · rw [if_pos hm] at ih
        rw [if_pos (by simpa [Ne.symm hk] using hm)]
        simpa [hk, List.lookup_cons, hne] using ih
      · rw [if_neg hm] at ih
        rw [if_neg (by simpa [Ne.symm hk] using hm)]
        simpa [List.lookup_cons, hne] using ih

theorem lookup_putName_of_ne (entries : List (String × α)) (a : α) (h : m ≠ n) :
    (putName entries n a).lookup m = entries.lookup m := by
  have hne : (m == n) = false := by simpa using h
  have hmap : (entries.map fun e => if e.1 = n then (n, a) else e).lookup m = entries.lookup m := by
    induction entries with
    | nil => rfl
    | cons e entries ih =>
      obtain ⟨k, v⟩ := e
      by_cases hk : k = n
      · simp [hk, List.lookup_cons, ih, hne]
      · simp [hk, List.lookup_cons, ih]
  unfold putName
  split
  · exact hmap
  · simp [List.lookup_append, List.lookup_cons, hne]

end

namespace Scope

@[simp] theorem frees_record (s : Scope) (n : String) (c : Storage) : (s.record n c).frees = s.frees := rfl

@[simp] theorem cells_record (s : Scope) (n : String) (c : Storage) : (s.record n c).cells = s.cells := rfl

@[simp] theorem frees_addCell (s : Scope) (n : String) : (s.addCell n).frees = s.frees := rfl

@[simp] theorem cells_addFree (s : Scope) (n : String) : (s.addFree n).cells = s.cells := rfl

@[simp] theorem cells_dropFree (s : Scope) (n : String) : (s.dropFree n).cells = s.cells := rfl

/-- What a scope has written down about a name, in its three places. -/
structure Stores (s : Scope) (n : String) (c : Option Storage) : Prop where
  class_eq : s.class? n = c
  free_iff : n ∈ s.frees ↔ c = some .free
  cell_iff : n ∈ s.cells ↔ c = some .cell
  free_once : s.frees.count n ≤ 1

namespace Stores
variable {s : Scope} {n m : String} {c : Option Storage}

theorem record_local (h : s.Stores n none) : (s.record n .localName).Stores n (some .localName) where
  class_eq := lookup_putName_self ..
  free_iff := by simpa using h.free_iff
  cell_iff := by simpa using h.cell_iff
  free_once := h.free_once

theorem record_global (h : s.Stores n none) : (s.record n .global).Stores n (some .global) where
  class_eq := lookup_putName_self ..
  free_iff := by simpa using h.free_iff
  cell_iff := by simpa using h.cell_iff
  free_once := h.free_once

theorem record_cell (h : s.Stores n c) (hc : c ≠ some .free) :
    ((s.addCell n).record n .cell).Stores n (some .cell) where
  class_eq := lookup_putName_self ..
  free_iff := by simpa [hc] using h.free_iff
  cell_iff := by simp [record, addCell, mem_addName]
  free_once := h.free_once

theorem record_free (h : s.Stores n none) : ((s.addFree n).record n .free).Stores n (some .free) where
  class_eq := lookup_putName_self ..
  free_iff := by simp [record, addFree, mem_addName]
  cell_iff := by simpa using h.cell_iff
  free_once := by
    have hn : n ∉ s.frees := by simpa using h.free_iff
    simp [record, addFree, addName, hn, List.count_eq_zero.mpr hn]

/-- A name that turned out to be global is no longer among those needed from further out. -/
theorem drop_free (h : s.Stores n (some .free)) : ((s.dropFree n).record n .global).Stores n (some .global) where
  class_eq := lookup_putName_self ..
  free_iff := by
    have hcount : (s.frees.erase n).count n = 0 := by
      rw [List.count_erase_self]
      have := h.free_once
      omega
    simpa [record, dropFree] using List.count_eq_zero.mp hcount
  cell_iff := by simpa using h.cell_iff
  free_once := by
    have := h.free_once
    simp only [record, dropFree, List.count_erase_self]
    omega

theorem record_free_again (h : s.Stores n (some .free)) : (s.record n .free).Stores n (some .free) where
  class_eq := lookup_putName_self ..
  free_iff := h.free_iff
  cell_iff := h.cell_iff
  free_once := h.free_once

/-! Nothing that is written down about one name touches another. -/

theorem record_ne (h : s.Stores m c) (hm : m ≠ n) (c' : Storage) : (s.record n c').Stores m c where
  class_eq := (lookup_putName_of_ne _ _ hm).trans h.class_eq
  free_iff := h.free_iff
  cell_iff := h.cell_iff
  free_once := h.free_once

theorem addCell_ne (h : s.Stores m c) (hm : m ≠ n) : (s.addCell n).Stores m c where
  class_eq := h.class_eq
  free_iff := h.free_iff
  cell_iff := by simpa [addCell, mem_addName, hm] using h.cell_iff
  free_once := h.free_once

theorem addFree_ne (h : s.Stores m c) (hm : m ≠ n) : (s.addFree n).Stores m c where
  class_eq := h.class_eq
  free_iff := by simpa [addFree, mem_addName, hm] using h.free_iff
  cell_iff := h.cell_iff
  free_once := by
    have := h.free_once
    simp only [addFree, addName]
    split
    · exact this
    · simpa [List.count_append, List.count_singleton, hm.symm] using this

theorem dropFree_ne (h : s.Stores m c) (hm : m ≠ n) : (s.dropFree n).Stores m c where
  class_eq := h.class_eq
  free_iff := by simpa [dropFree, List.mem_erase_of_ne hm] using h.free_iff
  cell_iff := h.cell_iff
  free_once := by simpa [dropFree, List.count_erase_of_ne hm] using h.free_once

end Stores

/-- A scope without what is known about how its names are stored. -/
def outline (s : Scope) : Scope := { s with frees := [], cells := [], classes := [] }

/-- Scopes with one outline agree on everything that the classifier does not find out. -/
theorem eq_of_outline {s r : Scope} (h : s.outline = r.outline) :
    s.id = r.id ∧ s.outer = r.outer ∧ s.locals = r.locals ∧ s.globals = r.globals ∧ s.uses = r.uses := by
  cases s
  cases r
  simp only [outline, Scope.mk.injEq] at h
  obtain ⟨h1, -, h2, -, h3, h4, h5, -⟩ := h
  exact ⟨h1, h2, h3, h4, h5⟩

/-- A change to a scope that only notes something about one name. -/
structure Notes (n : String) (f : Scope → Scope) : Prop where
  outline : ∀ s, (f s).outline = s.outline
  others : ∀ {s : Scope} {m : String} {c : Option Storage}, m ≠ n → s.Stores m c → (f s).Stores m c

namespace Notes

theorem record (n : String) (c : Storage) : Notes n (·.record n c) :=
  ⟨fun _ => rfl, fun hm h => h.record_ne hm c⟩

theorem cell (n : String) : Notes n fun s => (s.addCell n).record n .cell :=
  ⟨fun _ => rfl, fun hm h => (h.addCell_ne hm).record_ne hm .cell⟩

theorem free (n : String) : Notes n fun s => (s.addFree n).record n .free :=
  ⟨fun _ => rfl, fun hm h => (h.addFree_ne hm).record_ne hm .free⟩

theorem noLongerFree (n : String) : Notes n fun s => (s.dropFree n).record n .global :=
  ⟨fun _ => rfl, fun hm h => (h.dropFree_ne hm).record_ne hm .global⟩

end Notes

end Scope

/-! ### One question -/

namespace Findings

/-- The findings with one scope changed. -/
def put (k : Findings) (id : ScopeId) (f : Scope → Scope) : Findings := { k with table := k.table.modify id f }

theorem put_put (k : Findings) (id : ScopeId) (f g : Scope → Scope) : (k.put id f).put id g = k.put id fun s => g (f s) := by
  simp [put, Scopes.modify, List.modify_modify_eq, Function.comp_def]

theorem get_put_self {k : Findings} {id : ScopeId} (h : id.index < k.table.size) (f : Scope → Scope) :
    (k.put id f).table.get id = f (k.table.get id) := Scopes.get_modify_self h f

theorem get_put_of_ne {k : Findings} {id y : ScopeId} (h : y ≠ id) (f : Scope → Scope) :
    (k.put id f).table.get y = k.table.get y := Scopes.get_modify_of_ne h f

/-- A note about one name leaves what every scope stores about another as it was. -/
theorem stores_put {k : Findings} {id y : ScopeId} {n m : String} {c : Option Storage} {f : Scope → Scope}
    (hf : Scope.Notes n f) (hid : id.index < k.table.size) (hm : m ≠ n) (h : (k.table.get y).Stores m c) :
    ((k.put id f).table.get y).Stores m c := by
  by_cases hy : y = id
  · subst hy
    rw [get_put_self hid]
    exact hf.others hm h
  · rw [get_put_of_ne hy]
    exact h

section
variable (known : List String) (n : String) (origin id : ScopeId) (outer : List ScopeId) (asked : Bool) (k : Findings)

theorem bindHere_record : (bindHere id n asked >>= fun c => record id n c) k =
    if asked then (.cell, k.put id fun s => (s.addCell n).record n .cell)
    else (.localName, k.put id (·.record n .localName)) := by
  cases asked
  · rfl
  · show (Storage.cell, (k.put id (·.addCell n)).put id (·.record n .cell)) = _
    rw [put_put]
    rfl

theorem bind_eq {α β : Type} {x : StateM Findings α} {f : α → StateM Findings β} {k k' : Findings} {a : α}
    (h : x k = (a, k')) : (x >>= f) k = f a k' := by
  simp only [bind, StateT.bind, h]

theorem edit_eq (f : Scope → Scope) : edit id f k = ((), k.put id f) := rfl

theorem record_eq (c : Storage) : record id n c k = (c, k.put id (·.record n c)) := rfl

/-- Past the last scope the name is global, and no scope has been changed. -/
theorem resolve_nil : (resolve known n origin [] asked k).1 = .global ∧
    (resolve known n origin [] asked k).2.table = k.table := by
  unfold resolve
  split
  · exact ⟨rfl, rfl⟩
  · exact ⟨rfl, rfl⟩

/-- The answer of a scope that has been asked before. -/
theorem resolve_of_class {c : Storage} (h : (k.table.get id).class? n = some c) :
    resolve known n origin (id :: outer) asked k =
      if c = .localName ∧ asked = true then (.cell, k.put id fun s => (s.addCell n).record n .cell) else (c, k) := by
  rw [resolve, bind_eq (rfl : (get : StateM Findings Findings) k = (k, k)), h]
  cases c <;> cases asked <;> first | rfl | exact bindHere_record n id true k

/-- The answer of a scope that is asked for the first time. -/
theorem resolve_of_none (h : (k.table.get id).class? n = none) (hc : n ∉ (k.table.get id).cells) :
    resolve known n origin (id :: outer) asked k =
      if n ∈ (k.table.get id).globals then (.global, k.put id (·.record n .global))
      else if n ∈ (k.table.get id).locals then
        if asked then (.cell, k.put id fun s => (s.addCell n).record n .cell)
        else (.localName, k.put id (·.record n .localName))
      else if outer = [] then
        let (c, k') := resolve known n origin outer true k
        (c, k'.put id (·.record n c))
      else
        let (c, k') := resolve known n origin outer true (k.put id fun s => (s.addFree n).record n .free)
        if c = .global then (.global, k'.put id fun s => (s.dropFree n).record n .global)
        else (.free, k'.put id (·.record n .free)) := by
  rw [resolve, bind_eq (rfl : (get : StateM Findings Findings) k = (k, k)), h]
  dsimp only
  by_cases hg : n ∈ (k.table.get id).globals
  · rw [if_pos hg, if_pos hg]
    rfl
  rw [if_neg hg, if_neg hg, if_neg hc]
  by_cases hl : n ∈ (k.table.get id).locals
  · rw [if_pos hl, if_pos hl]
    exact bindHere_record n id asked k
  rw [if_neg hl, if_neg hl]
  cases outer with
  | nil => rfl
  | cons p outer =>
    simp only [List.isEmpty_cons, Bool.false_eq_true, ↓reduceIte, reduceCtorEq]
    rw [← put_put k id (·.addFree n) (·.record n .free)]
    rcases hr : resolve known n origin (p :: outer) true ((k.put id (·.addFree n)).put id (·.record n .free)) with ⟨c, k'⟩
    rw [bind_eq (edit_eq id k _), bind_eq (record_eq n id _ .free), bind_eq hr]
    cases c with
    | global =>
      show (Storage.global, (k'.put id (·.dropFree n)).put id (·.record n .global)) = _
      rw [put_put]
      rfl
    | _ => rfl

end

end Findings

end Offside

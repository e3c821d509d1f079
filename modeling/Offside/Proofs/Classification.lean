import Offside.Proofs.Storing

/-! # How names are stored, seen from outside

Walking outwards from a scope, the first scope that binds a name or declares it to be global decides
what the name means there. The classifier asks from the inside out instead, remembers what it has been
told, and corrects itself on the way back. Both agree: a name is stored where the walk outwards finds
it, and a scope stores exactly the names it mentions and those that pass through it. -/

namespace Offside

/-! ### Walking outwards -/

/-- Where walking outwards finds a name. -/
inductive Place where
  /-- In the namespace of the module. -/
  | global
  /-- Among the names that a scope binds. -/
  | bound (scope : ScopeId)
deriving DecidableEq, Repr, Inhabited

/-- A scope settles what a name means in it if it binds the name or declares it to be global. -/
def Scope.Settles (s : Scope) (n : String) : Prop := n ∈ s.globals ∨ n ∈ s.locals

instance (s : Scope) (n : String) : Decidable (s.Settles n) :=
  inferInstanceAs (Decidable (n ∈ s.globals ∨ n ∈ s.locals))

namespace Scopes

/-- A scope and the scopes around it, innermost first. -/
def path (t : Scopes) (id : ScopeId) : List ScopeId := id :: (t.get id).outer

/-- Where a walk along a path finds a name: the first scope that binds it or declares it to be global
    decides, and a name that no scope decides belongs to the module. -/
def lookup (t : Scopes) (n : String) : (path : List ScopeId) → Place
  | [] => .global
  | id :: outer =>
    if n ∈ (t.get id).globals then .global
    else if n ∈ (t.get id).locals then .bound id
    else t.lookup n outer

/-- The scopes that a walk for a name looks at: up to the first one that settles it. -/
def reach (t : Scopes) (n : String) : (path : List ScopeId) → List ScopeId
  | [] => []
  | id :: outer => id :: if (t.get id).Settles n then [] else t.reach n outer

/-- A list of scopes, each with all scopes around it behind it. -/
inductive IsPath (t : Scopes) : List ScopeId → Prop
  | nil : IsPath t []
  | cons {id : ScopeId} {outer : List ScopeId} : id.index < t.size → (t.get id).outer = outer → id ∉ outer →
      IsPath t outer → IsPath t (id :: outer)

section
variable {t : Scopes} {n : String} {id : ScopeId} {outer path : List ScopeId}

/-- The way outwards from a scope of a tree has the smaller numbers. -/
theorem Tree.isPath (h : t.Tree) : ∀ i < t.size, t.IsPath (t.path ⟨i⟩) ∧ ∀ y ∈ (t.get ⟨i⟩).outer, y.index < i := by
  intro i
  induction i using Nat.strongRecOn with
  | _ i ih =>
    intro hi
    have hid : (t.get ⟨i⟩).id = ⟨i⟩ := h.id_get hi
    by_cases hroot : (⟨i⟩ : ScopeId) = rootId
    · have hout : (t.get ⟨i⟩).outer = [] := h.root _ (get_mem hi) (hid.trans hroot)
      refine ⟨.cons hi rfl (by simp [hout]) (by rw [hout]; exact .nil), by simp [hout]⟩
    · obtain ⟨p, hp, hout⟩ := h.inner _ (get_mem hi) (by rw [hid]; exact hroot)
      rw [hid] at hp
      obtain ⟨hpath, hlt⟩ := ih p.index hp (Nat.lt_trans hp hi)
      have hsmall : ∀ y ∈ (t.get ⟨i⟩).outer, y.index < i := by
        intro y hy
        rw [hout] at hy
        rcases List.mem_cons.mp hy with rfl | hy
        · exact hp
        · exact Nat.lt_trans (hlt y hy) hp
      refine ⟨.cons hi rfl (fun hmem => Nat.lt_irrefl i (hsmall _ hmem)) ?_, hsmall⟩
      rw [hout]
      exact hpath

theorem IsPath.cons_inv (h : t.IsPath (id :: outer)) :
    id.index < t.size ∧ (t.get id).outer = outer ∧ id ∉ outer ∧ t.IsPath outer := by
  cases h with
  | cons hid hout hnot hp => exact ⟨hid, hout, hnot, hp⟩

theorem reach_of_settles (h : (t.get id).Settles n) : t.reach n (id :: outer) = [id] := by
  rw [reach, if_pos h]

theorem reach_of_not_settles (h : ¬(t.get id).Settles n) : t.reach n (id :: outer) = id :: t.reach n outer := by
  rw [reach, if_neg h]

theorem lookup_of_not_settles (h : ¬(t.get id).Settles n) : t.lookup n (id :: outer) = t.lookup n outer := by
  rw [lookup, if_neg fun hg => h (.inl hg), if_neg fun hl => h (.inr hl)]

theorem mem_of_mem_reach {y : ScopeId} (h : y ∈ t.reach n path) : y ∈ path := by
  induction path with
  | nil => exact h
  | cons id outer ih =>
    by_cases hs : (t.get id).Settles n
    · rw [reach_of_settles hs, List.mem_singleton] at h
      exact h ▸ List.mem_cons_self
    · rw [reach_of_not_settles hs] at h
      rcases List.mem_cons.mp h with rfl | h
      · exact List.mem_cons_self
      · exact List.mem_cons_of_mem _ (ih h)

theorem mem_of_mem_tail_reach {y : ScopeId} (h : y ∈ (t.reach n (id :: outer)).tail) : y ∈ outer := by
  rw [reach, List.tail_cons] at h
  split at h
  · cases h
  · exact mem_of_mem_reach h

/-- A walk that does not stop at a scope goes on to the scope around it. -/
theorem IsPath.mem_tail_reach (h : t.IsPath path) {y z : ScopeId} {rest : List ScopeId} (hy : y ∈ t.reach n path)
    (hs : ¬(t.get y).Settles n) (hz : (t.get y).outer = z :: rest) : z ∈ (t.reach n path).tail := by
  induction h with
  | nil => cases hy
  | @cons id outer _ hout _ _ ih =>
    by_cases hsid : (t.get id).Settles n
    · rw [reach_of_settles hsid, List.mem_singleton] at hy
      exact absurd (hy ▸ hsid) hs
    · rw [reach_of_not_settles hsid] at hy ⊢
      rcases List.mem_cons.mp hy with rfl | hy
      · rw [← hout, hz, List.tail_cons, reach]
        exact List.mem_cons_self
      · exact List.mem_of_mem_tail (ih hy)

theorem mem_reach_iff {y : ScopeId} :
    y ∈ t.reach n path ↔ y ∈ path ∧ ∀ x ∈ path.takeWhile (· ≠ y), ¬(t.get x).Settles n := by
  induction path with
  | nil => simp [reach]
  | cons id outer ih =>
    by_cases hid : id = y
    · simp [reach, hid]
    · have hyid : y ≠ id := Ne.symm hid
      by_cases hs : (t.get id).Settles n
      · simp [reach_of_settles hs, hid, hyid, hs]
      · simp [reach_of_not_settles hs, hid, hyid, hs, ih]

/-- The scopes further out that a walk for a name looks at. -/
theorem IsPath.mem_tail_reach_iff (h : t.IsPath (id :: outer)) {y : ScopeId} :
    y ∈ (t.reach n (id :: outer)).tail ↔
      y ∈ outer ∧ ∀ x ∈ (id :: outer).takeWhile (· ≠ y), ¬(t.get x).Settles n := by
  obtain ⟨-, -, hnot, -⟩ := h.cons_inv
  constructor
  · intro hy
    exact ⟨mem_of_mem_tail_reach hy, (mem_reach_iff.mp (List.mem_of_mem_tail hy)).2⟩
  · rintro ⟨hy, hall⟩
    have hmem : y ∈ t.reach n (id :: outer) := mem_reach_iff.mpr ⟨List.mem_cons_of_mem _ hy, hall⟩
    rw [reach] at hmem ⊢
    rcases List.mem_cons.mp hmem with rfl | hmem
    · exact absurd hy hnot
    · exact hmem

/-- A name is found bound at a scope exactly when the walk reaches the scope and the scope binds it. -/
theorem lookup_eq_bound_iff {y : ScopeId} :
    t.lookup n path = .bound y ↔ y ∈ t.reach n path ∧ n ∈ (t.get y).locals ∧ n ∉ (t.get y).globals := by
  induction path with
  | nil => simp [lookup, reach]
  | cons id outer ih =>
    by_cases hg : n ∈ (t.get id).globals
    · rw [reach_of_settles (.inl hg), lookup, if_pos hg, List.mem_singleton]
      refine ⟨fun h => (nomatch h), ?_⟩
      rintro ⟨rfl, -, hng⟩
      exact absurd hg hng
    · by_cases hl : n ∈ (t.get id).locals
      · rw [reach_of_settles (.inr hl), lookup, if_neg hg, if_pos hl, List.mem_singleton]
        constructor
        · intro h
          cases h
          exact ⟨rfl, hl, hg⟩
        · rintro ⟨rfl, -⟩
          rfl
      · have hs : ¬(t.get id).Settles n := fun h => h.elim hg hl
        rw [reach_of_not_settles hs, lookup_of_not_settles hs, ih]
        constructor
        · rintro ⟨hy, h⟩
          exact ⟨List.mem_cons_of_mem _ hy, h⟩
        · rintro ⟨hy, hyl, hyg⟩
          rcases List.mem_cons.mp hy with rfl | hy
          · exact absurd hyl hl
          · exact ⟨hy, hyl, hyg⟩

end

end Scopes

/-! ### Which scopes have been asked -/

/-- The scopes that have been asked about a name, and those that a scope inside has asked. -/
structure Asking where
  asked : ScopeId → Bool
  needed : ScopeId → Bool

/-- How a scope stores a name that is found at a place. -/
def Place.storage (place : Place) (id : ScopeId) (needed : Bool) : Storage :=
  match place with
  | .global => .global
  | .bound b => if b = id then if needed then .cell else .localName else .free

theorem Place.storage_eq_global_iff {place : Place} {id : ScopeId} {needed : Bool} :
    place.storage id needed = .global ↔ place = .global := by
  cases place with
  | global => simp [Place.storage]
  | bound b => cases needed <;> by_cases h : b = id <;> simp [Place.storage, h]

theorem Place.storage_eq_local_iff {place : Place} {id : ScopeId} {needed : Bool} :
    place.storage id needed = .localName ↔ place = .bound id ∧ needed = false := by
  cases place with
  | global => simp [Place.storage]
  | bound b => cases needed <;> by_cases h : b = id <;> simp [Place.storage, h]

/-- Whether a name is needed inside matters only to the scope that binds it. -/
theorem Place.storage_congr {place : Place} {id : ScopeId} {x y : Bool} (h : place = .bound id → x = y) :
    place.storage id x = place.storage id y := by
  cases place with
  | global => rfl
  | bound b =>
    by_cases hb : b = id
    · rw [h (by rw [hb])]
    · simp [Place.storage, hb]

namespace Asking

/-- What a scope has to have written down about a name. -/
def storage (a : Asking) (t : Scopes) (n : String) (id : ScopeId) : Option Storage :=
  if a.asked id then some ((t.lookup n (t.path id)).storage id (a.needed id)) else none

/-- Who has been asked after one more walk; `inside` says whether it began at a scope inside. -/
def after (a : Asking) (walk : List ScopeId) (inside : Bool) : Asking where
  asked id := a.asked id || decide (id ∈ walk)
  needed id := a.needed id || decide (id ∈ if inside then walk else walk.tail)

theorem storage_after_of_not_mem {a : Asking} {t : Scopes} {n : String} {y : ScopeId} {walk : List ScopeId} {inside : Bool}
    (h : y ∉ walk) : (a.after walk inside).storage t n y = a.storage t n y := by
  have htail : y ∉ walk.tail := fun ht => h (List.mem_of_mem_tail ht)
  cases inside <;> simp [storage, after, h, htail]

/-- A scope that was asked and does not settle the name has asked the scope around it. -/
def Closed (a : Asking) (t : Scopes) (n : String) : Prop :=
  ∀ {y z : ScopeId} {rest : List ScopeId}, a.asked y = true → ¬(t.get y).Settles n →
    (t.get y).outer = z :: rest → a.asked z = true ∧ a.needed z = true

variable {a : Asking} {t : Scopes} {n : String} {id : ScopeId} {path outer : List ScopeId}

/-- Where a scope has been asked before, another walk from it meets only scopes that know already. -/
theorem Closed.reach (hc : a.Closed t n) (hp : t.IsPath path) :
    (∀ id ∈ path.head?, a.asked id = true) →
      (∀ y ∈ t.reach n path, a.asked y = true) ∧ ∀ y ∈ (t.reach n path).tail, a.needed y = true := by
  induction hp with
  | nil => exact fun _ => ⟨fun y hy => (nomatch hy), fun y hy => (nomatch hy)⟩
  | @cons id outer _ hout _ hp ih =>
    intro hask
    have hid : a.asked id = true := hask id rfl
    by_cases hs : (t.get id).Settles n
    · rw [Scopes.reach_of_settles hs]
      exact ⟨fun y hy => List.mem_singleton.mp hy ▸ hid, fun y hy => (nomatch hy)⟩
    · cases outer with
      | nil => exact ⟨fun y hy => by simp_all [Scopes.reach], fun y hy => by simp_all [Scopes.reach]⟩
      | cons p outer =>
        obtain ⟨hpa, hpn⟩ := hc hid hs hout
        obtain ⟨h1, h2⟩ := ih fun y hy => by cases hy; exact hpa
        rw [Scopes.reach_of_not_settles hs]
        refine ⟨fun y hy => ?_, fun y hy => ?_⟩
        · rcases List.mem_cons.mp hy with rfl | hy
          · exact hid
          · exact h1 y hy
        · rw [List.tail_cons, Scopes.reach] at hy
          rcases List.mem_cons.mp hy with rfl | hy
          · exact hpn
          · exact h2 y (by rw [Scopes.reach, List.tail_cons]; exact hy)

end Asking

/-! ### One question and what it leaves behind -/

namespace Scopes

/-- The scopes of a table without what is known about how names are stored. -/
def outline (t : Scopes) : List Scope := t.scopes.map Scope.outline

section
variable {t u : Scopes}

theorem outline_get (h : u.outline = t.outline) (id : ScopeId) : (u.get id).outline = (t.get id).outline := by
  have hget : u.scopes[id.index]?.map Scope.outline = t.scopes[id.index]?.map Scope.outline := by
    rw [← List.getElem?_map, ← List.getElem?_map]
    exact congrArg (·[id.index]?) h
  unfold get get?
  cases hu : u.scopes[id.index]? <;> cases ht : t.scopes[id.index]? <;> simp_all

theorem size_of_outline (h : u.outline = t.outline) : u.size = t.size := by
  simpa [outline, size] using congrArg List.length h

theorem path_of_outline (h : u.outline = t.outline) (id : ScopeId) : u.path id = t.path id := by
  rw [path, path, (Scope.eq_of_outline (outline_get h id)).2.1]

theorem lookup_of_outline (h : u.outline = t.outline) (n : String) (path : List ScopeId) :
    u.lookup n path = t.lookup n path := by
  induction path with
  | nil => rfl
  | cons id outer ih =>
    obtain ⟨-, -, hlocals, hglobals, -⟩ := Scope.eq_of_outline (outline_get h id)
    rw [lookup, lookup, hlocals, hglobals, ih]

theorem settles_of_outline (h : u.outline = t.outline) (n : String) (id : ScopeId) :
    (u.get id).Settles n ↔ (t.get id).Settles n := by
  obtain ⟨-, -, hlocals, hglobals, -⟩ := Scope.eq_of_outline (outline_get h id)
  rw [Scope.Settles, Scope.Settles, hlocals, hglobals]

/-- A table with the outline of a tree finds its scopes under their numbers. -/
theorem get_of_outline (h : u.outline = t.outline) (ht : t.Tree) {s : Scope} (hs : s ∈ u.scopes) :
    s.id.index < t.size ∧ u.get s.id = s := by
  obtain ⟨i, hi, rfl⟩ := List.mem_iff_getElem.mp hs
  have hi' : i < t.size := by rw [← size_of_outline h]; exact hi
  have hget : u.get ⟨i⟩ = u.scopes[i] := by simp [get, get?, hi]
  have hid : (u.scopes[i]).id = ⟨i⟩ := by
    rw [← hget, (Scope.eq_of_outline (outline_get h ⟨i⟩)).1]
    exact ht.id_get hi'
  exact ⟨by rw [hid]; exact hi', by rw [hid]; exact hget⟩

theorem outline_modify {f : Scope → Scope} (hf : ∀ s, (f s).outline = s.outline) (id : ScopeId) :
    (t.modify id f).outline = t.outline := by
  apply List.ext_getElem?
  intro i
  simp only [outline, modify, List.getElem?_map, List.getElem?_modify]
  cases t.scopes[i]? with
  | none => rfl
  | some s =>
    split
    · exact congrArg some (hf s)
    · rfl

end

end Scopes

namespace Findings

/-- What a question about a name that went along a path leaves behind: the scopes of the path know what
    they have to know, and everything else is as it was. -/
structure Answered (t : Scopes) (n : String) (path : List ScopeId) (inside : Bool) (a : Asking) (k : Findings)
    (r : Storage × Findings) : Prop where
  outline : r.2.table.outline = t.outline
  stores : ∀ y ∈ path, (r.2.table.get y).Stores n ((a.after (t.reach n path) inside).storage t n y)
  frame : ∀ {y : ScopeId}, y ∉ path → r.2.table.get y = k.table.get y
  others : ∀ {y : ScopeId} {m : String} {c : Option Storage}, m ≠ n →
    (k.table.get y).Stores m c → (r.2.table.get y).Stores m c
  global_iff : r.1 = .global ↔ t.lookup n path = .global

section
variable {t : Scopes} {n : String} {id : ScopeId} {outer : List ScopeId} {inside : Bool} {a : Asking} {k : Findings}

theorem Answered.of_table {path : List ScopeId} {k' : Findings} {r : Storage × Findings} (h : k'.table = k.table)
    (hr : Answered t n path inside a k' r) : Answered t n path inside a k r :=
  ⟨hr.outline, hr.stores, fun hy => h ▸ hr.frame hy, fun hm hy => hr.others hm (h ▸ hy), hr.global_iff⟩

/-- A note in one scope of the path, with nothing else to do. -/
theorem Answered.put (hk : k.table.outline = t.outline) (hid : id.index < t.size) (hnot : id ∉ outer)
    (hpre : ∀ y ∈ outer, (k.table.get y).Stores n (a.storage t n y))
    (hkeep : ∀ y ∈ outer, (a.after (t.reach n (id :: outer)) inside).storage t n y = a.storage t n y)
    {f : Scope → Scope} (hf : Scope.Notes n f) {c : Storage}
    (hself : (f (k.table.get id)).Stores n ((a.after (t.reach n (id :: outer)) inside).storage t n id))
    (hc : c = .global ↔ t.lookup n (id :: outer) = .global) :
    Answered t n (id :: outer) inside a k (c, k.put id f) := by
  have hid' : id.index < k.table.size := by rwa [Scopes.size_of_outline hk]
  refine ⟨?_, fun y hy => ?_, fun {y} hy => ?_, fun hm h => stores_put hf hid' hm h, hc⟩
  · exact (Scopes.outline_modify hf.outline id).trans hk
  · rcases List.mem_cons.mp hy with rfl | hy
    · rw [get_put_self hid']
      exact hself
    · have hne : y ≠ id := fun h => hnot (h ▸ hy)
      rw [get_put_of_ne hne, hkeep y hy]
      exact hpre y hy
  · have hne : y ≠ id := fun h => hy (h ▸ List.mem_cons_self)
    exact get_put_of_ne hne f

/-- Nothing is left to do when the first scope has been asked before and need not become a cell. -/
theorem Answered.same (hk : k.table.outline = t.outline) (hp : t.IsPath (id :: outer)) (hclosed : a.Closed t n)
    (hasked : a.asked id = true) (hpre : ∀ y ∈ id :: outer, (k.table.get y).Stores n (a.storage t n y))
    (hdone : t.lookup n (id :: outer) = .bound id → inside = true → a.needed id = true) :
    Answered t n (id :: outer) inside a k ((t.lookup n (id :: outer)).storage id (a.needed id), k) := by
  have hpath : t.path id = id :: outer := by
    cases hp with
    | cons _ hout _ _ => rw [Scopes.path, hout]
  obtain ⟨hall, hneeded⟩ := hclosed.reach hp fun y hy => by cases hy; exact hasked
  have hkeep : ∀ y ∈ id :: outer, (a.after (t.reach n (id :: outer)) inside).storage t n y = a.storage t n y := by
    intro y hy
    have hask : (a.after (t.reach n (id :: outer)) inside).asked y = a.asked y := by
      by_cases hr : y ∈ t.reach n (id :: outer)
      · simp [Asking.after, hr, hall y hr]
      · simp [Asking.after, hr]
    rw [Asking.storage, Asking.storage, hask]
    congr 2
    refine Place.storage_congr fun hbound => ?_
    cases hn : a.needed y with
    | true => simp [Asking.after, hn]
    | false =>
      -- A scope that nobody inside had asked is not in the rest of the walk, which has been asked.
      have htail : y ∉ (t.reach n (id :: outer)).tail := fun h => by simp [hneeded y h] at hn
      have hhead : inside = true → y ∉ t.reach n (id :: outer) := by
        rintro hin hmem
        rw [Scopes.reach, List.mem_cons] at hmem
        rcases hmem with rfl | hmem
        · rw [hpath] at hbound
          simp [hdone hbound hin] at hn
        · exact htail (by rw [Scopes.reach, List.tail_cons]; exact hmem)
      cases inside with
      | true => simp [Asking.after, hn, hhead rfl]
      | false => simp [Asking.after, hn, htail]
  refine ⟨hk, fun y hy => ?_, fun _ => rfl, fun _ h => h, Place.storage_eq_global_iff⟩
  rw [hkeep y hy]
  exact hpre y hy

/-- A scope that is asked for the first time and settles the name notes what the name is. -/
theorem Answered.settled (hk : k.table.outline = t.outline) (hp : t.IsPath (id :: outer)) (hs : (t.get id).Settles n)
    (hasked : a.asked id = false) (hneeded : a.needed id = false)
    (hpre : ∀ y ∈ id :: outer, (k.table.get y).Stores n (a.storage t n y)) (known : List String) (origin : ScopeId) :
    Answered t n (id :: outer) inside a k (resolve known n origin (id :: outer) inside k) := by
  obtain ⟨hid, hout, hnot, -⟩ := hp.cons_inv
  have hself : (k.table.get id).Stores n none := by
    have := hpre id List.mem_cons_self
    rwa [Asking.storage, hasked] at this
  have hcells : n ∉ (k.table.get id).cells := by simpa using hself.cell_iff
  obtain ⟨-, -, hlocals, hglobals, -⟩ := Scope.eq_of_outline (Scopes.outline_get hk id)
  have hreach : t.reach n (id :: outer) = [id] := Scopes.reach_of_settles hs
  have hstorage : (a.after (t.reach n (id :: outer)) inside).storage t n id =
      some ((t.lookup n (id :: outer)).storage id inside) := by
    rw [hreach, Asking.storage, Scopes.path, hout]
    cases inside <;> simp [Asking.after, hneeded]
  have hput : ∀ {f : Scope → Scope} {c : Storage}, Scope.Notes n f → (f (k.table.get id)).Stores n (some c) →
      c = (t.lookup n (id :: outer)).storage id inside → Answered t n (id :: outer) inside a k (c, k.put id f) := by
    intro f c hf hst hc
    refine .put hk hid hnot (fun y hy => hpre y (List.mem_cons_of_mem _ hy)) (fun y hy => ?_) hf ?_ ?_
    · rw [hreach]
      exact Asking.storage_after_of_not_mem fun h => hnot (List.mem_singleton.mp h ▸ hy)
    · rw [hstorage, ← hc]
      exact hst
    · rw [hc]
      exact Place.storage_eq_global_iff
  rw [resolve_of_none _ _ _ _ _ _ _ hself.class_eq hcells, hglobals, hlocals]
  by_cases hg : n ∈ (t.get id).globals
  · rw [if_pos hg]
    exact hput (.record n .global) hself.record_global (by simp [Scopes.lookup, hg, Place.storage])
  · have hl : n ∈ (t.get id).locals := hs.resolve_left hg
    rw [if_neg hg, if_pos hl]
    cases inside with
    | true => exact hput (.cell n) (hself.record_cell (by simp)) (by simp [Scopes.lookup, hg, hl, Place.storage])
    | false => exact hput (.record n .localName) hself.record_local (by simp [Scopes.lookup, hg, hl, Place.storage])

/-- A scope that is asked for the first time and does not settle the name asks the scope around it. -/
theorem Answered.passed (hk : k.table.outline = t.outline) (hp : t.IsPath (id :: outer)) (hs : ¬(t.get id).Settles n)
    (hasked : a.asked id = false) (hpre : ∀ y ∈ id :: outer, (k.table.get y).Stores n (a.storage t n y))
    (known : List String) (origin : ScopeId)
    (ih : ∀ k' : Findings, k'.table.outline = t.outline → (∀ y ∈ outer, (k'.table.get y).Stores n (a.storage t n y)) →
      Answered t n outer true a k' (resolve known n origin outer true k')) :
    Answered t n (id :: outer) inside a k (resolve known n origin (id :: outer) inside k) := by
  obtain ⟨hid, hout, hnot, -⟩ := hp.cons_inv
  have hself : (k.table.get id).Stores n none := by
    have := hpre id List.mem_cons_self
    rwa [Asking.storage, hasked] at this
  have hcells : n ∉ (k.table.get id).cells := by simpa using hself.cell_iff
  have hid' : id.index < k.table.size := by rwa [Scopes.size_of_outline hk]
  obtain ⟨-, -, hlocals, hglobals, -⟩ := Scope.eq_of_outline (Scopes.outline_get hk id)
  have hlookup : t.lookup n (id :: outer) = t.lookup n outer := Scopes.lookup_of_not_settles hs
  have hreach : t.reach n (id :: outer) = id :: t.reach n outer := Scopes.reach_of_not_settles hs
  have hne : ∀ {y : ScopeId}, y ∈ outer → y ≠ id := fun hy h => hnot (h ▸ hy)
  -- The scopes of the rest of the path learn the same from this walk and from the walk that starts there.
  have hrest : ∀ y ∈ outer, (a.after (t.reach n (id :: outer)) inside).storage t n y =
      (a.after (t.reach n outer) true).storage t n y := by
    intro y hy
    rw [hreach]
    cases inside <;> simp [Asking.storage, Asking.after, hne hy]
  have hfirst : (a.after (t.reach n (id :: outer)) inside).storage t n id =
      some (if t.lookup n outer = .global then .global else .free) := by
    rw [Asking.storage, Scopes.path, hout, hreach, if_pos (by simp [Asking.after])]
    rw [hlookup]
    cases hplace : t.lookup n outer with
    | global => rfl
    | bound b =>
      have hb : b ≠ id := fun h => hnot (h ▸ Scopes.mem_of_mem_reach (Scopes.lookup_eq_bound_iff.mp hplace).1)
      simp [Place.storage, hb]
  rw [resolve_of_none _ _ _ _ _ _ _ hself.class_eq hcells, hglobals, hlocals, if_neg fun h => hs (.inl h),
    if_neg fun h => hs (.inr h)]
  split
  · next hnil =>
    subst hnil
    obtain ⟨hglobal, htable⟩ := resolve_nil known n origin true k
    rcases hr : resolve known n origin [] true k with ⟨c, k'⟩
    rw [hr] at hglobal htable
    obtain rfl : c = .global := hglobal
    refine Answered.of_table htable (.put (htable ▸ hk) hid hnot (fun y hy => nomatch hy) (fun y hy => nomatch hy)
      (.record n .global) ?_ ?_)
    · rw [hfirst, show k'.table = k.table from htable]
      exact hself.record_global
    · rw [hlookup, Scopes.lookup]
      simp
  · -- The scope notes the name as free, and corrects this if the name turns out to be global.
    have hk₁ : (k.put id fun s => (s.addFree n).record n .free).table.outline = t.outline :=
      (Scopes.outline_modify (Scope.Notes.free n).outline id).trans hk
    have h := ih (k.put id fun s => (s.addFree n).record n .free) hk₁ fun y hy => by
      rw [get_put_of_ne (hne hy)]
      exact hpre y (List.mem_cons_of_mem _ hy)
    rcases hr : resolve known n origin outer true (k.put id fun s => (s.addFree n).record n .free) with ⟨c, k₂⟩
    rw [hr] at h
    have hfree : (k₂.table.get id).Stores n (some .free) := by
      rw [show k₂.table.get id = _ from h.frame hnot, get_put_self hid']
      exact hself.record_free
    have hid₂ : id.index < k₂.table.size := by rwa [Scopes.size_of_outline h.outline]
    have hput : ∀ {g : Scope → Scope} {c' : Storage}, Scope.Notes n g →
        (g (k₂.table.get id)).Stores n (some (if t.lookup n outer = .global then .global else .free)) →
        (c' = .global ↔ t.lookup n outer = .global) →
        Answered t n (id :: outer) inside a k (c', k₂.put id g) := by
      intro g c' hg hst hc'
      refine ⟨(Scopes.outline_modify hg.outline id).trans h.outline, fun y hy => ?_, fun {y} hy => ?_,
        fun hm hy => stores_put hg hid₂ hm (h.others hm (stores_put (.free n) hid' hm hy)), by rw [hlookup]; exact hc'⟩
      · rcases List.mem_cons.mp hy with rfl | hy
        · rw [get_put_self hid₂, hfirst]
          exact hst
        · rw [get_put_of_ne (hne hy), hrest y hy]
          exact h.stores y hy
      · have hyid : y ≠ id := fun he => hy (he ▸ List.mem_cons_self)
        rw [get_put_of_ne hyid, show k₂.table.get y = _ from h.frame fun he => hy (List.mem_cons_of_mem _ he),
          get_put_of_ne hyid]
    by_cases hc : c = .global
    · have hplace : t.lookup n outer = .global := h.global_iff.mp hc
      dsimp only
      rw [if_pos hc]
      refine hput (.noLongerFree n) ?_ ?_
      · rw [if_pos hplace]
        exact hfree.drop_free
      · simp [hplace]
    · have hplace : t.lookup n outer ≠ .global := fun hp => hc (h.global_iff.mpr hp)
      dsimp only
      rw [if_neg hc]
      refine hput (.record n .free) ?_ ?_
      · rw [if_neg hplace]
        exact hfree.record_free_again
      · simp [hplace]

/-- A question leaves behind what it should, whatever has been asked before. -/
theorem answered_resolve {path : List ScopeId} (known : List String) (origin : ScopeId) (hp : t.IsPath path)
    (inside : Bool) (k : Findings) (hk : k.table.outline = t.outline) (hclosed : a.Closed t n)
    (hsub : ∀ y, a.needed y = true → a.asked y = true)
    (hpre : ∀ y ∈ path, (k.table.get y).Stores n (a.storage t n y)) :
    Answered t n path inside a k (resolve known n origin path inside k) := by
  induction hp generalizing inside k with
  | nil =>
    obtain ⟨hglobal, htable⟩ := resolve_nil known n origin inside k
    refine ⟨htable ▸ hk, fun y hy => (nomatch hy), fun _ => by rw [htable], fun _ h => by rwa [htable], ?_⟩
    simp [hglobal, Scopes.lookup]
  | @cons id outer hid hout hnot hp ih =>
    have hpath : t.IsPath (id :: outer) := .cons hid hout hnot hp
    cases hasked : a.asked id with
    | true =>
      have hself := hpre id List.mem_cons_self
      rw [Asking.storage, hasked, if_pos rfl, Scopes.path, hout] at hself
      rw [resolve_of_class _ _ _ _ _ _ _ hself.class_eq]
      split
      · next hlocal =>
        obtain ⟨hlocal, rfl⟩ := hlocal
        obtain ⟨hbound, hneeded⟩ := Place.storage_eq_local_iff.mp hlocal
        obtain ⟨-, hl, -⟩ := Scopes.lookup_eq_bound_iff.mp hbound
        have hreach : t.reach n (id :: outer) = [id] := Scopes.reach_of_settles (.inr hl)
        refine .put hk hid hnot (fun y hy => hpre y (List.mem_cons_of_mem _ hy)) (fun y hy => ?_) (.cell n) ?_ ?_
        · rw [hreach]
          exact Asking.storage_after_of_not_mem fun h => hnot (List.mem_singleton.mp h ▸ hy)
        · rw [hlocal] at hself
          have hcell := hself.record_cell (by simp)
          rwa [Asking.storage, Scopes.path, hout, hreach, hbound, if_pos (by simp [Asking.after]),
            show Place.storage (.bound id) id _ = Storage.cell by simp [Place.storage, Asking.after]]
        · simp [hbound]
      · next hlocal =>
        refine .same hk hpath hclosed hasked hpre fun hbound hin => ?_
        cases hn : a.needed id with
        | true => rfl
        | false => exact absurd ⟨by simp [hbound, Place.storage, hn], hin⟩ hlocal
    | false =>
      by_cases hs : (t.get id).Settles n
      · refine .settled hk hpath hs hasked ?_ hpre known origin
        cases hn : a.needed id with
        | true => rw [hsub id hn] at hasked; cases hasked
        | false => rfl
      · exact .passed hk hpath hs hasked hpre known origin fun k' hk' hpre' => ih true k' hk' hpre'

end

/-! ### All questions -/

/-- Who has been asked about a name by the questions so far, each put by a scope about a name. -/
def asking (t : Scopes) (questions : List (ScopeId × String)) (n : String) : Asking where
  asked y := questions.any fun q => q.2 = n ∧ y ∈ t.reach n (t.path q.1)
  needed y := questions.any fun q => q.2 = n ∧ y ∈ (t.reach n (t.path q.1)).tail

/-- The scopes of a tree know what the questions so far have been about. -/
structure Known (t : Scopes) (questions : List (ScopeId × String)) (k : Findings) : Prop where
  outline : k.table.outline = t.outline
  valid : ∀ q ∈ questions, q.1.index < t.size
  stores : ∀ (y : ScopeId) (n : String), y.index < t.size →
    (k.table.get y).Stores n ((asking t questions n).storage t n y)

section
variable {t : Scopes} {questions : List (ScopeId × String)} {k : Findings} {n : String}

theorem asking_append_self (d : ScopeId) : asking t (questions ++ [(d, n)]) n =
    (asking t questions n).after (t.reach n (t.path d)) false := by
  simp [asking, Asking.after]

theorem asking_append_of_ne {m : String} (d : ScopeId) (h : m ≠ n) :
    asking t (questions ++ [(d, m)]) n = asking t questions n := by
  simp [asking, h]

theorem closed_asking (ht : t.Tree) (hq : ∀ q ∈ questions, q.1.index < t.size) :
    (asking t questions n).Closed t n := by
  intro y z rest hy hs hz
  simp only [asking, List.any_eq_true, decide_eq_true_eq] at hy ⊢
  obtain ⟨q, hmem, hn, hy⟩ := hy
  have htail := (ht.isPath q.1.index (hq q hmem)).1.mem_tail_reach hy hs hz
  exact ⟨⟨q, hmem, hn, List.mem_of_mem_tail htail⟩, ⟨q, hmem, hn, htail⟩⟩

theorem asked_of_needed {y : ScopeId} (h : (asking t questions n).needed y = true) :
    (asking t questions n).asked y = true := by
  simp only [asking, List.any_eq_true, decide_eq_true_eq] at h ⊢
  obtain ⟨q, hmem, hn, hy⟩ := h
  exact ⟨q, hmem, hn, List.mem_of_mem_tail hy⟩

/-- One more question adds itself to what is known. -/
theorem Known.resolve (ht : t.Tree) (h : Known t questions k) (known : List String) {d : ScopeId}
    (hd : d.index < t.size) (m : String) :
    Known t (questions ++ [(d, m)]) (Findings.resolve known m d (t.path d) false k).2 := by
  have hp : t.IsPath (t.path d) := (ht.isPath d.index hd).1
  have hlt : ∀ y ∈ t.path d, y.index < t.size := by
    intro y hy
    rcases List.mem_cons.mp hy with rfl | hy
    · exact hd
    · exact Nat.lt_trans ((ht.isPath d.index hd).2 y hy) hd
  have hr := answered_resolve known d hp false k h.outline (closed_asking ht h.valid) (fun _ => asked_of_needed)
    fun y hy => h.stores y m (hlt y hy)
  refine ⟨hr.outline, fun q hq => ?_, fun y n hy => ?_⟩
  · rcases List.mem_append.mp hq with hq | hq
    · exact h.valid q hq
    · rw [List.mem_singleton.mp hq]
      exact hd
  · by_cases hn : m = n
    · subst hn
      rw [asking_append_self]
      by_cases hmem : y ∈ t.path d
      · exact hr.stores y hmem
      · rw [hr.frame hmem, Asking.storage_after_of_not_mem fun hw => hmem (Scopes.mem_of_mem_reach hw)]
        exact h.stores y m hy
    · rw [asking_append_of_ne d hn]
      exact hr.others (Ne.symm hn) (h.stores y n hy)

/-- The questions of one scope. -/
def questionsOf (t : Scopes) (id : ScopeId) : List (ScopeId × String) :=
  ((t.get id).uses.map (·.1) ++ (t.get id).globals ++ (t.get id).locals).map (id, ·)

/-- All questions in the order in which they are put, those of the last scope first. -/
def allQuestions (t : Scopes) : List (ScopeId × String) :=
  ((List.range t.size).reverse.map ScopeId.mk).flatMap (questionsOf t)

section
variable {known : List String} {P : List (ScopeId × String) → Findings → Prop}

/-- What each question keeps is kept by the questions of one scope. -/
theorem scope_induction (ht : t.Tree) (hstep : ∀ {questions k d} (m : String), Known t questions k → d.index < t.size →
      P questions k → P (questions ++ [(d, m)]) (Findings.resolve known m d (t.path d) false k).2)
    (h : Known t questions k) (hP : P questions k) {d : ScopeId} (hd : d.index < t.size) :
    Known t (questions ++ questionsOf t d) (Findings.scope known d k).2 ∧
      P (questions ++ questionsOf t d) (Findings.scope known d k).2 := by
  obtain ⟨-, houter, hlocals, hglobals, huses⟩ := Scope.eq_of_outline (Scopes.outline_get h.outline d)
  have hall : ∀ (names : List String) (questions : List (ScopeId × String)) (k : Findings), Known t questions k →
      P questions k →
      let k' := (names.forM (fun n => do let _ ← Findings.resolve known n d (t.path d) false) k).2
      Known t (questions ++ names.map (d, ·)) k' ∧ P (questions ++ names.map (d, ·)) k' := by
    intro names
    induction names with
    | nil => exact fun questions k h hP => by rw [List.map_nil, List.append_nil]; exact ⟨h, hP⟩
    | cons n names ih =>
      intro questions k h hP
      have := ih _ _ (h.resolve ht known hd n) (hstep n h hd hP)
      rwa [List.append_assoc] at this
  have := hall ((t.get d).uses.map (·.1) ++ (t.get d).globals ++ (t.get d).locals) _ k h hP
  rw [← huses, ← hglobals, ← hlocals] at this
  unfold Scopes.path at this
  rw [← houter] at this
  rw [questionsOf, ← huses, ← hglobals, ← hlocals]
  exact this

end

/-- Before the first question nothing is known about any name. -/
theorem known_nil (ht : t.Tree) : Known t [] { table := t } where
  outline := rfl
  valid q hq := nomatch hq
  stores y n hy := by
    obtain ⟨h1, h2, h3⟩ := ht.fresh _ (Scopes.get_mem hy)
    have hnone : (asking t [] n).storage t n y = none := rfl
    rw [hnone]
    exact ⟨by simp [Scope.class?, h3], by simp [h1], by simp [h2], by simp [h1]⟩

/-- What holds before the first question and is kept by each of them holds when all have been put. -/
theorem run_induction (ht : t.Tree) {known : List String} {P : List (ScopeId × String) → Findings → Prop}
    (hnil : P [] { table := t })
    (hstep : ∀ {questions k d} (m : String), Known t questions k → d.index < t.size → P questions k →
      P (questions ++ [(d, m)]) (Findings.resolve known m d (t.path d) false k).2) :
    Known t (allQuestions t) (run known t) ∧ P (allQuestions t) (run known t) := by
  have hall : ∀ (ids : List ScopeId) (questions : List (ScopeId × String)) (k : Findings),
      (∀ d ∈ ids, d.index < t.size) → Known t questions k → P questions k →
      let k' := (ids.forM (Findings.scope known) k).2
      Known t (questions ++ ids.flatMap (questionsOf t)) k' ∧ P (questions ++ ids.flatMap (questionsOf t)) k' := by
    intro ids
    induction ids with
    | nil => exact fun questions k _ h hP => by rw [List.flatMap_nil, List.append_nil]; exact ⟨h, hP⟩
    | cons d ids ih =>
      intro questions k hlt h hP
      obtain ⟨h₁, hP₁⟩ := scope_induction ht hstep h hP (hlt d List.mem_cons_self)
      have := ih _ _ (fun y hy => hlt y (List.mem_cons_of_mem _ hy)) h₁ hP₁
      rwa [List.append_assoc] at this
  refine hall ((List.range t.size).reverse.map ScopeId.mk) [] { table := t } ?_ (known_nil ht) hnil
  simp

theorem mem_allQuestions {d : ScopeId} {n : String} : (d, n) ∈ allQuestions t ↔ d.index < t.size ∧
    (n ∈ (t.get d).uses.map (·.1) ∨ n ∈ (t.get d).globals ∨ n ∈ (t.get d).locals) := by
  simp only [allQuestions, List.mem_flatMap, questionsOf, List.mem_map, Prod.mk.injEq, List.mem_append,
    List.mem_reverse, List.mem_range]
  constructor
  · rintro ⟨_, ⟨i, hi, rfl⟩, m, hm, rfl, rfl⟩
    exact ⟨hi, or_assoc.mp hm⟩
  · rintro ⟨hd, hn⟩
    exact ⟨d, ⟨d.index, hd, rfl⟩, n, or_assoc.mpr hn, rfl, rfl⟩

theorem known_run (ht : t.Tree) (known : List String) :
    ∃ questions, Known t questions (run known t) ∧
      ∀ d n, (d, n) ∈ questions ↔ d.index < t.size ∧
        (n ∈ (t.get d).uses.map (·.1) ∨ n ∈ (t.get d).globals ∨ n ∈ (t.get d).locals) :=
  ⟨allQuestions t, (run_induction (P := fun _ _ => True) ht trivial fun _ _ _ _ => trivial).1, fun _ _ => mem_allQuestions⟩

end

end Findings

/-! ### The result -/

/-- Scope `d` stands inside scope `id`, reads a name, and no scope from `d` outwards settles the name
    before `id` is reached. -/
def Scopes.Needs (t : Scopes) (n : String) (d id : ScopeId) : Prop :=
  id ∈ (t.get d).outer ∧ n ∈ (t.get d).uses.map (·.1) ∧ ∀ x ∈ (t.path d).takeWhile (· ≠ id), ¬(t.get x).Settles n

/-- Scope `d` stands inside scope `id`, reads a name, and finds it bound there. -/
def Scopes.Captures (t : Scopes) (n : String) (d id : ScopeId) : Prop :=
  id ∈ (t.get d).outer ∧ n ∈ (t.get d).uses.map (·.1) ∧ t.lookup n (t.path d) = .bound id

section
variable {t : Scopes} {questions : List (ScopeId × String)} {n : String}

theorem Scopes.needs_of_outline {u : Scopes} (h : u.outline = t.outline) (n : String) (d id : ScopeId) :
    u.Needs n d id ↔ t.Needs n d id := by
  obtain ⟨-, houter, -, -, huses⟩ := Scope.eq_of_outline (Scopes.outline_get h d)
  simp only [Scopes.Needs, houter, huses, Scopes.path_of_outline h, Scopes.settles_of_outline h]

theorem Scopes.captures_of_outline {u : Scopes} (h : u.outline = t.outline) (n : String) (d id : ScopeId) :
    u.Captures n d id ↔ t.Captures n d id := by
  obtain ⟨-, houter, -, -, huses⟩ := Scope.eq_of_outline (Scopes.outline_get h d)
  simp only [Scopes.Captures, houter, huses, Scopes.path_of_outline h, Scopes.lookup_of_outline h]

/-- Where a name is found bound at a scope, needing it from there and finding it there are the same. -/
theorem Scopes.captures_iff_needs {d id : ScopeId} (h : t.lookup n (t.path id) = .bound id) :
    t.Captures n d id ↔ t.Needs n d id := by
  obtain ⟨-, hl, hg⟩ := Scopes.lookup_eq_bound_iff.mp h
  refine and_congr_right fun hmem => and_congr_right fun _ => ?_
  rw [Scopes.lookup_eq_bound_iff, Scopes.mem_reach_iff]
  exact ⟨fun h => h.1.2, fun h => ⟨⟨List.mem_cons_of_mem _ hmem, h⟩, hl, hg⟩⟩

/-- The questions that a run puts: every name that a scope mentions. -/
def AllAsked (t : Scopes) (questions : List (ScopeId × String)) : Prop :=
  ∀ d n, (d, n) ∈ questions ↔ d.index < t.size ∧
    (n ∈ (t.get d).uses.map (·.1) ∨ n ∈ (t.get d).globals ∨ n ∈ (t.get d).locals)

theorem AllAsked.needed_iff (hq : AllAsked t questions) (ht : t.Tree) {id : ScopeId} :
    (Findings.asking t questions n).needed id = true ↔ ∃ d, d.index < t.size ∧ t.Needs n d id := by
  simp only [Findings.asking, List.any_eq_true, decide_eq_true_eq]
  constructor
  · rintro ⟨⟨d, m⟩, hmem, rfl, hid⟩
    obtain ⟨hd, hn⟩ := (hq d m).mp hmem
    obtain ⟨hout, hall⟩ := (ht.isPath d.index hd).1.mem_tail_reach_iff.mp hid
    have hne : d ≠ id := fun h => (ht.isPath d.index hd).1.cons_inv.2.2.1 (h ▸ hout)
    -- The asking scope itself does not settle the name, so it reads it.
    have hns : ¬(t.get d).Settles m := hall d (by simp [hne])
    refine ⟨d, hd, hout, ?_, hall⟩
    rcases hn with hn | hn | hn
    · exact hn
    · exact absurd (.inl hn) hns
    · exact absurd (.inr hn) hns
  · rintro ⟨d, hd, hout, hn, hall⟩
    exact ⟨(d, n), (hq d n).mpr ⟨hd, .inl hn⟩, rfl, (ht.isPath d.index hd).1.mem_tail_reach_iff.mpr ⟨hout, hall⟩⟩

theorem AllAsked.asked_iff (hq : AllAsked t questions) (ht : t.Tree) {id : ScopeId} (hid : id.index < t.size) :
    (Findings.asking t questions n).asked id = true ↔
      n ∈ (t.get id).uses.map (·.1) ∨ n ∈ (t.get id).locals ∨ n ∈ (t.get id).globals ∨
        ∃ d, d.index < t.size ∧ t.Needs n d id := by
  rw [← hq.needed_iff ht]
  constructor
  · intro h
    simp only [Findings.asking, List.any_eq_true, decide_eq_true_eq] at h ⊢
    obtain ⟨⟨d, m⟩, hmem, rfl, hreach⟩ := h
    rw [Scopes.path, Scopes.reach, List.mem_cons] at hreach
    rcases hreach with rfl | htail
    · rcases ((hq _ _).mp hmem).2 with hn | hn | hn
      · exact .inl hn
      · exact .inr (.inr (.inl hn))
      · exact .inr (.inl hn)
    · exact .inr (.inr (.inr ⟨(d, m), hmem, rfl, by rw [Scopes.path, Scopes.reach, List.tail_cons]; exact htail⟩))
  · have hself : ∀ {m : String}, (id, m) ∈ questions → (Findings.asking t questions m).asked id = true := by
      intro m hmem
      simp only [Findings.asking, List.any_eq_true, decide_eq_true_eq]
      exact ⟨(id, m), hmem, rfl, by rw [Scopes.path, Scopes.reach]; exact List.mem_cons_self⟩
    rintro (hn | hn | hn | hn)
    · exact hself ((hq id n).mpr ⟨hid, .inl hn⟩)
    · exact hself ((hq id n).mpr ⟨hid, .inr (.inr hn)⟩)
    · exact hself ((hq id n).mpr ⟨hid, .inr (.inl hn)⟩)
    · exact Findings.asked_of_needed hn

end

/-- A scope says how it stores a name exactly when it mentions the name or a scope inside needs the name
    from it, and it says what walking outwards finds. -/
theorem class?_of_resolve (builtins : List String) (m : Module) :
    let t := (resolve builtins m).table
    ∀ s ∈ t.scopes, t.get s.id = s ∧ (∀ p, s.parent = some p → p.index < t.size ∧ s.outer = t.path p) ∧ ∀ n,
      ((s.class? n).isSome ↔ n ∈ s.uses.map (·.1) ∨ n ∈ s.locals ∨ n ∈ s.globals ∨
        ∃ d, d.index < t.size ∧ t.Needs n d s.id) ∧
      ∀ c, s.class? n = some c →
        (t.lookup n (t.path s.id) = .global → c = .global) ∧
        (∀ b ∈ s.outer, t.lookup n (t.path s.id) = .bound b → c = .free) ∧
        (t.lookup n (t.path s.id) = .bound s.id →
          ((∃ d, d.index < t.size ∧ t.Captures n d s.id) → c = .cell) ∧
          ((¬∃ d, d.index < t.size ∧ t.Captures n d s.id) → c = .localName)) := by
  intro t s hs
  have ht : (Scopes.collect m).2.Tree := Scopes.tree_collect m
  obtain ⟨questions, hknown, hq⟩ := Findings.known_run ht ((Scopes.collect m).2.moduleNames ++ builtins)
  have hline : t.outline = (Scopes.collect m).2.outline := hknown.outline
  have hsize := Scopes.size_of_outline hline
  obtain ⟨hid, hget⟩ := Scopes.get_of_outline hline ht hs
  obtain ⟨-, houter, hlocals, hglobals, huses⟩ := Scope.eq_of_outline (Scopes.outline_get hline s.id)
  rw [hget] at houter hlocals hglobals huses
  refine ⟨hget, fun p hp => ?_, fun n => ?_⟩
  · have hne : s.id ≠ Scopes.rootId := fun hroot => by
      have := ht.root _ (Scopes.get_mem hid) ((ht.id_get hid).trans hroot)
      rw [Scope.parent, houter, this] at hp
      cases hp
    obtain ⟨q, hq, hqo⟩ := ht.inner _ (Scopes.get_mem hid) (by rw [ht.id_get hid]; exact hne)
    rw [ht.id_get hid] at hq
    obtain rfl : q = p := by
      rw [Scope.parent, houter, hqo] at hp
      exact Option.some.inj hp
    exact ⟨by omega, by rw [houter, hqo, Scopes.path_of_outline hline]; rfl⟩
  · have hst : s.Stores n _ := hget ▸ hknown.stores s.id n hid
    have hclass := hst.class_eq
    simp only [hsize, Scopes.needs_of_outline hline, Scopes.captures_of_outline hline, Scopes.lookup_of_outline hline,
      Scopes.path_of_outline hline]
    refine ⟨?_, fun c hc => ?_⟩
    · rw [huses, hlocals, hglobals, ← AllAsked.asked_iff hq ht hid, hclass, Asking.storage]
      split <;> simp_all
    · have hasked : (Findings.asking (Scopes.collect m).2 questions n).asked s.id = true := by
        cases h : (Findings.asking (Scopes.collect m).2 questions n).asked s.id with
        | true => rfl
        | false => simp [hclass, Asking.storage, h] at hc
      rw [hclass, Asking.storage, if_pos hasked, Option.some.injEq] at hc
      refine ⟨fun hplace => ?_, fun b hb hplace => ?_, fun hplace => ⟨fun hcap => ?_, fun hcap => ?_⟩⟩
      · rw [← hc, hplace]
        rfl
      · have hne : b ≠ s.id := fun h => (ht.isPath s.id.index hid).1.cons_inv.2.2.1 (by rw [← houter]; exact h ▸ hb)
        rw [← hc, hplace]
        simp [Place.storage, hne]
      · simp only [Scopes.captures_iff_needs hplace, ← AllAsked.needed_iff hq ht] at hcap
        rw [← hc, hplace, hcap]
        simp [Place.storage]
      · simp only [Scopes.captures_iff_needs hplace, ← AllAsked.needed_iff hq ht, Bool.not_eq_true] at hcap
        rw [← hc, hplace, hcap]
        simp [Place.storage]

/-- A module that binds `x`, which the inner one of two nested closure blocks reads. -/
def nestedReader : Module :=
  let block (name : String) (body : List Stmt) : Stmt := .closure {} ⟨name, none, ⟨body, {}⟩, true, none, {}⟩
  let read : Stmt := .expr {} (.name {} "x")
  { body := ⟨[.assign {} (.name "x") (.constant {} (.integer 1)), block "f" [block "g" [read]]], {}⟩ }

/-- What is read two closure blocks further in is a cell of the module. -/
theorem class?_of_nestedReader :
    let t := (resolve [] nestedReader).table
    t.get ⟨0⟩ ∈ t.scopes ∧ t.Captures "x" ⟨2⟩ ⟨0⟩ ∧ (t.get ⟨0⟩).class? "x" = some .cell := by
  intro t
  have hmem : t.get ⟨0⟩ ∈ t.scopes := by decide
  have hcap : t.Captures "x" ⟨2⟩ ⟨0⟩ := ⟨by decide, by decide, by decide⟩
  obtain ⟨hsome, hclass⟩ := (class?_of_resolve [] nestedReader _ hmem).2.2 "x"
  obtain ⟨c, hc⟩ := Option.isSome_iff_exists.mp (hsome.mpr (.inr (.inl (by decide))))
  refine ⟨hmem, hcap, hc.trans (congrArg some ?_)⟩
  exact ((hclass c hc).2.2 (by decide)).1 ⟨⟨2⟩, by decide, hcap⟩

end Offside

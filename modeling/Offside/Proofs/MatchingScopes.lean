import Mathlib.Data.List.Basic
import Offside.Proofs.StrictNames

/-! # Scopes under other numbers

The classifier goes through the scopes by their numbers, and through the names of a scope in the order in which the
scope lists them. What it finds out depends on neither: two tables whose scopes stand to each other in the same way and
list the same names store them in the same way, whatever the numbers and the order of the lists. -/

namespace Offside

/-- Scopes that bind, declare and read the same names, in whatever order. -/
structure Scope.SameNames (s r : Scope) : Prop where
  locals : ∀ n, n ∈ s.locals ↔ n ∈ r.locals
  globals : ∀ n, n ∈ s.globals ↔ n ∈ r.globals
  uses : ∀ n, n ∈ s.uses.map (·.1) ↔ n ∈ r.uses.map (·.1)

/-- Scopes with the same names that store each of them the same way. -/
structure Scope.Agrees (s r : Scope) : Prop extends s.SameNames r where
  frees : ∀ n, n ∈ s.frees ↔ n ∈ r.frees
  cells : ∀ n, n ∈ s.cells ↔ n ∈ r.cells
  class_eq : ∀ n, s.class? n = r.class? n

/-- A place after the scopes have been given other numbers. -/
def Place.map (φ : ScopeId → ScopeId) : Place → Place
  | .global => .global
  | .bound b => .bound (φ b)

theorem Place.storage_map {φ : ScopeId → ScopeId} (hφ : Function.Injective φ) (place : Place) (y : ScopeId)
    (needed : Bool) : (place.map φ).storage (φ y) needed = place.storage y needed := by
  cases place with
  | global => rfl
  | bound b => simp [Place.map, Place.storage, hφ.eq_iff]

namespace Scopes

/-- The scopes of the table `t'` are those of `t` under other numbers: number `y` there is number `φ y` here. -/
structure Matches (t t' : Scopes) (φ : ScopeId → ScopeId) : Prop where
  bijective : Function.Bijective φ
  valid : ∀ y, (φ y).index < t.size ↔ y.index < t'.size
  outer : ∀ y, (t.get (φ y)).outer = (t'.get y).outer.map φ
  names : ∀ y, (t.get (φ y)).SameNames (t'.get y)

namespace Matches
variable {t t' : Scopes} {φ : ScopeId → ScopeId} (h : t.Matches t' φ) {n : String}
include h

/-! ### Walking outwards -/

theorem path (y : ScopeId) : t.path (φ y) = (t'.path y).map φ := by
  rw [Scopes.path, h.outer, Scopes.path, List.map_cons]

theorem settles_iff (y : ScopeId) : (t.get (φ y)).Settles n ↔ (t'.get y).Settles n :=
  or_congr ((h.names y).globals n) ((h.names y).locals n)

theorem lookup (path : List ScopeId) : t.lookup n (path.map φ) = (t'.lookup n path).map φ := by
  induction path with
  | nil => rfl
  | cons id outer ih =>
    rw [List.map_cons, Scopes.lookup, Scopes.lookup]
    simp only [(h.names id).globals, (h.names id).locals, ih]
    split
    · rfl
    · split <;> rfl

theorem unsettled_iff (path : List ScopeId) : t.Unsettled n (path.map φ) ↔ t'.Unsettled n path := by
  simp only [Unsettled, List.forall_mem_map, h.settles_iff]

theorem needs_iff (d y : ScopeId) : t.Needs n (φ d) (φ y) ↔ t'.Needs n d y := by
  have hbefore : (t.path (φ d)).takeWhile (· ≠ φ y) = ((t'.path d).takeWhile (· ≠ y)).map φ := by
    rw [h.path, List.takeWhile_map]
    simp only [Function.comp_def, h.bijective.injective.ne_iff]
  rw [Needs, Needs, hbefore, h.outer, List.mem_map_of_injective h.bijective.injective, (h.names d).uses]
  simp only [List.forall_mem_map, h.settles_iff]

theorem exists_needs_iff (y : ScopeId) :
    (∃ d, d.index < t.size ∧ t.Needs n d (φ y)) ↔ ∃ d, d.index < t'.size ∧ t'.Needs n d y := by
  rw [h.bijective.surjective.exists]
  simp only [h.valid, h.needs_iff]

/-! ### Names that nothing binds -/

theorem loose_iff (d : ScopeId) : t.Loose n (φ d) ↔ t'.Loose n d := by
  constructor
  · rintro ⟨hd, hn, hun⟩
    rw [h.path, h.unsettled_iff] at hun
    exact ⟨(h.valid d).mp hd, ((h.names d).uses n).mp hn, hun⟩
  · rintro ⟨hd, hn, hun⟩
    rw [← h.unsettled_iff, ← h.path] at hun
    exact ⟨(h.valid d).mpr hd, ((h.names d).uses n).mpr hn, hun⟩

theorem boundFromInside_iff : t.BoundFromInside n ↔ t'.BoundFromInside n := by
  have hget (t : Scopes) : t.BoundFromInside n ↔ ∃ y : ScopeId, y.index < t.size ∧ (t.get y).outer ≠ [] ∧
      n ∈ (t.get y).locals ∧ n ∈ (t.get y).globals := by
    constructor
    · rintro ⟨s, hs, hnested, hl, hg⟩
      obtain ⟨i, hi, rfl⟩ := List.mem_iff_getElem.mp hs
      have hi' : t.get ⟨i⟩ = t.scopes[i] := by simp [get, get?, hi]
      exact ⟨⟨i⟩, hi, by simpa [hi', Scope.isNested] using hnested, hi' ▸ hl, hi' ▸ hg⟩
    · rintro ⟨y, hy, hnested, hl, hg⟩
      exact ⟨t.get y, get_mem hy, by simpa [Scope.isNested] using hnested, hl, hg⟩
  rw [hget, hget, h.bijective.surjective.exists]
  simp only [h.valid, h.outer, (h.names _).locals, (h.names _).globals, ne_eq, List.map_eq_nil_iff]

theorem exists_misses_iff {builtins : List String} :
    (∃ d, t.Misses builtins n d) ↔ ∃ d, t'.Misses builtins n d := by
  have hmisses (t : Scopes) (d : ScopeId) :
      t.Misses builtins n d ↔ t.Loose n d ∧ ¬t.BoundFromInside n ∧ n ∉ builtins :=
    ⟨fun ⟨hloose, hinside, hbuiltin⟩ => ⟨hloose, hinside, hbuiltin⟩,
      fun ⟨hloose, hinside, hbuiltin⟩ => ⟨hloose, hinside, hbuiltin⟩⟩
  rw [h.bijective.surjective.exists]
  simp only [hmisses, h.boundFromInside_iff, h.loose_iff]

/-! ### What the classifier finds out -/

variable {questions questions' : List (ScopeId × String)} (ht : t.Tree) (ht' : t'.Tree)
  (hq : AllAsked t questions) (hq' : AllAsked t' questions')
include ht ht' hq hq'

/-- Once every name has been asked for, a scope has the same to write down under either number. -/
theorem storage_eq {y : ScopeId} (hy : y.index < t'.size) :
    (Findings.asking t questions n).storage t n (φ y) = (Findings.asking t' questions' n).storage t' n y := by
  have hneeded : (Findings.asking t questions n).needed (φ y) = (Findings.asking t' questions' n).needed y := by
    rw [Bool.eq_iff_iff, hq.needed_iff ht, hq'.needed_iff ht', h.exists_needs_iff]
  have hasked : (Findings.asking t questions n).asked (φ y) = (Findings.asking t' questions' n).asked y := by
    rw [Bool.eq_iff_iff, hq.asked_iff ht ((h.valid y).mpr hy), hq'.asked_iff ht' hy, (h.names y).uses,
      (h.names y).locals, (h.names y).globals, h.exists_needs_iff]
  rw [Asking.storage, Asking.storage, hasked, hneeded, h.path, h.lookup, Place.storage_map h.bijective.injective]

/-- What is written down in the end about a scope is the same under either number. -/
theorem agrees {k k' : Findings} (hk : Findings.Known t questions k) (hk' : Findings.Known t' questions' k')
    {y : ScopeId} (hy : y.index < t'.size) : (k.table.get (φ y)).Agrees (k'.table.get y) := by
  obtain ⟨-, -, hl, hg, hu⟩ := Scope.eq_of_outline (outline_get hk.outline (φ y))
  obtain ⟨-, -, hl', hg', hu'⟩ := Scope.eq_of_outline (outline_get hk'.outline y)
  have hsame (n : String) := h.storage_eq ht ht' hq hq' (n := n) hy
  have hs (n : String) := hk.stores (φ y) n ((h.valid y).mpr hy)
  have hs' (n : String) := hk'.stores y n hy
  exact {
    locals := by rw [hl, hl']; exact (h.names y).locals
    globals := by rw [hg, hg']; exact (h.names y).globals
    uses := by rw [hu, hu']; exact (h.names y).uses
    frees := fun n => by rw [(hs n).free_iff, (hs' n).free_iff, hsame]
    cells := fun n => by rw [(hs n).cell_iff, (hs' n).cell_iff, hsame]
    class_eq := fun n => by rw [(hs n).class_eq, (hs' n).class_eq, hsame] }

end Matches

/-- Programs whose scopes match store all names in the same way and leave the same names unbound. -/
theorem Matches.resolve {m m' : Module} {φ : ScopeId → ScopeId} (h : (collect m).2.Matches (collect m').2 φ)
    (builtins : List String) :
    (∀ y, y.index < (collect m').2.size →
      ((resolve builtins m).table.get (φ y)).Agrees ((resolve builtins m').table.get y)) ∧
    ∀ n, n ∈ (resolve builtins m).unbound.map (·.name) ↔ n ∈ (resolve builtins m').unbound.map (·.name) := by
  obtain ⟨questions, hk, hq⟩ := Findings.known_run (tree_collect m) ((collect m).2.moduleNames ++ builtins)
  obtain ⟨questions', hk', hq'⟩ := Findings.known_run (tree_collect m') ((collect m').2.moduleNames ++ builtins)
  refine ⟨fun y hy => h.agrees (tree_collect m) (tree_collect m') hq hq' hk hk' hy, fun n => ?_⟩
  rw [mem_names_unbound_iff, mem_names_unbound_iff]
  simp only [misses_of_outline (outline_resolve _ _)]
  exact h.exists_misses_iff

end Scopes

end Offside

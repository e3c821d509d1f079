import Offside.Proofs.Classification

/-! # Names that nothing binds

A name that is read where no scope from the reader outwards settles it falls to the module. The module
answers for it once: the first question that comes through is noted if nothing binds the name in the module's
namespace and it is not built in, and every later one finds the answer in place. As the last scopes are gone
through first, the note names the last of the scopes that read the name so. What is built in only keeps names
from being noted. -/

namespace Offside

/-! ### Ways to the module -/

namespace Scopes

/-- No scope of a path binds a name or declares it to be global. -/
def Unsettled (t : Scopes) (n : String) (path : List ScopeId) : Prop := ∀ x ∈ path, ¬(t.get x).Settles n

instance (t : Scopes) (n : String) (path : List ScopeId) : Decidable (t.Unsettled n path) :=
  inferInstanceAs (Decidable (∀ x ∈ path, ¬(t.get x).Settles n))

section
variable {t u : Scopes} {n : String} {r : ScopeId} {path : List ScopeId}

/-- A walk comes through to the last scope of a path exactly if none before it settles the name. -/
theorem IsPath.unsettled_iff (h : t.IsPath path) (hr : r ∈ path.getLast?) :
    t.Unsettled n path ↔ r ∈ t.reach n path ∧ ¬(t.get r).Settles n := by
  induction h with
  | nil => cases hr
  | @cons id outer _ _ hnot _ ih =>
    cases outer with
    | nil =>
      obtain rfl : id = r := by simpa using hr
      simp [Unsettled, reach]
    | cons p outer =>
      have hr' : r ∈ (p :: outer).getLast? := by simpa using hr
      have hne : r ≠ id := fun h => hnot (h ▸ List.mem_of_getLast? hr')
      by_cases hs : (t.get id).Settles n
      · simp [Unsettled, reach_of_settles hs, hs, hne]
      · rw [reach_of_not_settles hs, List.mem_cons, or_iff_right hne, ← ih hr']
        simp [Unsettled, hs]

/-- Every way outwards ends at the module. -/
theorem Tree.getLast?_path (h : t.Tree) : ∀ i < t.size, rootId ∈ (t.path ⟨i⟩).getLast? := by
  intro i
  induction i using Nat.strongRecOn with
  | _ i ih =>
    intro hi
    have hid : (t.get ⟨i⟩).id = ⟨i⟩ := h.id_get hi
    by_cases hroot : (⟨i⟩ : ScopeId) = rootId
    · have hout : (t.get ⟨i⟩).outer = [] := h.root _ (get_mem hi) (hid.trans hroot)
      rw [path, hout, hroot]
      exact rfl
    · obtain ⟨p, hp, hout⟩ := h.inner _ (get_mem hi) (by rw [hid]; exact hroot)
      rw [hid] at hp
      have hlast := ih p.index hp (Nat.lt_trans hp hi)
      rw [path, hout]
      simpa [path] using hlast

theorem unsettled_of_outline (h : u.outline = t.outline) : u.Unsettled n path ↔ t.Unsettled n path := by
  simp only [Unsettled, settles_of_outline h]

end

end Scopes

namespace Asking
variable {a : Asking} {t : Scopes} {n : String} {r : ScopeId} {path : List ScopeId}

/-- Where a scope has been asked about a name that its path leaves unsettled, so has the last scope. -/
theorem Closed.asked_last (hc : a.Closed t n) (hp : t.IsPath path) (hr : r ∈ path.getLast?)
    (hun : t.Unsettled n path) (hask : ∀ id ∈ path.head?, a.asked id = true) : a.asked r = true :=
  (hc.reach hp hask).1 r ((hp.unsettled_iff hr).mp hun).1

end Asking

/-! ### What one question notes -/

namespace Findings

@[simp] theorem unbound_put (k : Findings) (id : ScopeId) (f : Scope → Scope) : (k.put id f).unbound = k.unbound := rfl

theorem unbound_resolve_nil (known : List String) (n : String) (origin : ScopeId) (inside : Bool) (k : Findings) :
    (resolve known n origin [] inside k).2.unbound = k.unbound ++ if n ∉ known then [⟨origin, n⟩] else [] := by
  unfold resolve
  split
  · rfl
  · exact (List.append_nil _).symm

/-- A question notes the name if it comes through to the last scope of its path and is the first that does. -/
theorem unbound_resolve {t : Scopes} {n : String} {a : Asking} {path : List ScopeId} (known : List String)
    (origin r : ScopeId) (hp : t.IsPath path) (hr : r ∈ path.getLast?) (inside : Bool) (k : Findings)
    (hk : k.table.outline = t.outline) (hclosed : a.Closed t n)
    (hpre : ∀ y ∈ path, (k.table.get y).Stores n (a.storage t n y)) :
    (resolve known n origin path inside k).2.unbound =
      k.unbound ++ if n ∉ known ∧ t.Unsettled n path ∧ a.asked r = false then [⟨origin, n⟩] else [] := by
  -- Along the path; a scope that passes the question on changes the table first, so the findings vary.
  induction hp generalizing inside k with
  | nil => cases hr
  | @cons id outer hid hout hnot hp ih =>
    have hpath : t.IsPath (id :: outer) := .cons hid hout hnot hp
    have hself := hpre id List.mem_cons_self
    cases hasked : a.asked id with
    | true =>
      -- The scope has its answer, and so has the last one if the question would come through.
      have hno : ¬(n ∉ known ∧ t.Unsettled n (id :: outer) ∧ a.asked r = false) := by
        rintro ⟨-, hun, hroot⟩
        rw [hclosed.asked_last hpath hr hun fun y hy => by cases hy; exact hasked] at hroot
        cases hroot
      rw [Asking.storage, hasked, if_pos rfl] at hself
      rw [if_neg hno, List.append_nil, resolve_of_class _ _ _ _ _ _ _ hself.class_eq]
      split <;> rfl
    | false =>
      rw [Asking.storage, hasked, if_neg Bool.false_ne_true] at hself
      have hcells : n ∉ (k.table.get id).cells := by simpa using hself.cell_iff
      obtain ⟨-, -, hlocals, hglobals, -⟩ := Scope.eq_of_outline (Scopes.outline_get hk id)
      rw [resolve_of_none _ _ _ _ _ _ _ hself.class_eq hcells, hglobals, hlocals]
      by_cases hs : (t.get id).Settles n
      · have hno : ¬(n ∉ known ∧ t.Unsettled n (id :: outer) ∧ a.asked r = false) :=
          fun h => h.2.1 id List.mem_cons_self hs
        rw [if_neg hno, List.append_nil]
        by_cases hg : n ∈ (t.get id).globals
        · rw [if_pos hg]
          rfl
        · rw [if_neg hg, if_pos (hs.resolve_left hg)]
          split <;> rfl
      · have hun : t.Unsettled n (id :: outer) ↔ t.Unsettled n outer := by simp [Scopes.Unsettled, hs]
        rw [if_neg fun h => hs (.inl h), if_neg fun h => hs (.inr h)]
        cases outer with
        | nil =>
          obtain rfl : id = r := by simpa using hr
          have hcond : (n ∉ known ∧ t.Unsettled n [id] ∧ a.asked id = false) ↔ n ∉ known := by
            simp [Scopes.Unsettled, hs, hasked]
          simp only [hcond, ← unbound_resolve_nil known n origin true k]
          rfl
        | cons p outer =>
          have hr' : r ∈ (p :: outer).getLast? := by simpa using hr
          have hk₁ : (k.put id fun s => (s.addFree n).record n .free).table.outline = t.outline :=
            (Scopes.outline_modify (Scope.Notes.free n).outline id).trans hk
          have h := ih hr' true (k.put id fun s => (s.addFree n).record n .free) hk₁ fun y hy => by
            have hne : y ≠ id := fun he => hnot (he ▸ hy)
            rw [get_put_of_ne hne]
            exact hpre y (List.mem_cons_of_mem _ hy)
          rw [unbound_put] at h
          rw [if_neg (List.cons_ne_nil p outer)]
          simp only [hun, ← h]
          rcases Findings.resolve known n origin (p :: outer) true (k.put id fun s => (s.addFree n).record n .free) with ⟨c, k'⟩
          dsimp only
          split <;> rfl

/-! ### What all questions note -/

section
variable {t : Scopes} {known : List String} {questions : List (ScopeId × String)} {k : Findings} {n : String}

/-- Whether a question about a name comes through to the module. -/
def comesThrough (t : Scopes) (n : String) (q : ScopeId × String) : Bool := q.2 = n ∧ t.Unsettled n (t.path q.1)

/-- The module has been asked about a name that it does not settle if some question came through to it. -/
theorem asked_root_iff (ht : t.Tree) (hq : ∀ q ∈ questions, q.1.index < t.size)
    (hroot : ¬(t.get Scopes.rootId).Settles n) :
    (asking t questions n).asked Scopes.rootId = true ↔ ∃ q ∈ questions, comesThrough t n q = true := by
  simp only [asking, List.any_eq_true, decide_eq_true_eq, comesThrough]
  refine exists_congr fun q => and_congr_right fun hmem => and_congr_right fun _ => ?_
  have hvalid := hq q hmem
  rw [(ht.isPath q.1.index hvalid).1.unsettled_iff (ht.getLast?_path q.1.index hvalid), and_iff_left hroot]

/-- Each name that is not known has been noted by the first question that came through with it, and no other. -/
structure Noted (t : Scopes) (known : List String) (questions : List (ScopeId × String)) (k : Findings) : Prop where
  once : (k.unbound.map (·.name)).Nodup
  mem_iff : ∀ d n, ⟨d, n⟩ ∈ k.unbound ↔ n ∉ known ∧ questions.find? (comesThrough t n) = some (d, n)

theorem noted_nil : Noted t known [] { table := t } := ⟨List.nodup_nil, by simp⟩

/-- A question that comes through first adds a note. -/
theorem Noted.add (h : Noted t known questions k) {d : ScopeId} {m : String} (hknown : m ∉ known)
    (hthrough : comesThrough t m (d, m) = true) (hfirst : questions.find? (comesThrough t m) = none) {k' : Findings}
    (hk' : k'.unbound = k.unbound ++ [⟨d, m⟩]) : Noted t known (questions ++ [(d, m)]) k' := by
  have hnew : ∀ d', ⟨d', m⟩ ∉ k.unbound := fun d' hmem => by
    have := ((h.mem_iff d' m).mp hmem).2
    rw [hfirst] at this
    cases this
  refine ⟨?_, fun d' n => ?_⟩
  · rw [hk', List.map_append, List.nodup_append]
    refine ⟨h.once, List.pairwise_singleton _ _, ?_⟩
    rintro _ hmem _ hm rfl
    obtain ⟨⟨d', m'⟩, hu, rfl⟩ := List.mem_map.mp hmem
    obtain rfl : m' = m := by simpa using hm
    exact hnew d' hu
  · rw [hk', List.mem_append, h.mem_iff, List.find?_append, List.mem_singleton]
    by_cases hn : n = m
    · subst hn
      simp [hfirst, hthrough, hknown, eq_comm]
    · have hother : comesThrough t n (d, m) = false := by simp [comesThrough, Ne.symm hn]
      simp [hother, hn]

/-- A question that does not come through, or not first, or with a name that is known adds none. -/
theorem Noted.skip (h : Noted t known questions k) {d : ScopeId} {m : String}
    (hskip : m ∈ known ∨ comesThrough t m (d, m) = false ∨ ∃ q, questions.find? (comesThrough t m) = some q)
    {k' : Findings} (hk' : k'.unbound = k.unbound) : Noted t known (questions ++ [(d, m)]) k' := by
  refine ⟨by rw [hk']; exact h.once, fun d' n => ?_⟩
  rw [hk', h.mem_iff, List.find?_append]
  refine and_congr_right fun hknown => ?_
  by_cases hn : n = m
  · subst hn
    rcases hskip with hmem | hstop | ⟨q, hq⟩
    · exact absurd hmem hknown
    · simp [hstop]
    · simp [hq]
  · have hother : comesThrough t n (d, m) = false := by simp [comesThrough, Ne.symm hn]
    simp [hother]

theorem Noted.resolve (ht : t.Tree) (hn : Noted t known questions k) (h : Known t questions k) {d : ScopeId}
    (hd : d.index < t.size) (m : String) :
    Noted t known (questions ++ [(d, m)]) (Findings.resolve known m d (t.path d) false k).2 := by
  have hlast := ht.getLast?_path d.index hd
  obtain ⟨hp, hsmall⟩ := ht.isPath d.index hd
  have hlt : ∀ y ∈ t.path d, y.index < t.size := by
    intro y hy
    rcases List.mem_cons.mp hy with rfl | hy
    · exact hd
    · exact Nat.lt_trans (hsmall y hy) hd
  have hunbound := unbound_resolve known d Scopes.rootId hp hlast false k h.outline (closed_asking ht h.valid)
    fun y hy => h.stores y m (hlt y hy)
  by_cases hun : t.Unsettled m (t.path d)
  · -- The module has been asked exactly if a question came through before this one.
    have hroot := asked_root_iff ht h.valid (hun Scopes.rootId (List.mem_of_getLast? hlast))
    have hthrough : comesThrough t m (d, m) = true := by simpa [comesThrough] using hun
    cases hfind : questions.find? (comesThrough t m) with
    | none =>
      have hunasked : (asking t questions m).asked Scopes.rootId = false := by
        rw [← Bool.not_eq_true, hroot]
        simpa using hfind
      by_cases hknown : m ∈ known
      · exact hn.skip (.inl hknown) (by simpa [hknown] using hunbound)
      · exact hn.add hknown hthrough hfind (by simpa [hknown, hun, hunasked] using hunbound)
    | some q =>
      have hasked : (asking t questions m).asked Scopes.rootId = true :=
        hroot.mpr ⟨q, List.mem_of_find?_eq_some hfind, List.find?_some hfind⟩
      exact hn.skip (.inr (.inr ⟨q, hfind⟩)) (by simpa [hasked] using hunbound)
  · have hstop : comesThrough t m (d, m) = false := by simpa [comesThrough] using hun
    exact hn.skip (.inr (.inl hstop)) (by simpa [hun] using hunbound)

theorem noted_run (ht : t.Tree) (known : List String) : Noted t known (allQuestions t) (run known t) :=
  (run_induction ht noted_nil fun m h hd hn => hn.resolve ht h hd m).2

theorem pairwise_allQuestions (t : Scopes) : (allQuestions t).Pairwise fun p q => q.1.index ≤ p.1.index := by
  rw [allQuestions, List.pairwise_flatMap]
  constructor
  · intro d _
    rw [questionsOf, List.pairwise_map]
    exact List.pairwise_of_forall fun _ _ => Nat.le_refl _
  · rw [List.pairwise_map, List.pairwise_reverse]
    refine List.pairwise_lt_range.imp fun {i j} hij p hp q hq => ?_
    simp only [questionsOf, List.mem_map] at hp hq
    obtain ⟨_, -, rfl⟩ := hp
    obtain ⟨_, -, rfl⟩ := hq
    exact Nat.le_of_lt hij

end

end Findings

/-! ### The names that nothing binds -/

namespace Scopes

/-- Scope `d` reads a name that no scope from it outwards settles. -/
structure Loose (t : Scopes) (n : String) (d : ScopeId) : Prop where
  valid : d.index < t.size
  reads : n ∈ (t.get d).uses.map (·.1)
  unsettled : t.Unsettled n (t.path d)

/-- A closure block that declares a name to be global binds it, in the namespace of the module. -/
def BoundFromInside (t : Scopes) (n : String) : Prop :=
  ∃ s ∈ t.scopes, s.isNested = true ∧ n ∈ s.locals ∧ n ∈ s.globals

instance (t : Scopes) (n : String) : Decidable (t.BoundFromInside n) :=
  inferInstanceAs (Decidable (∃ s ∈ t.scopes, s.isNested = true ∧ n ∈ s.locals ∧ n ∈ s.globals))

section
variable {t u : Scopes} {n : String} {d : ScopeId}

theorem loose_of_outline (h : u.outline = t.outline) : u.Loose n d ↔ t.Loose n d := by
  obtain ⟨-, -, -, -, huses⟩ := Scope.eq_of_outline (outline_get h d)
  constructor
  · rintro ⟨hd, hn, hun⟩
    rw [path_of_outline h, unsettled_of_outline h] at hun
    exact ⟨size_of_outline h ▸ hd, huses ▸ hn, hun⟩
  · rintro ⟨hd, hn, hun⟩
    rw [← unsettled_of_outline h, ← path_of_outline h] at hun
    exact ⟨size_of_outline h ▸ hd, huses ▸ hn, hun⟩

theorem boundFromInside_of_outline (h : u.outline = t.outline) : u.BoundFromInside n ↔ t.BoundFromInside n := by
  have hline : ∀ v : Scopes, v.BoundFromInside n ↔ ∃ s ∈ v.outline, s.isNested = true ∧ n ∈ s.locals ∧ n ∈ s.globals := by
    intro v
    constructor
    · rintro ⟨s, hs, h⟩
      exact ⟨s.outline, List.mem_map_of_mem hs, h⟩
    · rintro ⟨_, hmem, h⟩
      obtain ⟨s, hs, rfl⟩ := List.mem_map.mp hmem
      exact ⟨s, hs, h⟩
  rw [hline u, hline t, h]

/-- The module is the only scope that is inside no other. -/
theorem Tree.eq_root (h : t.Tree) {s : Scope} (hs : s ∈ t.scopes) (hnest : s.isNested = false) : s = t.get rootId := by
  by_cases hroot : s.id = rootId
  · rw [← hroot, h.get_id hs]
  · obtain ⟨p, -, hout⟩ := h.inner s hs hroot
    simp [Scope.isNested, hout] at hnest

theorem Tree.mem_moduleNames_iff (h : t.Tree) (hpos : 0 < t.size) :
    n ∈ t.moduleNames ↔ n ∈ (t.get rootId).locals ∨ t.BoundFromInside n := by
  have hmem : t.get rootId ∈ t.scopes := get_mem hpos
  have hflat : (t.get rootId).isNested = false := by
    simp [Scope.isNested, h.root _ hmem (h.id_get hpos)]
  simp only [moduleNames, List.mem_flatMap]
  constructor
  · rintro ⟨s, hs, hn⟩
    cases hnest : s.isNested with
    | true =>
      rw [hnest, if_pos rfl, List.mem_filter, decide_eq_true_eq] at hn
      exact .inr ⟨s, hs, hnest, hn⟩
    | false =>
      rw [hnest, if_neg Bool.false_ne_true, h.eq_root hs hnest] at hn
      exact .inl hn
  · rintro (hn | ⟨s, hs, hnest, hn⟩)
    · exact ⟨_, hmem, by rw [hflat, if_neg Bool.false_ne_true]; exact hn⟩
    · refine ⟨s, hs, ?_⟩
      rw [hnest, if_pos rfl, List.mem_filter, decide_eq_true_eq]
      exact hn

/-- What a scope reads so that it falls to the module, the module does not bind itself. -/
theorem Loose.not_mem_root (ht : t.Tree) (h : t.Loose n d) : n ∉ (t.get rootId).locals :=
  fun hn => h.unsettled rootId (List.mem_of_getLast? (ht.getLast?_path d.index h.valid)) (.inr hn)

end

end Scopes

namespace Findings
variable {t : Scopes} {n : String}

theorem mem_allQuestions_iff_loose {d : ScopeId} :
    (d, n) ∈ allQuestions t ∧ comesThrough t n (d, n) = true ↔ t.Loose n d := by
  simp only [mem_allQuestions, comesThrough, decide_eq_true_eq]
  constructor
  · rintro ⟨⟨hd, hn⟩, -, hun⟩
    have hself : ¬(t.get d).Settles n := hun d List.mem_cons_self
    refine ⟨hd, ?_, hun⟩
    rcases hn with hn | hn | hn
    · exact hn
    · exact absurd (.inl hn) hself
    · exact absurd (.inr hn) hself
  · rintro ⟨hd, hn, hun⟩
    exact ⟨⟨hd, .inl hn⟩, trivial, hun⟩

/-- The first question that comes through is put by the last scope that reads the name so. -/
theorem last_of_find? {d : ScopeId} (h : (allQuestions t).find? (comesThrough t n) = some (d, n)) :
    t.Loose n d ∧ ∀ d', t.Loose n d' → d'.index ≤ d.index := by
  refine ⟨mem_allQuestions_iff_loose.mp ⟨List.mem_of_find?_eq_some h, List.find?_some h⟩, fun d' hd' => ?_⟩
  obtain ⟨hmem, hthrough⟩ := mem_allQuestions_iff_loose.mpr hd'
  obtain ⟨-, before, after, hsplit, hbefore⟩ := List.find?_eq_some_iff_append.mp h
  have hpairs := pairwise_allQuestions t
  rw [hsplit] at hmem hpairs
  -- No question before this one comes through, and those behind are of no later scope.
  rcases List.mem_append.mp hmem with hmem | hmem
  · simpa [hthrough] using hbefore _ hmem
  · rcases List.mem_cons.mp hmem with heq | hmem
    · exact Nat.le_of_eq (congrArg (·.1.index) heq)
    · exact (List.pairwise_cons.mp (List.pairwise_append.mp hpairs).2.1).1 _ hmem

theorem exists_find?_of_loose {d : ScopeId} (h : t.Loose n d) :
    ∃ d', (allQuestions t).find? (comesThrough t n) = some (d', n) := by
  obtain ⟨hmem, hthrough⟩ := mem_allQuestions_iff_loose.mpr h
  obtain ⟨⟨d', m⟩, hfind⟩ := Option.isSome_iff_exists.mp (List.find?_isSome.mpr ⟨_, hmem, hthrough⟩)
  have hm := List.find?_some hfind
  simp only [comesThrough, decide_eq_true_eq] at hm
  exact ⟨d', hm.1 ▸ hfind⟩

/-- The names that are not known and fall to the module are noted, each for the last scope that reads it so. -/
theorem mem_unbound_run_iff (ht : t.Tree) (known : List String) {d : ScopeId} :
    ⟨d, n⟩ ∈ (run known t).unbound ↔ n ∉ known ∧ t.Loose n d ∧ ∀ d', t.Loose n d' → d'.index ≤ d.index := by
  rw [(noted_run ht known).mem_iff]
  refine and_congr_right fun _ => ⟨last_of_find?, ?_⟩
  rintro ⟨hloose, hlast⟩
  obtain ⟨d', hfind⟩ := exists_find?_of_loose hloose
  obtain ⟨hloose', hlast'⟩ := last_of_find? hfind
  have hindex : d'.index = d.index := Nat.le_antisymm (hlast d' hloose') (hlast' d hloose)
  have heq : d' = d := by
    cases d'
    cases d
    exact congrArg ScopeId.mk hindex
  rw [hfind, heq]

theorem mem_names_unbound_run_iff (ht : t.Tree) (known : List String) :
    n ∈ (run known t).unbound.map (·.name) ↔ n ∉ known ∧ ∃ d, t.Loose n d := by
  rw [List.mem_map]
  constructor
  · rintro ⟨⟨d, n⟩, hmem, rfl⟩
    obtain ⟨hknown, hloose, -⟩ := (mem_unbound_run_iff ht known).mp hmem
    exact ⟨hknown, d, hloose⟩
  · rintro ⟨hknown, d, hloose⟩
    obtain ⟨d', hfind⟩ := exists_find?_of_loose hloose
    exact ⟨⟨d', n⟩, ((noted_run ht known).mem_iff d' n).mpr ⟨hknown, hfind⟩, rfl⟩

end Findings

/-! ### What is built in -/

namespace Findings

/-- The findings without the notes about some names. -/
def hide (names : List String) (k : Findings) : Findings :=
  { k with unbound := k.unbound.filter (·.name ∉ names) }

/-- The second of two computations finds out what the first does, but for the notes about some names. -/
def Hides {α : Type} (names : List String) (p q : StateM Findings α) : Prop :=
  ∀ k, q (k.hide names) = ((p k).1, (p k).2.hide names)

namespace Hides
variable {α β : Type} {names : List String}

theorem pure (a : α) : Hides names (Pure.pure a) (Pure.pure a) := fun _ => rfl

theorem bind {p q : StateM Findings α} {f g : α → StateM Findings β} (hp : Hides names p q)
    (hf : ∀ a, Hides names (f a) (g a)) : Hides names (p >>= f) (q >>= g) := fun k => by
  show g (q (k.hide names)).1 (q (k.hide names)).2 = _
  rw [hp k]
  exact hf _ _

/-- What is read off the findings must not depend on the notes. -/
theorem read {f g : Findings → StateM Findings α} (h : ∀ k, Hides names (f k) (g (k.hide names))) :
    Hides names (get >>= f) (get >>= g) := fun k => h k k

theorem edit (id : ScopeId) (f : Scope → Scope) : Hides names (Findings.edit id f) (Findings.edit id f) :=
  fun _ => rfl

theorem record (id : ScopeId) (n : String) (c : Storage) :
    Hides names (Findings.record id n c) (Findings.record id n c) := fun _ => rfl

theorem bindHere (id : ScopeId) (n : String) (asked : Bool) :
    Hides names (Findings.bindHere id n asked) (Findings.bindHere id n asked) := by
  cases asked
  · exact .pure _
  · exact (edit id _).bind fun _ => .pure _

theorem forM {as : List α} {f g : α → StateM Findings Unit} (h : ∀ a, Hides names (f a) (g a)) :
    Hides names (as.forM f) (as.forM g) := by
  induction as with
  | nil => exact .pure ()
  | cons a as ih => exact (h a).bind fun _ => ih

/-- A name is noted unless it is known, so names that become known are names whose notes are hidden. -/
theorem fallback (known : List String) (n : String) (origin : ScopeId) (asked : Bool) :
    Hides names (resolve known n origin [] asked) (resolve (known ++ names) n origin [] asked) := fun k => by
  unfold resolve
  by_cases hk : n ∈ known
  · rw [if_neg fun h => h (List.mem_append_left _ hk), if_neg fun h => h hk]
    rfl
  by_cases hn : n ∈ names
  · rw [if_pos hk, if_neg fun h => h (List.mem_append_right _ hn)]
    show (Storage.global, k.hide names) = (Storage.global, hide names { k with unbound := k.unbound ++ [⟨origin, n⟩] })
    simp [hide, hn]
  · rw [if_pos hk, if_pos (by simp [hk, hn])]
    show (Storage.global, { k.hide names with unbound := (k.hide names).unbound ++ [⟨origin, n⟩] }) =
      (Storage.global, hide names { k with unbound := k.unbound ++ [⟨origin, n⟩] })
    simp [hide, hn]

theorem ite {c : Prop} [Decidable c] {p q p' q' : StateM Findings α} (hp : Hides names p q) (hp' : Hides names p' q') :
    Hides names (if c then p else p') (if c then q else q') := by
  split
  · exact hp
  · exact hp'

theorem resolve (known : List String) (n : String) (origin : ScopeId) (path : List ScopeId) (asked : Bool) :
    Hides names (Findings.resolve known n origin path asked) (Findings.resolve (known ++ names) n origin path asked) := by
  induction path generalizing asked with
  | nil => exact fallback known n origin asked
  | cons id outer ih =>
    unfold Findings.resolve
    refine .read fun k => ?_
    simp only [show (k.hide names).table = k.table from rfl]
    have hhere : ∀ inside, Hides names (Findings.bindHere id n inside >>= Findings.record id n)
        (Findings.bindHere id n inside >>= Findings.record id n) := fun inside => (bindHere id n inside).bind (.record id n)
    rcases (k.table.get id).class? n with _ | c
    · refine .ite (.record id n _) (.ite (.record id n _) (.ite (hhere asked) (.ite ((ih true).bind (.record id n)) ?_)))
      refine (edit id _).bind fun _ => (record id n _).bind fun _ => (ih true).bind fun c => ?_
      cases c with
      | global => exact (edit id _).bind fun _ => .record id n _
      | localName | free | cell => exact .record id n _
    · cases c with
      | localName => exact .ite (hhere true) (.pure _)
      | global | free | cell => exact .pure _

theorem scope (known : List String) (id : ScopeId) :
    Hides names (Findings.scope known id) (Findings.scope (known ++ names) id) :=
  .read fun _ => .forM fun n => (resolve known n id _ false).bind fun _ => .pure ()

end Hides

/-- What is known besides keeps names from being noted, and changes nothing else. -/
theorem run_append (known names : List String) (t : Scopes) : run (known ++ names) t = (run known t).hide names :=
  congrArg Prod.snd (Hides.forM (Hides.scope known) { table := t })

end Findings

end Offside

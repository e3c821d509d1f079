import Offside.Frontend.Basic
import Offside.Proofs.UnboundNames

/-! # Strict compilation

A strict front end refuses a program that reads a name nothing binds, and differs in nothing else from a
permissive one. What it lets through is settled somewhere for every scope that reads it: bound further out,
declared to be global, bound in the namespace of the module, or built in. A declaration is not asked whether
anything ever binds the name. -/

namespace Offside

/-! ### What no scope binds -/

namespace Scopes

/-- Scope `d` reads a name that nothing binds. -/
structure Misses (t : Scopes) (builtins : List String) (n : String) (d : ScopeId) : Prop where
  loose : t.Loose n d
  notInside : ¬t.BoundFromInside n
  notBuiltin : n ∉ builtins

/-- The first scope on a path that binds a name or declares it to be global. -/
def settler? (t : Scopes) (n : String) (path : List ScopeId) : Option ScopeId :=
  path.find? fun x => (t.get x).Settles n

section
variable {t u : Scopes} {builtins : List String} {n : String} {d : ScopeId}

theorem misses_of_outline (h : u.outline = t.outline) : u.Misses builtins n d ↔ t.Misses builtins n d := by
  constructor
  · rintro ⟨hloose, hinside, hbuiltin⟩
    exact ⟨(loose_of_outline h).mp hloose, fun hb => hinside ((boundFromInside_of_outline h).mpr hb), hbuiltin⟩
  · rintro ⟨hloose, hinside, hbuiltin⟩
    exact ⟨(loose_of_outline h).mpr hloose, fun hb => hinside ((boundFromInside_of_outline h).mp hb), hbuiltin⟩

/-- What a scope misses is exactly what it reads so that it falls to the module and is not known there. -/
theorem Tree.misses_iff (h : t.Tree) (hpos : 0 < t.size) :
    t.Misses builtins n d ↔ n ∉ t.moduleNames ++ builtins ∧ t.Loose n d := by
  rw [List.mem_append, h.mem_moduleNames_iff hpos]
  constructor
  · rintro ⟨hloose, hinside, hbuiltin⟩
    exact ⟨by simp [hloose.not_mem_root h, hinside, hbuiltin], hloose⟩
  · rintro ⟨hunknown, hloose⟩
    exact ⟨hloose, fun hb => hunknown (.inl (.inr hb)), fun hb => hunknown (.inr hb)⟩

theorem Loose.isSome_useSite? (h : t.Loose n d) : ((t.get d).useSite? n).isSome := by
  rw [Scope.useSite?, List.lookup_isSome_iff]
  simpa using h.reads

theorem settler?_eq_none_iff {path : List ScopeId} : t.settler? n path = none ↔ t.Unsettled n path := by
  simp [settler?, Unsettled]

/-- Where a scope settles a name, it binds it as its own or declares it to be global. -/
theorem isSome_settler?_iff {path : List ScopeId} : (t.settler? n path).isSome ↔
    (∃ x, t.settler? n path = some x ∧ n ∈ (t.get x).locals ∧ n ∉ (t.get x).globals) ∨
      ∃ x, t.settler? n path = some x ∧ n ∈ (t.get x).globals := by
  constructor
  · intro h
    obtain ⟨x, hx⟩ := Option.isSome_iff_exists.mp h
    have hsettles : (t.get x).Settles n := by simpa using List.find?_some hx
    by_cases hg : n ∈ (t.get x).globals
    · exact .inr ⟨x, hx, hg⟩
    · exact .inl ⟨x, hx, hsettles.resolve_left hg, hg⟩
  · rintro (⟨x, hx, -⟩ | ⟨x, hx, -⟩) <;> exact Option.isSome_of_eq_some hx

/-- What the module binds is settled on every way outwards. -/
theorem Tree.isSome_settler? (ht : t.Tree) (h : u.outline = t.outline) (hd : d.index < u.size)
    (hn : n ∈ (u.get rootId).locals) : (u.settler? n (u.path d)).isSome := by
  rw [← Option.ne_none_iff_isSome, Ne, settler?_eq_none_iff]
  intro hun
  have hroot := List.mem_of_getLast? (ht.getLast?_path d.index (size_of_outline h ▸ hd))
  rw [← path_of_outline h] at hroot
  exact hun rootId hroot (.inr hn)

/-- Nothing is missed exactly if each name that a scope reads is settled on the way outwards, bound from inside
    or built in. -/
theorem Tree.forall_not_misses_iff (ht : t.Tree) (h : u.outline = t.outline) :
    (∀ n d, ¬u.Misses builtins n d) ↔ ∀ s ∈ u.scopes, ∀ n ∈ s.uses.map (·.1),
      (u.settler? n (u.path s.id)).isSome ∨ u.BoundFromInside n ∨ n ∈ builtins := by
  constructor
  · intro hnone s hs n hn
    obtain ⟨hid, hget⟩ := get_of_outline h ht hs
    refine Decidable.by_contra fun hall => ?_
    simp only [not_or, Bool.not_eq_true, Option.isSome_eq_false_iff, Option.isNone_iff_eq_none] at hall
    obtain ⟨hset, hinside, hbuiltin⟩ := hall
    have hloose : u.Loose n s.id :=
      ⟨by rw [size_of_outline h]; exact hid, by rw [hget]; exact hn, settler?_eq_none_iff.mp hset⟩
    exact hnone n s.id ⟨hloose, hinside, hbuiltin⟩
  · rintro hall n d ⟨hloose, hinside, hbuiltin⟩
    obtain ⟨hid, -⟩ := Scope.eq_of_outline (outline_get h d)
    rw [ht.id_get (size_of_outline h ▸ hloose.valid)] at hid
    rcases hid ▸ hall _ (get_mem hloose.valid) n hloose.reads with hset | hin | hb
    · rw [settler?_eq_none_iff.mpr hloose.unsettled] at hset
      cases hset
    · exact hinside hin
    · exact hbuiltin hb

end

end Scopes

/-! ### What is reported -/

section
variable (builtins : List String) (m : Module)

theorem outline_resolve : (resolve builtins m).table.outline = (Scopes.collect m).2.outline := by
  obtain ⟨_, hknown, -⟩ :=
    Findings.known_run (Scopes.tree_collect m) ((Scopes.collect m).2.moduleNames ++ builtins)
  exact hknown.outline

theorem moduleScope_resolve :
    (resolve builtins m).moduleScope = (resolve builtins m).table.get Scopes.rootId := rfl

theorem mem_names_unbound_iff {n : String} :
    n ∈ (resolve builtins m).unbound.map (·.name) ↔ ∃ d, (resolve builtins m).table.Misses builtins n d := by
  have hpos := Scopes.size_collect_pos m
  simp only [Scopes.misses_of_outline (outline_resolve builtins m), (Scopes.tree_collect m).misses_iff hpos,
    exists_and_left]
  exact Findings.mem_names_unbound_run_iff (Scopes.tree_collect m) _

theorem misses_of_mem_unbound {u : Unbound} (hu : u ∈ (resolve builtins m).unbound) :
    (resolve builtins m).table.Misses builtins u.name u.scope ∧
      ∀ d, (resolve builtins m).table.Misses builtins u.name d → d.index ≤ u.scope.index := by
  have hpos := Scopes.size_collect_pos m
  simp only [Scopes.misses_of_outline (outline_resolve builtins m), (Scopes.tree_collect m).misses_iff hpos]
  obtain ⟨hunknown, hloose, hlast⟩ := (Findings.mem_unbound_run_iff (Scopes.tree_collect m) _).mp hu
  exact ⟨⟨hunknown, hloose⟩, fun d h => hlast d h.2⟩

theorem unbound_eq_nil_iff :
    (resolve builtins m).unbound = [] ↔ ∀ n d, ¬(resolve builtins m).table.Misses builtins n d := by
  rw [← List.map_eq_nil_iff (f := Unbound.name), List.eq_nil_iff_forall_not_mem]
  simp only [mem_names_unbound_iff, not_exists]

/-- What is built in is only left out of the report. -/
theorem resolve_eq_filter :
    resolve builtins m =
      { resolve [] m with unbound := (resolve [] m).unbound.filter (·.name ∉ builtins) } := by
  simp only [resolve, List.append_nil, Findings.run_append]
  rfl

end

/-! ### Strict and permissive -/

namespace Frontend
variable (f : Frontend) (source : String)

theorem compile_permissive : { f with strict := false }.compile source = (f.parse source).map (resolve f.builtins) := by
  unfold compile parse
  rcases Offside.parse f.dialect source with e | m
  · rfl
  · generalize resolve f.builtins m = r
    dsimp only [Except.map]
    split <;> rfl

/-- A strict front end looks at what a permissive one gives. -/
theorem compile_strict : { f with strict := true }.compile source =
    match { f with strict := false }.compile source with
    | .error e => .error e
    | .ok r =>
      match r.unbound with
      | u :: _ => .error (unresolved r u)
      | [] => .ok r := by
  rw [compile_permissive]
  unfold compile parse
  rcases Offside.parse f.dialect source with e | m
  · rfl
  · generalize resolve f.builtins m = r
    rfl

theorem compile_permissive_ok_iff {r : Resolved} : { f with strict := false }.compile source = .ok r ↔
    ∃ m, f.parse source = .ok m ∧ resolve f.builtins m = r := by
  rw [compile_permissive]
  rcases f.parse source with e | m <;> simp [Except.map]

theorem compile_strict_ok_iff {r : Resolved} : { f with strict := true }.compile source = .ok r ↔
    { f with strict := false }.compile source = .ok r ∧ r.unbound = [] := by
  rw [compile_strict]
  generalize compile { f with strict := false } source = answer
  rcases answer with e | q
  · simp
  · rcases hu : q.unbound with _ | ⟨u, _⟩
    · simp only [hu, Except.ok.injEq]
      exact ⟨fun h => ⟨h, h ▸ hu⟩, And.left⟩
    · simp only [hu, Except.ok.injEq, reduceCtorEq, false_iff]
      rintro ⟨rfl, hnil⟩
      rw [hu] at hnil
      cases hnil

/-- A strict front end blames the first name that nothing binds, where it is first read. -/
theorem compile_strict_error {r : Resolved} (h : { f with strict := false }.compile source = .ok r)
    (hr : r.unbound ≠ []) :
    ∃ e, { f with strict := true }.compile source = .error e ∧
      (∃ u ∈ r.unbound.head?, e.fault = .unresolvedName u.name (r.table.get u.scope).name) ∧ e.location.isSome := by
  obtain ⟨m, -, rfl⟩ := (compile_permissive_ok_iff f source).mp h
  rw [compile_strict, h]
  rcases hu : (resolve f.builtins m).unbound with _ | ⟨u, rest⟩
  · exact absurd hu hr
  · have hmem : u ∈ (resolve f.builtins m).unbound := hu ▸ List.mem_cons_self
    have hsite := (misses_of_mem_unbound f.builtins m hmem).1.loose.isSome_useSite?
    simp only [hu]
    exact ⟨_, rfl, ⟨u, rfl, rfl⟩, hsite⟩

end Frontend

/-! ### The results -/

/-- The report lists each name that some scope misses, once, for the last scope that misses it; what is built
    in is only left out of it. A strict front end succeeds exactly if a permissive one does and the report is
    empty, with the same program. -/
theorem unbound_exact (builtins : List String) (m : Module) (f : Frontend) (source : String) :
    let r := resolve builtins m
    (∀ n, n ∈ r.unbound.map (·.name) ↔ ∃ d, r.table.Misses builtins n d) ∧
    (r.unbound.map (·.name)).Nodup ∧
    (∀ u ∈ r.unbound, r.table.Misses builtins u.name u.scope ∧
      (∀ d, r.table.Misses builtins u.name d → d.index ≤ u.scope.index) ∧
      ((r.table.get u.scope).useSite? u.name).isSome) ∧
    r = { resolve [] m with unbound := (resolve [] m).unbound.filter (·.name ∉ builtins) } ∧
    let permissive := { f with strict := false }.compile source
    let strict := { f with strict := true }.compile source
    (∀ q, permissive = .ok q ↔ ∃ m, f.parse source = .ok m ∧ resolve f.builtins m = q) ∧
    (∀ q, strict = .ok q ↔ permissive = .ok q ∧ q.unbound = []) ∧
    (∀ q, permissive = .ok q → q.unbound ≠ [] → ∃ e, strict = .error e ∧
      (∃ u ∈ q.unbound.head?, e.fault = .unresolvedName u.name (q.table.get u.scope).name) ∧ e.location.isSome) ∧
    ∀ e, permissive = .error e → strict = .error e := by
  intro r
  have honce : (r.unbound.map (·.name)).Nodup := (Findings.noted_run (Scopes.tree_collect m) _).once
  refine ⟨fun n => mem_names_unbound_iff builtins m, honce, fun u hu => ?_, resolve_eq_filter builtins m, ?_⟩
  · obtain ⟨hmiss, hlast⟩ := misses_of_mem_unbound builtins m hu
    exact ⟨hmiss, hlast, hmiss.loose.isSome_useSite?⟩
  · refine ⟨fun q => f.compile_permissive_ok_iff source, fun q => f.compile_strict_ok_iff source,
      fun q => f.compile_strict_error source, fun e he => ?_⟩
    rw [f.compile_strict source, he]

/-- A strict front end lets a program through exactly if for every name that a scope reads, walking outwards
    from the scope, the first one that binds the name or declares it to be global either binds it as its own or
    declares it, or the name is bound in the namespace of the module, or it is built in. -/
theorem compile_strict_sound (f : Frontend) (source : String) (r : Resolved) :
    { f with strict := true }.compile source = .ok r ↔
      { f with strict := false }.compile source = .ok r ∧
      ∀ s ∈ r.table.scopes, ∀ n ∈ s.uses.map (·.1),
        (∃ x, r.table.settler? n (r.table.path s.id) = some x ∧
          n ∈ (r.table.get x).locals ∧ n ∉ (r.table.get x).globals) ∨
        (∃ x, r.table.settler? n (r.table.path s.id) = some x ∧ n ∈ (r.table.get x).globals) ∨
        (n ∈ r.moduleScope.locals ∨ r.table.BoundFromInside n) ∨
        n ∈ f.builtins := by
  rw [f.compile_strict_ok_iff source]
  refine and_congr_right fun hok => ?_
  obtain ⟨m, -, hr⟩ := (f.compile_permissive_ok_iff source).mp hok
  have ht := Scopes.tree_collect m
  have hline : r.table.outline = (Scopes.collect m).2.outline := hr ▸ outline_resolve f.builtins m
  have hnil : r.unbound = [] ↔ ∀ n d, ¬r.table.Misses f.builtins n d := hr ▸ unbound_eq_nil_iff f.builtins m
  have hscope : r.moduleScope = r.table.get Scopes.rootId := hr ▸ moduleScope_resolve f.builtins m
  rw [hnil, ht.forall_not_misses_iff hline]
  refine forall₂_congr fun s hs => forall₂_congr fun n _ => ?_
  have hid : s.id.index < r.table.size := by
    rw [Scopes.size_of_outline hline]
    exact (Scopes.get_of_outline hline ht hs).1
  -- What the module binds itself is settled already.
  have hmodule : (r.table.settler? n (r.table.path s.id)).isSome ∨ n ∈ r.moduleScope.locals ↔
      (r.table.settler? n (r.table.path s.id)).isSome :=
    or_iff_left_of_imp fun hn => ht.isSome_settler? hline hid (hscope ▸ hn)
  rw [← hmodule, Scopes.isSome_settler?_iff]
  simp only [or_assoc]

/-- A closure block that declares `x` to be global and reads it, where nothing binds `x`. -/
def declaredOnly : String := "define f:\n    global x\n    y = x\n"

/-- A strict front end takes a declaration on trust. -/
theorem compile_strict_declaredOnly : ∃ r,
    Frontend.compile ⟨.portuguese, true, [], "<string>"⟩ declaredOnly = .ok r ∧
    ¬∀ s ∈ r.table.scopes, ∀ n ∈ s.uses.map (·.1),
      (∃ x, r.table.settler? n (r.table.path s.id) = some x ∧
        n ∈ (r.table.get x).locals ∧ n ∉ (r.table.get x).globals) ∨
      (n ∈ r.moduleScope.locals ∨ r.table.BoundFromInside n) ∨
      n ∈ ([] : List String) := by
  have hread : (Frontend.compile ⟨.portuguese, true, [], "<string>"⟩ declaredOnly).toOption.any (fun r =>
      let s := r.table.get ⟨1⟩
      s ∈ r.table.scopes ∧ "x" ∈ s.uses.map (·.1) ∧ r.table.settler? "x" (r.table.path s.id) = some ⟨1⟩ ∧
        "x" ∈ s.globals ∧ "x" ∉ r.moduleScope.locals ∧ ¬r.table.BoundFromInside "x") = true := by
    decide +kernel
  cases hok : Frontend.compile ⟨.portuguese, true, [], "<string>"⟩ declaredOnly with
  | error e =>
    rw [hok] at hread
    cases hread
  | ok r =>
    rw [hok] at hread
    obtain ⟨hs, hn, hset, hg, hmodule, hinside⟩ := of_decide_eq_true hread
    refine ⟨r, rfl, fun hall => ?_⟩
    rcases hall _ hs _ hn with ⟨x, hx, -, hx'⟩ | (h | h) | h
    · rw [hset] at hx
      cases hx
      exact hx' hg
    · exact hmodule h
    · exact hinside h
    · cases h

end Offside

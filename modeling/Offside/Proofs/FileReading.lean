import Offside.Proofs.StmtReading

/-! # Files are read by their grammar

A program ends at its first end marker, and what comes behind it is not looked at. -/

namespace Offside.Parse
open Grammar

variable {n : Nat}

theorem parses_module : module.Parses Module.bare (fun k w m => ∃ ss, m = { body := ⟨ss, {}⟩ } ∧ Makes .file k w ss)
    (fun _ => false) n where
  sound {all room ks} _ := by
    unfold module
    refine .within (fun _ => trivial) fun r hr => ?_
    subst hr
    refine Reads.bind (Q := fun stmts rest => ∃ u, ks = u ++ rest ∧
      ∀ v ts, Makes .lines r v ts → Makes .lines r (u ++ v) (stmts.map Stmt.bare ++ ts)) ?_ fun stmts ks₁ hstmts => ?_
    · refine .loop (R := fun (stmts : List Stmt) rest => ∃ u, ks = u ++ rest ∧
        ∀ v ts, Makes .lines r v ts → Makes .lines r (u ++ v) (stmts.map Stmt.bare ++ ts)) ⟨[], rfl, fun _ _ h => h⟩ ?_
      rintro stmts ks' ⟨u, rfl, hstmts⟩
      refine (Reads.accept).bind fun o ks₁ ho => ?_
      rcases ho with ⟨t, rfl, rfl⟩ | ⟨rfl, rfl, -⟩
      · refine .pure ⟨⟨u ++ [.newline], by simp, fun v ts hv => ?_⟩, by simp⟩
        have := hstmts (.newline :: v) ts (.blank hv)
        simpa using this
      · refine (Reads.sees).bind fun b ks₂ hb => ?_
        obtain ⟨rfl, -⟩ := hb
        refine .ite (fun _ => .pure ⟨u, rfl, hstmts⟩) fun _ => ?_
        refine Reads.peek.bind fun o ks₃ ho => ?_
        obtain ⟨rfl, -⟩ := ho
        refine .ite (fun _ => .failUnexpected fun _ => trivial) fun _ => ?_
        refine (parses_statement.sound (Nat.lt_succ_self _)).bind fun ss ks₄ hss => ?_
        obtain ⟨w, rfl, hw⟩ := hss
        refine .pure ⟨⟨u ++ w, by simp, fun v ts hv => ?_⟩, ?_⟩
        · have := hstmts (w ++ v) (ss.map Stmt.bare ++ ts) (.next hw hv)
          simpa using this
        · obtain ⟨k, x, rfl, -⟩ := hw.begins_stmt
          simp only [List.length_append, List.length_cons]
          omega
    · obtain ⟨u, rfl, hstmts⟩ := hstmts
      refine (Reads.require fun _ _ => trivial).bind fun _ ks₂ hks => ?_
      subst hks
      refine .pure ⟨u ++ [.endMarker], by simp, stmts.map Stmt.bare, ?_, ?_⟩
      · rw [Module.bare, bare_block, blockStmts_ofStmts]
      · have := hstmts [.endMarker] [] .ended
        rw [List.append_nil] at this
        exact .file this
  complete {all room depth w rest m} _ hw _ := by
    obtain ⟨ss, rfl, hw⟩ := hw
    unfold module
    cases hw with
    | @file depth w ss hw =>
      refine .within (fun h0 => ⟨by omega, rfl⟩) fun r hr => ?_
      subst hr
      refine Reads.imp ?_ (fun _ => TooDeep.succ) fun _ _ h => h
      refine Reads.bind (Q := fun stmts left => left = .endMarker :: rest ∧ stmts.map Stmt.bare = ss) ?_
        fun stmts ks₁ hstmts => ?_
      · refine .loop (R := fun stmts ks' => ∃ v ts, ks' = v ++ rest ∧ Makes .lines depth v ts ∧
          stmts.map Stmt.bare ++ ts = ss) ⟨w, ss, rfl, hw, rfl⟩ ?_
        rintro stmts ks' ⟨v, ts, rfl, hv, hstmts⟩
        cases hv with
        | ended =>
          refine (Reads.accept_other (by simp)).bind fun o ks₁ ho => ?_
          obtain ⟨rfl, rfl⟩ := ho
          refine (Reads.sees).bind fun b ks₂ hb => ?_
          obtain ⟨rfl, hb⟩ := hb
          obtain rfl : b = true := hb.mpr rfl
          exact .pure ⟨rfl, by simpa using hstmts⟩
        | blank hv =>
          refine (Reads.accept_next).bind fun o ks₁ ho => ?_
          obtain ⟨⟨t, rfl⟩, rfl⟩ := ho
          exact .pure ⟨⟨_, ts, rfl, hv, hstmts⟩, by simp⟩
        | @next _ w ss' v ts hw hv =>
          rw [List.append_assoc]
          refine (Reads.accept_other ((hw.begins_stmt.append _).head?_ne rfl)).bind fun o ks₁ ho => ?_
          obtain ⟨rfl, rfl⟩ := ho
          refine (Reads.sees).bind fun b ks₂ hb => ?_
          obtain ⟨rfl, hb⟩ := hb
          obtain rfl : b = false := by
            simpa using fun hbt => (hw.begins_stmt.append (v ++ rest)).head?_ne rfl (hb.mp hbt)
          refine Reads.peek.bind fun o ks₃ ho => ?_
          obtain ⟨rfl, ho⟩ := ho
          obtain ⟨t, rfl⟩ : ∃ t, o = some t := by
            obtain ⟨k, x, rfl, -⟩ := hw.begins_stmt
            cases o with
            | none => cases ho
            | some t => exact ⟨t, rfl⟩
          refine (parses_statement.complete (Nat.lt_succ_self _) hw (stops_stmt_lines hv)).bind fun ss ks₄ hss => ?_
          obtain ⟨rfl, rfl⟩ := hss
          refine .pure ⟨⟨v, ts, rfl, hv, by simpa using hstmts⟩, ?_⟩
          obtain ⟨k, x, rfl, -⟩ := hw.begins_stmt
          simp only [List.length_append, List.length_cons]
          omega
      · obtain ⟨rfl, rfl⟩ := hstmts
        refine (Reads.require_next).bind fun _ ks₂ hks => ?_
        subst hks
        refine .pure ⟨rfl, ?_⟩
        rw [Module.bare, bare_block, blockStmts_ofStmts]

/-- The tokens up to the first end marker, which is the last of them. -/
def upToEnd : List Token → List Token
  | [] => []
  | t :: ts => if t.kind = .endMarker then [t] else t :: upToEnd ts

theorem upToEnd_append (ts : List Token) : ∃ rest, ts = upToEnd ts ++ rest := by
  induction ts with
  | nil => exact ⟨[], rfl⟩
  | cons t ts ih =>
    unfold upToEnd
    split
    · exact ⟨ts, rfl⟩
    · obtain ⟨rest, hrest⟩ := ih
      exact ⟨rest, congrArg (t :: ·) hrest⟩

theorem upToEnd_eq {ts : List Token} {v rest : List Kind} (hv : Kind.endMarker ∉ v)
    (h : ts.map (·.kind) = v ++ .endMarker :: rest) : (upToEnd ts).map (·.kind) = v ++ [.endMarker] := by
  induction ts generalizing v with
  | nil => simp at h
  | cons t ts ih =>
    unfold upToEnd
    cases v with
    | nil =>
      have ht : t.kind = .endMarker := (List.cons.inj h).1
      rw [if_pos ht, List.map_singleton, ht]
      rfl
    | cons k v =>
      obtain ⟨rfl, htail⟩ := List.cons.inj h
      have hne : t.kind ≠ .endMarker := fun he => hv (he ▸ List.mem_cons_self ..)
      rw [if_neg hne, List.map_cons, ih (fun hmem => hv (List.mem_cons_of_mem _ hmem)) htail]
      rfl

/-- A program is read exactly if its tokens up to the first end marker make it and at most `nestingLimit`
    productions are open at once. Tokens that make one with more productions open are refused as nested too
    deeply. -/
theorem module_ok_iff_makes (ts : List Token) (ss : List Stmt) :
    ((∃ m d, module { input := ts.map .ok } = .ok m d ∧ m.bare = { body := ⟨ss, {}⟩ }) ↔
      ∃ depth ≤ nestingLimit, Makes .file depth ((upToEnd ts).map (·.kind)) ss) ∧
    ((∃ depth, Makes .file depth ((upToEnd ts).map (·.kind)) ss) →
      (¬∃ depth ≤ nestingLimit, Makes .file depth ((upToEnd ts).map (·.kind)) ss) →
      ∃ err d, module { input := ts.map .ok } = .error err d ∧ err.fault = .tooDeeplyNested nestingLimit) := by
  have hfile : ∀ {k w ss'}, (∃ ss, ({ body := ⟨ss', {}⟩ } : Module) = { body := ⟨ss, {}⟩ } ∧ Makes .file k w ss) ↔
      Makes .file k w ss' := by
    intro k w ss'
    constructor
    · rintro ⟨ss, he, h⟩
      cases he
      exact h
    · exact fun h => ⟨ss', rfl, h⟩
  obtain ⟨rest, hts⟩ := upToEnd_append ts
  have hstop : Stops (fun _ => false) (rest.map (·.kind)) := stops_nothing
  refine ⟨⟨?_, ?_⟩, ?_⟩
  · rintro ⟨m, d, hm, hbare⟩
    have hread := (parses_module (n := (ts.map (·.kind)).length + 1)).sound (Nat.lt_succ_self _) _ (Cursor.at_new ts)
    rw [hm] at hread
    obtain ⟨left, -, w, hks, hw⟩ := hread
    rw [hbare, hfile] at hw
    obtain ⟨v, rfl, hv⟩ := hw.ends
    rw [List.append_assoc] at hks
    exact ⟨nestingLimit, Nat.le_refl _, by rw [upToEnd_eq hv hks]; exact hw⟩
  · rintro ⟨depth, hle, hw⟩
    obtain ⟨m, d, hm, -, hbare⟩ := (Parses.ok_iff (w := upToEnd ts) (fun _ => parses_module) hstop
      fun hle h => h.imp fun _ h => ⟨h.1, h.2.mono hle⟩).mpr ⟨depth, hle, hfile.mpr hw⟩
    rw [← hts] at hm
    exact ⟨m, d, hm, hbare⟩
  · rintro ⟨depth, hw⟩ hdeep
    have := Parses.error_of_too_deep (w := upToEnd ts) (fun _ => parses_module) hstop (hfile.mpr hw)
      (by simpa only [hfile] using hdeep)
    rwa [← hts] at this

theorem makes_nestedName (n : Nat) :
    Makes .file (3 * n + 6) (nestedName n ++ [.newline, .endMarker]) [.expr {} (.name {} "x")] := by
  have hsmall : Makes .small (3 * n + 4) (nestedName n) [.expr {} (.name {} "x")] :=
    .expression (.expr (derives_nestedName n))
  have hline : Makes .simple (3 * n + 5) (separated .semicolon false [nestedName n] ++ [.newline])
      [.expr {} (.name {} "x")] :=
    Makes.simple (List.cons_ne_nil (nestedName n, Stmt.expr {} (.name {} "x")) []) (by simpa using hsmall)
  have hfile := Makes.file (.next (.line hline) .ended)
  simpa [separated, followed] using hfile

theorem module_refuses_nestedName :
    (∃ depth, Makes .file depth ((upToEnd (untied (nestedName 32 ++ [.newline, .endMarker]))).map (·.kind))
      [.expr {} (.name {} "x")]) ∧
      ¬∃ m d, module { input := (untied (nestedName 32 ++ [.newline, .endMarker])).map .ok } = .ok m d := by
  refine ⟨⟨102, makes_nestedName 32⟩, ?_⟩
  rintro ⟨m, d, h⟩
  have hfail : (match module { input := (untied (nestedName 32 ++ [.newline, .endMarker])).map .ok } with
    | .ok _ _ => true
    | .error _ _ => false) = false := by decide +kernel
  rw [h] at hfail
  cases hfail

end Offside.Parse

import Offside.Proofs.AbreastReading

/-! # Expressions abreast

Which expression is read, and how the reading fails, is decided by the kinds of the tokens that are taken and of the one
in sight. One lemma for each production: if the readers below it run abreast, so do the readers of the production. -/

namespace Offside.Parse
variable {α γ : Type} {s s' : List Item} {i j : Nat}

/-! ### Pieces that do not recur -/

theorem tracks_chain {operand operand' : Parse Expr} {node? : Kind → Option (Expr → Expr → Expr)}
    (h : operand.Tracks operand' s s' j Expr.bare)
    (hnode : ∀ k node, node? k = some node → ∀ l l' r r', l'.bare = l.bare → r'.bare = r.bare →
      (node l' r').bare = (node l r).bare) :
    (chain operand node?).Tracks (chain operand' node?) s s' j Expr.bare := by
  intro i hi
  refine (h hi).bind fun first first' k hfirst => ?_
  refine .loop (R := Shows Expr.bare (i + 1)) hfirst fun l l' m hm hl => ?_
  have hm := hl.2
  refine .acceptKind (.pure hl) fun kind node hkind => ?_
  refine (h (by omega)).bind fun r r' n hr => ?_
  obtain ⟨hr, hn⟩ := hr
  exact .pure ⟨⟨hnode kind node hkind l l' r r' hl.1 hr, by omega⟩, by omega⟩

theorem bare_binaryNode {op : BinaryOp} {l l' r r' : Expr} (hl : l'.bare = l.bare) (hr : r'.bare = r.bare) :
    (binaryNode op l' r').bare = (binaryNode op l r).bare := by
  simp only [binaryNode, Expr.bare, hl, hr]

theorem tracks_binaryFrom {operand operand' : Parse Expr} (h : operand.Tracks operand' s s' j Expr.bare)
    (levels : List (List (Symbol × BinaryOp))) :
    (binaryFrom operand levels).Tracks (binaryFrom operand' levels) s s' j Expr.bare := by
  induction levels with
  | nil => exact h
  | cons ops levels ih =>
    refine tracks_chain ih fun k node hk l l' r r' hl hr => ?_
    split at hk
    · obtain ⟨op, -, rfl⟩ := Option.map_eq_some_iff.mp hk
      exact bare_binaryNode hl hr
    · cases hk

/-- Operands with one boolean operator between them. -/
theorem tracks_boolChain {operand operand' : Parse Expr} (h : operand.Tracks operand' s s' j Expr.bare) (word : Keyword)
    (op : BoolOp) :
    (chain operand fun k => if k = .keyword word then some (boolNode op) else none).Tracks
      (chain operand' fun k => if k = .keyword word then some (boolNode op) else none) s s' j Expr.bare := by
  refine tracks_chain h fun k node hk l l' r r' hl hr => ?_
  split at hk
  · obtain rfl := Option.some.inj hk
    simp only [boolNode, Expr.bare, hl, hr]
  · cases hk

theorem abreast_comparisonOp : comparisonOp.Abreast comparisonOp s s' j (Shows id j) := by
  refine .acceptKind ?_ fun k op _ => .pure ⟨rfl, by omega⟩
  refine .accept ?_ fun t t' _ => ?_
  · refine .accept (.pure ⟨rfl, Nat.le_refl j⟩) fun t t' _ => ?_
    refine Abreast.require.bind fun t t' k hk => ?_
    exact .pure ⟨rfl, by omega⟩
  · exact .accept (.pure ⟨rfl, by omega⟩) fun t t' _ => .pure ⟨rfl, by omega⟩

theorem tracks_commaList {item item' : Parse α} {view : α → γ} (h : item.Tracks item' s s' j view) (close : Symbol)
    (description : String) :
    (commaList item close description).Tracks (commaList item' close description) s s' j (List.map view) := by
  intro i hi
  refine .bind (Q := Shows (List.map view) i) ?_ fun items items' k hitems => ?_
  · refine .loop (R := Shows (List.map view) i) ⟨rfl, Nat.le_refl i⟩ fun items items' k hk hitems => ?_
    refine .sees fun closing => ?_
    refine .ite (fun _ => .pure hitems) fun _ => ?_
    refine (h (by omega)).bind fun a a' m ha => ?_
    have hm := ha.2
    have hmore := hitems.append ha.single (by omega)
    exact .accept (.pure hmore) fun t t' _ => .pure ⟨hmore.of_le (by omega), by omega⟩
  · refine Abreast.require.bind fun t t' m hm => .pure ⟨hitems.1, ?_⟩
    have := hitems.2
    omega

theorem tracks_testlistOf {test test' : Parse Expr} (h : test.Tracks test' s s' j Expr.bare) :
    (testlistOf test).Tracks (testlistOf test') s s' j Expr.bare := by
  refine Tracks.within fun i hi => ?_
  refine (h.within hi).bind fun first first' k hfirst => ?_
  refine .sees fun comma => ?_
  refine .ite (fun _ => .pure hfirst) fun _ => ?_
  refine .bind (Q := Shows (List.map Expr.bare) (i + 1)) ?_ fun items items' m hitems => ?_
  · refine .loop (R := Shows (List.map Expr.bare) (i + 1)) hfirst.single fun items items' m hm hitems => ?_
    have hm := hitems.2
    refine .accept (.pure hitems) fun t t' _ => .seesExpr fun more => ?_
    refine .ite (fun _ => ?_) fun _ => .pure (hitems.of_le (by omega))
    refine (h.within (by omega)).bind fun e e' n he => ?_
    have hn := he.2
    exact .pure ⟨hitems.append he.single (by omega), by omega⟩
  · refine .spanFrom fun r r' => .pure ⟨?_, hitems.2⟩
    rw [Expr.bare, Expr.bare, Expr.bareList_eq_map, Expr.bareList_eq_map, hitems.1]

/-! ### Productions over the expressions inside -/

section
variable {below below' : Rule → Parse Expr} (h : ∀ r, (below r).Tracks (below' r) s s' (j + 1) Expr.bare)
include h

theorem tracks_dictEntry :
    (dictEntry below).Tracks (dictEntry below') s s' (j + 1) (Prod.map Expr.bare Expr.bare) := by
  intro i hi
  refine (h .test hi).bind fun key key' k hkey => ?_
  have hk := hkey.2
  refine Abreast.require.bind fun t t' m hm => ?_
  refine (h .test (by omega)).bind fun value value' n hvalue => ?_
  have hn := hvalue.2
  exact .pure ⟨Prod.ext hkey.1 hvalue.1, by omega⟩

/-- Behind the first token of an atom. -/
theorem abreast_atomBody {t t' : Token} (ht : t'.kind = t.kind) (hi : j + 1 ≤ i) :
    (atomBody below t).Abreast (atomBody below' t') s s' i (Shows Expr.bare i) := by
  have hplain {e e' : Expr} (he : e'.bare = e.bare) :
      (pure e : Parse Expr).Abreast (pure e') s s' i (Shows Expr.bare i) := .pure ⟨he, Nat.le_refl i⟩
  unfold atomBody
  rw [ht]
  split
  · exact hplain rfl
  · exact hplain rfl
  · exact hplain rfl
  · exact hplain rfl
  · refine .accept ?_ fun t t' _ => .pure ⟨rfl, Nat.le_succ i⟩
    refine (tracks_testlistOf (h .test) hi).bind fun e e' k he => ?_
    have hk := he.2
    exact Abreast.require.bind fun t t' m hm => .pure ⟨he.1, by omega⟩
  · refine (tracks_commaList (h .test) _ _ hi).bind fun items items' k hitems => .pure ⟨?_, by have := hitems.2; omega⟩
    rw [Expr.bare, Expr.bare, Expr.bareList_eq_map, Expr.bareList_eq_map, hitems.1]
  · refine (tracks_commaList (tracks_dictEntry h) _ _ hi).bind fun entries entries' k hentries =>
      .pure ⟨?_, by have := hentries.2; omega⟩
    rw [Expr.bare, Expr.bare, Expr.bareEntries_eq_map, Expr.bareEntries_eq_map]
    exact congrArg _ hentries.1

theorem tracks_atom : (atom below).Tracks (atom below') s s' j Expr.bare := by
  refine Tracks.within fun i hi => ?_
  refine .takeIf _ .failWanting fun t t' ht _ => ?_
  refine (abreast_atomBody h ht (by omega)).bind fun e e' k he => ?_
  refine .spanFrom fun r r' => .pure ⟨?_, he.2⟩
  rw [Expr.bare_withSpan, Expr.bare_withSpan, he.1]

theorem tracks_atomTrailers : (atomTrailers below).Tracks (atomTrailers below') s s' j Expr.bare := by
  intro i hi
  refine (tracks_atom h hi).bind fun first first' k hfirst => ?_
  refine .loop (R := Shows Expr.bare (i + 1)) hfirst fun owner owner' m hm howner => ?_
  have hle := hfirst.2
  refine .accept ?_ fun t t' _ => ?_
  · refine .accept (.pure howner) fun t t' _ => ?_
    refine Abreast.requireName.bind fun r r' n hr => ?_
    obtain ⟨hname, rfl⟩ := hr
    refine .pure ⟨⟨?_, by omega⟩, by omega⟩
    simp only [Expr.bare, howner.1, hname]
  · refine (tracks_commaList (h .test) _ _ (by omega)).bind fun args args' n hargs => ?_
    have hn := hargs.2
    refine .spanFrom fun r r' => .pure ⟨⟨?_, by omega⟩, by omega⟩
    simp only [Expr.bare, Expr.bareList_eq_map, howner.1, hargs.1]

theorem tracks_power : (power below).Tracks (power below') s s' j Expr.bare := by
  intro i hi
  refine (tracks_atomTrailers h hi).bind fun base base' k hbase => ?_
  have hk := hbase.2
  refine .accept (.pure hbase) fun t t' _ => ?_
  refine (h .factor (by omega)).bind fun e e' m he => ?_
  have hm := he.2
  exact .pure ⟨bare_binaryNode hbase.1 he.1, by omega⟩

theorem tracks_factorBody : (factorBody below).Tracks (factorBody below') s s' j Expr.bare := by
  intro i hi
  refine .acceptMap (tracks_power h hi) fun t t' ht => ?_
  rw [ht]
  cases signOp? t.kind with
  | none => exact .none
  | some op =>
    refine .some ?_
    refine ((h .factor).within (by omega)).bind fun e e' k he => ?_
    refine .pure ⟨?_, by have := he.2; omega⟩
    simp only [Expr.bare, he.1]

theorem tracks_binary : (binary below).Tracks (binary below') s s' j Expr.bare :=
  tracks_binaryFrom (tracks_factorBody h) binaryLevels

theorem tracks_comparison : (comparison below).Tracks (comparison below') s s' j Expr.bare := by
  intro i hi
  refine (tracks_binary h hi).bind fun left left' k hleft => ?_
  have hk := hleft.2
  refine abreast_comparisonOp.bind fun o o' m ho => ?_
  obtain ⟨rfl : o' = o, hm⟩ := ho
  cases o' with
  | none => exact .pure ⟨hleft.1, by omega⟩
  | some op =>
    refine (tracks_binary h (by omega)).bind fun right right' n hright => ?_
    refine .pure ⟨?_, by have := hright.2; omega⟩
    simp only [Expr.bare, hleft.1, hright.1]

theorem tracks_notTestBody : (notTestBody below).Tracks (notTestBody below') s s' j Expr.bare := by
  intro i hi
  refine .accept (tracks_comparison h hi) fun t t' _ => ?_
  refine ((h .notTest).within (by omega)).bind fun e e' k he => ?_
  refine .pure ⟨?_, by have := he.2; omega⟩
  simp only [Expr.bare, he.1]

theorem tracks_orTest : (orTest below).Tracks (orTest below') s s' j Expr.bare :=
  tracks_boolChain (tracks_boolChain (tracks_notTestBody h) .andKw .and) .orKw .or

theorem tracks_testBody : (testBody below).Tracks (testBody below') s s' j Expr.bare := by
  intro i hi
  refine (tracks_orTest h hi).bind fun body body' k hbody => ?_
  have hk := hbody.2
  refine .accept (.pure hbody) fun t t' _ => ?_
  refine (tracks_orTest h (by omega)).bind fun test test' m htest => ?_
  have hm := htest.2
  refine Abreast.require.bind fun t t' n hn => ?_
  refine (h .test (by omega)).bind fun orelse orelse' o horelse => ?_
  refine .pure ⟨?_, by have := horelse.2; omega⟩
  simp only [Expr.bare, hbody.1, htest.1, horelse.1]

theorem tracks_rule (r : Rule) : (rule below r).Tracks (rule below' r) s s' j Expr.bare := by
  cases r with
  | test => exact tracks_testBody h
  | notTest => exact tracks_notTestBody h
  | factor => exact tracks_factorBody h

end

/-! ### The tower -/

theorem tracks_expr (r : Rule) : (expr r).Tracks (expr r) s s' j Expr.bare :=
  Tracks.counted (f := storey) (fun _ _ _ h r => tracks_rule h r) r

theorem tracks_test : test.Tracks test s s' j Expr.bare := (tracks_expr .test).within

theorem tracks_testlist : testlist.Tracks testlist s s' j Expr.bare := tracks_testlistOf (tracks_expr .test)

theorem tracks_operation : operation.Tracks operation s s' j Expr.bare :=
  tracks_binaryFrom (tracks_expr .factor) binaryLevels

theorem abreast_testOpt : testOpt.Abreast testOpt s s' j (Shows (Option.map Expr.bare) j) := by
  refine .seesExpr fun b => .ite (fun _ => ?_) fun _ => .pure ⟨rfl, Nat.le_refl j⟩
  refine (tracks_test (Nat.le_refl j)).bind fun e e' k he => .pure ⟨congrArg some he.1, ?_⟩
  have := he.2
  omega

end Offside.Parse

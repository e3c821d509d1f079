import Offside.Proofs.Repetition

/-! # Expressions are read by their grammar

Every production takes exactly the words that its phrase derives, with the tree of the derivation. A reader
that is given in terms of others, `below`, is judged on one token more than they are: all of them come behind
a token that has been taken. -/

namespace Offside.Parse
open Grammar

variable {all : List Token} {ks rest : List Kind} {room n : Nat} {err : SyntaxFault → Prop}

/-! ### What goes on with a phrase -/

def trailersMore (k : Kind) : Bool := k == .symbol .leftParen || k == .symbol .dot

def powerMore (k : Kind) : Bool := k == .symbol .power || trailersMore k

def operationMore : List (List (Symbol × BinaryOp)) → Kind → Bool
  | [], k => powerMore k
  | ops :: levels, k => (levelNode? ops k).isSome || operationMore levels k

def comparesMore (k : Kind) : Bool := (compareOp? k).isSome || k == .keyword .isKw || k == .keyword .notKw

def comparisonMore (k : Kind) : Bool := comparesMore k || operationMore binaryLevels k

def andMore (k : Kind) : Bool := (boolNode? .andKw .and k).isSome || comparisonMore k

def orMore (k : Kind) : Bool := (boolNode? .orKw .or k).isSome || andMore k

def testMore (k : Kind) : Bool := k == .keyword .ifKw || orMore k

/-! ### The productions -/

/-- The productions for the expressions inside take the words of their phrases, on less than `n` tokens. -/
structure Below (below : Rule → Parse Expr) (n : Nat) : Prop where
  test : (below .test).Parses Expr.bare (Derives .test) testMore n
  notTest : (below .notTest).Parses Expr.bare (Derives .notTest) comparisonMore n
  factor : (below .factor).Parses Expr.bare (Derives .factor) powerMore n

section
variable {below : Rule → Parse Expr} (hbelow : Below below n)
include hbelow

/-- A test as a piece of a list. -/
theorem parses_piece : (below .test).Parses Expr.bare
    (Piecewise (fun k (p : List Kind × Expr) => Derives .test k p.1 p.2) (·.1) (·.2)) testMore n :=
  hbelow.test.congr fun k w e => ⟨fun h => ⟨(w, e), rfl, rfl, h⟩, by rintro ⟨p, rfl, rfl, h⟩; exact h⟩

theorem parses_tests {close : Symbol} {description : String} (hclose : close = .rightParen ∨ close = .rightBracket) :
    (commaList (below .test) close description).Parses (List.map Expr.bare)
      (Listed (fun k (p : List Kind × Expr) => Derives .test k p.1 p.2) (·.1) (·.2) close) (fun _ => false) n := by
  have hbegin : ∀ k (p : List Kind × Expr), Derives .test k p.1 p.2 → Begins startsExpr p.1 :=
    fun _ _ h => h.begins nofun
  rcases hclose with rfl | rfl
  · exact (parses_piece hbelow).commaList rfl rfl nofun rfl hbegin
  · exact (parses_piece hbelow).commaList rfl rfl nofun rfl hbegin

theorem parses_dictEntry : (dictEntry below).Parses (fun p => (p.1.bare, p.2.bare))
    (Piecewise (fun k (e : Entry) => Derives .test k e.keyWords e.key ∧ Derives .test k e.valueWords e.value)
      Entry.words fun e => (e.key, e.value)) testMore n where
  sound hlt := by
    unfold dictEntry
    refine (hbelow.test.sound hlt).bind fun key ks₁ hkey => ?_
    obtain ⟨w, rfl, hw⟩ := hkey
    refine (Reads.require fun _ _ => trivial).bind fun _ ks₂ hks => ?_
    subst hks
    have hlt₂ : ks₂.length < n := by simp at hlt; omega
    refine (hbelow.test.sound hlt₂).bind fun value ks₃ hvalue => ?_
    obtain ⟨v, rfl, hv⟩ := hvalue
    exact .pure ⟨w ++ .symbol .colon :: v, by simp, ⟨w, key.bare, v, value.bare⟩, rfl, rfl, hw, hv⟩
  complete {all room depth w rest b} hlt hw hstop := by
    obtain ⟨e, rfl, rfl, hk, hv⟩ := hw
    unfold dictEntry
    rw [Entry.words, List.append_assoc, List.cons_append] at hlt ⊢
    refine (hbelow.test.complete hlt hk (stops_cons rfl)).bind fun key ks₁ hkey => ?_
    obtain ⟨rfl, hkey⟩ := hkey
    refine (Reads.require_next).bind fun _ ks₂ hks => ?_
    subst hks
    have hlt₂ : (e.valueWords ++ rest).length < n := by simp at hlt ⊢; omega
    refine (hbelow.test.complete hlt₂ hv hstop).bind fun value ks₃ hvalue => ?_
    obtain ⟨rfl, hvalue⟩ := hvalue
    exact .pure ⟨rfl, by rw [hkey, hvalue]⟩

theorem parses_entries : (commaList (dictEntry below) .rightCurly "\x7d").Parses
    (List.map fun p => (p.1.bare, p.2.bare))
    (Listed (fun k (e : Entry) => Derives .test k e.keyWords e.key ∧ Derives .test k e.valueWords e.value)
      Entry.words (fun e => (e.key, e.value)) .rightCurly) (fun _ => false) n :=
  (parses_dictEntry hbelow).commaList rfl rfl nofun rfl fun _ _ h => (h.1.begins nofun).append _

theorem sound_atomBody {t : Token} (ht : startsAtom t.kind = true) (hlt : ks.length < n) :
    (atomBody below t).Reads all room ks (fun _ => True) fun e rest =>
      ∃ w, ks = w ++ rest ∧ Derives .atom (room + 1) (t.kind :: w) e.bare := by
  unfold atomBody
  split
  · next hk => exact .pure ⟨[], rfl, by rw [hk]; exact .name⟩
  · next hk => exact .pure ⟨[], rfl, by rw [hk]; exact .literal rfl⟩
  · next hk => exact .pure ⟨[], rfl, by rw [hk]; exact .literal rfl⟩
  · next hk => exact .pure ⟨[], rfl, by rw [hk]; exact .literal rfl⟩
  · next hk =>
    rw [hk]
    refine (Reads.accept).bind fun o ks₁ ho => ?_
    rcases ho with ⟨u, rfl, rfl⟩ | ⟨rfl, rfl, -⟩
    · exact .pure ⟨[_], rfl, .unit⟩
    · refine ((hbelow.test.testlistOf rfl).sound hlt).bind fun e ks₂ he => ?_
      obtain ⟨w, rfl, hw⟩ := he
      refine (Reads.require fun _ _ => trivial).bind fun _ ks₃ hks => ?_
      subst hks
      exact .pure ⟨w ++ [.symbol .rightParen], by simp, .parens hw⟩
  · next hk =>
    rw [hk]
    refine ((parses_tests hbelow (.inr rfl)).sound hlt).bind fun es ks₁ hes => ?_
    obtain ⟨w, rfl, trailing, pieces, rfl, hes, hp⟩ := hes
    refine .pure ⟨_, rfl, ?_⟩
    rw [Expr.bare, Expr.bareList_eq_map, hes]
    exact .list hp
  · next hname hint hfloat hstring hparen hbracket =>
    obtain hk : t.kind = .symbol .leftCurly := by
      unfold startsAtom at ht
      split at ht
      · next h => exact absurd h (hname _)
      · next h => exact absurd h (hint _)
      · next h => exact absurd h (hfloat _)
      · next h => exact absurd h (hstring _)
      · next h => exact absurd h hparen
      · next h => exact absurd h hbracket
      · next h => exact h
      · cases ht
    rw [hk]
    refine ((parses_entries hbelow).sound hlt).bind fun es ks₁ hes => ?_
    obtain ⟨w, rfl, trailing, entries, rfl, hes, hp⟩ := hes
    refine .pure ⟨_, rfl, ?_⟩
    rw [Expr.bare, Expr.bareEntries_eq_map, hes]
    exact .dict (fun p h => (hp p h).1) fun p h => (hp p h).2

theorem complete_atomBody {t : Token} {k : Kind} {depth : Nat} {w : List Kind} {e : Expr} (hk : t.kind = k)
    (hlt : (w ++ rest).length < n) (hw : Derives .atom (depth + 1) (k :: w) e) :
    (atomBody below t).Reads all room (w ++ rest) (TooDeep room depth) fun a left => left = rest ∧ a.bare = e := by
  unfold atomBody
  cases hw with
  | name =>
    rw [hk]
    exact .pure ⟨rfl, rfl⟩
  | literal h =>
    rw [hk]
    unfold literal? at h
    split at h <;> cases h <;> exact .pure ⟨rfl, rfl⟩
  | unit =>
    rw [hk]
    refine (Reads.accept_next).bind fun o ks₁ ho => ?_
    obtain ⟨⟨u, rfl⟩, rfl⟩ := ho
    exact .pure ⟨rfl, rfl⟩
  | parens hw =>
    rw [hk]
    rw [List.append_assoc] at hlt ⊢
    refine (Reads.accept_other (((hw.begins nofun).append _).head?_ne rfl)).bind fun o ks₁ ho => ?_
    obtain ⟨rfl, rfl⟩ := ho
    refine ((hbelow.test.testlistOf rfl).complete hlt hw (stops_cons rfl)).bind fun e ks₂ he => ?_
    obtain ⟨rfl, he⟩ := he
    refine (Reads.require_next).bind fun _ ks₃ hks => ?_
    subst hks
    exact .pure ⟨rfl, he⟩
  | list hp =>
    rw [hk]
    refine ((parses_tests hbelow (.inr rfl)).complete hlt ⟨_, _, rfl, rfl, hp⟩ stops_nothing).bind fun es ks₁ hes => ?_
    obtain ⟨rfl, hes⟩ := hes
    refine .pure ⟨rfl, ?_⟩
    rw [Expr.bare, Expr.bareList_eq_map, hes]
  | dict hkeys hvalues =>
    rw [hk]
    refine ((parses_entries hbelow).complete hlt ⟨_, _, rfl, rfl, fun p h => ⟨hkeys p h, hvalues p h⟩⟩
      stops_nothing).bind fun es ks₁ hes => ?_
    obtain ⟨rfl, hes⟩ := hes
    refine .pure ⟨rfl, ?_⟩
    rw [Expr.bare, Expr.bareEntries_eq_map, hes]

theorem parses_atom : (atom below).Parses Expr.bare (Derives .atom) (fun _ => false) (n + 1) where
  sound {all room ks} hlt := by
    unfold atom
    refine .within (fun _ => trivial) fun r hr => ?_
    subst hr
    refine Reads.takeIf.bind fun o ks₁ ho => ?_
    rcases ho with ⟨t, rfl, ht, rfl⟩ | ⟨rfl, -, -⟩
    · refine (sound_atomBody hbelow ht (by simpa using hlt)).bind fun e ks₂ he => ?_
      obtain ⟨w, rfl, hw⟩ := he
      refine Reads.spanFrom.bind fun s ks₃ hs => ?_
      subst hs
      exact .pure ⟨t.kind :: w, rfl, by rw [Expr.bare_withSpan]; exact hw⟩
    · exact .failWanting fun _ => trivial
  complete {all room depth w rest e} hlt hw _ := by
    unfold atom
    obtain ⟨k, v, rfl, hk⟩ := hw.begins (by simp)
    obtain ⟨depth, rfl⟩ : ∃ d, depth = d + 1 := by cases hw <;> exact ⟨_, rfl⟩
    refine .within (fun h0 => ⟨by omega, rfl⟩) fun r hr => ?_
    subst hr
    refine Reads.takeIf.bind fun o ks₁ ho => ?_
    rcases ho with ⟨t, hks, ht, rfl⟩ | ⟨-, -, ho⟩
    · obtain ⟨rfl, rfl⟩ := List.cons.inj hks
      refine ((complete_atomBody hbelow rfl (by simpa using hlt) hw).imp (fun _ => TooDeep.succ) fun _ _ h => h).bind
        fun e ks₂ he => ?_
      obtain ⟨rfl, he⟩ := he
      refine Reads.spanFrom.bind fun s ks₃ hs => ?_
      subst hs
      exact .pure ⟨rfl, by rw [Expr.bare_withSpan]; exact he⟩
    · exact absurd hk (by rw [Phrase.starts, ho k rfl]; exact Bool.false_ne_true)

/-- An atom and trailers. -/
inductive Trailed : Nat → List Kind → Expr → Prop where
  | mk {k e} (u o v) (h : Derives .atom k u o) (ht : Derives (.trailers o) k v e) : Trailed k (u ++ v) e

theorem parses_atomTrailers : (atomTrailers below).Parses Expr.bare Trailed trailersMore (n + 1) where
  sound {all room ks} hlt := by
    unfold atomTrailers
    refine ((parses_atom hbelow).sound hlt).bind fun first ks₁ hfirst => ?_
    obtain ⟨w, rfl, hw⟩ := hfirst
    -- whatever is derived as the trailers of what has been read can be put behind it
    refine .loop (R := fun acc ks' => ∃ u, w ++ ks₁ = u ++ ks' ∧
        ∀ v e, Derives (.trailers acc.bare) room v e → Trailed room (u ++ v) e)
      ⟨w, rfl, fun v e hv => .mk w _ v hw hv⟩ ?_
    rintro acc ks' ⟨u, hks, hacc⟩
    rw [hks] at hlt
    refine (Reads.accept).bind fun o ks₂ ho => ?_
    rcases ho with ⟨t, rfl, rfl⟩ | ⟨rfl, rfl, -⟩
    · have hlt₂ : ks₂.length < n := by simp at hlt; omega
      refine ((parses_tests hbelow (.inl rfl)).sound hlt₂).bind fun args ks₃ hargs => ?_
      obtain ⟨a, rfl, trailing, pieces, rfl, hargs, hp⟩ := hargs
      refine Reads.spanFrom.bind fun s ks₄ hs => ?_
      subst hs
      refine .pure ⟨⟨u ++ .symbol .leftParen :: (separated .comma trailing (pieces.map (·.1)) ++ [.symbol .rightParen]), ?_,
        fun v e hv => ?_⟩, by simp; omega⟩
      · rw [hks]
        simp
      · rw [Expr.bare, Expr.bareList_eq_map, hargs] at hv
        have := hacc (.symbol .leftParen :: (separated .comma trailing (pieces.map (·.1)) ++ .symbol .rightParen :: v)) e
          (.call hp hv)
        simpa using this
    · refine (Reads.accept).bind fun o ks₃ ho => ?_
      rcases ho with ⟨t, rfl, rfl⟩ | ⟨rfl, rfl, -⟩
      · refine (Reads.requireName fun _ _ => trivial).bind fun r ks₄ hr => ?_
        subst hr
        refine .pure ⟨⟨u ++ [.symbol .dot, .name r.1], ?_, fun v e hv => ?_⟩, by simp only [List.length_cons]; omega⟩
        · rw [hks]
          simp
        · have := hacc _ _ (.member hv)
          simpa using this
      · refine .pure ⟨u, hks, ?_⟩
        have := hacc [] acc.bare .noTrailer
        rwa [List.append_nil] at this
  complete {all room depth w rest e} hlt hw hstop := by
    obtain ⟨u, o, v, hu, hv⟩ := hw
    unfold atomTrailers
    rw [List.append_assoc] at hlt ⊢
    refine ((parses_atom hbelow).complete hlt hu stops_nothing).bind fun first ks₁ hfirst => ?_
    obtain ⟨rfl, rfl⟩ := hfirst
    refine .loop (R := fun acc ks' => ks'.length < n + 1 ∧ ∃ v, ks' = v ++ rest ∧
        Derives (.trailers acc.bare) depth v e) ⟨by simp at hlt ⊢; omega, v, rfl, hv⟩ ?_
    rintro acc ks' ⟨hlt', v, rfl, hv⟩
    generalize hacc : acc.bare = owner at hv
    cases hv with
    | noTrailer =>
      refine (Reads.accept_other (hstop.head?_ne rfl)).bind fun o ks₂ ho => ?_
      obtain ⟨rfl, rfl⟩ := ho
      refine (Reads.accept_other (hstop.head?_ne rfl)).bind fun o ks₃ ho => ?_
      obtain ⟨rfl, rfl⟩ := ho
      exact .pure ⟨rfl, hacc⟩
    | @call _ _ trailing v _ pieces hp hv =>
      have hsplit : separated .comma trailing (pieces.map (·.1)) ++ Kind.symbol .rightParen :: v ++ rest =
          (separated .comma trailing (pieces.map (·.1)) ++ [.symbol .rightParen]) ++ (v ++ rest) := by simp
      rw [List.cons_append, hsplit] at hlt' ⊢
      refine (Reads.accept_next).bind fun o ks₂ ho => ?_
      obtain ⟨⟨t, rfl⟩, rfl⟩ := ho
      refine ((parses_tests hbelow (.inl rfl)).complete (Nat.lt_of_succ_lt_succ hlt') ⟨_, _, rfl, rfl, hp⟩
        stops_nothing).bind fun args ks₃ hargs => ?_
      obtain ⟨rfl, hargs⟩ := hargs
      refine Reads.spanFrom.bind fun s ks₄ hs => ?_
      subst hs
      refine .pure ⟨⟨by simp at hlt' ⊢; omega, v, rfl, ?_⟩, by simp; omega⟩
      rw [Expr.bare, Expr.bareList_eq_map, hargs, hacc]
      exact hv
    | member hv =>
      refine (Reads.accept_other (by simp)).bind fun o ks₂ ho => ?_
      obtain ⟨rfl, rfl⟩ := ho
      refine (Reads.accept_next).bind fun o ks₃ ho => ?_
      obtain ⟨⟨t, rfl⟩, rfl⟩ := ho
      refine (Reads.requireName_next).bind fun r ks₄ hr => ?_
      obtain ⟨rfl, rfl⟩ := hr
      refine .pure ⟨⟨by simp at hlt' ⊢; omega, _, rfl, ?_⟩,
        by simp only [List.append_eq, List.cons_append, List.length_cons]; omega⟩
      rw [Expr.bare, hacc]
      exact hv

theorem parses_power : (power below).Parses Expr.bare (Derives .power) powerMore (n + 1) where
  sound {all room ks} hlt := by
    unfold power
    refine ((parses_atomTrailers hbelow).sound hlt).bind fun base ks₁ hbase => ?_
    obtain ⟨-, rfl, u, o, v, hu, hv⟩ := hbase
    refine (Reads.accept).bind fun o ks₂ ho => ?_
    rcases ho with ⟨t, rfl, rfl⟩ | ⟨rfl, rfl, -⟩
    · have hlt₂ : ks₂.length < n := by simp at hlt; omega
      refine (hbelow.factor.sound hlt₂).bind fun f ks₃ hf => ?_
      obtain ⟨w, rfl, hw⟩ := hf
      refine .pure ⟨u ++ (v ++ .symbol .power :: w), by simp, ?_⟩
      rw [binaryNode, Expr.bare]
      exact .raised hu hv hw
    · exact .pure ⟨u ++ v, rfl, .unraised hu hv⟩
  complete {all room depth w rest e} hlt hw hstop := by
    unfold power
    have hstop' : Stops trailersMore rest := hstop.imp fun k hk => by simp [powerMore, hk]
    cases hw with
    | unraised hu hv =>
      refine ((parses_atomTrailers hbelow).complete hlt (.mk _ _ _ hu hv) hstop').bind fun base ks₁ hbase => ?_
      obtain ⟨rfl, hbase⟩ := hbase
      refine (Reads.accept_other (hstop.head?_ne rfl)).bind fun o ks₂ ho => ?_
      obtain ⟨rfl, rfl⟩ := ho
      exact .pure ⟨rfl, hbase⟩
    | @raised k u o v e w f hu hv hf =>
      have hsplit : u ++ (v ++ .symbol .power :: w) ++ rest = (u ++ v) ++ .symbol .power :: (w ++ rest) := by simp
      rw [hsplit] at hlt ⊢
      refine ((parses_atomTrailers hbelow).complete hlt (.mk _ _ _ hu hv) (stops_cons rfl)).bind
        fun base ks₁ hbase => ?_
      obtain ⟨rfl, hbase⟩ := hbase
      refine (Reads.accept_next).bind fun o ks₂ ho => ?_
      obtain ⟨⟨t, rfl⟩, rfl⟩ := ho
      have hlt₂ : (w ++ rest).length < n := by simp at hlt ⊢; omega
      refine (hbelow.factor.complete hlt₂ hf hstop).bind fun f ks₃ hf => ?_
      obtain ⟨rfl, hf⟩ := hf
      refine .pure ⟨rfl, ?_⟩
      rw [binaryNode, Expr.bare, hbase, hf]

theorem parses_factorBody : (factorBody below).Parses Expr.bare (Derives .factor) powerMore (n + 1) where
  sound {all room ks} hlt := by
    unfold factorBody
    refine Reads.acceptMap.bind fun o ks₁ ho => ?_
    rcases ho with ⟨t, rfl, hsome, rfl⟩ | ⟨rfl, rfl, -⟩
    · cases hs : signOp? t.kind with
      | none => simp [hs] at hsome
      | some op =>
        refine (hbelow.factor.within.sound (by simpa using hlt)).bind fun e ks₂ he => ?_
        obtain ⟨w, rfl, hw⟩ := he
        refine .pure ⟨t.kind :: w, rfl, ?_⟩
        cases room with
        | zero => exact hw.elim
        | succ room => exact .sign hs hw
    · refine ((parses_power hbelow).sound hlt).imp (fun _ h => h) fun e rest => ?_
      rintro ⟨w, rfl, hw⟩
      exact ⟨w, rfl, .unsigned hw⟩
  complete {all room depth w rest e} hlt hw hstop := by
    unfold factorBody
    refine Reads.acceptMap.bind fun o ks₁ ho => ?_
    cases hw with
    | @sign depth s op w e hs hw =>
      rcases ho with ⟨t, hks, -, rfl⟩ | ⟨-, -, ho⟩
      · obtain ⟨rfl, rfl⟩ := List.cons.inj hks
        rw [hs]
        have hw' : Opened (Derives .factor) (depth + 1) w e := hw
        refine (hbelow.factor.within.complete (by simpa using hlt) hw' hstop).bind fun e ks₂ he => ?_
        obtain ⟨rfl, rfl⟩ := he
        exact .pure ⟨rfl, rfl⟩
      · exfalso
        obtain ⟨t, rfl, ht⟩ := ho s rfl
        simp [hs] at ht
    | unsigned hw =>
      rcases ho with ⟨t, hks, hsome, -⟩ | ⟨rfl, rfl, -⟩
      · exfalso
        obtain ⟨k, v, rfl, hk⟩ := hw.begins nofun
        obtain ⟨rfl, -⟩ := List.cons.inj hks
        cases hkind : t.kind with
        | symbol s => cases s <;> simp [hkind, signOp?, Phrase.starts, startsAtom] at hsome hk
        | _ => simp [hkind, signOp?] at hsome
      · exact (parses_power hbelow).complete hlt hw hstop

end

/-! ### Binary operators and comparisons -/

/-- No operator of a level goes on with an operand of that level. -/
inductive Apart : List (List (Symbol × BinaryOp)) → Prop where
  | nil : Apart []
  | cons {ops levels} (h : ∀ k, (levelNode? ops k).isSome = true → operationMore levels k = false)
      (hl : Apart levels) : Apart (ops :: levels)

theorem apart_binaryLevels : Apart binaryLevels := by
  refine .cons ?_ (.cons ?_ (.cons ?_ (.cons ?_ (.cons ?_ (.cons ?_ .nil)))))
  all_goals
    intro k hk
    cases k with
    | symbol s => cases s <;> first | rfl | cases hk
    | _ => cases hk

theorem parses_binaryFrom {operand : Parse Expr} (h : operand.Parses Expr.bare (Derives .factor) powerMore n)
    {levels : List (List (Symbol × BinaryOp))} (hl : Apart levels) :
    (binaryFrom operand levels).Parses Expr.bare (Derives (.operation levels)) (operationMore levels) n := by
  induction hl with
  | nil => exact h.congr fun k w e => ⟨.noLevel, fun h => by cases h; assumption⟩
  | @cons ops levels happart _ ih =>
    refine (ih.chain (levelNode? ops) (fun k => ?_) happart).congr fun k w e => ⟨?_, fun h => ?_⟩
    · cases k with
      | symbol s =>
        cases hs : ops.lookup s with
        | none => simp [levelNode?, hs]
        | some op => simp [levelNode?, hs, binaryNode, Expr.bare]
      | _ => rfl
    · rintro ⟨w₀, e₀, links, rfl, rfl, h₀, hops, hls⟩
      exact .level h₀ hops hls
    · cases h with
      | level h₀ hops hls => exact ⟨_, _, _, rfl, rfl, h₀, hops, hls⟩

theorem sound_comparisonOp : comparisonOp.Reads all room ks (fun _ => True) fun o rest =>
    match o with
    | none => rest = ks
    | some op => ∃ w, ks = w ++ rest ∧ Compares w op := by
  unfold comparisonOp
  refine Reads.acceptKind.bind fun o ks₁ ho => ?_
  rcases ho with ⟨k, op, rfl, hop, rfl⟩ | ⟨rfl, rfl, -⟩
  · exact .pure ⟨[k], rfl, .one hop⟩
  refine (Reads.accept).bind fun o ks₂ ho => ?_
  rcases ho with ⟨t, rfl, rfl⟩ | ⟨rfl, rfl, -⟩
  · refine (Reads.accept).bind fun o ks₃ ho => ?_
    rcases ho with ⟨t, rfl, rfl⟩ | ⟨rfl, rfl, -⟩
    · exact .pure ⟨[_, _], rfl, .isNot⟩
    · exact .pure ⟨[_], rfl, .is⟩
  refine (Reads.accept).bind fun o ks₃ ho => ?_
  rcases ho with ⟨t, rfl, rfl⟩ | ⟨rfl, rfl, -⟩
  · refine (Reads.require fun _ _ => trivial).bind fun _ ks₄ hks => ?_
    subst hks
    exact .pure ⟨[_, _], rfl, .notIn⟩
  · exact .pure rfl

theorem comparisonOp_other (h : Stops comparesMore ks) :
    comparisonOp.Reads all room ks err fun o rest => o = none ∧ rest = ks := by
  unfold comparisonOp
  refine Reads.acceptKind.bind fun o ks₁ ho => ?_
  rcases ho with ⟨k, op, rfl, hop, rfl⟩ | ⟨rfl, rfl, -⟩
  · exact absurd rfl (h.head?_ne (k := k) (by simp [comparesMore, hop]))
  refine (Reads.accept_other (h.head?_ne rfl)).bind fun o ks₂ ho => ?_
  obtain ⟨rfl, rfl⟩ := ho
  refine (Reads.accept_other (h.head?_ne rfl)).bind fun o ks₃ ho => ?_
  obtain ⟨rfl, rfl⟩ := ho
  exact .pure ⟨rfl, rfl⟩

theorem comparisonOp_next {w : List Kind} {op : CompareOp} (hw : Compares w op)
    (hks : ks.head? ≠ some (.keyword .notKw)) :
    comparisonOp.Reads all room (w ++ ks) err fun o rest => o = some op ∧ rest = ks := by
  unfold comparisonOp
  refine Reads.acceptKind.bind fun o ks₁ ho => ?_
  cases hw with
  | one hop =>
    rcases ho with ⟨k, op', hk, hop', rfl⟩ | ⟨-, -, ho⟩
    · obtain ⟨rfl, rfl⟩ := List.cons.inj hk
      cases hop.symm.trans hop'
      exact .pure ⟨rfl, rfl⟩
    · cases hop.symm.trans (ho _ rfl)
  | is =>
    rcases ho with ⟨k, op', hk, hop', -⟩ | ⟨rfl, rfl, -⟩
    · cases hk
      cases hop'
    refine (Reads.accept_next).bind fun o ks₂ ho => ?_
    obtain ⟨⟨t, rfl⟩, rfl⟩ := ho
    refine (Reads.accept_other hks).bind fun o ks₃ ho => ?_
    obtain ⟨rfl, rfl⟩ := ho
    exact .pure ⟨rfl, rfl⟩
  | isNot =>
    rcases ho with ⟨k, op', hk, hop', -⟩ | ⟨rfl, rfl, -⟩
    · cases hk
      cases hop'
    refine (Reads.accept_next).bind fun o ks₂ ho => ?_
    obtain ⟨⟨t, rfl⟩, rfl⟩ := ho
    refine (Reads.accept_next).bind fun o ks₃ ho => ?_
    obtain ⟨⟨t, rfl⟩, rfl⟩ := ho
    exact .pure ⟨rfl, rfl⟩
  | notIn =>
    rcases ho with ⟨k, op', hk, hop', -⟩ | ⟨rfl, rfl, -⟩
    · cases hk
      cases hop'
    refine (Reads.accept_other (by simp)).bind fun o ks₂ ho => ?_
    obtain ⟨rfl, rfl⟩ := ho
    refine (Reads.accept_next).bind fun o ks₃ ho => ?_
    obtain ⟨⟨t, rfl⟩, rfl⟩ := ho
    refine (Reads.require_next).bind fun _ ks₄ hks => ?_
    subst hks
    exact .pure ⟨rfl, rfl⟩

/-- No word of a comparison goes on with its left side. -/
theorem stops_compares {w : List Kind} {op : CompareOp} (hw : Compares w op) :
    Stops (operationMore binaryLevels) (w ++ ks) := by
  cases hw with
  | one h =>
    refine stops_cons ?_
    unfold compareOp? at h
    split at h <;> first | rfl | cases h
  | is => exact stops_cons rfl
  | isNot => exact stops_cons rfl
  | notIn => exact stops_cons rfl

section
variable {below : Rule → Parse Expr} (hbelow : Below below n)
include hbelow

theorem parses_binary :
    (binary below).Parses Expr.bare (Derives (.operation binaryLevels)) (operationMore binaryLevels) (n + 1) :=
  parses_binaryFrom (parses_factorBody hbelow) apart_binaryLevels

theorem parses_comparison : (comparison below).Parses Expr.bare (Derives .comparison) comparisonMore (n + 1) where
  sound {all room ks} hlt := by
    unfold comparison
    refine ((parses_binary hbelow).sound hlt).bind fun l ks₁ hl => ?_
    obtain ⟨wl, rfl, hl⟩ := hl
    refine sound_comparisonOp.bind fun o ks₂ ho => ?_
    cases o with
    | none =>
      obtain rfl : ks₂ = ks₁ := ho
      exact .pure ⟨wl, rfl, .uncompared hl⟩
    | some op =>
      obtain ⟨wo, rfl, hop⟩ := ho
      have hlt₂ : ks₂.length < n + 1 := by simp at hlt; omega
      refine ((parses_binary hbelow).sound hlt₂).bind fun r ks₃ hr => ?_
      obtain ⟨wr, rfl, hr⟩ := hr
      refine .pure ⟨wl ++ (wo ++ wr), by simp, ?_⟩
      rw [Expr.bare]
      exact .compare hl hop hr
  complete {all room depth w rest e} hlt hw hstop := by
    unfold comparison
    have hstop' : Stops (operationMore binaryLevels) rest := hstop.imp fun k hk => by simp [comparisonMore, hk]
    cases hw with
    | uncompared hw =>
      refine ((parses_binary hbelow).complete hlt hw hstop').bind fun l ks₁ hl => ?_
      obtain ⟨rfl, rfl⟩ := hl
      refine (comparisonOp_other (hstop.imp fun k hk => by simp [comparisonMore, hk])).bind fun o ks₂ ho => ?_
      obtain ⟨rfl, rfl⟩ := ho
      exact .pure ⟨rfl, rfl⟩
    | @compare _ wl wo wr op l r hl hop hr =>
      rw [List.append_assoc, List.append_assoc] at hlt ⊢
      refine ((parses_binary hbelow).complete hlt hl (stops_compares hop)).bind fun l ks₁ hl => ?_
      obtain ⟨rfl, rfl⟩ := hl
      have hbegin := ((hr.begins nofun).append rest).head?_ne (k := .keyword .notKw) rfl
      refine (comparisonOp_next hop hbegin).bind fun o ks₂ ho => ?_
      obtain ⟨rfl, rfl⟩ := ho
      have hlt₂ : (wr ++ rest).length < n + 1 := by simp at hlt ⊢; omega
      refine ((parses_binary hbelow).complete hlt₂ hr hstop').bind fun r ks₃ hr => ?_
      obtain ⟨rfl, rfl⟩ := hr
      exact .pure ⟨rfl, rfl⟩

/-! ### Tests -/

theorem parses_notTestBody : (notTestBody below).Parses Expr.bare (Derives .notTest) comparisonMore (n + 1) where
  sound {all room ks} hlt := by
    unfold notTestBody
    refine (Reads.accept).bind fun o ks₁ ho => ?_
    rcases ho with ⟨t, rfl, rfl⟩ | ⟨rfl, rfl, -⟩
    · refine (hbelow.notTest.within.sound (by simpa using hlt)).bind fun e ks₂ he => ?_
      obtain ⟨w, rfl, hw⟩ := he
      refine .pure ⟨.keyword .notKw :: w, rfl, ?_⟩
      cases room with
      | zero => exact hw.elim
      | succ room => exact .not hw
    · refine ((parses_comparison hbelow).sound hlt).imp (fun _ h => h) fun e rest => ?_
      rintro ⟨w, rfl, hw⟩
      exact ⟨w, rfl, .unnegated hw⟩
  complete {all room depth w rest e} hlt hw hstop := by
    unfold notTestBody
    cases hw with
    | @not depth w e hw =>
      refine (Reads.accept_next).bind fun o ks₁ ho => ?_
      obtain ⟨⟨t, rfl⟩, rfl⟩ := ho
      have hw' : Opened (Derives .notTest) (depth + 1) w e := hw
      refine (hbelow.notTest.within.complete (by simpa using hlt) hw' hstop).bind fun e ks₂ he => ?_
      obtain ⟨rfl, rfl⟩ := he
      exact .pure ⟨rfl, rfl⟩
    | unnegated hw =>
      have hbegin := ((hw.begins nofun).append rest).head?_ne (k := .keyword .notKw) rfl
      refine (Reads.accept_other hbegin).bind fun o ks₁ ho => ?_
      obtain ⟨rfl, rfl⟩ := ho
      exact (parses_comparison hbelow).complete hlt hw hstop

theorem parses_andTest : (andTest below).Parses Expr.bare (Derives .andTest) andMore (n + 1) := by
  refine ((parses_notTestBody hbelow).boolChain rfl).congr fun k w e => ⟨?_, fun h => ?_⟩
  · rintro ⟨w₀, e₀, links, rfl, rfl, h₀, hops, hls⟩
    exact .and h₀ hops hls
  · cases h with
    | and h₀ hops hls => exact ⟨_, _, _, rfl, rfl, h₀, hops, hls⟩

theorem parses_orTest : (orTest below).Parses Expr.bare (Derives .orTest) orMore (n + 1) := by
  refine ((parses_andTest hbelow).boolChain rfl).congr fun k w e => ⟨?_, fun h => ?_⟩
  · rintro ⟨w₀, e₀, links, rfl, rfl, h₀, hops, hls⟩
    exact .or h₀ hops hls
  · cases h with
    | or h₀ hops hls => exact ⟨_, _, _, rfl, rfl, h₀, hops, hls⟩

theorem parses_testBody : (testBody below).Parses Expr.bare (Derives .test) testMore (n + 1) where
  sound {all room ks} hlt := by
    unfold testBody
    refine ((parses_orTest hbelow).sound hlt).bind fun b ks₁ hb => ?_
    obtain ⟨wb, rfl, hb⟩ := hb
    refine (Reads.accept).bind fun o ks₂ ho => ?_
    rcases ho with ⟨t, rfl, rfl⟩ | ⟨rfl, rfl, -⟩
    · have hlt₂ : ks₂.length < n + 1 := by simp at hlt; omega
      refine ((parses_orTest hbelow).sound hlt₂).bind fun t ks₃ ht => ?_
      obtain ⟨wt, rfl, ht⟩ := ht
      refine (Reads.require fun _ _ => trivial).bind fun _ ks₄ hks => ?_
      subst hks
      have hlt₄ : ks₄.length < n := by simp at hlt; omega
      refine (hbelow.test.sound hlt₄).bind fun o ks₅ ho => ?_
      obtain ⟨wo, rfl, ho⟩ := ho
      refine .pure ⟨wb ++ .keyword .ifKw :: (wt ++ .keyword .elseKw :: wo), by simp, ?_⟩
      rw [Expr.bare]
      exact .conditional hb ht ho
    · exact .pure ⟨wb, rfl, .unconditional hb⟩
  complete {all room depth w rest e} hlt hw hstop := by
    unfold testBody
    cases hw with
    | unconditional hw =>
      refine ((parses_orTest hbelow).complete hlt hw (hstop.imp fun k hk => by simp [testMore, hk])).bind
        fun b ks₁ hb => ?_
      obtain ⟨rfl, rfl⟩ := hb
      refine (Reads.accept_other (hstop.head?_ne rfl)).bind fun o ks₂ ho => ?_
      obtain ⟨rfl, rfl⟩ := ho
      exact .pure ⟨rfl, rfl⟩
    | @conditional _ wb wt wo b t o hb ht ho =>
      have hsplit : wb ++ .keyword .ifKw :: (wt ++ .keyword .elseKw :: wo) ++ rest =
          wb ++ .keyword .ifKw :: (wt ++ .keyword .elseKw :: (wo ++ rest)) := by simp
      rw [hsplit] at hlt ⊢
      refine ((parses_orTest hbelow).complete hlt hb (stops_cons rfl)).bind fun b ks₁ hb => ?_
      obtain ⟨rfl, rfl⟩ := hb
      refine (Reads.accept_next).bind fun o ks₂ ho => ?_
      obtain ⟨⟨t, rfl⟩, rfl⟩ := ho
      have hlt₂ : (wt ++ .keyword .elseKw :: (wo ++ rest)).length < n + 1 := by simp at hlt ⊢; omega
      refine ((parses_orTest hbelow).complete hlt₂ ht (stops_cons rfl)).bind fun t ks₃ ht => ?_
      obtain ⟨rfl, rfl⟩ := ht
      refine (Reads.require_next).bind fun _ ks₄ hks => ?_
      subst hks
      have hlt₄ : (wo ++ rest).length < n := by simp at hlt ⊢; omega
      refine (hbelow.test.complete hlt₄ ho hstop).bind fun o ks₅ ho => ?_
      obtain ⟨rfl, rfl⟩ := ho
      exact .pure ⟨rfl, rfl⟩

theorem below_rule : Below (rule below) (n + 1) :=
  ⟨parses_testBody hbelow, parses_notTestBody hbelow, parses_factorBody hbelow⟩

end

/-! ### The tower -/

theorem below_storey (height : Nat) : Below (storey height) height := by
  induction height with
  | zero =>
    constructor
    all_goals exact ⟨fun h => absurd h (Nat.not_lt_zero _), fun h => absurd h (Nat.not_lt_zero _)⟩
  | succ height ih => exact below_rule ih

/-- The storey that is as high as there are tokens ahead is one for which these are few enough. -/
theorem parses_expr {r : Rule} {s : Phrase} {more : Kind → Bool}
    (h : ∀ height, (storey height r).Parses Expr.bare (Derives s) more height) :
    (expr r).Parses Expr.bare (Derives s) more n where
  sound {all room ks} _ c hc := by
    have hlt : ks.length < c.remaining + 1 := by rw [hc.remaining]; exact Nat.lt_succ_self _
    exact (h (c.remaining + 1)).sound hlt c hc
  complete {all room depth w rest e} _ hw hstop c hc := by
    have hlt : (w ++ rest).length < c.remaining + 1 := by rw [hc.remaining]; exact Nat.lt_succ_self _
    exact (h (c.remaining + 1)).complete hlt hw hstop c hc

theorem below_expr : Below expr n :=
  ⟨parses_expr fun m => (below_storey m).test, parses_expr fun m => (below_storey m).notTest,
    parses_expr fun m => (below_storey m).factor⟩

theorem parses_test : test.Parses Expr.bare (Opened (Derives .test)) testMore n := below_expr.test.within

theorem parses_testlist : testlist.Parses Expr.bare (Derives .testlist) (listMore testMore) n :=
  below_expr.test.testlistOf rfl

theorem parses_operation :
    operation.Parses Expr.bare (Derives (.operation binaryLevels)) (operationMore binaryLevels) n :=
  parses_binaryFrom below_expr.factor apart_binaryLevels

/-! ### Lists of tests on a new cursor -/

/-- The kinds that can stand behind a list of tests. -/
def endsTestlist : Kind → Bool
  | .newline | .endMarker => true
  | .symbol s => s.isAugmented || [.colon, .semicolon, .assign, .rightParen, .rightBracket, .rightCurly].contains s
  | _ => false

theorem not_more_of_endsTestlist {k : Kind} (h : endsTestlist k = true) : listMore testMore k = false := by
  cases k with
  | symbol s => cases s <;> first | rfl | cases h
  | newline => rfl
  | endMarker => rfl
  | _ => cases h

theorem stops_of_endsTestlist {rest : List Token} (h : ∀ t ∈ rest.head?, endsTestlist t.kind = true) :
    Stops (listMore testMore) (rest.map (·.kind)) := by
  intro k hk
  obtain ⟨t, ht, rfl⟩ : ∃ t ∈ rest.head?, t.kind = k := by simpa using hk
  exact not_more_of_endsTestlist (h t ht)

/-- A list of tests is read exactly if its tokens derive it and at most `nestingLimit` productions are open at
    once, and then all of its tokens are taken and no other. Tokens that derive one with more productions open
    are refused as nested too deeply. -/
theorem testlist_ok_iff_derives {w rest : List Token} (hrest : ∀ t ∈ rest.head?, endsTestlist t.kind = true) (e : Expr) :
    ((∃ a d, testlist { input := (w ++ rest).map .ok } = .ok a d ∧ d.Faces rest ∧ a.bare = e) ↔
      ∃ depth ≤ nestingLimit, Derives .testlist depth (w.map (·.kind)) e) ∧
    ((∃ depth, Derives .testlist depth (w.map (·.kind)) e) →
      (¬∃ depth ≤ nestingLimit, Derives .testlist depth (w.map (·.kind)) e) →
      ∃ err d, testlist { input := (w ++ rest).map .ok } = .error err d ∧
        err.fault = .tooDeeplyNested nestingLimit) := by
  have hstop := stops_of_endsTestlist hrest
  refine ⟨Parses.ok_iff (fun _ => parses_testlist) hstop fun hm h => h.mono hm, ?_⟩
  rintro ⟨depth, hw⟩ hdeep
  exact Parses.error_of_too_deep (fun _ => parses_testlist) hstop hw hdeep

/-- A name in parentheses. -/
def nestedName : (parens : Nat) → List Kind
  | 0 => [.name "x"]
  | n + 1 => .symbol .leftParen :: (nestedName n ++ [.symbol .rightParen])

theorem derives_nestedName (n : Nat) : Derives .testlist (3 * n + 3) (nestedName n) (.name {} "x") := by
  induction n with
  | zero => exact .only (derives_test_of_atom .name)
  | succ n ih => exact .only (derives_test_of_atom (.parens ih))

def untied (ks : List Kind) : List Token := ks.map fun k => { kind := k, span := {} }

theorem testlist_refuses_nestedName :
    (∃ depth, Derives .testlist depth ((untied (nestedName 33)).map (·.kind)) (.name {} "x")) ∧
      ¬∃ a d, testlist { input := (untied (nestedName 33)).map .ok } = .ok a d := by
  refine ⟨⟨102, derives_nestedName 33⟩, ?_⟩
  rintro ⟨a, d, h⟩
  have hfail : (match testlist { input := (untied (nestedName 33)).map .ok } with
    | .ok _ _ => true
    | .error _ _ => false) = false := by decide +kernel
  rw [h] at hfail
  cases hfail

/-- Two names with a comma between them are a pair in front of a colon. -/
theorem testlist_reads_pair :
    ∃ a d, testlist { input := (untied [.name "x", .symbol .comma, .name "y"] ++ untied [.symbol .colon]).map .ok } =
        .ok a d ∧ d.Faces (untied [.symbol .colon]) ∧ a.bare = .tuple {} [.name {} "x", .name {} "y"] := by
  refine (testlist_ok_iff_derives (by simp [untied, endsTestlist]) _).1.mpr ⟨3, by decide, ?_⟩
  have hpieces : ∀ p ∈ [([Kind.name "x"], Expr.name {} "x"), ([.name "y"], .name {} "y")], Derives .test 1 p.1 p.2 := by
    intro p hp
    rcases List.mem_cons.mp hp with rfl | hp
    · exact derives_test_of_atom .name
    · rw [List.mem_singleton.mp hp]
      exact derives_test_of_atom .name
  have hpair : Derives .testlist 3 (separated .comma false [[.name "x"], [.name "y"]]) (.tuple {} [.name {} "x", .name {} "y"]) :=
    .tuple (.inl (by decide)) hpieces
  exact hpair

end Offside.Parse

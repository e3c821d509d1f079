import Offside.Parse.Expr

/-! # The grammar of expressions

Which kinds of tokens make which expression, up to spans. A derivation also carries how many productions
may be open while its words are read: a list of tests opens two, its own and that of the test inside, and
atoms, signs and negations open one each. -/

namespace Offside

namespace Expr

mutual

/-- An expression without the places it was read from. -/
def bare : Expr → Expr
  | .name _ n => .name {} n
  | .constant _ v => .constant {} v
  | .attribute _ v a => .attribute {} v.bare a
  | .binary _ op l r => .binary {} op l.bare r.bare
  | .bool _ op l r => .bool {} op l.bare r.bare
  | .unary _ op e => .unary {} op e.bare
  | .compare _ op l r => .compare {} op l.bare r.bare
  | .call _ f as => .call {} f.bare (bareList as)
  | .conditional _ t b o => .conditional {} t.bare b.bare o.bare
  | .list _ es => .list {} (bareList es)
  | .tuple _ es => .tuple {} (bareList es)
  | .dict _ es => .dict {} (bareEntries es)

def bareList : List Expr → List Expr
  | [] => []
  | e :: es => e.bare :: bareList es

def bareEntries : List (Expr × Expr) → List (Expr × Expr)
  | [] => []
  | (k, v) :: es => (k.bare, v.bare) :: bareEntries es

end

theorem bareList_eq_map (es : List Expr) : bareList es = es.map bare := by
  induction es with
  | nil => simp only [bareList, List.map_nil]
  | cons e es ih => simp only [bareList, List.map_cons, ih]

theorem bareEntries_eq_map (es : List (Expr × Expr)) : bareEntries es = es.map fun p => (p.1.bare, p.2.bare) := by
  induction es with
  | nil => simp only [bareEntries, List.map_nil]
  | cons e es ih => simp only [bareEntries, List.map_cons, ih]

@[simp] theorem bare_withSpan (s : Span) (e : Expr) : (e.withSpan s).bare = e.bare := by
  cases e <;> simp only [withSpan, bare]

end Expr

namespace Grammar
open Parse (startsAtom startsExpr signOp? compareOp? binaryLevels)

/-! ### Words -/

/-- Pieces with a separator before each of them, and with one more behind the last if `trailing`. -/
def followed (sep : Symbol) (trailing : Bool) : List (List Kind) → List Kind
  | [] => if trailing then [.symbol sep] else []
  | w :: ws => .symbol sep :: (w ++ followed sep trailing ws)

/-- Pieces with a separator between them, and with one more behind the last if `trailing`. -/
def separated (sep : Symbol) (trailing : Bool) : List (List Kind) → List Kind
  | [] => []
  | w :: ws => w ++ followed sep trailing ws

/-- An operator with the operand on its right. -/
structure Link where
  op : Kind
  /-- What the operator makes of the trees on both its sides. -/
  node : Expr → Expr → Expr
  words : List Kind
  tree : Expr

def Link.allWords (l : Link) : List Kind := l.op :: l.words

/-- The tree of a first operand and the links behind it, grouped from the left. -/
def grouped (first : Expr) (links : List Link) : Expr := links.foldl (fun e l => l.node e l.tree) first

/-- A key with the value it stands for. -/
structure Entry where
  keyWords : List Kind
  key : Expr
  valueWords : List Kind
  value : Expr

def Entry.words (e : Entry) : List Kind := e.keyWords ++ .symbol .colon :: e.valueWords

/-- A keyword as a boolean operator. -/
def boolNode? (word : Keyword) (op : BoolOp) (k : Kind) : Option (Expr → Expr → Expr) :=
  if k = .keyword word then some (.bool {} op) else none

/-- The operators of one level. -/
def levelNode? (ops : List (Symbol × BinaryOp)) : Kind → Option (Expr → Expr → Expr)
  | .symbol s => (ops.lookup s).map (.binary {})
  | _ => none

/-- The words of the comparisons; two of them have two words. -/
inductive Compares : List Kind → CompareOp → Prop where
  | one {k : Kind} {op : CompareOp} (h : compareOp? k = some op) : Compares [k] op
  | is : Compares [.keyword .isKw] .is
  | isNot : Compares [.keyword .isKw, .keyword .notKw] .isNot
  | notIn : Compares [.keyword .notKw, .keyword .inKw] .notIn

def literal? : Kind → Option Constant
  | .integer i => some (.integer i)
  | .float x => some (.float x)
  | .string s => some (.string s)
  | _ => none

/-! ### Derivations -/

/-- The nonterminals. -/
inductive Phrase where
  | testlist | test | orTest | andTest | notTest | comparison
  /-- Factors under some levels of binary operators, the loosest first. -/
  | operation (levels : List (List (Symbol × BinaryOp)))
  | factor | power
  /-- Calls and attributes behind what they belong to. -/
  | trailers (owner : Expr)
  | atom

/-- `Derives s depth w e`: the words `w` are a phrase of the sort `s` with the tree `e`, and `depth`
    productions are enough to read it. -/
inductive Derives : Phrase → Nat → List Kind → Expr → Prop where
  | only {k w e} (h : Derives .test k w e) : Derives .testlist (k + 2) w e
  | tuple {k} {trailing : Bool} {pieces : List (List Kind × Expr)} (hlen : 2 ≤ pieces.length ∨ trailing ∧ pieces ≠ [])
      (h : ∀ p ∈ pieces, Derives .test k p.1 p.2) :
      Derives .testlist (k + 2) (separated .comma trailing (pieces.map (·.1))) (.tuple {} (pieces.map (·.2)))
  | unconditional {k w e} (h : Derives .orTest k w e) : Derives .test k w e
  | conditional {k wb wt wo b t o} (hb : Derives .orTest k wb b) (ht : Derives .orTest k wt t)
      (ho : Derives .test k wo o) :
      Derives .test k (wb ++ .keyword .ifKw :: (wt ++ .keyword .elseKw :: wo)) (.conditional {} t b o)
  | or {k w e} {links : List Link} (h : Derives .andTest k w e)
      (hop : ∀ l ∈ links, boolNode? .orKw .or l.op = some l.node) (hl : ∀ l ∈ links, Derives .andTest k l.words l.tree) :
      Derives .orTest k (w ++ links.flatMap Link.allWords) (grouped e links)
  | and {k w e} {links : List Link} (h : Derives .notTest k w e)
      (hop : ∀ l ∈ links, boolNode? .andKw .and l.op = some l.node) (hl : ∀ l ∈ links, Derives .notTest k l.words l.tree) :
      Derives .andTest k (w ++ links.flatMap Link.allWords) (grouped e links)
  | not {k w e} (h : Derives .notTest k w e) : Derives .notTest (k + 1) (.keyword .notKw :: w) (.unary {} .not e)
  | unnegated {k w e} (h : Derives .comparison k w e) : Derives .notTest k w e
  | uncompared {k w e} (h : Derives (.operation binaryLevels) k w e) : Derives .comparison k w e
  | compare {k wl wo wr op l r} (hl : Derives (.operation binaryLevels) k wl l) (hop : Compares wo op)
      (hr : Derives (.operation binaryLevels) k wr r) : Derives .comparison k (wl ++ (wo ++ wr)) (.compare {} op l r)
  | noLevel {k w e} (h : Derives .factor k w e) : Derives (.operation []) k w e
  | level {k w e ops levels} {links : List Link} (h : Derives (.operation levels) k w e)
      (hop : ∀ l ∈ links, levelNode? ops l.op = some l.node)
      (hl : ∀ l ∈ links, Derives (.operation levels) k l.words l.tree) :
      Derives (.operation (ops :: levels)) k (w ++ links.flatMap Link.allWords) (grouped e links)
  | sign {k s op w e} (hs : signOp? s = some op) (h : Derives .factor k w e) :
      Derives .factor (k + 1) (s :: w) (.unary {} op e)
  | unsigned {k w e} (h : Derives .power k w e) : Derives .factor k w e
  | unraised {k w o v e} (h : Derives .atom k w o) (ht : Derives (.trailers o) k v e) : Derives .power k (w ++ v) e
  | raised {k w o v e u f} (h : Derives .atom k w o) (ht : Derives (.trailers o) k v e) (hf : Derives .factor k u f) :
      Derives .power k (w ++ (v ++ .symbol .power :: u)) (.binary {} .pow e f)
  | noTrailer {k o} : Derives (.trailers o) k [] o
  | call {k o trailing w e} {pieces : List (List Kind × Expr)} (h : ∀ p ∈ pieces, Derives .test k p.1 p.2)
      (ht : Derives (.trailers (.call {} o (pieces.map (·.2)))) k w e) :
      Derives (.trailers o) k (.symbol .leftParen :: (separated .comma trailing (pieces.map (·.1)) ++ .symbol .rightParen :: w)) e
  | member {k o n w e} (ht : Derives (.trailers (.attribute {} o n)) k w e) :
      Derives (.trailers o) k (.symbol .dot :: .name n :: w) e
  | name {k n} : Derives .atom (k + 1) [.name n] (.name {} n)
  | literal {k t v} (h : literal? t = some v) : Derives .atom (k + 1) [t] (.constant {} v)
  | unit {k} : Derives .atom (k + 1) [.symbol .leftParen, .symbol .rightParen] (.tuple {} [])
  | parens {k w e} (h : Derives .testlist k w e) :
      Derives .atom (k + 1) (.symbol .leftParen :: (w ++ [.symbol .rightParen])) e
  | list {k trailing} {pieces : List (List Kind × Expr)} (h : ∀ p ∈ pieces, Derives .test k p.1 p.2) :
      Derives .atom (k + 1) (.symbol .leftBracket :: (separated .comma trailing (pieces.map (·.1)) ++ [.symbol .rightBracket]))
        (.list {} (pieces.map (·.2)))
  | dict {k trailing} {entries : List Entry} (hk : ∀ p ∈ entries, Derives .test k p.keyWords p.key)
      (hv : ∀ p ∈ entries, Derives .test k p.valueWords p.value) :
      Derives .atom (k + 1) (.symbol .leftCurly :: (separated .comma trailing (entries.map Entry.words) ++ [.symbol .rightCurly]))
        (.dict {} (entries.map fun p => (p.key, p.value)))

/-- What can be read with some productions open can be read with more of them. -/
theorem Derives.mono {s : Phrase} {k m : Nat} {w : List Kind} {e : Expr} (h : Derives s k w e) (hm : k ≤ m) :
    Derives s m w e := by
  induction h generalizing m with
  | only _ ih =>
    obtain ⟨m, rfl⟩ := Nat.exists_eq_add_of_le' hm
    exact .only (ih (Nat.le_add_left ..))
  | tuple hlen _ ih =>
    obtain ⟨m, rfl⟩ := Nat.exists_eq_add_of_le' hm
    exact .tuple hlen fun p hp => ih p hp (Nat.le_add_left ..)
  | unconditional _ ih => exact .unconditional (ih hm)
  | conditional _ _ _ ihb iht iho => exact .conditional (ihb hm) (iht hm) (iho hm)
  | or _ hop _ ih ihl => exact .or (ih hm) hop fun l hl => ihl l hl hm
  | and _ hop _ ih ihl => exact .and (ih hm) hop fun l hl => ihl l hl hm
  | not _ ih =>
    obtain ⟨m, rfl⟩ := Nat.exists_eq_add_of_le' hm
    exact .not (ih (Nat.le_add_left ..))
  | unnegated _ ih => exact .unnegated (ih hm)
  | uncompared _ ih => exact .uncompared (ih hm)
  | compare _ hop _ ihl ihr => exact .compare (ihl hm) hop (ihr hm)
  | noLevel _ ih => exact .noLevel (ih hm)
  | level _ hop _ ih ihl => exact .level (ih hm) hop fun l hl => ihl l hl hm
  | sign hs _ ih =>
    obtain ⟨m, rfl⟩ := Nat.exists_eq_add_of_le' hm
    exact .sign hs (ih (Nat.le_add_left ..))
  | unsigned _ ih => exact .unsigned (ih hm)
  | unraised _ _ ih iht => exact .unraised (ih hm) (iht hm)
  | raised _ _ _ ih iht ihf => exact .raised (ih hm) (iht hm) (ihf hm)
  | noTrailer => exact .noTrailer
  | call _ _ ih iht => exact .call (fun p hp => ih p hp hm) (iht hm)
  | member _ ih => exact .member (ih hm)
  | name =>
    obtain ⟨m, rfl⟩ := Nat.exists_eq_add_of_le' hm
    exact .name
  | literal hv =>
    obtain ⟨m, rfl⟩ := Nat.exists_eq_add_of_le' hm
    exact .literal hv
  | unit =>
    obtain ⟨m, rfl⟩ := Nat.exists_eq_add_of_le' hm
    exact .unit
  | parens _ ih =>
    obtain ⟨m, rfl⟩ := Nat.exists_eq_add_of_le' hm
    exact .parens (ih (Nat.le_add_left ..))
  | list _ ih =>
    obtain ⟨m, rfl⟩ := Nat.exists_eq_add_of_le' hm
    exact .list fun p hp => ih p hp (Nat.le_add_left ..)
  | dict _ _ ihk ihv =>
    obtain ⟨m, rfl⟩ := Nat.exists_eq_add_of_le' hm
    exact .dict (fun p hp => ihk p hp (Nat.le_add_left ..)) fun p hp => ihv p hp (Nat.le_add_left ..)

theorem derives_operation_of_atom {k : Nat} {w : List Kind} {e : Expr} (h : Derives .atom k w e) :
    Derives (.operation binaryLevels) k w e := by
  have hpower : Derives .power k (w ++ []) e := .unraised h .noTrailer
  rw [List.append_nil] at hpower
  have hlevel : ∀ {ops levels}, Derives (.operation levels) k w e → Derives (.operation (ops :: levels)) k w e := by
    intro ops levels h
    have hl : Derives (.operation (ops :: levels)) k (w ++ List.flatMap Link.allWords []) (grouped e []) :=
      .level h (by simp) (by simp)
    rwa [List.flatMap_nil, List.append_nil] at hl
  exact hlevel (hlevel (hlevel (hlevel (hlevel (hlevel (.noLevel (.unsigned hpower)))))))

theorem derives_test_of_atom {k : Nat} {w : List Kind} {e : Expr} (h : Derives .atom k w e) : Derives .test k w e := by
  have hand : Derives .andTest k (w ++ List.flatMap Link.allWords []) (grouped e []) :=
    .and (.unnegated (.uncompared (derives_operation_of_atom h))) (by simp) (by simp)
  have hor : Derives .orTest k (w ++ List.flatMap Link.allWords [] ++ List.flatMap Link.allWords []) (grouped e []) :=
    .or hand (by simp) (by simp)
  rw [List.flatMap_nil, List.append_nil, List.append_nil] at hor
  exact .unconditional hor

/-! ### How phrases begin -/

/-- The kinds that a phrase can begin with. -/
def Phrase.starts : Phrase → Kind → Bool
  | .testlist, k | .test, k | .orTest, k | .andTest, k | .notTest, k => startsExpr k
  | .comparison, k | .operation _, k | .factor, k => (signOp? k).isSome || startsAtom k
  | .power, k | .atom, k => startsAtom k
  | .trailers _, _ => true

theorem startsExpr_of_startsAtom {k : Kind} (h : startsAtom k = true) : startsExpr k = true := by
  unfold startsExpr
  split <;> first | rfl | exact h

theorem startsExpr_of_sign {k : Kind} (h : ((signOp? k).isSome || startsAtom k) = true) : startsExpr k = true := by
  rcases Bool.or_eq_true_iff.mp h with h | h
  · unfold signOp? at h
    split at h
    · rfl
    · rfl
    · rfl
    · cases h
  · exact startsExpr_of_startsAtom h

theorem startsAtom_of_literal {k : Kind} {v : Constant} (h : literal? k = some v) : startsAtom k = true := by
  unfold literal? at h
  split at h <;> first | rfl | cases h

/-- Words that begin with a kind of which `p` holds. -/
def Begins (p : Kind → Bool) (w : List Kind) : Prop := ∃ k v, w = k :: v ∧ p k = true

theorem Begins.append {p : Kind → Bool} {w : List Kind} (h : Begins p w) (v : List Kind) : Begins p (w ++ v) := by
  obtain ⟨k, u, rfl, hk⟩ := h
  exact ⟨k, u ++ v, rfl, hk⟩

theorem Begins.imp {p q : Kind → Bool} {w : List Kind} (h : Begins p w) (hq : ∀ k, p k = true → q k = true) :
    Begins q w := by
  obtain ⟨k, u, rfl, hk⟩ := h
  exact ⟨k, u, rfl, hq k hk⟩

theorem Begins.head?_ne {p : Kind → Bool} {w : List Kind} {k : Kind} (h : Begins p w) (hk : p k = false) :
    w.head? ≠ some k := by
  obtain ⟨l, u, rfl, hl⟩ := h
  intro he
  rw [Option.some.inj he, hk] at hl
  cases hl

/-- Only trailers can be without words. -/
theorem Derives.begins {s : Phrase} {k : Nat} {w : List Kind} {e : Expr} (h : Derives s k w e)
    (hs : ∀ o, s ≠ .trailers o) : Begins s.starts w := by
  induction h with
  | only _ ih => exact ih nofun
  | @tuple k trailing pieces hlen _ ih =>
    cases pieces with
    | nil => simp at hlen
    | cons p ps => exact (ih p (List.mem_cons_self ..) nofun).append _
  | unconditional _ ih => exact ih nofun
  | conditional _ _ _ ih _ _ => exact (ih nofun).append _
  | or _ _ _ ih _ => exact (ih nofun).append _
  | and _ _ _ ih _ => exact (ih nofun).append _
  | not _ _ => exact ⟨_, _, rfl, rfl⟩
  | unnegated _ ih => exact (ih nofun).imp fun _ => startsExpr_of_sign
  | uncompared _ ih => exact ih nofun
  | compare _ _ _ ih _ => exact (ih nofun).append _
  | noLevel _ ih => exact ih nofun
  | level _ _ _ ih _ => exact (ih nofun).append _
  | sign hop _ _ => exact ⟨_, _, rfl, by rw [Phrase.starts, hop]; rfl⟩
  | unsigned _ ih => exact (ih nofun).imp fun k h => by simpa [Phrase.starts] using Or.inr h
  | unraised _ _ ih _ => exact (ih nofun).append _
  | raised _ _ _ ih _ _ => exact (ih nofun).append _
  | noTrailer => exact absurd rfl (hs _)
  | call => exact absurd rfl (hs _)
  | member => exact absurd rfl (hs _)
  | name => exact ⟨_, _, rfl, rfl⟩
  | literal h => exact ⟨_, _, rfl, startsAtom_of_literal h⟩
  | unit => exact ⟨_, _, rfl, rfl⟩
  | parens => exact ⟨_, _, rfl, rfl⟩
  | list => exact ⟨_, _, rfl, rfl⟩
  | dict => exact ⟨_, _, rfl, rfl⟩

end Grammar

end Offside

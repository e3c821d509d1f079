import Offside.Proofs.ExprGrammar

/-! # The words of an expression's text

The text of an expression shows it with all its parentheses. The tokens of this text are words from which the
grammar derives the expression, and the number of productions that have to be open for this can be read off
the expression. -/

namespace Offside

/-! ### Words -/

def BinaryOp.symbol : BinaryOp → Symbol
  | .add => .plus
  | .sub => .minus
  | .mul => .star
  | .div => .slash
  | .mod => .percent
  | .pow => .power
  | .leftShift => .leftShift
  | .rightShift => .rightShift
  | .bitOr => .bitOr
  | .bitXor => .caret
  | .bitAnd => .bitAnd

def BoolOp.keyword : BoolOp → Keyword
  | .and => .andKw
  | .or => .orKw

def UnaryOp.kind : UnaryOp → Kind
  | .plus => .symbol .plus
  | .minus => .symbol .minus
  | .invert => .symbol .tilde
  | .not => .keyword .notKw

def CompareOp.kinds : CompareOp → List Kind
  | .equal => [.symbol .equal]
  | .notEqual => [.symbol .notEqual]
  | .less => [.symbol .less]
  | .lessEqual => [.symbol .lessEqual]
  | .greater => [.symbol .greater]
  | .greaterEqual => [.symbol .greaterEqual]
  | .is => [.keyword .isKw]
  | .isNot => [.keyword .isKw, .keyword .notKw]
  | .isIn => [.keyword .inKw]
  | .notIn => [.keyword .notKw, .keyword .inKw]

def Constant.kind : Constant → Kind
  | .integer i => .integer i
  | .float x => .float x
  | .string s => .string s

namespace Expr
open Grammar (separated)

def parenthesized (w : List Kind) : List Kind := .symbol .leftParen :: (w ++ [.symbol .rightParen])

mutual

/-- The kinds of the tokens that the text of an expression spells. -/
def words : Expr → List Kind
  | .name _ n => [.name n]
  | .constant _ v => [v.kind]
  | .attribute _ v a => v.words ++ [.symbol .dot, .name a]
  | .binary _ op l r => parenthesized (l.words ++ .symbol op.symbol :: r.words)
  | .bool _ op l r => parenthesized (l.words ++ .keyword op.keyword :: r.words)
  | .unary _ op e => parenthesized (op.kind :: e.words)
  | .compare _ op l r => parenthesized (l.words ++ (op.kinds ++ r.words))
  | .call _ f as => f.words ++ parenthesized (separated .comma false (wordsList as))
  | .conditional _ t b o =>
    parenthesized (b.words ++ .keyword .ifKw :: (t.words ++ .keyword .elseKw :: o.words))
  | .list _ es => .symbol .leftBracket :: (separated .comma false (wordsList es) ++ [.symbol .rightBracket])
  | .tuple _ es => parenthesized (separated .comma (es.length == 1) (wordsList es))
  | .dict _ es => .symbol .leftCurly :: (separated .comma false (wordsEntries es) ++ [.symbol .rightCurly])

def wordsList : List Expr → List (List Kind)
  | [] => []
  | e :: es => e.words :: wordsList es

def wordsEntries : List (Expr × Expr) → List (List Kind)
  | [] => []
  | (k, v) :: es => (k.words ++ .symbol .colon :: v.words) :: wordsEntries es

end

mutual

/-- The number of productions that are open at once while the text of an expression is read as a test. -/
def openings : Expr → Nat
  | .name .. | .constant .. => 1
  | .attribute _ v _ => v.openings
  | .binary _ _ l r | .bool _ _ l r | .compare _ _ l r => max l.openings r.openings + 3
  | .unary _ _ e => e.openings + 4
  | .call _ f as => max f.openings (openingsList as)
  | .conditional _ t b o => max t.openings (max b.openings o.openings) + 3
  | .list _ es => openingsList es + 1
  | .tuple _ es => openingsList es + 3
  | .dict _ es => openingsEntries es + 1

def openingsList : List Expr → Nat
  | [] => 0
  | e :: es => max e.openings (openingsList es)

def openingsEntries : List (Expr × Expr) → Nat
  | [] => 0
  | (k, v) :: es => max k.openings (max v.openings (openingsEntries es))

end

theorem wordsList_eq_map (es : List Expr) : wordsList es = es.map words := by
  induction es with
  | nil => simp only [wordsList, List.map_nil]
  | cons e es ih => simp only [wordsList, List.map_cons, ih]

theorem wordsEntries_eq_map (es : List (Expr × Expr)) :
    wordsEntries es = es.map fun p => p.1.words ++ .symbol .colon :: p.2.words := by
  induction es with
  | nil => simp only [wordsEntries, List.map_nil]
  | cons e es ih => simp only [wordsEntries, List.map_cons, ih]

end Expr

/-! ### The grammar derives the expression -/

namespace Grammar
open Parse (binaryLevels signOp? compareOp?)
variable {k : Nat} {w v : List Kind} {e o : Expr}

theorem derives_operation_of_factor (h : Derives .factor k w e) (levels : List (List (Symbol × BinaryOp))) :
    Derives (.operation levels) k w e := by
  induction levels with
  | nil => exact .noLevel h
  | cons ops levels ih =>
    have hl : Derives (.operation (ops :: levels)) k (w ++ List.flatMap Link.allWords []) (grouped e []) :=
      .level ih (by simp) (by simp)
    rwa [List.flatMap_nil, List.append_nil] at hl

theorem derives_andTest_of_notTest (h : Derives .notTest k w e) : Derives .andTest k w e := by
  have hand : Derives .andTest k (w ++ List.flatMap Link.allWords []) (grouped e []) := .and h (by simp) (by simp)
  rwa [List.flatMap_nil, List.append_nil] at hand

theorem derives_orTest_of_andTest (h : Derives .andTest k w e) : Derives .orTest k w e := by
  have hor : Derives .orTest k (w ++ List.flatMap Link.allWords []) (grouped e []) := .or h (by simp) (by simp)
  rwa [List.flatMap_nil, List.append_nil] at hor

theorem derives_test_of_comparison (h : Derives .comparison k w e) : Derives .test k w e :=
  .unconditional (derives_orTest_of_andTest (derives_andTest_of_notTest (.unnegated h)))

theorem derives_trailers_append {u : List Kind} {f : Expr} (h : Derives (.trailers o) k v e)
    (hf : Derives (.trailers e) k u f) : Derives (.trailers o) k (v ++ u) f := by
  generalize hs : Phrase.trailers o = s at h
  induction h generalizing o with
  | noTrailer =>
    cases hs
    exact hf
  | call h _ _ iht =>
    cases hs
    simp only [List.cons_append, List.append_assoc]
    exact .call h (iht hf rfl)
  | member _ ih =>
    cases hs
    exact .member (ih hf rfl)
  | _ => cases hs

/-- An atom with the calls and attributes behind it. -/
def Primary (k : Nat) (w : List Kind) (e : Expr) : Prop :=
  ∃ u v o, w = u ++ v ∧ Derives .atom k u o ∧ Derives (.trailers o) k v e

namespace Primary

theorem of_atom (h : Derives .atom k w e) : Primary k w e := ⟨w, [], e, by simp, h, .noTrailer⟩

theorem mono {m : Nat} (h : Primary k w e) (hm : k ≤ m) : Primary m w e := by
  obtain ⟨u, v, o, rfl, ho, hv⟩ := h
  exact ⟨u, v, o, rfl, ho.mono hm, hv.mono hm⟩

theorem trailed {u : List Kind} {f : Expr} (h : Primary k w e) (hf : Derives (.trailers e) k u f) : Primary k (w ++ u) f := by
  obtain ⟨x, y, o, rfl, ho, hv⟩ := h
  exact ⟨x, y ++ u, o, List.append_assoc .., ho, derives_trailers_append hv hf⟩

theorem factor (h : Primary k w e) : Derives .factor k w e := by
  obtain ⟨u, v, o, rfl, ho, hv⟩ := h
  exact .unsigned (.unraised ho hv)

theorem operation (h : Primary k w e) (levels : List (List (Symbol × BinaryOp))) : Derives (.operation levels) k w e :=
  derives_operation_of_factor h.factor levels

theorem notTest (h : Primary k w e) : Derives .notTest k w e := .unnegated (.uncompared (h.operation _))

theorem orTest (h : Primary k w e) : Derives .orTest k w e :=
  derives_orTest_of_andTest (derives_andTest_of_notTest h.notTest)

theorem test (h : Primary k w e) : Derives .test k w e := .unconditional h.orTest

end Primary

theorem primary_parens (h : Derives .test k w e) : Primary (k + 3) (Expr.parenthesized w) e := .of_atom (.parens (.only h))

section
variable {l r : Expr} {wl wr : List Kind}

/-- The operators of one level between two operands, under looser levels. -/
theorem derives_link {ops : List (Symbol × BinaryOp)} {s : Symbol} {op : BinaryOp} (hs : ops.lookup s = some op)
    (hl : Primary k wl l) (hr : Primary k wr r) (pre post : List (List (Symbol × BinaryOp))) :
    Derives (.operation (pre ++ ops :: post)) k (wl ++ .symbol s :: wr) (.binary {} op l r) := by
  induction pre with
  | nil =>
    let link : Link := ⟨.symbol s, .binary {} op, wr, r⟩
    have hlevel : Derives (.operation (ops :: post)) k (wl ++ [link].flatMap Link.allWords) (grouped l [link]) := by
      refine .level (hl.operation post) ?_ ?_
      · simp [link, levelNode?, hs]
      · simpa [link] using hr.operation post
    simpa [link, Link.allWords, grouped] using hlevel
  | cons ops' pre ih =>
    have hlevel : Derives (.operation (ops' :: (pre ++ ops :: post))) k
        ((wl ++ .symbol s :: wr) ++ List.flatMap Link.allWords []) (grouped (.binary {} op l r) []) :=
      .level ih (by simp) (by simp)
    rwa [List.flatMap_nil, List.append_nil] at hlevel

theorem derives_binary (op : BinaryOp) (hl : Primary k wl l) (hr : Primary k wr r) :
    Derives (.operation binaryLevels) k (wl ++ .symbol op.symbol :: wr) (.binary {} op l r) := by
  cases op with
  | pow =>
    obtain ⟨u, v, o, rfl, ho, hv⟩ := hl
    rw [List.append_assoc]
    exact derives_operation_of_factor (.unsigned (.raised ho hv hr.factor)) _
  | bitOr => exact derives_link rfl hl hr [] _
  | bitXor => exact derives_link rfl hl hr (binaryLevels.take 1) _
  | bitAnd => exact derives_link rfl hl hr (binaryLevels.take 2) _
  | leftShift => exact derives_link rfl hl hr (binaryLevels.take 3) _
  | rightShift => exact derives_link rfl hl hr (binaryLevels.take 3) _
  | add => exact derives_link rfl hl hr (binaryLevels.take 4) _
  | sub => exact derives_link rfl hl hr (binaryLevels.take 4) _
  | mul => exact derives_link rfl hl hr (binaryLevels.take 5) _
  | div => exact derives_link rfl hl hr (binaryLevels.take 5) _
  | mod => exact derives_link rfl hl hr (binaryLevels.take 5) _

theorem derives_bool (op : BoolOp) (hl : Primary k wl l) (hr : Primary k wr r) :
    Derives .test k (wl ++ .keyword op.keyword :: wr) (.bool {} op l r) := by
  let link : Link := ⟨.keyword op.keyword, .bool {} op, wr, r⟩
  cases op with
  | and =>
    have hand : Derives .andTest k (wl ++ [link].flatMap Link.allWords) (grouped l [link]) := by
      refine .and hl.notTest ?_ ?_
      · simp [link, boolNode?, BoolOp.keyword]
      · simpa [link] using hr.notTest
    exact .unconditional (derives_orTest_of_andTest (by simpa [link, Link.allWords, grouped] using hand))
  | or =>
    have hor : Derives .orTest k (wl ++ [link].flatMap Link.allWords) (grouped l [link]) := by
      refine .or (derives_andTest_of_notTest hl.notTest) ?_ ?_
      · simp [link, boolNode?, BoolOp.keyword]
      · simpa [link] using derives_andTest_of_notTest hr.notTest
    exact .unconditional (by simpa [link, Link.allWords, grouped] using hor)

theorem derives_unary (op : UnaryOp) (h : Primary k w e) : Derives .test (k + 1) (op.kind :: w) (.unary {} op e) := by
  have hsign : ∀ {s}, signOp? s = some op → Derives .test (k + 1) (s :: w) (.unary {} op e) := by
    intro s hs
    exact derives_test_of_comparison (.uncompared (derives_operation_of_factor (.sign hs h.factor) _))
  cases op with
  | plus => exact hsign rfl
  | minus => exact hsign rfl
  | invert => exact hsign rfl
  | not => exact .unconditional (derives_orTest_of_andTest (derives_andTest_of_notTest (.not h.notTest)))

theorem compares_kinds (op : CompareOp) : Compares op.kinds op := by
  cases op with
  | is => exact .is
  | isNot => exact .isNot
  | notIn => exact .notIn
  | _ => exact .one rfl

theorem derives_compare (op : CompareOp) (hl : Primary k wl l) (hr : Primary k wr r) :
    Derives .test k (wl ++ (op.kinds ++ wr)) (.compare {} op l r) :=
  derives_test_of_comparison (.compare (hl.operation _) (compares_kinds op) (hr.operation _))

end

theorem literal?_kind (v : Constant) : literal? v.kind = some v := by
  cases v <;> rfl

theorem map_words (es : List Expr) : es.map Expr.words = (es.map fun e => (e.words, e.bare)).map (·.1) := by
  rw [List.map_map]
  rfl

theorem map_bare (es : List Expr) : es.map Expr.bare = (es.map fun e => (e.words, e.bare)).map (·.2) := by
  rw [List.map_map]
  rfl

section
variable {es : List Expr} (h : ∀ e ∈ es, Derives .test k e.words e.bare)
include h

theorem derives_pieces : ∀ p ∈ es.map fun e => (e.words, e.bare), Derives .test k p.1 p.2 := by
  intro p hp
  obtain ⟨e, he, rfl⟩ := List.mem_map.mp hp
  exact h e he

theorem derives_arguments (o : Expr) : Derives (.trailers o) k
    (Expr.parenthesized (separated .comma false (es.map Expr.words))) (.call {} o (es.map Expr.bare)) := by
  rw [map_words, map_bare]
  exact .call (derives_pieces h) .noTrailer

theorem derives_items : Derives .atom (k + 1)
    (.symbol .leftBracket :: (separated .comma false (es.map Expr.words) ++ [.symbol .rightBracket]))
    (.list {} (es.map Expr.bare)) := by
  rw [map_words, map_bare]
  exact .list (derives_pieces h)

/-- A tuple of one expression has a comma behind it. -/
theorem primary_tuple : Primary (k + 3) (Expr.parenthesized (separated .comma (es.length == 1) (es.map Expr.words)))
    (.tuple {} (es.map Expr.bare)) := by
  cases es with
  | nil => exact .of_atom .unit
  | cons e es =>
    have hlen : 2 ≤ ((e :: es).map fun e => (e.words, e.bare)).length ∨
        ((e :: es).length == 1) = true ∧ (e :: es).map (fun e => (e.words, e.bare)) ≠ [] := by
      cases es with
      | nil => exact .inr ⟨rfl, nofun⟩
      | cons f fs => exact .inl (by simp)
    rw [map_words, map_bare]
    exact .of_atom (.parens (.tuple hlen (derives_pieces h)))

end

def entryOf (p : Expr × Expr) : Entry := ⟨p.1.words, p.1.bare, p.2.words, p.2.bare⟩

theorem derives_dict {es : List (Expr × Expr)}
    (h : ∀ p ∈ es, Derives .test k p.1.words p.1.bare ∧ Derives .test k p.2.words p.2.bare) :
    Derives .atom (k + 1)
      (.symbol .leftCurly ::
        (separated .comma false (es.map fun p => p.1.words ++ .symbol .colon :: p.2.words) ++ [.symbol .rightCurly]))
      (.dict {} (es.map fun p => (p.1.bare, p.2.bare))) := by
  have hentries : ∀ x ∈ es.map entryOf, Derives .test k x.keyWords x.key ∧ Derives .test k x.valueWords x.value := by
    intro x hx
    obtain ⟨p, hp, rfl⟩ := List.mem_map.mp hx
    exact h p hp
  have hwords : es.map (fun p => p.1.words ++ .symbol .colon :: p.2.words) = (es.map entryOf).map Entry.words := by
    rw [List.map_map]
    rfl
  have htrees : es.map (fun p => (p.1.bare, p.2.bare)) = (es.map entryOf).map fun x => (x.key, x.value) := by
    rw [List.map_map]
    rfl
  rw [hwords, htrees]
  exact .dict (fun x hx => (hentries x hx).1) fun x hx => (hentries x hx).2

mutual

/-- The grammar derives every expression from its words. -/
theorem primary_words : (e : Expr) → Primary e.openings e.words e.bare
  | .name _ n => by
    simp only [Expr.openings, Expr.words, Expr.bare]
    exact .of_atom .name
  | .constant _ v => by
    simp only [Expr.openings, Expr.words, Expr.bare]
    exact .of_atom (.literal (literal?_kind v))
  | .attribute _ v a => by
    simp only [Expr.openings, Expr.words, Expr.bare]
    exact (primary_words v).trailed (.member .noTrailer)
  | .binary _ op l r => by
    simp only [Expr.openings, Expr.words, Expr.bare]
    have hl := (primary_words l).mono (Nat.le_max_left _ r.openings)
    have hr := (primary_words r).mono (Nat.le_max_right l.openings _)
    exact primary_parens (derives_test_of_comparison (.uncompared (derives_binary op hl hr)))
  | .bool _ op l r => by
    simp only [Expr.openings, Expr.words, Expr.bare]
    have hl := (primary_words l).mono (Nat.le_max_left _ r.openings)
    have hr := (primary_words r).mono (Nat.le_max_right l.openings _)
    exact primary_parens (derives_bool op hl hr)
  | .unary _ op e => by
    simp only [Expr.openings, Expr.words, Expr.bare]
    exact primary_parens (derives_unary op (primary_words e))
  | .compare _ op l r => by
    simp only [Expr.openings, Expr.words, Expr.bare]
    have hl := (primary_words l).mono (Nat.le_max_left _ r.openings)
    have hr := (primary_words r).mono (Nat.le_max_right l.openings _)
    exact primary_parens (derives_compare op hl hr)
  | .call _ f as => by
    simp only [Expr.openings, Expr.words, Expr.bare, Expr.wordsList_eq_map, Expr.bareList_eq_map]
    have hf := (primary_words f).mono (Nat.le_max_left _ (Expr.openingsList as))
    exact hf.trailed (derives_arguments (fun e he => (derives_list as e he).mono (Nat.le_max_right ..)) f.bare)
  | .conditional _ t b o => by
    simp only [Expr.openings, Expr.words, Expr.bare]
    have ht := (primary_words t).mono (Nat.le_max_left _ (max b.openings o.openings))
    have hb := (primary_words b).mono (Nat.le_trans (Nat.le_max_left _ o.openings) (Nat.le_max_right t.openings _))
    have ho := (primary_words o).mono (Nat.le_trans (Nat.le_max_right b.openings _) (Nat.le_max_right t.openings _))
    exact primary_parens (.conditional hb.orTest ht.orTest ho.test)
  | .list _ es => by
    simp only [Expr.openings, Expr.words, Expr.bare, Expr.wordsList_eq_map, Expr.bareList_eq_map]
    exact .of_atom (derives_items (derives_list es))
  | .tuple _ es => by
    simp only [Expr.openings, Expr.words, Expr.bare, Expr.wordsList_eq_map, Expr.bareList_eq_map]
    exact primary_tuple (derives_list es)
  | .dict _ es => by
    simp only [Expr.openings, Expr.words, Expr.bare, Expr.wordsEntries_eq_map, Expr.bareEntries_eq_map]
    exact .of_atom (derives_dict (derives_entries es))

theorem derives_list : (es : List Expr) → ∀ e ∈ es, Derives .test (Expr.openingsList es) e.words e.bare
  | [] => fun _ h => nomatch h
  | e :: es => by
    simp only [Expr.openingsList]
    refine List.forall_mem_cons.mpr ⟨(primary_words e).test.mono (Nat.le_max_left ..), fun x hx => ?_⟩
    exact (derives_list es x hx).mono (Nat.le_max_right ..)

theorem derives_entries : (es : List (Expr × Expr)) → ∀ p ∈ es,
    Derives .test (Expr.openingsEntries es) p.1.words p.1.bare ∧ Derives .test (Expr.openingsEntries es) p.2.words p.2.bare
  | [] => fun _ h => nomatch h
  | (k, v) :: es => by
    simp only [Expr.openingsEntries]
    have hk := (primary_words k).test.mono (Nat.le_max_left _ (max v.openings (Expr.openingsEntries es)))
    have hv := (primary_words v).test.mono
      (Nat.le_trans (Nat.le_max_left _ (Expr.openingsEntries es)) (Nat.le_max_right k.openings _))
    refine List.forall_mem_cons.mpr ⟨⟨hk, hv⟩, fun x hx => ?_⟩
    have hle : Expr.openingsEntries es ≤ max k.openings (max v.openings (Expr.openingsEntries es)) :=
      Nat.le_trans (Nat.le_max_right ..) (Nat.le_max_right ..)
    exact ⟨(derives_entries es x hx).1.mono hle, (derives_entries es x hx).2.mono hle⟩

end

end Grammar

end Offside

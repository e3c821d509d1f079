import Offside.Proofs.LineShape

/-! # What the marks of a token say

The marks of a token, read off the tokens before it: a token starts a line if a line break or spaces
stand right before it or nothing does, and it has to open a block if a colon was the last text before
it and a line has ended since. A colon is no exception to the first rule, but it is to the second: it
keeps the mark it came with. -/

namespace Offside

variable {before gap : List Kind} {g : Marking} {k : Kind}

/-! ### The tokens before -/

/-- The kinds of the tokens among items. -/
def kindsOf (items : List Item) : List Kind := items.filterMap fun item => item.toOption.map (·.kind)

theorem kindsOf_ok (t : Token) (items : List Item) : kindsOf (.ok t :: items) = t.kind :: kindsOf items := rfl

/-- Whether a kind is a line break or spaces. -/
def Kind.isGap (k : Kind) : Bool := k = .newline || k.isSpaces

/-- What follows comes first on its line. -/
def StartsLine (before : List Kind) : Prop := ∀ k ∈ before.getLast?, k.isGap = true

/-- The last text is a colon, and behind it there is only the gap. -/
def BehindColon (before gap : List Kind) : Prop :=
  (∃ earlier, before = earlier ++ .symbol .colon :: gap) ∧ ∀ k ∈ gap, k.isGap = true

/-- The next line with text has to open a block. -/
def AwaitsBlock (before : List Kind) : Prop := ∃ gap, BehindColon before gap ∧ .newline ∈ gap

theorem startsLine_snoc : StartsLine (before ++ [k]) ↔ k.isGap = true := by simp [StartsLine]

theorem not_behindColon_nil : ¬BehindColon [] gap := by simp [BehindColon]

/-- One more token is the colon itself, or one more gap behind it. -/
theorem behindColon_snoc : BehindColon (before ++ [k]) gap ↔
    k = .symbol .colon ∧ gap = [] ∨ k.isGap = true ∧ ∃ shorter, gap = shorter ++ [k] ∧ BehindColon before shorter := by
  constructor
  · rintro ⟨⟨earlier, hsplit⟩, hgap⟩
    rcases List.eq_nil_or_concat gap with rfl | ⟨shorter, last, rfl⟩
    · exact Or.inl ⟨(List.append_singleton_inj.mp hsplit).2, rfl⟩
    · rw [List.concat_eq_append, ← List.cons_append, ← List.append_assoc, List.append_singleton_inj] at hsplit
      obtain ⟨rfl, rfl⟩ := hsplit
      have hshorter : ∀ x ∈ shorter, x.isGap = true := fun x hx => hgap x (by simp [hx])
      exact Or.inr ⟨hgap k (by simp), shorter, by simp, ⟨earlier, rfl⟩, hshorter⟩
  · rintro (⟨rfl, rfl⟩ | ⟨hk, shorter, rfl, ⟨earlier, rfl⟩, hgap⟩)
    · exact ⟨⟨before, rfl⟩, nofun⟩
    · exact ⟨⟨earlier, by simp⟩, by simpa [or_imp, forall_and, hk] using hgap⟩

/-- A line break or spaces only make the gap longer. -/
theorem exists_behindColon_gap (hk : k.isGap = true) (p : List Kind → Prop) :
    (∃ gap, BehindColon (before ++ [k]) gap ∧ p gap) ↔ ∃ gap, BehindColon before gap ∧ p (gap ++ [k]) := by
  constructor
  · rintro ⟨gap, hgap, hp⟩
    obtain ⟨rfl, -⟩ | ⟨-, shorter, rfl, hshorter⟩ := behindColon_snoc.mp hgap
    · cases hk
    · exact ⟨shorter, hshorter, hp⟩
  · rintro ⟨gap, hgap, hp⟩
    exact ⟨gap ++ [k], behindColon_snoc.mpr (Or.inr ⟨hk, gap, rfl, hgap⟩), hp⟩

/-! ### What the pass remembers -/

namespace Marking

/-- What the pass remembers is what the tokens before say. -/
structure Remembers (g : Marking) (before : List Kind) : Prop where
  start : g.atLineStart = true ↔ StartsLine before
  maybe : g.expectation = .maybeBlock ↔ ∃ gap, BehindColon before gap ∧ .newline ∉ gap
  block : g.expectation = .block ↔ AwaitsBlock before

theorem remembers_nil : Remembers {} [] where
  start := by simp [StartsLine]
  maybe := by simp [not_behindColon_nil]
  block := by simp [AwaitsBlock, not_behindColon_nil]

theorem remembers_colon : (g.after (.symbol .colon)).Remembers (before ++ [.symbol .colon]) where
  start := by simp [startsLine_snoc, after, Kind.isGap, Kind.isSpaces]
  maybe := by simp [after, behindColon_snoc, Kind.isGap, Kind.isSpaces]
  block := by simp [after, AwaitsBlock, behindColon_snoc, Kind.isGap, Kind.isSpaces]

/-- A line break turns what may be a block into what has to be one. -/
theorem Remembers.newline (h : g.Remembers before) : (g.after .newline).Remembers (before ++ [.newline]) where
  start := by simp [startsLine_snoc, after, Kind.isGap]
  maybe := by
    have hnot : (g.after .newline).expectation ≠ .maybeBlock := by
      simp only [after]
      split <;> simp_all
    simp [hnot, exists_behindColon_gap (k := .newline) rfl]
  block := by
    have hafter : (g.after .newline).expectation = .block ↔
        g.expectation = .maybeBlock ∨ g.expectation = .block := by
      simp only [after]
      split <;> simp_all
    rw [hafter, h.maybe, h.block, AwaitsBlock, AwaitsBlock, exists_behindColon_gap rfl, ← exists_or]
    refine exists_congr fun gap => ?_
    by_cases hnewline : .newline ∈ gap <;> simp [hnewline]

theorem Remembers.spaces (h : g.Remembers before) (width : Nat) :
    (g.after (.whitespace width)).Remembers (before ++ [.whitespace width]) where
  start := by simp [startsLine_snoc, after, Kind.isGap, Kind.isSpaces]
  maybe := by simp [after, h.maybe, exists_behindColon_gap (k := .whitespace width) rfl]
  block := by simp [after, h.block, AwaitsBlock, exists_behindColon_gap (k := .whitespace width) rfl]

theorem remembers_text (hgap : k.isGap = false) (hcolon : k ≠ .symbol .colon) :
    (g.after k).Remembers (before ++ [k]) := by
  have hafter : g.after k = ⟨.nothing, false⟩ := by
    unfold after
    split <;> simp_all [Kind.isGap, Kind.isSpaces]
  have hbehind (gap : List Kind) : ¬BehindColon (before ++ [k]) gap := by simp [behindColon_snoc, hgap, hcolon]
  rw [hafter]
  exact ⟨by simp [startsLine_snoc, hgap], by simp [hbehind], by simp [AwaitsBlock, hbehind]⟩

/-- One token more. -/
theorem Remembers.after (h : g.Remembers before) (k : Kind) : (g.after k).Remembers (before ++ [k]) := by
  by_cases hgap : k.isGap = true
  · cases k with
    | newline => exact h.newline
    | whitespace width => exact h.spaces width
    | _ => cases hgap
  · by_cases hcolon : k = .symbol .colon
    · exact hcolon ▸ remembers_colon
    · exact remembers_text (eq_false_of_ne_true hgap) hcolon

end Marking

/-! ### Marked items -/

/-- Whether a token is passed over by the second mark: a colon, a line break or spaces. -/
def Kind.isPassedOver (k : Kind) : Bool := k = .symbol .colon || k.isGap

/-- A token and what marking makes of it behind others. -/
structure Token.MarkedBehind (before : List Kind) (t marked : Token) : Prop where
  kind : marked.kind = t.kind
  span : marked.span = t.span
  start : marked.atLineStart = true ↔ StartsLine before
  block : t.kind.isPassedOver = false → (marked.mustIndent = true ↔ AwaitsBlock before)
  kept : t.kind.isPassedOver = true → marked.mustIndent = t.mustIndent

/-- An item and what marking makes of it: nothing but marks change, and a fault does not change. -/
inductive Item.MarkedBehind (before : List Kind) : Item → Item → Prop
  | fault (fault : Fault) : MarkedBehind before (.error fault) (.error fault)
  | token {t marked : Token} (h : t.MarkedBehind before marked) : MarkedBehind before (.ok t) (.ok marked)

namespace Marking

theorem Remembers.mark (h : g.Remembers before) (t : Token) : t.MarkedBehind before (g.mark t) where
  kind := kind_mark g t
  span := by
    unfold Marking.mark
    split <;> rfl
  start := by rw [atLineStart_mark, h.start]
  block hk := by
    unfold Marking.mark
    split
    case h_4 => simp [h.block]
    all_goals simp_all [Kind.isPassedOver, Kind.isGap, Kind.isSpaces]
  kept hk := by
    unfold Marking.mark
    split
    case h_4 => cases h : t.kind <;> simp_all [Kind.isPassedOver, Kind.isGap, Kind.isSpaces]
    all_goals rfl

/-- Each item is marked by what comes before it, the tokens behind which the pass began included. -/
theorem Remembers.markAll (h : g.Remembers before) (items : List Item) (i : Nat) :
    Option.Rel (Item.MarkedBehind (before ++ kindsOf (items.take i))) items[i]? (g.markAll items)[i]? := by
  induction items generalizing g before i with
  | nil => exact .none
  | cons item items ih =>
    cases item with
    | error fault =>
      cases i with
      | zero => exact .some (.fault fault)
      | succ i => exact ih h i
    | ok t =>
      cases i with
      | zero =>
        have hnone : before ++ kindsOf [] = before := List.append_nil before
        exact .some (.token (hnone.symm ▸ h.mark t))
      | succ i =>
        have hsnoc : before ++ kindsOf ((.ok t :: items).take (i + 1)) =
            before ++ [t.kind] ++ kindsOf (items.take i) := by
          rw [List.take_succ_cons, kindsOf_ok, List.append_assoc, List.singleton_append]
        exact hsnoc ▸ ih (h.after t.kind) i

end Marking

/-- The marks of every token of a list say what the tokens before it say, and nothing else changes. -/
theorem markedBehind_markLines (items : List Item) (i : Nat) :
    Option.Rel (Item.MarkedBehind (kindsOf (items.take i))) items[i]? (markLines items)[i]? :=
  Marking.remembers_nil.markAll items i

/-- A colon that has to open a block is not told so, behind the colon of another line. -/
theorem unmarked_colon : ∃ t marked, (lex .english "if x:\n    :\n")[5]? = some (.ok t) ∧ t.kind = .symbol .colon ∧
    AwaitsBlock (kindsOf ((lex .english "if x:\n    :\n").take 5)) ∧
    (markLines (lex .english "if x:\n    :\n"))[5]? = some (.ok marked) ∧ marked.mustIndent = false := by
  have hbefore : kindsOf ((lex .english "if x:\n    :\n").take 5) =
      [.keyword .ifKw, .name "x"] ++ .symbol .colon :: [.newline, .whitespace 4] := by
    decide +kernel
  have hawaits : AwaitsBlock ([.keyword .ifKw, .name "x"] ++ .symbol .colon :: [.newline, .whitespace 4]) :=
    ⟨_, ⟨⟨_, rfl⟩, by decide⟩, by decide⟩
  let colon : Token := { kind := .symbol .colon, span := { offset := 10, len := 1, line := 2, column := 4 } }
  exact ⟨colon, { colon with atLineStart := true }, by rfl, rfl, hbefore ▸ hawaits, by rfl, rfl⟩

end Offside

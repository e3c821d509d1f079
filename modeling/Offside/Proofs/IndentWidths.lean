import Mathlib.Order.Monotone.Basic
import Offside.Proofs.BlockBalance

/-! # Indentation by its order

Blocks come from comparing the width of a line with the widths of the open blocks, and a width that is less than the
innermost has to be that of an open block or of the text, which is zero. So it does not matter how wide an indentation
is: with other widths in the same order, zero staying zero, every pull answers the same item, and the levels are the
other widths of the levels. -/

namespace Offside

/-! ### Other widths -/

/-- A kind with another width for its spaces, if that is what it is. -/
def Kind.widened (f : Nat → Nat) : Kind → Kind
  | .whitespace w => .whitespace (f w)
  | k => k

/-- A token with another width for its spaces; its span and its marks stay. -/
def Token.widened (f : Nat → Nat) (t : Token) : Token := { t with kind := t.kind.widened f }

/-- An item with another width for its spaces. -/
def Item.widened (f : Nat → Nat) : Item → Item
  | .ok t => .ok (t.widened f)
  | .error fault => .error fault

/-- The levels with other widths. -/
def Levels.widened (f : Nat → Nat) (l : Levels) : Levels := ⟨l.widths.map f⟩

variable {f : Nat → Nat}

@[simp] theorem Token.kind_widened (t : Token) : (t.widened f).kind = t.kind.widened f := rfl

@[simp] theorem Item.widened_ok (t : Token) : Item.widened f (.ok t) = .ok (t.widened f) := rfl

theorem Kind.widened_of_ne {k : Kind} (hk : ∀ w, k ≠ .whitespace w) : k.widened f = k := by
  cases k with
  | whitespace w => exact absurd rfl (hk w)
  | _ => rfl

/-- Only spaces have a width. -/
theorem Token.widened_of_ne {t : Token} (hk : ∀ w, t.kind ≠ .whitespace w) : t.widened f = t := by
  rw [widened, Kind.widened_of_ne hk]

/-! ### Marks -/

theorem Marking.mark_widened (g : Marking) (t : Token) : g.mark (t.widened f) = (g.mark t).widened f := by
  obtain ⟨kind, span, atLineStart, mustIndent⟩ := t
  cases kind with
  | symbol s => cases s <;> rfl
  | _ => rfl

theorem Marking.after_widened (g : Marking) (k : Kind) : g.after (k.widened f) = g.after k := by
  cases k <;> rfl

theorem Marking.markAll_widened (g : Marking) (items : List Item) :
    g.markAll (items.map (Item.widened f)) = (g.markAll items).map (Item.widened f) := by
  induction items generalizing g with
  | nil => rfl
  | cons item items ih =>
    cases item with
    | error fault => exact congrArg (_ :: ·) (ih g)
    | ok t => simp only [List.map_cons, Item.widened_ok, markAll, mark_widened, Token.kind_widened, after_widened, ih]

/-! ### Levels -/

namespace Levels
variable (l : Levels)

theorem top_widened (h0 : f 0 = 0) : (l.widened f).top = f l.top := by
  obtain ⟨widths⟩ := l
  cases widths with
  | nil => exact h0.symm
  | cons w ws => rfl

theorem toList_widened (h0 : f 0 = 0) : (l.widened f).toList = l.toList.map f := by
  simp only [toList, widened, List.map_cons, List.map_reverse, h0]

/-- Blocks are closed up to the same one, and the same number of them. -/
theorem closeTo?_widened (hf : f.Injective) (h0 : f 0 = 0) (w : Nat) :
    (l.widened f).closeTo? (f w) = (l.closeTo? w).map fun c => (c.1, c.2.widened f) := by
  have hinner : (l.widths.map f).takeWhile (· != f w) = (l.widths.takeWhile (· != w)).map f := by
    rw [List.takeWhile_map]
    congr 2
    funext v
    rw [Function.comp_apply, Bool.eq_iff_iff, bne_iff_ne, bne_iff_ne, hf.ne_iff]
  have hzero : f w ≠ 0 ↔ w ≠ 0 := by rw [← h0, hf.ne_iff, h0]
  simp only [closeTo?, widened, hinner, List.length_map, ← List.map_drop, List.map_eq_nil_iff, hzero]
  split <;> rfl

end Levels

/-! ### Blocks -/

namespace Layout

/-- The pass with other widths for the spaces ahead, for those of the current line and for the levels. -/
def widened (f : Nat → Nat) (s : Layout) : Layout :=
  { s with input := s.input.map (Item.widened f), levels := s.levels.widened f, depth := f s.depth }

/-- The same answer, and the pass behind it with other widths. -/
def keepItem (f : Nat → Nat) (a : Item × Layout) : Item × Layout := (a.1, a.2.widened f)

variable (s : Layout) (t : Token)

@[simp] theorem levels_widened : (s.widened f).levels = s.levels.widened f := rfl

@[simp] theorem depth_widened : (s.widened f).depth = f s.depth := rfl

@[simp] theorem afterSpaces_widened : (s.widened f).afterSpaces = s.afterSpaces := rfl

@[simp] theorem lineOpen_widened : (s.widened f).lineOpen = s.lineOpen := rfl

theorem forward_widened : (s.widened f).forward t = keepItem f (s.forward t) := by
  simp only [forward, keepItem]
  cases t.kind <;> rfl

theorem close_widened (ends : Nat) : (s.widened f).close t ends = keepItem f (s.close t ends) := by
  cases ends with
  | zero => exact forward_widened { s with held := none } t
  | succ ends => exact forward_widened { s with held := some ⟨ends, t⟩ } (synthetic .blockEnd t)

theorem finish_widened : (s.widened f).finish t = keepItem f (s.finish t) := by
  have hends : (s.levels.widened f).widths.length = s.levels.widths.length := List.length_map f
  simp only [finish, levels_widened, lineOpen_widened, hends]
  by_cases hm : t.mustIndent = true
  · simp only [hm, if_true]
    rfl
  by_cases ho : s.lineOpen = true
  · simp only [hm, ho, Bool.false_eq_true, if_true, if_false]
    exact forward_widened { s with levels := {}, held := some ⟨s.levels.widths.length, t⟩, finished := true }
      (synthetic .newline t)
  · simp only [hm, ho, Bool.false_eq_true, if_false]
    exact close_widened { s with levels := {}, lineOpen := false, finished := true } t _

/-- A token is placed by how the width of its line compares with the levels. -/
theorem place_widened (hf : StrictMono f) (h0 : f 0 = 0) : (s.widened f).place t = keepItem f (s.place t) := by
  have hsame : (f s.depth == f s.levels.top) = (s.depth == s.levels.top) := by
    rw [Bool.eq_iff_iff, beq_iff_eq, beq_iff_eq, hf.injective.eq_iff]
  simp only [place, levels_widened, depth_widened, Levels.top_widened _ h0, hf.le_iff_le, hf.lt_iff_lt, hsame,
    Levels.closeTo?_widened _ hf.injective h0]
  by_cases hm : t.mustIndent = true
  · by_cases hdeep : s.depth ≤ s.levels.top
    · simp only [hm, hdeep, if_true]
      rfl
    · simp only [hm, hdeep, if_true, if_false]
      exact forward_widened { s with levels := s.levels.push s.depth, held := some ⟨0, t⟩ } (synthetic .blockStart t)
  by_cases hstay : (!t.atLineStart || s.depth == s.levels.top) = true
  · simp only [hm, hstay, Bool.false_eq_true, if_true, if_false]
    exact forward_widened s t
  by_cases hdeep : s.levels.top < s.depth
  · simp only [hm, hstay, hdeep, Bool.false_eq_true, if_true, if_false]
    rfl
  · simp only [hm, hstay, hdeep, Bool.false_eq_true, if_false]
    cases s.levels.closeTo? s.depth with
    | none => rfl
    | some c => exact close_widened { s with levels := c.2 } t c.1

/-- Spaces are never answered, so an answer has no width in it. -/
theorem pull_widened (hf : StrictMono f) (h0 : f 0 = 0) (input : List Item) :
    (s.widened f).pull (input.map (Item.widened f)) = keepItem f (s.pull input) := by
  induction input generalizing s with
  | nil => exact finish_widened { s with input := [] } missingMarker
  | cons item rest ih =>
    cases item with
    | error fault => rfl
    | ok t =>
      have hplace := place_widened { s with input := rest, afterSpaces := false } t hf h0
      simp only [List.map_cons, Item.widened_ok]
      by_cases hspaces : ∃ w, t.kind = .whitespace w
      · obtain ⟨w, hk⟩ := hspaces
        simp only [pull, Token.kind_widened, hk, Kind.widened]
        exact ih { s with depth := w, afterSpaces := true }
      rw [Token.widened_of_ne (not_exists.mp hspaces)]
      simp only [pull, afterSpaces_widened]
      cases hk : t.kind with
      | whitespace w => exact absurd ⟨w, hk⟩ hspaces
      | newline =>
        by_cases hblank : (s.afterSpaces || t.atLineStart) = true
        · have hrest := ih { s with depth := 0, afterSpaces := false }
          simp only [widened, h0] at hrest
          simp only [hblank, if_true]
          exact hrest
        · have hforward := forward_widened (f := f) { s with input := rest, depth := 0, afterSpaces := false } t
          simp only [widened, h0] at hforward
          simp only [hblank, Bool.false_eq_true, if_false]
          exact hforward
      | endMarker => exact finish_widened { s with input := rest } t
      | name | integer | float | string | keyword | symbol | blockStart | blockEnd => exact hplace

theorem next?_widened (hf : StrictMono f) (h0 : f 0 = 0) : (s.widened f).next? = s.next?.map (keepItem f) := by
  obtain ⟨input, levels, depth, spaces, lineOpen, held, finished⟩ := s
  cases held with
  | some h => exact congrArg some (close_widened _ h.token h.ends)
  | none =>
    cases finished with
    | true => rfl
    | false => exact congrArg some (pull_widened ⟨input, levels, depth, spaces, lineOpen, none, false⟩ hf h0 input)

theorem pulls_keep_items (hf : StrictMono f) (h0 : f 0 = 0) (n : Nat) :
    (s.widened f).pulls n = ((s.pulls n).1, (s.pulls n).2.widened f) := by
  induction n generalizing s with
  | zero => rfl
  | succ n ih =>
    simp only [pulls, next?_widened s hf h0]
    cases s.next? with
    | none => rfl
    | some a => simp only [Option.map_some, keepItem, ih]

/-- With other widths in the same order for the spaces of any list of tokens and faults, every pull answers the same
    item, and the levels behind it are the other widths of the levels. -/
theorem pulls_widened (hf : StrictMono f) (h0 : f 0 = 0) (items : List Item) (n : Nat) :
    (pulls n { input := markLines (items.map (Item.widened f)) }).1 = (pulls n { input := markLines items }).1 ∧
    (pulls n { input := markLines (items.map (Item.widened f)) }).2.levels.toList =
      (pulls n { input := markLines items }).2.levels.toList.map f := by
  have hstart : ({ input := markLines (items.map (Item.widened f)) } : Layout) =
      widened f { input := markLines items } := by
    simp only [widened, markLines, Marking.markAll_widened, Levels.widened, List.map_nil, h0]
  rw [hstart, pulls_keep_items _ hf h0]
  exact ⟨rfl, Levels.toList_widened _ h0⟩

/-- A line, a line in a block on it, and one in a block on that. -/
def stairs : List Item :=
  let token (kind : Kind) : Item := .ok { kind, span := {} }
  [token (.name "a"), token (.symbol .colon), token .newline, token (.whitespace 2), token (.name "b"),
    token (.symbol .colon), token .newline, token (.whitespace 4), token (.name "c"), token .newline]

/-- The squares of the widths. -/
theorem pulls_widened_stairs :
    StrictMono (fun w : Nat => w * w) ∧
    (pulls 9 { input := markLines (stairs.map (Item.widened fun w => w * w)) }).1 =
      (pulls 9 { input := markLines stairs }).1 ∧
    (pulls 9 { input := markLines stairs }).1.length = 9 ∧
    (pulls 9 { input := markLines stairs }).2.levels.toList = [0, 2, 4] ∧
    (pulls 9 { input := markLines (stairs.map (Item.widened fun w => w * w)) }).2.levels.toList = [0, 4, 16] := by
  have hf : StrictMono (fun w : Nat => w * w) := fun _ _ h => Nat.mul_self_lt_mul_self h
  have hlevels : (pulls 9 { input := markLines stairs }).2.levels.toList = [0, 2, 4] := by decide
  obtain ⟨hitems, hother⟩ := pulls_widened hf rfl stairs 9
  rw [hlevels] at hother
  exact ⟨hf, hitems, by decide, hlevels, hother⟩

end Layout

end Offside

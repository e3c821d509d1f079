import Mathlib.Combinatorics.Enumerative.DyckWord
import Offside.Proofs.LayoutByLines

/-! # Blocks are balanced

Whatever marks the tokens carry, the layout pass never closes a block that it has not opened: the blocks
opened and not yet closed in what it has answered are the levels it keeps and the block ends it holds back.
So a run without a fault answers balanced blocks, ends its last line before it closes them, and answers the
end marker once, as its last item. -/

namespace Offside
open DyckStep

/-! ### Block starts and ends -/

/-- A block start as a step up and a block end as a step down. -/
def bracket? : Item → Option DyckStep
  | .error _ => none
  | .ok t =>
    match t.kind with
    | .blockStart => some U
    | .blockEnd => some D
    | _ => none

/-- The block starts and ends among items. -/
def brackets (items : List Item) : List DyckStep := items.filterMap bracket?

theorem brackets_concat (out : List Item) (item : Item) : brackets (out ++ [item]) = brackets out ++ (bracket? item).toList := by
  cases h : bracket? item <;> simp [brackets, h]

theorem bracket?_eq_none {t : Token} (h : t.kind.isSynthetic = false) : bracket? (.ok t) = none := by
  cases hk : t.kind <;> simp_all [bracket?, Kind.isSynthetic]

/-- No beginning of the items closes more blocks than it opens, and `opened` blocks are left open. -/
structure Ledger (out : List Item) (opened : Nat) : Prop where
  count : (brackets out).count U = (brackets out).count D + opened
  nested : ∀ i, ((brackets out).take i).count D ≤ ((brackets out).take i).count U

namespace Ledger
variable {out : List Item} {item : Item} {opened : Nat}

theorem nil : Ledger [] 0 := ⟨rfl, fun i => by simp [brackets]⟩

/-- One more step only has to be weighed at the end. -/
theorem take_concat (h : Ledger out opened) (step : DyckStep)
    (hend : (brackets out ++ [step]).count D ≤ (brackets out ++ [step]).count U) (i : Nat) :
    ((brackets out ++ [step]).take i).count D ≤ ((brackets out ++ [step]).take i).count U := by
  by_cases hi : i ≤ (brackets out).length
  · rw [List.take_append_of_le_length hi]
    exact h.nested i
  · have hlen : (brackets out ++ [step]).length ≤ i := by
      rw [List.length_append, List.length_singleton]
      omega
    rw [List.take_of_length_le hlen]
    exact hend

theorem up (h : Ledger out opened) (hitem : bracket? item = some U) : Ledger (out ++ [item]) (opened + 1) := by
  have hbr : brackets (out ++ [item]) = brackets out ++ [U] := by rw [brackets_concat, hitem]; rfl
  have hcount : (brackets out ++ [U]).count U = (brackets out ++ [U]).count D + (opened + 1) := by
    have := h.count
    simp
    omega
  refine ⟨by rw [hbr, hcount], fun i => ?_⟩
  rw [hbr]
  exact h.take_concat U (by omega) i

theorem down (h : Ledger out (opened + 1)) (hitem : bracket? item = some D) : Ledger (out ++ [item]) opened := by
  have hbr : brackets (out ++ [item]) = brackets out ++ [D] := by rw [brackets_concat, hitem]; rfl
  have hcount : (brackets out ++ [D]).count U = (brackets out ++ [D]).count D + opened := by
    have := h.count
    simp
    omega
  refine ⟨by rw [hbr, hcount], fun i => ?_⟩
  rw [hbr]
  exact h.take_concat D (by omega) i

theorem level (h : Ledger out opened) (hitem : bracket? item = none) : Ledger (out ++ [item]) opened := by
  have hbr : brackets (out ++ [item]) = brackets out := by rw [brackets_concat, hitem]; simp
  exact ⟨by rw [hbr]; exact h.count, fun i => by rw [hbr]; exact h.nested i⟩

end Ledger

/-! ### Levels -/

namespace Levels

theorem toList_eq (l : Levels) : l.toList = l.stack.reverse := by simp [toList, stack]

theorem sorted_push {l : Levels} {w : Nat} (hs : l.stack.Pairwise (· > ·)) (hw : l.top < w) :
    (l.push w).stack.Pairwise (· > ·) := by
  refine List.pairwise_cons.mpr ⟨fun v hv => ?_, hs⟩
  have hle := Layout.le_headD_of_mem hs hv
  rw [headD_stack] at hle
  omega

theorem of_closeTo? {l l' : Levels} {w ends : Nat} (h : l.closeTo? w = some (ends, l')) :
    l'.widths = l.widths.drop ends ∧ ends ≤ l.widths.length := by
  simp only [closeTo?] at h
  split at h
  · cases h
  · obtain ⟨rfl, rfl⟩ := Prod.mk.inj (Option.some.inj h)
    exact ⟨rfl, (List.takeWhile_sublist _).length_le⟩

theorem sorted_closeTo? {l l' : Levels} {w ends : Nat} (h : l.closeTo? w = some (ends, l'))
    (hs : l.stack.Pairwise (· > ·)) : l'.stack.Pairwise (· > ·) := by
  have hsub : List.Sublist l'.stack l.stack := by
    rw [stack, (of_closeTo? h).1]
    exact (List.drop_sublist _ _).append (List.Sublist.refl _)
  exact hs.sublist hsub

end Levels

/-! ### What has been answered -/

/-- Items without a fault and without an end marker. -/
def Plain (out : List Item) : Prop := ∀ item ∈ out, ∃ t, item = .ok t ∧ t.kind ≠ .endMarker

/-- Nothing, or items of which the last is a line break. -/
def Tidy (out : List Item) : Prop := out = [] ∨ ∃ before t, out = before ++ [.ok t] ∧ t.kind = .newline

theorem Plain.nil : Plain [] := fun _ h => nomatch h

theorem Plain.concat {out : List Item} {t : Token} (h : Plain out) (ht : t.kind ≠ .endMarker) : Plain (out ++ [.ok t]) := by
  intro item hitem
  rcases List.mem_append.mp hitem with hitem | hitem
  · exact h item hitem
  · exact ⟨t, List.mem_singleton.mp hitem, ht⟩

/-- Block ends and nothing else. -/
def BlockEnds (items : List Item) : Prop := ∀ item ∈ items, ∃ t, item = .ok t ∧ t.kind = .blockEnd

theorem BlockEnds.nil : BlockEnds [] := fun _ h => nomatch h

theorem BlockEnds.concat {items : List Item} {t : Token} (h : BlockEnds items) (ht : t.kind = .blockEnd) :
    BlockEnds (items ++ [.ok t]) := by
  intro item hitem
  rcases List.mem_append.mp hitem with hitem | hitem
  · exact h item hitem
  · exact ⟨t, List.mem_singleton.mp hitem, ht⟩

namespace Layout

/-- The block ends that are held back. -/
def pendingEnds (s : Layout) : Nat := (s.held.map Held.ends).getD 0

/-- What the pass is doing, seen from what it has answered. -/
inductive Phase : List Item → Layout → Prop
  | reading {out : List Item} {s : Layout} : s.held = none → s.finished = false → Plain out →
    (s.lineOpen = false → Tidy out) → Phase out s
  | holding {out : List Item} {s : Layout} {h : Held} : s.held = some h → s.finished = false →
    h.token.kind.isText = true → Plain out → Phase out s
  | closing {body ends : List Item} {s : Layout} {h : Held} : s.held = some h → s.finished = true →
    h.token.kind = .endMarker → s.levels = {} → Plain body → Tidy body → BlockEnds ends → Phase (body ++ ends) s
  | closed {body ends : List Item} {s : Layout} {marker : Token} : s.held = none → s.finished = true →
    marker.kind = .endMarker → s.levels = {} → Plain body → Tidy body → BlockEnds ends →
    Phase (body ++ ends ++ [.ok marker]) s
  | failed {out : List Item} {s : Layout} (fault : Fault) : s.held = none → s.finished = true → Plain out →
    Phase (out ++ [.error fault]) s

/-- What holds of the pass after it has answered `out`. -/
structure Reached (out : List Item) (s : Layout) : Prop where
  clean : ∀ t, .ok t ∈ s.input → t.kind.isSynthetic = false
  sorted : s.levels.stack.Pairwise (· > ·)
  ledger : Ledger out (s.levels.widths.length + s.pendingEnds)
  phase : Phase out s

variable {out : List Item} {s : Layout} {t : Token}

theorem isSynthetic_of_isText {k : Kind} (hk : k.isText = true) : k.isSynthetic = false := by
  cases k <;> simp_all [Kind.isText, Kind.isSynthetic]

theorem forward_marker (ht : t.kind = .endMarker) : s.forward t = (.ok t, s) := by
  simp only [forward, ht]

/-- A fault is the last answer. -/
theorem Reached.fail (hclean : ∀ t, .ok t ∈ s.input → t.kind.isSynthetic = false)
    (hsorted : s.levels.stack.Pairwise (· > ·)) (hledger : Ledger out s.levels.widths.length) (hplain : Plain out)
    (fault : Fault) : Reached (out ++ [(s.fail fault).1]) (s.fail fault).2 :=
  ⟨hclean, hsorted, hledger.level rfl, .failed fault rfl rfl hplain⟩

/-- What is held back comes next: a block end before the token, or the token. -/
theorem Reached.close {h : Held} (hr : Reached out s) (hh : s.held = some h) :
    Reached (out ++ [(s.close h.token h.ends).1]) (s.close h.token h.ends).2 := by
  obtain ⟨ends, t⟩ := h
  have hledger : Ledger out (s.levels.widths.length + ends) := by
    have := hr.ledger
    rwa [pendingEnds, hh] at this
  have hphase := hr.phase
  cases ends with
  | zero =>
    simp only [Layout.close]
    cases hphase with
    | reading hnone => simp [hnone] at hh
    | @holding _ _ h' hsome hfin htext hplain =>
      obtain rfl : h' = ⟨0, t⟩ := Option.some.inj (hsome.symm.trans hh)
      rw [forward_text htext]
      refine ⟨hr.clean, hr.sorted, hledger.level (bracket?_eq_none (isSynthetic_of_isText htext)), ?_⟩
      exact .reading rfl hfin (hplain.concat (ne_endMarker_of_isText htext)) (by simp)
    | @closing body ends _ h' hsome hfin hmark hlev hplain htidy hends =>
      obtain rfl : h' = ⟨0, t⟩ := Option.some.inj (hsome.symm.trans hh)
      rw [forward_marker hmark]
      have hnone : bracket? (.ok t) = none := bracket?_eq_none (by rw [show t.kind = .endMarker from hmark]; rfl)
      exact ⟨hr.clean, hr.sorted, hledger.level hnone, .closed rfl hfin hmark hlev hplain htidy hends⟩
    | closed hnone => simp [hnone] at hh
    | failed _ hnone => simp [hnone] at hh
  | succ ends =>
    simp only [Layout.close]
    rw [forward_synthetic rfl]
    have hdown : Ledger (out ++ [.ok (synthetic .blockEnd t)]) (s.levels.widths.length + ends) := hledger.down rfl
    refine ⟨hr.clean, hr.sorted, hdown, ?_⟩
    cases hphase with
    | reading hnone => simp [hnone] at hh
    | @holding _ _ h' hsome hfin htext hplain =>
      obtain rfl : h' = ⟨ends + 1, t⟩ := Option.some.inj (hsome.symm.trans hh)
      exact .holding rfl hfin htext (hplain.concat (by simp [synthetic]))
    | @closing body before _ h' hsome hfin hmark hlev hplain htidy hends =>
      obtain rfl : h' = ⟨ends + 1, t⟩ := Option.some.inj (hsome.symm.trans hh)
      rw [List.append_assoc]
      exact .closing rfl hfin hmark hlev hplain htidy (hends.concat rfl)
    | closed hnone => simp [hnone] at hh
    | failed _ hnone => simp [hnone] at hh

/-- Putting a token behind block ends is holding it back behind them. -/
theorem close_held (s : Layout) (h : Option Held) (t : Token) (ends : Nat) :
    close { s with held := h } t ends = s.close t ends := by
  cases ends <;> rfl

/-- The pass in the middle of its input, with nothing held back. -/
structure Ongoing (out : List Item) (s : Layout) : Prop where
  clean : ∀ t, .ok t ∈ s.input → t.kind.isSynthetic = false
  sorted : s.levels.stack.Pairwise (· > ·)
  ledger : Ledger out s.levels.widths.length
  held : s.held = none
  finished : s.finished = false
  plain : Plain out
  tidy : s.lineOpen = false → Tidy out

theorem Ongoing.reading (h : Ongoing out s) {input : List Item} (hclean : ∀ t, .ok t ∈ input → t.kind.isSynthetic = false)
    (depth : Nat) (afterSpaces : Bool) : Ongoing out { s with input, depth, afterSpaces } :=
  ⟨hclean, h.sorted, h.ledger, h.held, h.finished, h.plain, h.tidy⟩

theorem Ongoing.finish (h : Ongoing out s) {marker : Token} (hm : marker.kind = .endMarker) :
    Reached (out ++ [(s.finish marker).1]) (s.finish marker).2 := by
  have hbase : ({} : Levels).stack.Pairwise (· > ·) := List.pairwise_singleton _ _
  unfold Layout.finish
  cases hi : marker.mustIndent with
  | true => exact .fail h.clean h.sorted h.ledger h.plain _
  | false =>
    cases ho : s.lineOpen with
    | true =>
      have hledger : Ledger (out ++ [.ok (synthetic .newline marker)]) (0 + s.levels.widths.length) := by
        rw [Nat.zero_add]
        exact h.ledger.level rfl
      have htidy : Tidy (out ++ [.ok (synthetic .newline marker)]) := .inr ⟨out, _, rfl, rfl⟩
      have hplain : Plain (out ++ [.ok (synthetic .newline marker)]) := h.plain.concat (by simp [synthetic])
      have hphase := Phase.closing (s := { s with
        levels := {}, lineOpen := false, held := some ⟨s.levels.widths.length, marker⟩, finished := true })
        rfl rfl hm rfl hplain htidy .nil
      rw [List.append_nil] at hphase
      exact ⟨h.clean, hbase, hledger, hphase⟩
    | false =>
      have hphase := Phase.closing (s := { s with
        levels := {}, held := some ⟨s.levels.widths.length, marker⟩, finished := true })
        rfl rfl hm rfl h.plain (h.tidy ho) .nil
      rw [List.append_nil] at hphase
      have hledger : Ledger out (0 + s.levels.widths.length) := by
        rw [Nat.zero_add]
        exact h.ledger
      have hheld : Reached out { s with
        levels := {}, held := some ⟨s.levels.widths.length, marker⟩, finished := true } :=
        ⟨h.clean, hbase, hledger, hphase⟩
      have hclose := hheld.close rfl
      rw [close_held { s with levels := {}, finished := true }, ho] at hclose
      exact hclose

theorem Ongoing.place (h : Ongoing out s) (ht : t.kind.isText = true) :
    Reached (out ++ [(s.place t).1]) (s.place t).2 := by
  have hforward : Reached (out ++ [(s.forward t).1]) (s.forward t).2 := by
    rw [forward_text ht]
    have hledger : Ledger (out ++ [.ok t]) s.levels.widths.length := h.ledger.level (bracket?_eq_none (isSynthetic_of_isText ht))
    refine ⟨h.clean, h.sorted, by simpa [pendingEnds, h.held] using hledger, ?_⟩
    exact .reading h.held h.finished (h.plain.concat (ne_endMarker_of_isText ht)) (by simp)
  simp only [Layout.place]
  split
  · split
    · exact .fail h.clean h.sorted h.ledger h.plain _
    · next hdeep =>
      rw [forward_synthetic rfl]
      have hledger : Ledger (out ++ [.ok (synthetic .blockStart t)]) (s.levels.widths.length + 1) := h.ledger.up rfl
      exact ⟨h.clean, Levels.sorted_push h.sorted (by omega), hledger, .holding rfl h.finished ht (h.plain.concat (by simp [synthetic]))⟩
  · split
    · exact hforward
    · split
      · exact .fail h.clean h.sorted h.ledger h.plain _
      · split
        · exact .fail h.clean h.sorted h.ledger h.plain _
        · next ends levels hclose =>
          obtain ⟨hwidths, hle⟩ := Levels.of_closeTo? hclose
          have hledger : Ledger out (levels.widths.length + ends) := by
            have hlen : levels.widths.length + ends = s.levels.widths.length := by
              rw [hwidths, List.length_drop]
              omega
            rw [hlen]
            exact h.ledger
          have hheld : Reached out { s with levels, held := some ⟨ends, t⟩ } :=
            ⟨h.clean, Levels.sorted_closeTo? hclose h.sorted, hledger, .holding rfl h.finished ht h.plain⟩
          have := hheld.close rfl
          rwa [close_held { s with levels }] at this

theorem Ongoing.pull {input : List Item} (hclean : ∀ t, .ok t ∈ input → t.kind.isSynthetic = false) (h : Ongoing out s) :
    Reached (out ++ [(s.pull input).1]) (s.pull input).2 := by
  induction input generalizing s with
  | nil =>
    have hnil : ∀ t, .ok t ∈ ([] : List Item) → t.kind.isSynthetic = false := fun _ h => nomatch h
    exact (h.reading hnil s.depth s.afterSpaces).finish rfl
  | cons item rest ih =>
    have hrest : ∀ t, .ok t ∈ rest → t.kind.isSynthetic = false := fun t ht => hclean t (List.mem_cons_of_mem _ ht)
    cases item with
    | error fault => exact Reached.fail (s := { s with input := rest }) hrest h.sorted h.ledger h.plain fault
    | ok t =>
      have htext := hclean t List.mem_cons_self
      simp only [Layout.pull]
      split
      · next w hk => exact ih hrest (h.reading h.clean w true)
      · next hk =>
        split
        · exact ih hrest (h.reading h.clean 0 false)
        · have hledger : Ledger (out ++ [.ok t]) s.levels.widths.length := h.ledger.level (bracket?_eq_none htext)
          simp only [forward, hk]
          refine ⟨hrest, h.sorted, by simpa [pendingEnds, h.held] using hledger, ?_⟩
          exact .reading h.held h.finished (h.plain.concat (by simp [hk])) fun _ => .inr ⟨out, t, rfl, hk⟩
      · next hk => exact (h.reading hrest s.depth s.afterSpaces).finish hk
      · next hw hn he =>
        have ht : t.kind.isText = true := by
          cases hk : t.kind <;> simp_all [Kind.isText, Kind.isSynthetic]
        exact (h.reading hrest s.depth false).place ht

/-- One pull. -/
theorem Reached.next (hr : Reached out s) {item : Item} {s' : Layout} (h : s.next? = some (item, s')) :
    Reached (out ++ [item]) s' := by
  unfold next? at h
  cases hh : s.held with
  | some held =>
    simp only [hh, Option.some.injEq] at h
    have := hr.close hh
    rwa [h] at this
  | none =>
    simp only [hh] at h
    have hledger := hr.ledger
    rw [pendingEnds, hh] at hledger
    have hphase := hr.phase
    cases hphase with
    | reading _ hfin hplain htidy =>
      simp only [hfin, Bool.false_eq_true, if_false, Option.some.injEq] at h
      have hongoing : Ongoing out s := ⟨hr.clean, hr.sorted, hledger, hh, hfin, hplain, htidy⟩
      have := hongoing.pull hr.clean
      rwa [h] at this
    | holding hsome => simp [hh] at hsome
    | closing hsome => simp [hh] at hsome
    | closed _ hfin => simp [hfin] at h
    | failed _ _ hfin => simp [hfin] at h

/-! ### Whole runs -/

/-- The items of `n` pulls, fewer if the pass has no more, and the pass behind them. -/
def pulls : (n : Nat) → Layout → List Item × Layout
  | 0, s => ([], s)
  | n + 1, s =>
    match s.next? with
    | none => ([], s)
    | some (item, s') => (item :: (pulls n s').1, (pulls n s').2)

theorem fst_pulls (n : Nat) (s : Layout) : (s.pulls n).1 = s.take n := by
  induction n generalizing s with
  | zero => rfl
  | succ n ih =>
    cases h : s.next? with
    | none => simp [pulls, take, h]
    | some r => simp [pulls, take, h, ih]

theorem Reached.pulls (hr : Reached out s) (n : Nat) : Reached (out ++ (s.pulls n).1) (s.pulls n).2 := by
  induction n generalizing out s with
  | zero => simpa [Layout.pulls] using hr
  | succ n ih =>
    cases h : s.next? with
    | none => simpa [Layout.pulls, h] using hr
    | some r =>
      have := ih (hr.next h)
      simpa [Layout.pulls, h] using this

theorem reached_new {items : List Item} (hclean : ∀ t, .ok t ∈ items → t.kind.isSynthetic = false) :
    Reached [] { input := items } :=
  ⟨hclean, List.pairwise_singleton _ _, .nil, .reading rfl rfl .nil fun _ => .inl rfl⟩

/-- How many items the pass can still answer at most. -/
def fuelLeft (s : Layout) : Nat :=
  3 * s.input.length + s.levels.widths.length + (s.held.map (·.ends + 1)).getD 0 + if s.finished then 0 else 2

theorem forward_snd_fuelLeft (s : Layout) (t : Token) : (s.forward t).2.fuelLeft = s.fuelLeft := by
  simp only [forward]
  split <;> rfl

theorem fuelLeft_close (t : Token) (ends : Nat) :
    (s.close t ends).2.fuelLeft < fuelLeft { s with held := some ⟨ends, t⟩ } := by
  cases ends with
  | zero =>
    rw [close, forward_snd_fuelLeft]
    simp [fuelLeft]
  | succ ends =>
    rw [close, forward_snd_fuelLeft]
    simp [fuelLeft]

theorem fuelLeft_fail (fault : Fault) (hf : s.finished = false) : (s.fail fault).2.fuelLeft < s.fuelLeft := by
  simp only [Layout.fail, fuelLeft, hf]
  simp
  omega

theorem fuelLeft_finish (marker : Token) (hh : s.held = none) (hf : s.finished = false) :
    (s.finish marker).2.fuelLeft < s.fuelLeft := by
  unfold Layout.finish
  split
  · exact fuelLeft_fail _ hf
  · dsimp only
    split
    · rw [forward_snd_fuelLeft]
      simp [fuelLeft, hh, hf]
      omega
    · refine Nat.lt_of_lt_of_le (fuelLeft_close ..) ?_
      simp [fuelLeft, hh, hf]
      omega

theorem fuelLeft_place (t : Token) (hh : s.held = none) (hf : s.finished = false) :
    (s.place t).2.fuelLeft ≤ s.fuelLeft + 2 := by
  simp only [Layout.place]
  split
  · split
    · exact Nat.le_trans (Nat.le_of_lt (fuelLeft_fail _ hf)) (by omega)
    · rw [forward_snd_fuelLeft]
      simp [fuelLeft, Levels.push, hh, hf]
      omega
  · split
    · rw [forward_snd_fuelLeft]
      omega
    · split
      · exact Nat.le_trans (Nat.le_of_lt (fuelLeft_fail _ hf)) (by omega)
      · split
        · exact Nat.le_trans (Nat.le_of_lt (fuelLeft_fail _ hf)) (by omega)
        · next ends levels hclose =>
          obtain ⟨hwidths, hle⟩ := Levels.of_closeTo? hclose
          refine Nat.le_of_lt (Nat.lt_of_lt_of_le (fuelLeft_close ..) ?_)
          simp [fuelLeft, hh, hf, hwidths]
          omega

theorem fuelLeft_pull (input : List Item) (hh : s.held = none) (hf : s.finished = false) :
    (s.pull input).2.fuelLeft < fuelLeft { s with input } := by
  induction input generalizing s with
  | nil => exact fuelLeft_finish (s := { s with input := [] }) missingMarker hh hf
  | cons item rest ih =>
    have hcons : fuelLeft { s with input := item :: rest } = fuelLeft { s with input := rest } + 3 := by
      simp [fuelLeft]
      omega
    rw [hcons]
    cases item with
    | error fault =>
      have := fuelLeft_fail (s := { s with input := rest }) fault hf
      exact Nat.lt_of_lt_of_le this (by omega)
    | ok t =>
      simp only [Layout.pull]
      split
      · next w _ =>
        have := ih (s := { s with depth := w, afterSpaces := true }) hh hf
        exact Nat.lt_of_lt_of_le this (Nat.le_add_right _ 3)
      · split
        · have := ih (s := { s with depth := 0, afterSpaces := false }) hh hf
          exact Nat.lt_of_lt_of_le this (Nat.le_add_right _ 3)
        · rw [forward_snd_fuelLeft]
          exact Nat.lt_of_lt_of_le (Nat.lt_succ_self _) (Nat.succ_le_succ (Nat.le_add_right _ 2))
      · have := fuelLeft_finish (s := { s with input := rest }) t hh hf
        exact Nat.lt_of_lt_of_le this (Nat.le_add_right _ 3)
      · have := fuelLeft_place (s := { s with input := rest, afterSpaces := false }) t hh hf
        exact Nat.lt_succ_of_le this

theorem fuelLeft_next {item : Item} {s' : Layout} (h : s.next? = some (item, s')) : s'.fuelLeft < s.fuelLeft := by
  unfold next? at h
  cases hh : s.held with
  | some held =>
    simp only [hh, Option.some.injEq] at h
    have := fuelLeft_close (s := s) held.token held.ends
    rw [h, show ({ s with held := some ⟨held.ends, held.token⟩ } : Layout) = s by rw [← hh]] at this
    exact this
  | none =>
    simp only [hh] at h
    split at h
    · cases h
    · next hf =>
      have := fuelLeft_pull (s := s) s.input hh (by simpa using hf)
      rw [Option.some.inj h] at this
      exact this

/-- A run is over after as many pulls as there can be items. -/
theorem next?_pulls (n : Nat) (h : s.fuelLeft ≤ n) : (s.pulls n).2.next? = none := by
  induction n generalizing s with
  | zero =>
    cases hnext : s.next? with
    | none => exact hnext
    | some r =>
      have := fuelLeft_next hnext
      omega
  | succ n ih =>
    cases hnext : s.next? with
    | none => simp [pulls, hnext]
    | some r =>
      have hlt := fuelLeft_next hnext
      have := ih (s := r.2) (by omega)
      simpa [pulls, hnext] using this

/-- A fault or an end marker comes last. -/
theorem Reached.next?_eq_none (hr : Reached out s)
    (h : (∃ fault, .error fault ∈ out) ∨ ∃ t, .ok t ∈ out ∧ t.kind = .endMarker) : s.next? = none := by
  have hplain : ¬Plain out := by
    intro hplain
    rcases h with ⟨fault, hmem⟩ | ⟨t, hmem, hk⟩
    · obtain ⟨t, ht, -⟩ := hplain _ hmem
      cases ht
    · obtain ⟨u, hu, hne⟩ := hplain _ hmem
      obtain rfl := Except.ok.inj hu
      exact hne hk
  have hphase := hr.phase
  cases hphase with
  | reading _ _ hp => exact absurd hp hplain
  | holding _ _ _ hp => exact absurd hp hplain
  | @closing body ends _ _ _ _ _ _ hp _ hends =>
    refine absurd (fun item hitem => ?_) hplain
    rcases List.mem_append.mp hitem with hitem | hitem
    · exact hp item hitem
    · obtain ⟨t, rfl, ht⟩ := hends item hitem
      exact ⟨t, rfl, by simp [ht]⟩
  | closed hnone hfin => simp [next?, hnone, hfin]
  | failed _ hnone hfin => simp [next?, hnone, hfin]

/-- A run without a fault ends in block ends behind a finished line, and in the end marker. -/
theorem Reached.ending (hr : Reached out s) (hnext : s.next? = none) (hok : ∀ fault, .error fault ∉ out) :
    ∃ body ends marker, out = body ++ ends ++ [.ok marker] ∧ marker.kind = .endMarker ∧ s.levels = {} ∧
      s.held = none ∧ Plain body ∧ Tidy body ∧ BlockEnds ends := by
  unfold next? at hnext
  have hphase := hr.phase
  cases hphase with
  | reading hnone hfin => simp [hnone, hfin] at hnext
  | holding hsome => simp [hsome] at hnext
  | closing hsome => simp [hsome] at hnext
  | closed hnone _ hmark hlev hplain htidy hends =>
    exact ⟨_, _, _, rfl, hmark, hlev, hnone, hplain, htidy, hends⟩
  | failed fault => exact absurd (List.mem_append_right _ (List.mem_singleton_self _)) (hok fault)

end Layout

/-- However many items have been pulled from the layout of tokens without block marks, the levels begin with
    zero and increase, the blocks left open are those levels and the block ends held back, and a fault or an
    end marker is the last item. The run comes to its end. If it has no fault, its block starts and ends are
    balanced, one end marker is its last item, and what stands before the last block ends is a line break,
    unless there is nothing but the end marker. -/
theorem layOut_balanced {items : List Item} (hclean : ∀ t, .ok t ∈ items → t.kind.isSynthetic = false) :
    (∀ n, let out := (Layout.pulls n { input := items }).1
      let s := (Layout.pulls n { input := items }).2
      s.levels.toList.head? = some 0 ∧ s.levels.toList.Pairwise (· < ·) ∧
      (brackets out).count U = (brackets out).count D + (s.levels.toList.length - 1) + s.pendingEnds ∧
      ((∃ fault, .error fault ∈ out) ∨ (∃ t, .ok t ∈ out ∧ t.kind = .endMarker) → s.next? = none) ∧
      (s.next? = none → (∀ fault, .error fault ∉ out) →
        (∃ w : DyckWord, w.toList = brackets out) ∧
        ∃ body ends marker, out = body ++ ends ++ [.ok marker] ∧ marker.kind = .endMarker ∧
          (∀ t, .ok t ∈ body ++ ends → t.kind ≠ .endMarker) ∧ BlockEnds ends ∧
          (body = [] ∧ ends = [] ∨ ∃ before t, body = before ++ [.ok t] ∧ t.kind = .newline))) ∧
    ∃ n, (Layout.pulls n { input := items }).1 = layOut items ∧
      (Layout.pulls n { input := items }).2.next? = none := by
  refine ⟨fun n => ?_, 3 * items.length + 2, Layout.fst_pulls _ _, Layout.next?_pulls _ (by simp [Layout.fuelLeft])⟩
  intro out s
  have hr : Layout.Reached out s := (Layout.reached_new hclean).pulls n
  have hlength : s.levels.toList.length - 1 = s.levels.widths.length := by simp [Levels.toList]
  refine ⟨rfl, ?_, ?_, hr.next?_eq_none, fun hnext hok => ?_⟩
  · rw [Levels.toList_eq, List.pairwise_reverse]
    exact hr.sorted
  · rw [hlength, Nat.add_assoc]
    exact hr.ledger.count
  · obtain ⟨body, ends, marker, hout, hmark, hlev, hheld, hplain, htidy, hends⟩ := hr.ending hnext hok
    have hledger : Ledger out 0 := by
      have := hr.ledger
      rwa [Layout.pendingEnds, hheld, hlev] at this
    refine ⟨⟨⟨brackets out, hledger.count, hledger.nested⟩, rfl⟩, body, ends, marker, hout, hmark, ?_, hends, ?_⟩
    · intro t ht
      rcases List.mem_append.mp ht with ht | ht
      · obtain ⟨u, hu, hne⟩ := hplain _ ht
        exact Except.ok.inj hu ▸ hne
      · obtain ⟨u, hu, hk⟩ := hends _ ht
        rw [Except.ok.inj hu, hk]
        simp
    · rcases htidy with hnil | hbreak
      · -- Without a token before them there is no block to end.
        refine .inl ⟨hnil, ?_⟩
        cases ends with
        | nil => rfl
        | cons item rest =>
          obtain ⟨t, rfl, ht⟩ := hends _ List.mem_cons_self
          have hfirst := hledger.nested 1
          rw [hout, hnil] at hfirst
          simp [brackets, bracket?, ht] at hfirst
      · exact .inr hbreak

/-- A line of no width behind two blocks, the second inside the first. -/
def twoBlocks : List Item :=
  let token (kind : Kind) (mustIndent : Bool) : Item := .ok { kind, span := {}, atLineStart := true, mustIndent }
  let lineBreak : Item := .ok { kind := .newline, span := {} }
  [token (.name "a") false, lineBreak, token (.whitespace 2) false, token (.name "b") true, lineBreak,
    token (.whitespace 4) false, token (.name "c") true, lineBreak, token (.name "d") false]

theorem layOut_balanced_twoBlocks :
    (∀ t, .ok t ∈ twoBlocks → t.kind.isSynthetic = false) ∧ (∃ w : DyckWord, w.toList = brackets (layOut twoBlocks)) ∧
      brackets (layOut twoBlocks) = [U, U, D, D] := by
  have hclean : ∀ t, .ok t ∈ twoBlocks → t.kind.isSynthetic = false := by
    intro t ht
    simp only [twoBlocks, List.mem_cons, Except.ok.injEq, List.not_mem_nil, or_false] at ht
    rcases ht with rfl | rfl | rfl | rfl | rfl | rfl | rfl | rfl | rfl <;> rfl
  obtain ⟨hpulls, n, hout, hnext⟩ := layOut_balanced hclean
  have hok : ∀ fault, .error fault ∉ layOut twoBlocks := by
    intro fault hmem
    have hall : (layOut twoBlocks).all (·.toBool) = true := by decide
    exact absurd (List.all_eq_true.mp hall _ hmem) (by simp [Except.toBool])
  refine ⟨hclean, ?_, by decide⟩
  rw [← hout] at hok ⊢
  exact ((hpulls n).2.2.2.2 hnext hok).1

end Offside

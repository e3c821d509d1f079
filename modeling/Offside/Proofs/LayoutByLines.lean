import Offside.Proofs.LineShape

/-! # The layout pass lays out lines

The layout pass answers one item at a time and holds back what has to wait. Over a whole text its
answers are those of the rule for lines. -/

namespace Offside

/-! ### Open blocks -/

namespace Levels

/-- The widths of the open blocks and of the text, innermost first. -/
def stack (l : Levels) : List Nat := l.widths ++ [0]

theorem headD_stack (l : Levels) : l.stack.headD 0 = l.top := by
  cases h : l.widths <;> simp [stack, top, h]

theorem dropLast_stack (l : Levels) : l.stack.dropLast = l.widths := List.dropLast_concat

theorem closeTo?_nil (w : Nat) : closeTo? ⟨[]⟩ w = if w = 0 then some (0, ⟨[]⟩) else none := by
  by_cases hw : w = 0 <;> simp [closeTo?, hw]

theorem closeTo?_cons (v : Nat) (vs : List Nat) (w : Nat) : closeTo? ⟨v :: vs⟩ w =
    if v = w then some (0, ⟨v :: vs⟩) else (closeTo? ⟨vs⟩ w).map fun (n, l) => (n + 1, l) := by
  by_cases hv : v = w
  · simp [closeTo?, hv]
  · have hne : (v != w) = true := by simpa using hv
    simp only [closeTo?, List.takeWhile_cons, hne, hv, if_true, if_false, List.length_cons, List.drop_succ_cons]
    split <;> rfl

/-- Blocks inside the one of a width are those that are wider. -/
theorem closeTo?_of_mem {l : Levels} {w : Nat} (hs : l.stack.Pairwise (· > ·)) (hw : w ∈ l.stack) :
    ∃ l', l.closeTo? w = some ((l.stack.takeWhile (w < ·)).length, l') ∧
      l'.stack = l.stack.drop (l.stack.takeWhile (w < ·)).length := by
  obtain ⟨widths⟩ := l
  simp only [stack] at hs hw ⊢
  induction widths with
  | nil =>
    obtain rfl : w = 0 := by simpa using hw
    exact ⟨⟨[]⟩, rfl, rfl⟩
  | cons v vs ih =>
    obtain ⟨hv, hs⟩ := List.pairwise_cons.mp hs
    by_cases heq : v = w
    · refine ⟨⟨v :: vs⟩, ?_, ?_⟩ <;> simp [closeTo?_cons, heq]
    · have hmem : w ∈ vs ++ [0] := (List.mem_cons.mp hw).resolve_left (Ne.symm heq)
      obtain ⟨l', hclose, hl'⟩ := ih hs hmem
      have hlt : w < v := hv w hmem
      refine ⟨l', ?_, ?_⟩
      · rw [closeTo?_cons, if_neg heq, hclose]
        simp [hlt]
      · simpa [hlt] using hl'

theorem closeTo?_of_not_mem {l : Levels} {w : Nat} (hw : w ∉ l.stack) : l.closeTo? w = none := by
  obtain ⟨widths⟩ := l
  simp only [stack] at hw
  induction widths with
  | nil =>
    have hne : w ≠ 0 := by simpa using hw
    rw [closeTo?_nil, if_neg hne]
  | cons v vs ih =>
    obtain ⟨hne, hvs⟩ := not_or.mp (mt List.mem_cons.mpr hw)
    rw [closeTo?_cons, if_neg (Ne.symm hne), ih hvs]
    rfl

end Levels

/-! ### Lines token by token -/

/-- Puts tokens in front of the first line. -/
def lead (ts : List Token) : List Line → List Line
  | [] => [⟨ts, none⟩]
  | l :: lines => { l with tokens := ts ++ l.tokens } :: lines

/-- The first token of a line, behind the marks that its width asks for. -/
def enter (stack : List Nat) (width : Nat) (first : Token) (items : List Nat → List Item) : List Item :=
  match turn stack width first with
  | .error fault => [.error (.indent fault first.span.start)]
  | .ok (marks, stack) => marksAt first marks ++ .ok first :: items stack

/-- Lays out the rest of a line that has begun, and the lines behind it. -/
def layRest (ending : Item) (stack : List Nat) : List Line → List Item
  | [] => closing stack true ending
  | l :: lines => (l.text ++ l.break?.toList).map .ok ++ layLines ending stack l.break?.isNone lines

section
variable {ending : Item} {stack : List Nat} {unended : Bool} {t : Token} {pre ts : List Token} {lines : List Line}

theorem not_isSpaces_of_isText {k : Kind} (hk : k.isText = true) : k.isSpaces = false := by
  cases k <;> simp_all [Kind.isText, Kind.isSpaces]

theorem ne_newline_of_isText {k : Kind} (hk : k.isText = true) : k ≠ .newline := by
  rintro rfl
  cases hk

theorem ne_endMarker_of_isText {k : Kind} (hk : k.isText = true) : k ≠ .endMarker := by
  rintro rfl
  cases hk

theorem ne_newline_of_isSpaces {k : Kind} (hk : k.isSpaces = true) : k ≠ .newline := by
  rintro rfl
  cases hk

theorem linesOf_cons (ht : t.kind ≠ .newline) : linesOf (t :: ts) = lead [t] (linesOf ts) := by
  simp only [linesOf, ht, if_false]
  cases linesOf ts <;> rfl

theorem linesOf_break (ht : t.kind = .newline) : linesOf (t :: ts) = ⟨[], some t⟩ :: linesOf ts := by
  simp only [linesOf, ht, if_true]

theorem linesOf_append_cons (hpre : ∀ u ∈ pre, u.kind ≠ .newline) (ht : t.kind ≠ .newline) :
    linesOf (pre ++ t :: ts) = lead (pre ++ [t]) (linesOf ts) := by
  induction pre with
  | nil => exact linesOf_cons ht
  | cons u pre ih =>
    obtain ⟨hu, hpre⟩ := List.forall_mem_cons.mp hpre
    rw [List.cons_append, linesOf_cons hu, ih hpre]
    cases linesOf ts <;> rfl

theorem linesOf_append_break (hpre : ∀ u ∈ pre, u.kind ≠ .newline) (ht : t.kind = .newline) :
    linesOf (pre ++ t :: ts) = ⟨pre, some t⟩ :: linesOf ts := by
  induction pre with
  | nil => exact linesOf_break ht
  | cons u pre ih =>
    obtain ⟨hu, hpre⟩ := List.forall_mem_cons.mp hpre
    rw [List.cons_append, linesOf_cons hu, ih hpre]
    rfl

theorem text_eq_nil (hpre : ∀ u ∈ pre, u.kind.isSpaces = true) (br : Option Token) : (Line.mk pre br).text = [] :=
  List.filter_eq_nil_iff.mpr fun u hu => by simp [hpre u hu]

theorem layLines_blank (hpre : ∀ u ∈ pre, u.kind.isSpaces = true) (br : Option Token) :
    layLines ending stack unended (⟨pre, br⟩ :: lines) = layLines ending stack unended lines := by
  simp only [layLines, text_eq_nil hpre]

theorem text_lead (hpre : ∀ u ∈ pre, u.kind.isSpaces = true) (ht : t.kind.isText = true) (us : List Token)
    (br : Option Token) : (Line.mk (pre ++ t :: us) br).text = t :: (Line.mk us br).text := by
  have hpre' : pre.filter (!·.kind.isSpaces) = [] := text_eq_nil hpre br
  simp [Line.text, List.filter_append, hpre', not_isSpaces_of_isText ht]

theorem layLines_line (hpre : ∀ u ∈ pre, u.kind.isSpaces = true) (ht : t.kind.isText = true) (us : List Token)
    (br : Option Token) :
    layLines ending stack unended (⟨pre ++ t :: us, br⟩ :: lines) =
      enter stack (Line.width ⟨pre ++ [t], none⟩) t fun stack => layRest ending stack (⟨us, br⟩ :: lines) := by
  have hwidth : Line.width ⟨pre ++ t :: us, br⟩ = Line.width ⟨pre ++ [t], none⟩ := by
    cases pre <;> rfl
  have htext := text_lead hpre ht us br
  simp only [layLines, enter, htext, hwidth]
  cases turn stack (Line.width ⟨pre ++ [t], none⟩) t with
  | error fault => rfl
  | ok r => simp [Line.handed, htext, layRest]

theorem layLines_lead (hpre : ∀ u ∈ pre, u.kind.isSpaces = true) (ht : t.kind.isText = true) :
    layLines ending stack unended (lead (pre ++ [t]) lines) =
      enter stack (Line.width ⟨pre ++ [t], none⟩) t fun stack => layRest ending stack lines := by
  cases lines with
  | nil => exact layLines_line hpre ht [] none
  | cons l lines =>
    have hlead : lead (pre ++ [t]) (l :: lines) = ⟨pre ++ t :: l.tokens, l.break?⟩ :: lines := by simp [lead]
    rw [hlead]
    exact layLines_line hpre ht l.tokens l.break?

theorem layRest_lead (ht : t.kind.isText = true) :
    layRest ending stack (lead [t] lines) = .ok t :: layRest ending stack lines := by
  have hspaces := not_isSpaces_of_isText ht
  cases lines <;> simp [lead, layRest, Line.text, layLines, hspaces]

end

/-! ### Answers -/

namespace Layout

/-- All that the layout pass answers from a state on. -/
inductive Answers : Layout → List Item → Prop
  | done {s : Layout} : s.next? = none → Answers s []
  | more {s s' : Layout} {item : Item} {items : List Item} : s.next? = some (item, s') → Answers s' items →
    Answers s (item :: items)

theorem take_of_answers {s : Layout} {items : List Item} (h : Answers s items) {fuel : Nat}
    (hfuel : items.length ≤ fuel) : s.take fuel = items := by
  induction h generalizing fuel with
  | done hnext => cases fuel <;> simp [take, hnext]
  | more hnext _ ih =>
    cases fuel with
    | zero => cases hfuel
    | succ fuel =>
      simp only [take, hnext]
      rw [ih (Nat.le_of_succ_le_succ hfuel)]

/-- One answer, and all that follow it. -/
def Sends (r : Item × Layout) (items : List Item) : Prop := ∃ rest, items = r.1 :: rest ∧ Answers r.2 rest

variable {s : Layout} {t : Token} {items : List Item}

theorem answers_of_held {h : Held} (hh : s.held = some h) (hs : Sends (s.close h.token h.ends) items) :
    Answers s items := by
  obtain ⟨rest, rfl, hrest⟩ := hs
  refine .more ?_ hrest
  simp only [next?, hh]

theorem answers_of_pull (hh : s.held = none) (hf : s.finished = false) (hs : Sends (s.pull s.input) items) :
    Answers s items := by
  obtain ⟨rest, rfl, hrest⟩ := hs
  refine .more ?_ hrest
  simp [next?, hh, hf]

theorem answers_finished (hh : s.held = none) (hf : s.finished = true) : Answers s [] :=
  .done (by simp [next?, hh, hf])

theorem sends_fail (fault : Fault) : Sends (s.fail fault) [.error fault] := ⟨[], rfl, answers_finished rfl rfl⟩

theorem forward_text (ht : t.kind.isText = true) : s.forward t = (.ok t, { s with lineOpen := true }) := by
  unfold forward
  cases hk : t.kind <;> simp_all [Kind.isText]

theorem forward_synthetic {k : Kind} (hk : k.isSynthetic = true) :
    s.forward (synthetic k t) = (.ok (synthetic k t), s) := by
  cases k <;> simp_all [forward, synthetic, Kind.isSynthetic]

/-- The block ends before a token that is held back, and the token. -/
theorem sends_close {ends : Nat} (hs : Sends (forward { s with held := none } t) (.ok t :: items)) :
    Sends (s.close t ends) (marksAt t (List.replicate ends .blockEnd) ++ .ok t :: items) := by
  induction ends generalizing s with
  | zero => exact hs
  | succ ends ih =>
    rw [close, forward_synthetic rfl]
    exact ⟨_, rfl, answers_of_held rfl (ih hs)⟩

/-! ### One token -/

/-- The pass has answered all it has to about the tokens before, and blocks of these widths are open. -/
structure Ready (s : Layout) (stack : List Nat) : Prop where
  held : s.held = none
  finished : s.finished = false
  levels : s.levels.stack = stack
  sorted : stack.Pairwise (· > ·)

theorem Ready.reading {stack : List Nat} (hs : s.Ready stack) (input : List Item) (depth : Nat)
    (afterSpaces lineOpen : Bool) : Ready { s with input, depth, afterSpaces, lineOpen } stack :=
  ⟨hs.held, hs.finished, hs.levels, hs.sorted⟩

theorem sends_text (ht : t.kind.isText = true) (h : Answers { s with lineOpen := true } items) :
    Sends (s.forward t) (.ok t :: items) := by
  rw [forward_text ht]
  exact ⟨items, rfl, h⟩

theorem sends_marker (ht : t.kind = .endMarker) (hh : s.held = none) (hf : s.finished = true) :
    Sends (s.forward t) [.ok t] := by
  have hforward : s.forward t = (.ok t, s) := by
    unfold forward
    simp only [ht]
  rw [hforward]
  exact ⟨[], rfl, answers_finished hh hf⟩

/-- The innermost block is the widest. -/
theorem le_headD_of_mem {stack : List Nat} {w : Nat} (hs : stack.Pairwise (· > ·)) (hw : w ∈ stack) :
    w ≤ stack.headD 0 := by
  cases stack with
  | nil => cases hw
  | cons v vs =>
    rcases List.mem_cons.mp hw with rfl | hw
    · exact Nat.le_refl _
    · exact Nat.le_of_lt ((List.pairwise_cons.mp hs).1 w hw)

theorem sends_place {stack : List Nat} {items : List Nat → List Item} (hs : s.Ready stack)
    (ht : t.kind.isText = true) (hstart : t.atLineStart = true)
    (hgo : ∀ levels stack', Ready { s with levels, lineOpen := true } stack' →
      Answers { s with levels, lineOpen := true } (items stack')) :
    Sends (s.place t) (enter stack s.depth t items) := by
  obtain ⟨input, levels, depth, afterSpaces, lineOpen, held, finished⟩ := s
  obtain rfl : held = none := hs.held
  have htop : stack.headD 0 = levels.top := by rw [← hs.levels, Levels.headD_stack]
  simp only [enter, turn, place, htop]
  cases hm : t.mustIndent with
  | true =>
    by_cases hle : depth ≤ levels.top
    · simp only [hle, if_true]
      exact sends_fail _
    · simp only [hle, if_true, if_false]
      have hready : Ready ⟨input, levels.push depth, depth, afterSpaces, true, none, finished⟩ (depth :: stack) := by
        refine ⟨rfl, hs.finished, congrArg (depth :: ·) hs.levels, List.pairwise_cons.mpr ⟨?_, hs.sorted⟩⟩
        intro w hw
        have hle' := le_headD_of_mem hs.sorted hw
        omega
      rw [forward_synthetic rfl]
      exact ⟨_, rfl, answers_of_held rfl (sends_close (sends_text ht (hgo _ _ hready)))⟩
  | false =>
    simp only [hstart, Bool.false_eq_true, if_false, Bool.not_true, Bool.false_or, beq_iff_eq]
    by_cases heq : depth = levels.top
    · subst heq
      simp only [if_true]
      exact sends_text ht (hgo _ _ ⟨rfl, hs.finished, hs.levels, hs.sorted⟩)
    by_cases hlt : levels.top < depth
    · simp only [heq, hlt, if_true, if_false]
      exact sends_fail _
    simp only [heq, hlt, if_false]
    by_cases hmem : depth ∈ stack
    · rw [← hs.levels] at hmem
      obtain ⟨levels', hclose, hlevels'⟩ := Levels.closeTo?_of_mem (hs.levels ▸ hs.sorted) hmem
      rw [hs.levels] at hmem hclose hlevels'
      simp only [hmem, hclose, if_true, List.map_const']
      refine sends_close (sends_text ht (hgo levels' _ ⟨rfl, hs.finished, hlevels', ?_⟩))
      exact hs.sorted.sublist (List.drop_sublist _ _)
    · have hclose : levels.closeTo? depth = none := Levels.closeTo?_of_not_mem (hs.levels ▸ hmem)
      simp only [hmem, hclose, if_false]
      exact sends_fail _

theorem sends_finish {stack : List Nat} {marker : Token} (hs : s.Ready stack) (hm : marker.kind = .endMarker) :
    Sends (s.finish marker) (closing stack s.lineOpen (.ok marker)) := by
  have hdrop : stack.dropLast = s.levels.widths := by rw [← hs.levels, Levels.dropLast_stack]
  obtain ⟨input, levels, depth, afterSpaces, lineOpen, held, finished⟩ := s
  obtain rfl : held = none := hs.held
  simp only [finish, closing, hdrop, List.map_const']
  cases hi : marker.mustIndent with
  | true =>
    simp only [if_true]
    exact sends_fail _
  | false =>
    simp only [Bool.false_eq_true, if_false]
    cases lineOpen with
    | false => exact sends_close (sends_marker hm rfl rfl)
    | true => exact ⟨_, rfl, answers_of_held rfl (sends_close (sends_marker hm rfl rfl))⟩

/-! ### Pulling a token -/

section
variable {rest : List Item}

theorem pull_spaces {w : Nat} (hk : t.kind = .whitespace w) :
    s.pull (.ok t :: rest) = pull { s with depth := w, afterSpaces := true } rest := by
  simp only [pull, hk]

theorem pull_blank (hk : t.kind = .newline) (ht : t.atLineStart = true) :
    s.pull (.ok t :: rest) = pull { s with depth := 0, afterSpaces := false } rest := by
  simp only [pull, hk, ht, Bool.or_true, if_true]

theorem pull_break (hk : t.kind = .newline) (ht : t.atLineStart = false) (hs : s.afterSpaces = false) :
    s.pull (.ok t :: rest) =
      (.ok t, { s with input := rest, depth := 0, afterSpaces := false, lineOpen := false }) := by
  simp only [pull, forward, hk, ht, hs, Bool.or_false, Bool.false_eq_true, if_false]

theorem pull_marker (hk : t.kind = .endMarker) : s.pull (.ok t :: rest) = finish { s with input := rest } t := by
  simp only [pull, hk]

theorem pull_text (ht : t.kind.isText = true) :
    s.pull (.ok t :: rest) = place { s with input := rest, afterSpaces := false } t := by
  cases hk : t.kind <;> simp_all [pull, Kind.isText]

theorem place_later (ht : t.kind.isText = true) (hstart : t.atLineStart = false) (hm : t.mustIndent = false) :
    s.place t = (.ok t, { s with lineOpen := true }) := by
  simp [place, hm, hstart, forward_text ht]

end

/-! ### Whole texts -/

/-- The spaces that have been read of a line without text so far. -/
inductive Indents (s : Layout) : LinePlace → List Token → Prop
  | start : s.depth = 0 → Indents s .start []
  | indented {t : Token} : t.kind = .whitespace s.depth → Indents s .indented [t]

/-- From a place in a line on, the pass answers what the rule for lines asks for. -/
structure Lays (tail : List Item) (ending : Item) (p : LinePlace) (ts : List Token) : Prop where
  before : ∀ {s : Layout} {stack : List Nat} {spaces : List Token}, s.Ready stack → s.Indents p spaces →
    Sends (s.pull (ts.map .ok ++ tail)) (layLines ending stack s.lineOpen (linesOf (spaces ++ ts)))
  within : ∀ {s : Layout} {stack : List Nat}, p = .inside → s.Ready stack → s.afterSpaces = false → s.lineOpen = true →
    Sends (s.pull (ts.map .ok ++ tail)) (layRest ending stack (linesOf ts))

theorem Indents.isSpaces {p : LinePlace} {spaces : List Token} (h : s.Indents p spaces) :
    ∀ u ∈ spaces, u.kind.isSpaces = true := by
  cases h with
  | start => intro u hu; cases hu
  | indented hk =>
    intro u hu
    obtain rfl := List.mem_singleton.mp hu
    rw [hk]
    rfl

theorem Indents.width {p : LinePlace} {spaces : List Token} (h : s.Indents p spaces) (ht : t.kind.isText = true) :
    Line.width ⟨spaces ++ [t], none⟩ = s.depth := by
  cases h with
  | start hd =>
    rw [hd]
    cases hk : t.kind <;> simp_all [Line.width, Kind.width, Kind.isText]
  | indented hk => simp [Line.width, Kind.width, hk]

theorem Indents.layLines {p : LinePlace} {spaces : List Token} (h : s.Indents p spaces) {ending : Item}
    {stack : List Nat} {unended : Bool} :
    Offside.layLines ending stack unended (linesOf spaces) = closing stack unended ending := by
  cases h with
  | start => rfl
  | @indented u hk =>
    have hne : u.kind ≠ .newline := by simp [hk]
    rw [linesOf_cons hne]
    exact layLines_blank (by simp [hk, Kind.isSpaces]) none

/-- Behind the last token stands what ends the text. -/
theorem exists_tail (items : List Item) : ∃ tail, items = (bodyOf items).map .ok ++ tail ∧
    ∀ {s : Layout} {stack : List Nat}, s.Ready stack →
      Sends (s.pull tail) (closing stack s.lineOpen (endingOf items)) := by
  induction items with
  | nil => exact ⟨[], rfl, fun {s _} hs => sends_finish (hs.reading [] s.depth s.afterSpaces s.lineOpen) rfl⟩
  | cons item items ih =>
    cases item with
    | error fault => exact ⟨_, rfl, fun _ => sends_fail _⟩
    | ok t =>
      by_cases hk : t.kind = .endMarker
      · simp only [bodyOf, endingOf, hk, if_true]
        refine ⟨_, rfl, fun {s _} hs => ?_⟩
        rw [pull_marker hk]
        exact sends_finish (hs.reading items s.depth s.afterSpaces s.lineOpen) hk
      · obtain ⟨tail, heq, hsends⟩ := ih
        simp only [bodyOf, endingOf, hk, if_false]
        exact ⟨tail, congrArg (.ok t :: ·) heq, hsends⟩

variable {tail : List Item} {ending : Item}

theorem lays_of_ruled (htail : ∀ {s : Layout} {stack : List Nat}, s.Ready stack →
      Sends (s.pull tail) (closing stack s.lineOpen ending)) {p : LinePlace} {ts : List Token} (h : Ruled p ts) :
    Lays tail ending p ts := by
  induction h with
  | nil p =>
    refine ⟨fun {s stack spaces} hs hi => ?_, fun {s stack} _ hs _ ho => ?_⟩
    · rw [List.append_nil, hi.layLines]
      exact htail hs
    · have hsends := htail hs
      rw [ho] at hsends
      exact hsends
  | @spaces t w ts hk _ ih =>
    refine ⟨fun {s stack spaces} hs hi => ?_, nofun⟩
    cases hi
    rw [List.map_cons, List.cons_append, pull_spaces hk]
    exact ih.before (hs.reading s.input w true s.lineOpen) (.indented hk)
  | @blank p t ts hp hk ht _ ih =>
    refine ⟨fun {s stack spaces} hs hi => ?_, fun h => absurd h hp⟩
    have hne : ∀ u ∈ spaces, u.kind ≠ .newline := fun u hu => ne_newline_of_isSpaces (hi.isSpaces u hu)
    rw [List.map_cons, List.cons_append, pull_blank hk ht, linesOf_append_break hne hk, layLines_blank hi.isSpaces]
    exact ih.before (hs.reading s.input 0 false s.lineOpen) (.start rfl)
  | @lineBreak t ts hk ht _ ih =>
    refine ⟨fun _ hi => (nomatch hi), fun {s stack} _ hs ha _ => ?_⟩
    have hrest := ih.before (hs.reading (ts.map .ok ++ tail) 0 false false) (.start rfl)
    rw [List.map_cons, List.cons_append, pull_break hk ht ha, linesOf_break hk]
    exact ⟨_, rfl, answers_of_pull hs.held hs.finished hrest⟩
  | @first p t ts hp hk ht _ ih =>
    refine ⟨fun {s stack spaces} hs hi => ?_, fun h => absurd h hp⟩
    have hne : ∀ u ∈ spaces, u.kind ≠ .newline := fun u hu => ne_newline_of_isSpaces (hi.isSpaces u hu)
    rw [List.map_cons, List.cons_append, pull_text hk, linesOf_append_cons hne (ne_newline_of_isText hk),
      layLines_lead hi.isSpaces hk, hi.width hk]
    refine sends_place (hs.reading (ts.map .ok ++ tail) s.depth false s.lineOpen) hk ht fun levels stack' hs' => ?_
    exact answers_of_pull hs'.held hs'.finished (ih.within rfl hs' rfl rfl)
  | @later t ts hk ht hm _ ih =>
    refine ⟨fun _ hi => (nomatch hi), fun {s stack} _ hs ha _ => ?_⟩
    have hrest := ih.within rfl (hs.reading (ts.map .ok ++ tail) s.depth false true) rfl rfl
    rw [List.map_cons, List.cons_append, pull_text hk, place_later hk ht hm, linesOf_cons (ne_newline_of_isText hk),
      layRest_lead hk]
    exact ⟨_, rfl, answers_of_pull hs.held hs.finished hrest⟩

end Layout

theorem layOut_eq_layByLines {items : List Item} (h : Ruled .start (bodyOf items)) : layOut items = layByLines items := by
  obtain ⟨tail, heq, htail⟩ := Layout.exists_tail items
  have hready : Layout.Ready { input := items } [0] := ⟨rfl, rfl, rfl, List.pairwise_singleton _ _⟩
  have hsends := (Layout.lays_of_ruled htail h).before hready (.start rfl)
  rw [← heq] at hsends
  exact Layout.take_of_answers (Layout.answers_of_pull rfl rfl hsends) (length_layByLines items)

/-- The token stream of a text is its layout by lines, and it hands on the tokens of the lines that are
    not blank, other than their spaces. -/
theorem tokenStream_eq_layByLines (dialect : Dialect) (source : String) :
    tokenStream dialect source = layByLines (markLines (lex dialect source)) ∧
    HandsOn ((linesOf (bodyOf (markLines (lex dialect source)))).flatMap Line.handed)
      (endingOf (markLines (lex dialect source))) (tokenStream dialect source) := by
  have hruled := ruled_markLines dialect source
  have heq : tokenStream dialect source = layByLines (markLines (lex dialect source)) := layOut_eq_layByLines hruled
  refine ⟨heq, ?_⟩
  rw [heq]
  refine handsOn_layLines (fun _ => kind_of_endingOf) [0] false fun l hl t ht => ?_
  exact hruled.isSynthetic t (mem_of_mem_handed hl ht)

end Offside

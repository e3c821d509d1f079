import Offside.Layout.Blocks

/-! # Layout by lines

The rule of the layout as one reads it off a page: a text is a list of lines, each has a width, and
the width of a line and the widths of the blocks around it say which blocks begin or end before it. -/

namespace Offside

/-! ### Lines -/

/-- A line of a text. Only the last line of a text may have no line break. -/
structure Line where
  tokens : List Token
  break? : Option Token := none

namespace Kind

/-- The number of spaces that a kind stands for. -/
def width : Kind → Nat
  | .whitespace w => w
  | _ => 0

def isSpaces : Kind → Bool
  | .whitespace _ => true
  | _ => false

end Kind

namespace Line

/-- The width of the spaces before the line. -/
def width (l : Line) : Nat := (l.tokens.head?.map (·.kind.width)).getD 0

/-- The tokens of the line other than spaces. A line without any is blank. -/
def text (l : Line) : List Token := l.tokens.filter (!·.kind.isSpaces)

/-- The tokens that are handed on: none of a blank line, else its text and its line break. -/
def handed (l : Line) : List Token := if l.text = [] then [] else l.text ++ l.break?.toList

/-- The number of tokens, the line break included. -/
def size (l : Line) : Nat := l.tokens.length + l.break?.toList.length

end Line

/-- The tokens before the end marker or the first fault. -/
def bodyOf : List Item → List Token
  | .ok t :: items => if t.kind = .endMarker then [] else t :: bodyOf items
  | _ => []

/-- The end marker, or the fault in front of it. -/
def endingOf : List Item → Item
  | [] => .ok Layout.missingMarker
  | .error fault :: _ => .error fault
  | .ok t :: items => if t.kind = .endMarker then .ok t else endingOf items

/-- The lines of tokens. -/
def linesOf : List Token → List Line
  | [] => []
  | t :: rest =>
    if t.kind = .newline then ⟨[], some t⟩ :: linesOf rest
    else match linesOf rest with
      | [] => [⟨[t], none⟩]
      | l :: lines => { l with tokens := t :: l.tokens } :: lines

theorem kind_of_endingOf {items : List Item} {marker : Token} (h : endingOf items = .ok marker) :
    marker.kind = .endMarker := by
  induction items with
  | nil =>
    obtain rfl := Except.ok.inj h
    rfl
  | cons item items ih =>
    cases item with
    | error fault => cases h
    | ok t =>
      rw [endingOf] at h
      split at h
      · obtain rfl := Except.ok.inj h
        assumption
      · exact ih h

/-- The lines hold no token that the text does not have. -/
theorem mem_of_mem_linesOf {ts : List Token} {l : Line} {t : Token} (hl : l ∈ linesOf ts)
    (ht : t ∈ l.tokens ++ l.break?.toList) : t ∈ ts := by
  induction ts generalizing l with
  | nil => cases hl
  | cons u ts ih =>
    rw [linesOf] at hl
    by_cases hu : u.kind = .newline
    · simp only [hu, if_true, List.mem_cons] at hl
      rcases hl with rfl | hl
      · simp_all
      · exact List.mem_cons_of_mem u (ih hl ht)
    simp only [hu, if_false] at hl
    cases hlines : linesOf ts with
    | nil => simp_all
    | cons first lines =>
      simp only [hlines, List.mem_cons] at hl ih
      rcases hl with rfl | hl
      · rcases List.mem_cons.mp ht with rfl | ht
        · exact List.mem_cons_self
        · exact List.mem_cons_of_mem u (ih (Or.inl rfl) ht)
      · exact List.mem_cons_of_mem u (ih (Or.inr hl) ht)

theorem mem_of_mem_handed {ts : List Token} {l : Line} {t : Token} (hl : l ∈ linesOf ts) (ht : t ∈ l.handed) :
    t ∈ ts := by
  refine mem_of_mem_linesOf hl ?_
  unfold Line.handed at ht
  split at ht
  · cases ht
  · rcases List.mem_append.mp ht with ht | ht
    · exact List.mem_append_left _ (List.mem_filter.mp ht).1
    · exact List.mem_append_right _ ht

/-! ### The rule -/

/-- The marks before a line of a width with the given first token, and the widths that are open after
    them, innermost first, when those of `stack` were open before. -/
def turn (stack : List Nat) (width : Nat) (first : Token) : Except IndentFault (List Kind × List Nat) :=
  let top := stack.headD 0
  if first.mustIndent then
    if width ≤ top then .error .expectedIndentedBlock else .ok ([.blockStart], width :: stack)
  else if width = top then .ok ([], stack)
  else if top < width then .error .unexpectedIndent
  else if width ∈ stack then
    let popped := stack.takeWhile (width < ·)
    .ok (popped.map fun _ => .blockEnd, stack.drop popped.length)
  else .error .inconsistentIndentation

/-- Marks in front of a token. -/
def marksAt (t : Token) (marks : List Kind) : List Item := marks.map fun kind => .ok (Layout.synthetic kind t)

/-- What stands behind the last line; `unended` says whether it has no line break. -/
def closing (stack : List Nat) (unended : Bool) : Item → List Item
  | .error fault => [.error fault]
  | .ok marker =>
    if marker.mustIndent then [.error (.indent .expectedIndentedBlock marker.span.start)]
    else marksAt marker ((if unended then [.newline] else []) ++ stack.dropLast.map fun _ => .blockEnd) ++ [.ok marker]

/-- Lays out lines before an ending. -/
def layLines (ending : Item) (stack : List Nat) (unended : Bool) : List Line → List Item
  | [] => closing stack unended ending
  | line :: lines =>
    match line.text with
    | [] => layLines ending stack unended lines
    | first :: _ =>
      match turn stack line.width first with
      | .error fault => [.error (.indent fault first.span.start)]
      | .ok (marks, stack) =>
        marksAt first marks ++ line.handed.map .ok ++ layLines ending stack line.break?.isNone lines

/-- Lays out marked tokens line by line. -/
def layByLines (items : List Item) : List Item :=
  layLines (endingOf items) [0] false (linesOf (bodyOf items))

/-! ### Turns -/

/-- The ways in which a line can stand to the blocks before it. -/
inductive Turns (stack : List Nat) (width : Nat) (first : Token) : List Kind → List Nat → Prop
  | opens : first.mustIndent = true → stack.headD 0 < width → Turns stack width first [.blockStart] (width :: stack)
  | stays : first.mustIndent = false → width = stack.headD 0 → Turns stack width first [] stack
  | closes : first.mustIndent = false → width < stack.headD 0 → width ∈ stack →
    Turns stack width first ((stack.takeWhile (width < ·)).map fun _ => .blockEnd)
      (stack.drop (stack.takeWhile (width < ·)).length)

section
variable {stack stack' : List Nat} {width : Nat} {first : Token} {marks : List Kind}

theorem turns_of_turn (h : turn stack width first = .ok (marks, stack')) : Turns stack width first marks stack' := by
  unfold turn at h
  cases hm : first.mustIndent with
  | true =>
    by_cases hle : width ≤ stack.headD 0
    · simp only [hm, hle, if_true, reduceCtorEq] at h
    · simp only [hm, hle, if_true, if_false, Except.ok.injEq, Prod.mk.injEq] at h
      obtain ⟨rfl, rfl⟩ := h
      exact .opens hm (Nat.lt_of_not_le hle)
  | false =>
    simp only [hm, Bool.false_eq_true, if_false] at h
    by_cases heq : width = stack.headD 0
    · simp only [heq, if_true, Except.ok.injEq, Prod.mk.injEq] at h
      obtain ⟨rfl, rfl⟩ := h
      exact .stays hm heq
    by_cases hlt : stack.headD 0 < width
    · simp only [heq, hlt, if_true, if_false, reduceCtorEq] at h
    by_cases hmem : width ∈ stack
    · simp only [heq, hlt, hmem, if_true, if_false, Except.ok.injEq, Prod.mk.injEq] at h
      obtain ⟨rfl, rfl⟩ := h
      exact .closes hm (by omega) hmem
    · simp only [heq, hlt, hmem, if_false, reduceCtorEq] at h

theorem isSynthetic_of_turns (h : Turns stack width first marks stack') {k : Kind} (hk : k ∈ marks) :
    k.isSynthetic = true := by
  cases h with
  | opens =>
    obtain rfl := List.mem_singleton.mp hk
    rfl
  | stays => cases hk
  | closes =>
    obtain ⟨-, -, rfl⟩ := List.mem_map.mp hk
    rfl

/-- Blocks that end stand on the stack, and the text itself does not end. -/
theorem length_popped_lt (h : width ∈ stack) : (stack.takeWhile (width < ·)).length < stack.length := by
  induction stack with
  | nil => cases h
  | cons w stack ih =>
    by_cases hw : width < w
    · have hmem : width ∈ stack := (List.mem_cons.mp h).resolve_left (by omega)
      simpa [List.takeWhile_cons, hw] using ih hmem
    · simp [hw]

theorem length_of_turns (h : Turns stack width first marks stack') (hs : 0 < stack.length) :
    0 < stack'.length ∧ marks.length + stack'.length ≤ stack.length + 2 := by
  cases h with
  | opens => simp only [List.length_cons, List.length_nil]; omega
  | stays => simp only [List.length_nil]; omega
  | closes _ _ hmem =>
    have hlt := length_popped_lt hmem
    simp only [List.length_map, List.length_drop]
    omega

end

/-! ### Size

The layout of a text is not much longer than the text. -/

theorem length_bodyOf (items : List Item) : (bodyOf items).length ≤ items.length := by
  induction items with
  | nil => exact Nat.le_refl 0
  | cons item items ih =>
    cases item with
    | error fault => exact Nat.zero_le _
    | ok t =>
      rw [bodyOf]
      split
      · exact Nat.zero_le _
      · exact Nat.succ_le_succ ih

/-- The number of tokens of lines. -/
def sizeOfLines (lines : List Line) : Nat := lines.foldr (fun l n => l.size + n) 0

theorem sizeOfLines_cons (l : Line) (lines : List Line) : sizeOfLines (l :: lines) = l.size + sizeOfLines lines := rfl

theorem size_linesOf (ts : List Token) : sizeOfLines (linesOf ts) = ts.length := by
  induction ts with
  | nil => rfl
  | cons t ts ih =>
    rw [linesOf]
    by_cases ht : t.kind = .newline
    · rw [if_pos ht, sizeOfLines_cons, ih, List.length_cons]
      exact Nat.add_comm _ _
    · rw [if_neg ht]
      cases hl : linesOf ts with
      | nil => simp [← ih, hl, sizeOfLines, Line.size]
      | cons l lines =>
        simp only [← ih, hl, sizeOfLines_cons, Line.size, List.length_cons]
        omega

theorem length_text (l : Line) : l.text.length ≤ l.tokens.length := List.length_filter_le ..

theorem length_closing (ending : Item) {stack : List Nat} (unended : Bool) (hs : 0 < stack.length) :
    (closing stack unended ending).length ≤ stack.length + 1 := by
  cases ending with
  | error fault => exact Nat.le_add_left _ _
  | ok marker =>
    rw [closing]
    split
    · exact Nat.le_add_left _ _
    · have hline : (if unended then [Kind.newline] else []).length ≤ 1 := by cases unended <;> decide
      simp only [marksAt, List.length_append, List.length_map, List.length_dropLast, List.length_singleton]
      omega

theorem length_layLines (ending : Item) {stack : List Nat} (unended : Bool) (lines : List Line)
    (hs : 0 < stack.length) :
    (layLines ending stack unended lines).length ≤ 3 * sizeOfLines lines + stack.length + 1 := by
  induction lines generalizing stack unended with
  | nil =>
    have := length_closing ending unended hs
    simpa [layLines, sizeOfLines] using this
  | cons line lines ih =>
    rw [sizeOfLines_cons]
    cases htext : line.text with
    | nil =>
      have := ih unended hs
      simp only [layLines, htext]
      omega
    | cons first others =>
      simp only [layLines, htext]
      cases hturn : turn stack line.width first with
      | error fault => simp
      | ok r =>
        obtain ⟨marks, stack'⟩ := r
        obtain ⟨hpos, hlen⟩ := length_of_turns (turns_of_turn hturn) hs
        have hrest := ih line.break?.isNone hpos
        have hline := length_text line
        simp only [htext, List.length_cons] at hline
        simp only [marksAt, List.length_append, List.length_map, Line.handed, htext, reduceCtorEq, if_false,
          List.length_cons, Line.size]
        omega

theorem length_layByLines (items : List Item) : (layByLines items).length ≤ 3 * items.length + 2 := by
  have hbase : 0 < [0].length := Nat.zero_lt_one
  have hlay := length_layLines (endingOf items) false (linesOf (bodyOf items)) hbase
  have hbody := length_bodyOf items
  rw [size_linesOf] at hlay
  simp only [List.length_singleton] at hlay
  exact Nat.le_trans hlay (by omega)

/-! ### What is handed on -/

/-- The tokens before the first fault. -/
def soundOf : List Item → List Token
  | .ok t :: items => t :: soundOf items
  | _ => []

/-- The tokens before the first fault, without the marks of blocks. -/
def carried (items : List Item) : List Token := (soundOf items).filter (!·.kind.isSynthetic)

/-- A stream hands on tokens in their order, each once: up to a fault, or all of them and the end
    marker, before which a line break may stand. -/
inductive HandsOn (kept : List Token) (ending : Item) (stream : List Item) : Prop
  | stopped (fault : Fault) : .error fault ∈ stream → carried stream <+: kept → HandsOn kept ending stream
  | ended (marker : Token) : (∀ fault, .error fault ∉ stream) → ending = .ok marker →
    carried stream = kept ++ [marker] → HandsOn kept ending stream
  | broken (marker : Token) : (∀ fault, .error fault ∉ stream) → ending = .ok marker →
    carried stream = kept ++ [Layout.synthetic .newline marker, marker] → HandsOn kept ending stream

theorem soundOf_map_append (ts : List Token) (items : List Item) :
    soundOf (ts.map .ok ++ items) = ts ++ soundOf items := by
  induction ts with
  | nil => rfl
  | cons t ts ih => exact congrArg (t :: ·) ih

theorem carried_map_append (ts : List Token) (items : List Item) :
    carried (ts.map .ok ++ items) = ts.filter (!·.kind.isSynthetic) ++ carried items := by
  rw [carried, soundOf_map_append, List.filter_append, carried]

theorem carried_marksAt_append {t : Token} {marks : List Kind} (hmarks : ∀ k ∈ marks, k.isSynthetic = true)
    (items : List Item) : carried (marksAt t marks ++ items) = carried items := by
  have hfilter : (marks.map (Layout.synthetic · t)).filter (!·.kind.isSynthetic) = [] := by
    refine List.filter_eq_nil_iff.mpr fun u hu => ?_
    obtain ⟨k, hk, rfl⟩ := List.mem_map.mp hu
    simp [Layout.synthetic, hmarks k hk]
  have hmap : marksAt t marks = (marks.map (Layout.synthetic · t)).map .ok := List.map_map.symm
  rw [hmap, carried_map_append, hfilter, List.nil_append]

theorem error_not_mem_marksAt {t : Token} {marks : List Kind} (fault : Fault) : .error fault ∉ marksAt t marks := by
  simp [marksAt]

/-- Marks and the tokens of a line in front of a stream. -/
theorem HandsOn.line {kept : List Token} {ending : Item} {stream : List Item} {first : Token} {marks : List Kind}
    {ts : List Token} (hmarks : ∀ k ∈ marks, k.isSynthetic = true) (hts : ∀ t ∈ ts, t.kind.isSynthetic = false)
    (h : HandsOn kept ending stream) : HandsOn (ts ++ kept) ending (marksAt first marks ++ ts.map .ok ++ stream) := by
  have hcarried : carried (marksAt first marks ++ ts.map .ok ++ stream) = ts ++ carried stream := by
    have hself : ts.filter (!·.kind.isSynthetic) = ts := List.filter_eq_self.mpr fun t ht => by rw [hts t ht]; rfl
    rw [List.append_assoc, carried_marksAt_append hmarks, carried_map_append, hself]
  have hmem (fault : Fault) :
      Except.error fault ∈ marksAt first marks ++ ts.map .ok ++ stream ↔ Except.error fault ∈ stream := by
    simp [error_not_mem_marksAt]
  cases h with
  | stopped fault hfault hpre =>
    refine .stopped fault ((hmem fault).mpr hfault) ?_
    rw [hcarried]
    exact (List.prefix_append_right_inj ts).mpr hpre
  | ended marker hnone hending heq =>
    refine .ended marker (fun fault hf => hnone fault ((hmem fault).mp hf)) hending ?_
    rw [hcarried, heq, List.append_assoc]
  | broken marker hnone hending heq =>
    refine .broken marker (fun fault hf => hnone fault ((hmem fault).mp hf)) hending ?_
    rw [hcarried, heq, List.append_assoc]

theorem handsOn_closing (stack : List Nat) (unended : Bool) {ending : Item}
    (hend : ∀ marker, ending = .ok marker → marker.kind = .endMarker) :
    HandsOn [] ending (closing stack unended ending) := by
  cases ending with
  | error fault => exact .stopped fault (List.mem_singleton_self _) (List.prefix_refl [])
  | ok marker =>
    cases hm : marker.mustIndent with
    | true =>
      simp only [closing, hm, if_true]
      exact .stopped _ (List.mem_singleton_self _) (List.prefix_refl [])
    | false =>
      have hmarks : ∀ k ∈ stack.dropLast.map fun _ => Kind.blockEnd, k.isSynthetic = true := by
        intro k hk
        obtain ⟨-, -, rfl⟩ := List.mem_map.mp hk
        rfl
      have hmarker : carried [.ok marker] = [marker] := by
        simp [carried, soundOf, hend marker rfl, Kind.isSynthetic]
      have hnone (fault : Fault) : Except.error fault ∉ closing stack unended (.ok marker) := by
        simp [closing, hm, error_not_mem_marksAt]
      have hends := carried_marksAt_append (t := marker) hmarks [.ok marker]
      rw [hmarker] at hends
      cases unended with
      | false => exact .ended marker hnone rfl (by simpa [closing, hm] using hends)
      | true =>
        refine .broken marker hnone rfl ?_
        have hclose : closing stack true (.ok marker) = [Layout.synthetic .newline marker].map .ok ++
            (marksAt marker (stack.dropLast.map fun _ => Kind.blockEnd) ++ [.ok marker]) := by
          simp [closing, marksAt, hm]
        rw [hclose, carried_map_append, hends]
        rfl

theorem handsOn_layLines {ending : Item} (hend : ∀ marker, ending = .ok marker → marker.kind = .endMarker)
    (stack : List Nat) (unended : Bool) {lines : List Line}
    (hlines : ∀ l ∈ lines, ∀ t ∈ l.handed, t.kind.isSynthetic = false) :
    HandsOn (lines.flatMap Line.handed) ending (layLines ending stack unended lines) := by
  induction lines generalizing stack unended with
  | nil => exact handsOn_closing stack unended hend
  | cons line lines ih =>
    obtain ⟨hline, hlines⟩ := List.forall_mem_cons.mp hlines
    rw [List.flatMap_cons]
    cases htext : line.text with
    | nil =>
      simp only [layLines, htext, Line.handed, if_true, List.nil_append]
      exact ih stack unended hlines
    | cons first others =>
      simp only [layLines, htext]
      cases hturn : turn stack line.width first with
      | error fault => exact .stopped _ (List.mem_singleton_self _) List.nil_prefix
      | ok r =>
        obtain ⟨marks, stack'⟩ := r
        have hmarks : ∀ k ∈ marks, k.isSynthetic = true := fun k hk => isSynthetic_of_turns (turns_of_turn hturn) hk
        exact .line hmarks hline (ih stack' line.break?.isNone hlines)

end Offside

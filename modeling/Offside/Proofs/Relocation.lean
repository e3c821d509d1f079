import Offside.Layout.Blocks

/-! # Items apart from their places

No pass over a text asks where a token stands. The lexer looks at the characters that it has not read, marks and
blocks at the kinds of tokens and at the widths of spaces. So a lexer at another place answers the same but for its
places, and giving all tokens other places changes nothing in a layout but the places in it. -/

namespace Offside

/-! ### Other places -/

/-- A choice of another span for each span and of another position for each position, in step with each other. The
    span of a marker that stands nowhere stays. -/
structure Relocation where
  span : Span → Span
  position : Position → Position
  start : ∀ s, (span s).start = position s.start
  before : ∀ s, (span s).before = span s.before
  nowhere : span {} = {}

/-- All places taken away. -/
def Relocation.unplaced : Relocation where
  span := fun _ => {}
  position := fun _ => ⟨0, 0⟩
  start := fun _ => rfl
  before := fun _ => rfl
  nowhere := rfl

variable (r : Relocation)

/-- A token at its other place; its kind and its marks stay. -/
def Token.relocated (t : Token) : Token := { t with span := r.span t.span }

/-- A fault at its other place. -/
def Fault.relocated : Fault → Fault
  | .lex fault p => .lex fault (r.position p)
  | .indent fault p => .indent fault (r.position p)

/-- An item at its other place. -/
def Item.relocated : Item → Item
  | .ok t => .ok (t.relocated r)
  | .error fault => .error (fault.relocated r)

@[simp] theorem Token.kind_relocated (t : Token) : (t.relocated r).kind = t.kind := rfl

@[simp] theorem Token.atLineStart_relocated (t : Token) : (t.relocated r).atLineStart = t.atLineStart := rfl

@[simp] theorem Token.mustIndent_relocated (t : Token) : (t.relocated r).mustIndent = t.mustIndent := rfl

@[simp] theorem Item.relocated_ok (t : Token) : Item.relocated r (.ok t) = .ok (t.relocated r) := rfl

/-- What is wrong, apart from where. -/
def Fault.cause : Fault → LexFault ⊕ IndentFault
  | .lex fault _ => .inl fault
  | .indent fault _ => .inr fault

/-- What an item is, apart from where it stands and from its marks: the kind of a token, or what is wrong. -/
def Item.content : Item → Except (LexFault ⊕ IndentFault) Kind
  | .ok t => .ok t.kind
  | .error fault => .error fault.cause

theorem Item.content_relocated (item : Item) : (item.relocated r).content = item.content := by
  cases item with
  | ok t => rfl
  | error fault => cases fault <;> rfl

/-- Items that are the same at other places have the same content. -/
theorem content_of_relocated {items items' : List Item}
    (h : items.map (Item.relocated r) = items'.map (Item.relocated r)) :
    items.map Item.content = items'.map Item.content := by
  have hcontent (items : List Item) : items.map Item.content = (items.map (Item.relocated r)).map Item.content := by
    rw [List.map_map]
    exact List.map_congr_left fun item _ => (item.content_relocated r).symm
  rw [hcontent, h, ← hcontent]

/-! ### The lexer -/

namespace Lexer

/-- Two lexers before the same characters, at places of their own. -/
def Displaced (l k : Lexer) : Prop := ∃ offset position, k = { l with offset, position }

variable {l k : Lexer}

namespace Displaced

theorem of_eq (hdialect : k.dialect = l.dialect) (hrest : k.rest = l.rest) (hbrackets : k.brackets = l.brackets)
    (hstart : k.lineStart = l.lineStart) (hfinished : k.finished = l.finished) : l.Displaced k := by
  refine ⟨k.offset, k.position, ?_⟩
  rw [← hdialect, ← hrest, ← hbrackets, ← hstart, ← hfinished]

theorem advance (h : l.Displaced k) (n : Nat) : (l.advance n).Displaced (k.advance n) := by
  obtain ⟨offset, position, rfl⟩ := h
  exact ⟨_, _, rfl⟩

theorem starting (h : l.Displaced k) (lineStart : Bool) : Displaced { l with lineStart } { k with lineStart } := by
  obtain ⟨offset, position, rfl⟩ := h
  exact ⟨offset, position, rfl⟩

theorem tracking (h : l.Displaced k) (b : Brackets) :
    Displaced { l with brackets := b, lineStart := false } { k with brackets := b, lineStart := false } := by
  obtain ⟨offset, position, rfl⟩ := h
  exact ⟨offset, position, rfl⟩

theorem finish (h : l.Displaced k) : Displaced { l with finished := true } { k with finished := true } := by
  obtain ⟨offset, position, rfl⟩ := h
  exact ⟨offset, position, rfl⟩

/-- Both answers are the same but for their places, and the lexers stay before the same characters. -/
def Agree (r q : Item × Lexer) : Prop :=
  q.1.relocated .unplaced = r.1.relocated .unplaced ∧ r.2.Displaced q.2

/-- A lexeme stands for the same kind at every place, or is a fault at every place. -/
theorem kindOf (h : l.Displaced k) (x : Lexeme) : (∃ kind, l.kindOf x = .ok kind ∧ k.kindOf x = .ok kind) ∨
    ∃ fault p q, l.kindOf x = .error (.lex fault p) ∧ k.kindOf x = .error (.lex fault q) := by
  obtain ⟨offset, position, rfl⟩ := h
  cases x with
  | integer ds =>
    simp only [Lexer.kindOf]
    split
    · exact .inl ⟨_, rfl, rfl⟩
    · exact .inr ⟨_, _, _, rfl, rfl⟩
  | _ => exact .inl ⟨_, rfl, rfl⟩

theorem lexeme (h : l.Displaced k) (c : Char) : Agree (l.lexeme c) (k.lexeme c) := by
  have hkind := h.kindOf
  have hrest : k.rest = l.rest ∧ k.brackets = l.brackets := by
    obtain ⟨offset, position, rfl⟩ := h
    exact ⟨rfl, rfl⟩
  unfold Lexer.lexeme
  rw [hrest.1, hrest.2]
  cases Lexeme.scan? l.rest with
  | none => exact ⟨rfl, h.finish⟩
  | some r =>
    obtain ⟨x, n⟩ := r
    dsimp only
    rcases hkind x with ⟨kind, hl, hk⟩ | ⟨fault, p, q, hl, hk⟩
    · rw [hl, hk]
      exact ⟨rfl, (h.advance n).tracking _⟩
    · rw [hl, hk]
      exact ⟨rfl, h.finish⟩

theorem significant (h : l.Displaced k) : Agree l.significant k.significant := by
  have hlexeme := h.lexeme
  have hbreak := fun n => (h.advance n).starting true
  obtain ⟨offset, position, rfl⟩ := h
  obtain ⟨dialect, rest, offset, position, brackets, lineStart, finished⟩ := l
  cases rest with
  | nil => exact ⟨rfl, _, _, rfl⟩
  | cons c cs =>
    dsimp only [Lexer.significant]
    split
    · exact ⟨rfl, hbreak _⟩
    · exact hlexeme c

theorem skipGap (h : l.Displaced k) : l.skipGap.Displaced k.skipGap := by
  have hadvance := h.advance
  obtain ⟨offset, position, rfl⟩ := h
  exact hadvance _

theorem next? (h : l.Displaced k) :
    (l.next? = none ∧ k.next? = none) ∨ ∃ r q, l.next? = some r ∧ k.next? = some q ∧ Agree r q := by
  have hsignificant := h.skipGap.significant
  have hspaces := fun n => (h.advance n).starting false
  obtain ⟨offset, position, rfl⟩ := h
  unfold Lexer.next? indentation?
  dsimp only
  split
  · exact .inl ⟨rfl, rfl⟩
  split
  · exact .inr ⟨_, _, rfl, rfl, rfl, hspaces _⟩
  · exact .inr ⟨_, _, rfl, rfl, hsignificant⟩

theorem take (h : l.Displaced k) (fuel : Nat) :
    (k.take fuel).map (Item.relocated .unplaced) = (l.take fuel).map (Item.relocated .unplaced) := by
  induction fuel generalizing l k with
  | zero => rfl
  | succ fuel ih =>
    rcases h.next? with ⟨hl, hk⟩ | ⟨r, q, hl, hk, hitem, hrest⟩
    · simp only [Lexer.take, hl, hk]
    · simp only [Lexer.take, hl, hk, List.map_cons, hitem, ih hrest]

end Displaced

/-- Apart from their places, the items of the lexer are the tokens `ts` and then those of the lexer `k`. -/
def Leads (l : Lexer) (ts : List Token) (k : Lexer) : Prop := ∀ fuel,
  (l.take (ts.length + fuel)).map (Item.relocated .unplaced) = ts.map .ok ++ (k.take fuel).map (Item.relocated .unplaced)

theorem Leads.refl (l : Lexer) : l.Leads [] l := fun fuel => by
  rw [List.length_nil, Nat.zero_add]
  rfl

theorem Leads.trans {ts us : List Token} {j : Lexer} (h : l.Leads ts k) (h' : k.Leads us j) : l.Leads (ts ++ us) j := by
  intro fuel
  rw [List.length_append, Nat.add_assoc, h, h', List.map_append, List.append_assoc]

theorem Displaced.leads (h : l.Displaced k) : k.Leads [] l := fun fuel => by
  rw [List.length_nil, Nat.zero_add, h.take]
  rfl

end Lexer

/-! ### Marks -/

theorem Marking.mark_relocated (g : Marking) (t : Token) : g.mark (t.relocated r) = (g.mark t).relocated r := by
  unfold mark
  rw [t.kind_relocated]
  split <;> rfl

theorem Marking.markAll_relocated (g : Marking) (items : List Item) :
    g.markAll (items.map (Item.relocated r)) = (g.markAll items).map (Item.relocated r) := by
  induction items generalizing g with
  | nil => rfl
  | cons item items ih =>
    cases item with
    | error fault => exact congrArg (_ :: ·) (ih g)
    | ok t =>
      simp only [List.map_cons, Item.relocated_ok, markAll, mark_relocated, ih]
      rfl

/-! ### Blocks -/

namespace Layout

/-- The pass with other places for what it has not answered. -/
def relocated (s : Layout) : Layout :=
  { s with
    input := s.input.map (Item.relocated r)
    held := s.held.map fun h => { h with token := h.token.relocated r } }

/-- An answer at its other place, and the pass behind it. -/
def answer (a : Item × Layout) : Item × Layout := (a.1.relocated r, a.2.relocated r)

variable (s : Layout) (t : Token)

@[simp] theorem levels_relocated : (s.relocated r).levels = s.levels := rfl

@[simp] theorem depth_relocated : (s.relocated r).depth = s.depth := rfl

@[simp] theorem afterSpaces_relocated : (s.relocated r).afterSpaces = s.afterSpaces := rfl

@[simp] theorem lineOpen_relocated : (s.relocated r).lineOpen = s.lineOpen := rfl

theorem synthetic_relocated (kind : Kind) : synthetic kind (t.relocated r) = (synthetic kind t).relocated r := by
  simp only [synthetic, Token.relocated, r.before]

theorem failAt_relocated (fault : IndentFault) :
    (s.relocated r).failAt fault (t.relocated r) = answer r (s.failAt fault t) := by
  have hstart : (t.relocated r).span.start = r.position t.span.start := r.start t.span
  rw [failAt, hstart]
  rfl

theorem forward_relocated : (s.relocated r).forward (t.relocated r) = answer r (s.forward t) := by
  simp only [forward, Token.kind_relocated, answer, Item.relocated_ok]
  cases t.kind <;> rfl

theorem forward_synthetic_relocated (kind : Kind) :
    (s.relocated r).forward (synthetic kind (t.relocated r)) = answer r (s.forward (synthetic kind t)) := by
  rw [synthetic_relocated]
  exact forward_relocated r s _

theorem close_relocated (ends : Nat) : (s.relocated r).close (t.relocated r) ends = answer r (s.close t ends) := by
  cases ends with
  | zero => exact forward_relocated r { s with held := none } t
  | succ ends => exact forward_synthetic_relocated r { s with held := some ⟨ends, t⟩ } t .blockEnd

theorem finish_relocated : (s.relocated r).finish (t.relocated r) = answer r (s.finish t) := by
  simp only [finish, Token.mustIndent_relocated, levels_relocated, lineOpen_relocated]
  by_cases hm : t.mustIndent = true
  · simp only [hm, if_true]
    exact failAt_relocated r s t _
  by_cases ho : s.lineOpen = true
  · simp only [hm, ho, Bool.false_eq_true, if_true, if_false]
    exact forward_synthetic_relocated r
      { s with levels := {}, held := some ⟨s.levels.widths.length, t⟩, finished := true } t .newline
  · simp only [hm, ho, Bool.false_eq_true, if_false]
    exact close_relocated r { s with levels := {}, lineOpen := false, finished := true } t _

theorem place_relocated : (s.relocated r).place (t.relocated r) = answer r (s.place t) := by
  simp only [place, Token.mustIndent_relocated, Token.atLineStart_relocated, levels_relocated, depth_relocated]
  by_cases hm : t.mustIndent = true
  · by_cases hdeep : s.depth ≤ s.levels.top
    · simp only [hm, hdeep, if_true]
      exact failAt_relocated r s t _
    · simp only [hm, hdeep, if_true, if_false]
      exact forward_synthetic_relocated r { s with levels := s.levels.push s.depth, held := some ⟨0, t⟩ } t .blockStart
  by_cases hstay : (!t.atLineStart || s.depth == s.levels.top) = true
  · simp only [hm, hstay, Bool.false_eq_true, if_true, if_false]
    exact forward_relocated r s t
  by_cases hdeep : s.levels.top < s.depth
  · simp only [hm, hstay, hdeep, Bool.false_eq_true, if_true, if_false]
    exact failAt_relocated r s t _
  · simp only [hm, hstay, hdeep, Bool.false_eq_true, if_false]
    cases s.levels.closeTo? s.depth with
    | none => exact failAt_relocated r s t _
    | some c => exact close_relocated r { s with levels := c.2 } t c.1

theorem missingMarker_relocated : missingMarker.relocated r = missingMarker := by
  simp only [Token.relocated, missingMarker, r.nowhere]

theorem pull_relocated (input : List Item) :
    (s.relocated r).pull (input.map (Item.relocated r)) = answer r (s.pull input) := by
  induction input generalizing s with
  | nil =>
    have hfinish := finish_relocated r { s with input := [] } missingMarker
    rw [missingMarker_relocated] at hfinish
    exact hfinish
  | cons item rest ih =>
    cases item with
    | error fault => rfl
    | ok t =>
      have hplace := place_relocated r { s with input := rest, afterSpaces := false } t
      simp only [List.map_cons, Item.relocated_ok, pull, Token.kind_relocated, Token.atLineStart_relocated,
        afterSpaces_relocated]
      cases hk : t.kind with
      | whitespace width => exact ih { s with depth := width, afterSpaces := true }
      | newline =>
        by_cases hblank : (s.afterSpaces || t.atLineStart) = true
        · simp only [hblank, if_true]
          exact ih { s with depth := 0, afterSpaces := false }
        · simp only [hblank, Bool.false_eq_true, if_false]
          exact forward_relocated r { s with input := rest, depth := 0, afterSpaces := false } t
      | endMarker => exact finish_relocated r { s with input := rest } t
      | name | integer | float | string | keyword | symbol | blockStart | blockEnd => exact hplace

theorem next?_relocated : (s.relocated r).next? = s.next?.map (answer r) := by
  obtain ⟨input, levels, depth, spaces, lineOpen, held, finished⟩ := s
  cases held with
  | some h => exact congrArg some (close_relocated r _ h.token h.ends)
  | none =>
    cases finished with
    | true => rfl
    | false => exact congrArg some (pull_relocated r ⟨input, levels, depth, spaces, lineOpen, none, false⟩ input)

theorem take_relocated (fuel : Nat) : (s.relocated r).take fuel = (s.take fuel).map (Item.relocated r) := by
  induction fuel generalizing s with
  | zero => rfl
  | succ fuel ih =>
    simp only [take, next?_relocated]
    cases s.next? with
    | none => rfl
    | some a => exact congrArg (_ :: ·) (ih a.2)

end Layout

theorem layOut_relocated (items : List Item) :
    layOut (items.map (Item.relocated r)) = (layOut items).map (Item.relocated r) := by
  have htake := Layout.take_relocated r { input := items } (3 * items.length + 2)
  rw [layOut, Layout.items, List.length_map]
  exact htake

end Offside

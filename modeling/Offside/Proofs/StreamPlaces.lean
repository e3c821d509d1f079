import Offside.Proofs.LayoutByLines
import Offside.Proofs.SourceTiling
import Offside.Proofs.TwinReading

/-! # Where the items of a stream stand

The stream of a text has the tokens of its lexer, in order, with line breaks and block marks in front of them: each
token starts where one of the lexer's does, and each fault is at one of them or is the lexer's own. A block start
stands in front of text. -/

namespace Offside

/-! ### Lines laid out -/

/-- The items that lines are laid out as, line by line. -/
inductive Composed (ending : Item) : List Nat → Bool → List Line → List Item → Prop
  | closing {stack : List Nat} {unended : Bool} : Composed ending stack unended [] (closing stack unended ending)
  | blank {stack : List Nat} {unended : Bool} {line : Line} {lines : List Line} {items : List Item} : line.text = [] →
    Composed ending stack unended lines items → Composed ending stack unended (line :: lines) items
  | fault {stack : List Nat} {unended : Bool} {line : Line} {lines : List Line} {first : Token} {others : List Token}
    {fault : IndentFault} : line.text = first :: others → turn stack line.width first = .error fault →
    Composed ending stack unended (line :: lines) [.error (.indent fault first.span.start)]
  | line {stack stack' : List Nat} {unended : Bool} {line : Line} {lines : List Line} {first : Token}
    {others : List Token} {marks : List Kind} {items : List Item} : line.text = first :: others →
    Turns stack line.width first marks stack' → Composed ending stack' line.break?.isNone lines items →
    Composed ending stack unended (line :: lines)
      (marksAt first marks ++ (line.text ++ line.break?.toList).map .ok ++ items)

theorem composed_layLines (ending : Item) (stack : List Nat) (unended : Bool) (lines : List Line) :
    Composed ending stack unended lines (layLines ending stack unended lines) := by
  induction lines generalizing stack unended with
  | nil => exact .closing
  | cons line lines ih =>
    cases htext : line.text with
    | nil =>
      simp only [layLines, htext]
      exact .blank htext (ih stack unended)
    | cons first others =>
      simp only [layLines, htext]
      cases hturn : turn stack line.width first with
      | error fault => exact .fault htext hturn
      | ok r =>
        have hne : line.text ≠ [] := by simp [htext]
        simp only [Line.handed, if_neg hne]
        exact .line htext (turns_of_turn hturn) (ih r.2 line.break?.isNone)

/-! ### Items of the lines -/

/-- An item of a layout is the ending, one of the tokens, or a mark or a fault in front of one of these. -/
inductive Stems (ending : Item) (ts : List Token) : Item → Prop
  | ending : Stems ending ts ending
  | token {t : Token} : t ∈ ts → Stems ending ts (.ok t)
  | mark (kind : Kind) {t : Token} : t ∈ ts ∨ ending = .ok t → kind.isText = false →
    Stems ending ts (.ok (Layout.synthetic kind t))
  | fault (fault : IndentFault) {t : Token} : t ∈ ts ∨ ending = .ok t →
    Stems ending ts (.error (.indent fault t.span.start))

section
variable {ending : Item} {ts : List Token} {stack : List Nat} {unended : Bool} {lines : List Line} {items : List Item}

theorem stems_marksAt {t : Token} {marks : List Kind} (ht : t ∈ ts ∨ ending = .ok t)
    (hmarks : ∀ k ∈ marks, k.isText = false) : ∀ item ∈ marksAt t marks, Stems ending ts item := by
  intro item hitem
  obtain ⟨kind, hkind, rfl⟩ := List.mem_map.mp hitem
  exact .mark kind ht (hmarks kind hkind)

theorem not_isText_of_isSynthetic {k : Kind} (h : k.isSynthetic = true) : k.isText = false := by
  cases k <;> first | rfl | cases h

theorem mem_closingMarks {k : Kind}
    (hk : k ∈ (if unended then [Kind.newline] else []) ++ stack.dropLast.map fun _ => Kind.blockEnd) :
    k = .newline ∨ k = .blockEnd := by
  rcases List.mem_append.mp hk with hk | hk
  · split at hk
    · exact .inl (List.mem_singleton.mp hk)
    · cases hk
  · obtain ⟨-, -, rfl⟩ := List.mem_map.mp hk
    exact .inr rfl

theorem not_isText_of_mem_closingMarks {k : Kind}
    (hk : k ∈ (if unended then [Kind.newline] else []) ++ stack.dropLast.map fun _ => Kind.blockEnd) :
    k.isText = false := by
  rcases mem_closingMarks hk with rfl | rfl <;> rfl

theorem stems_closing : ∀ item ∈ closing stack unended ending, Stems ending ts item := by
  cases ending with
  | error fault => exact List.forall_mem_singleton.mpr .ending
  | ok marker =>
    simp only [closing]
    split
    · exact List.forall_mem_singleton.mpr (.fault _ (.inr rfl))
    · exact List.forall_mem_append.mpr
        ⟨stems_marksAt (.inr rfl) fun k => not_isText_of_mem_closingMarks, List.forall_mem_singleton.mpr .ending⟩

theorem Composed.stems (h : Composed ending stack unended lines items)
    (hlines : ∀ l ∈ lines, ∀ t ∈ l.tokens ++ l.break?.toList, t ∈ ts) : ∀ item ∈ items, Stems ending ts item := by
  have htokens {l : Line} {t : Token} (hl : ∀ t ∈ l.tokens ++ l.break?.toList, t ∈ ts)
      (ht : t ∈ l.text ++ l.break?.toList) : t ∈ ts := by
    refine hl t ?_
    rcases List.mem_append.mp ht with ht | ht
    · exact List.mem_append_left _ (List.mem_filter.mp ht).1
    · exact List.mem_append_right _ ht
  induction h with
  | closing => exact stems_closing
  | blank _ _ ih => exact ih (List.forall_mem_cons.mp hlines).2
  | fault htext _ =>
    refine List.forall_mem_singleton.mpr (.fault _ (.inl (htokens (List.forall_mem_cons.mp hlines).1 ?_)))
    simp [htext]
  | line htext hturns _ ih =>
    obtain ⟨hline, hlines⟩ := List.forall_mem_cons.mp hlines
    refine List.forall_mem_append.mpr ⟨List.forall_mem_append.mpr ⟨?_, ?_⟩, ih hlines⟩
    · refine stems_marksAt (.inl (htokens hline ?_)) fun k hk =>
        not_isText_of_isSynthetic (isSynthetic_of_turns hturns hk)
      simp [htext]
    · intro item hitem
      obtain ⟨t, ht, rfl⟩ := List.mem_map.mp hitem
      exact .token (htokens hline ht)

/-! ### Text and blocks -/

/-- A layout comes to an end: a fault, or the end marker. -/
theorem Composed.ends (h : Composed ending stack unended lines items)
    (hend : ∀ marker, ending = .ok marker → marker.kind = .endMarker) :
    ∃ item ∈ items, ∀ t, item = .ok t → t.kind = .endMarker := by
  induction h with
  | closing =>
    cases ending with
    | error fault => exact ⟨_, List.mem_singleton_self _, by simp⟩
    | ok marker =>
      simp only [Offside.closing]
      split
      · exact ⟨_, List.mem_singleton_self _, by simp⟩
      · refine ⟨.ok marker, List.mem_append_right _ (List.mem_singleton_self _), ?_⟩
        rintro t ⟨rfl⟩
        exact hend _ rfl
  | blank _ _ ih => exact ih
  | fault => exact ⟨_, List.mem_singleton_self _, by simp⟩
  | line _ _ _ ih =>
    obtain ⟨item, hitem, hkind⟩ := ih
    exact ⟨item, List.mem_append_right _ hitem, hkind⟩

/-- A layout before an ending that is a fault, or that a block has to begin at, has a fault. -/
theorem Composed.exists_fault (h : Composed ending stack unended lines items)
    (hend : ∀ marker, ending = .ok marker → marker.mustIndent = true) : ∃ fault, .error fault ∈ items := by
  induction h with
  | closing =>
    cases ending with
    | error fault => exact ⟨fault, List.mem_singleton_self _⟩
    | ok marker =>
      simp only [Offside.closing, hend marker rfl, if_true]
      exact ⟨_, List.mem_singleton_self _⟩
  | blank _ _ ih => exact ih
  | fault => exact ⟨_, List.mem_singleton_self _⟩
  | line _ _ _ ih =>
    obtain ⟨fault, hfault⟩ := ih
    exact ⟨fault, List.mem_append_right _ hfault⟩

theorem marksAt_eq_map (t : Token) (marks : List Kind) : marksAt t marks = (marks.map (Layout.synthetic · t)).map .ok :=
  List.map_map.symm

/-- An item that is not the end marker. -/
def Item.Continues (item : Item) : Prop := ∀ t, item = .ok t → t.kind ≠ .endMarker

theorem pairwise_continues_append {us : List Token} {vs : List Item} (hu : ∀ t ∈ us, t.kind ≠ .endMarker)
    (hv : vs.Pairwise fun x _ => Item.Continues x) : (us.map Except.ok ++ vs).Pairwise fun x _ => Item.Continues x := by
  induction us with
  | nil => exact hv
  | cons t us ih =>
    obtain ⟨ht, hu⟩ := List.forall_mem_cons.mp hu
    refine List.pairwise_cons.mpr ⟨fun _ _ u htoken => ?_, ih hu⟩
    obtain rfl := Except.ok.inj htoken
    exact ht

/-- Only the last item of a layout can be the end marker. -/
theorem Composed.onlyLast (h : Composed ending stack unended lines items)
    (hlines : ∀ l ∈ lines, ∀ t ∈ l.text ++ l.break?.toList, t.kind ≠ .endMarker) :
    items.Pairwise fun x _ => Item.Continues x := by
  have hmarks {t : Token} {marks : List Kind} (hmarks : ∀ k ∈ marks, k ≠ .endMarker) :
      ∀ u ∈ marks.map (Layout.synthetic · t), u.kind ≠ .endMarker := by
    intro u hu
    obtain ⟨k, hk, rfl⟩ := List.mem_map.mp hu
    exact hmarks k hk
  induction h with
  | closing =>
    cases ending with
    | error fault => exact List.pairwise_singleton _ _
    | ok marker =>
      simp only [Offside.closing]
      split
      · exact List.pairwise_singleton _ _
      · rw [marksAt_eq_map]
        refine pairwise_continues_append (hmarks fun k hk => ?_) (List.pairwise_singleton _ _)
        rcases mem_closingMarks hk with rfl | rfl <;> simp
  | blank _ _ ih => exact ih (List.forall_mem_cons.mp hlines).2
  | fault => exact List.pairwise_singleton _ _
  | line _ hturns _ ih =>
    obtain ⟨hline, hlines⟩ := List.forall_mem_cons.mp hlines
    rw [marksAt_eq_map, List.append_assoc]
    refine pairwise_continues_append (hmarks fun k hk hmarker => ?_) (pairwise_continues_append hline (ih hlines))
    have hsynthetic := isSynthetic_of_turns hturns hk
    rw [hmarker] at hsynthetic
    cases hsynthetic

theorem soundOf_marksAt_append (t : Token) (marks : List Kind) (items : List Item) :
    soundOf (marksAt t marks ++ items) = marks.map (Layout.synthetic · t) ++ soundOf items := by
  rw [marksAt_eq_map, soundOf_map_append]

theorem texts_marks {t : Token} {marks : List Kind} (h : ∀ k ∈ marks, k.isText = false) :
    texts (marks.map (Layout.synthetic · t)) = [] := by
  refine List.filter_eq_nil_iff.mpr fun u hu => ?_
  obtain ⟨k, hk, rfl⟩ := List.mem_map.mp hu
  simp [Layout.synthetic, h k hk]

theorem texts_text (l : Line) : texts l.text = texts l.tokens := by
  rw [texts, Line.text, List.filter_filter]
  refine List.filter_congr fun t _ => ?_
  cases ht : t.kind.isText with
  | false => rfl
  | true => rw [not_isSpaces_of_isText ht]; rfl

/-- The text of a layout is the text of the lines, up to a fault. -/
theorem Composed.exists_texts (h : Composed ending stack unended lines items)
    (hend : ∀ marker, ending = .ok marker → marker.kind = .endMarker)
    (hlines : ∀ l ∈ lines, (∀ t ∈ l.text, t.kind.isText = true) ∧ ∀ t ∈ l.break?, t.kind = .newline) :
    ∃ rest, texts (lines.flatMap fun l => l.tokens ++ l.break?.toList) = texts (soundOf items) ++ rest ∧
      ((∀ fault, .error fault ∉ items) → rest = []) := by
  have hbreak {l : Line} (hl : ∀ t ∈ l.break?, t.kind = .newline) : texts l.break?.toList = [] := by
    refine List.filter_eq_nil_iff.mpr fun t ht => ?_
    rw [hl t (Option.mem_toList.mp ht)]
    exact Bool.false_ne_true
  induction h with
  | closing =>
    cases ending with
    | error fault => exact ⟨[], rfl, fun _ => rfl⟩
    | ok marker =>
      simp only [Offside.closing]
      split
      · exact ⟨[], rfl, fun _ => rfl⟩
      · have hmarker : texts (soundOf [.ok marker]) = [] := by simp [soundOf, texts, hend marker rfl, Kind.isText]
        rw [soundOf_marksAt_append, texts_append, texts_marks fun k => not_isText_of_mem_closingMarks, hmarker]
        exact ⟨[], rfl, fun _ => rfl⟩
  | blank htext _ ih =>
    obtain ⟨hline, hlines⟩ := List.forall_mem_cons.mp hlines
    obtain ⟨rest, hrest, hnone⟩ := ih hlines
    refine ⟨rest, ?_, hnone⟩
    rw [List.flatMap_cons, texts_append, texts_append, ← texts_text, htext, hbreak hline.2, hrest]
    rfl
  | fault => exact ⟨_, rfl, fun hnone => absurd (List.mem_singleton_self _) (hnone _)⟩
  | @line _ _ _ line lines _ _ _ items htext hturns _ ih =>
    obtain ⟨-, hlines⟩ := List.forall_mem_cons.mp hlines
    obtain ⟨rest, hrest, hnone⟩ := ih hlines
    refine ⟨rest, ?_, fun hfault => hnone fun fault hmem => hfault fault (List.mem_append_right _ hmem)⟩
    have hmarks := fun k hk => not_isText_of_isSynthetic (isSynthetic_of_turns hturns (k := k) hk)
    rw [List.append_assoc, soundOf_marksAt_append, soundOf_map_append, texts_append, texts_marks hmarks]
    simp only [List.flatMap_cons, texts_append, texts_text, hrest, List.nil_append, List.append_assoc]

/-- Tokens other than block starts in front of others. -/
theorem isChain_append_of_plain {us vs : List Token} (hu : ∀ t ∈ us, t.kind ≠ .blockStart)
    (hv : vs.IsChain fun t t' => t.kind = .blockStart → t'.kind ≠ .blockEnd) :
    (us ++ vs).IsChain fun t t' => t.kind = .blockStart → t'.kind ≠ .blockEnd := by
  induction us with
  | nil => exact hv
  | cons t us ih =>
    obtain ⟨ht, hu⟩ := List.forall_mem_cons.mp hu
    exact List.isChain_cons.mpr ⟨fun _ _ hstart => absurd hstart ht, ih hu⟩

/-- A block starts in front of text. -/
theorem Composed.filled (h : Composed ending stack unended lines items)
    (hend : ∀ marker, ending = .ok marker → marker.kind = .endMarker)
    (hlines : ∀ l ∈ lines, (∀ t ∈ l.text, t.kind.isText = true) ∧ ∀ t ∈ l.break?, t.kind = .newline) :
    (soundOf items).IsChain fun t t' => t.kind = .blockStart → t'.kind ≠ .blockEnd := by
  induction h with
  | closing =>
    cases ending with
    | error fault => exact .nil
    | ok marker =>
      simp only [Offside.closing]
      split
      · exact .nil
      · rw [soundOf_marksAt_append]
        refine isChain_append_of_plain (fun t ht => ?_) (List.isChain_singleton marker)
        obtain ⟨k, hk, rfl⟩ := List.mem_map.mp ht
        rcases mem_closingMarks hk with rfl | rfl <;> simp [Layout.synthetic]
  | blank _ _ ih => exact ih (List.forall_mem_cons.mp hlines).2
  | fault => exact .nil
  | @line _ _ _ line lines first others marks items htext hturns _ ih =>
    obtain ⟨⟨hline, hbreak⟩, hlines⟩ := List.forall_mem_cons.mp hlines
    have hfirst : first.kind.isText = true := hline first (by simp [htext])
    have hplain : ∀ t ∈ line.text ++ line.break?.toList, t.kind ≠ .blockStart := by
      refine List.forall_mem_append.mpr ⟨fun t ht hk => ?_, fun t ht hk => ?_⟩
      · have := hline t ht
        rw [hk] at this
        cases this
      · rw [hbreak t (Option.mem_toList.mp ht)] at hk
        cases hk
    have hrest := isChain_append_of_plain hplain (ih hlines)
    rw [List.append_assoc, soundOf_marksAt_append, soundOf_map_append]
    cases hturns with
    | opens =>
      refine List.isChain_cons.mpr ⟨fun t ht _ hend => ?_, hrest⟩
      obtain rfl : first = t := by simpa [htext] using ht
      rw [hend] at hfirst
      cases hfirst
    | stays => exact hrest
    | closes =>
      refine isChain_append_of_plain (fun t ht => ?_) hrest
      obtain ⟨k, hk, rfl⟩ := List.mem_map.mp ht
      obtain ⟨-, -, rfl⟩ := List.mem_map.mp hk
      simp [Layout.synthetic]

end

/-! ### Tokens of the lines -/

section
variable {ts : List Token}

/-- The lines have the tokens of the text. -/
theorem flatMap_linesOf (ts : List Token) : (linesOf ts).flatMap (fun l => l.tokens ++ l.break?.toList) = ts := by
  induction ts with
  | nil => rfl
  | cons t ts ih =>
    by_cases ht : t.kind = .newline
    · rw [linesOf_break ht, List.flatMap_cons, ih]
      rfl
    · rw [linesOf_cons ht]
      cases hlines : linesOf ts with
      | nil =>
        rw [hlines] at ih
        obtain rfl : ts = [] := ih.symm
        rfl
      | cons l lines =>
        rw [hlines, List.flatMap_cons] at ih
        rw [lead, List.flatMap_cons, ← ih]
        simp

theorem Ruled.kinds {p : LinePlace} (h : Ruled p ts) :
    ∀ t ∈ ts, t.kind = .newline ∨ t.kind.isSpaces = true ∨ t.kind.isText = true := by
  induction h with
  | nil => exact List.forall_mem_nil _
  | spaces hk _ ih => exact List.forall_mem_cons.mpr ⟨.inr (.inl (by rw [hk]; rfl)), ih⟩
  | blank _ hk _ _ ih | lineBreak hk _ _ ih => exact List.forall_mem_cons.mpr ⟨.inl hk, ih⟩
  | first _ hk _ _ ih | later hk _ _ _ ih => exact List.forall_mem_cons.mpr ⟨.inr (.inr hk), ih⟩

/-- Line breaks stand at the ends of lines only. -/
theorem kinds_linesOf (h : ∀ t ∈ ts, t.kind = .newline ∨ t.kind.isSpaces = true ∨ t.kind.isText = true) :
    ∀ l ∈ linesOf ts, (∀ t ∈ l.text, t.kind.isText = true) ∧ ∀ t ∈ l.break?, t.kind = .newline := by
  induction ts with
  | nil => exact List.forall_mem_nil _
  | cons t ts ih =>
    obtain ⟨ht, hts⟩ := List.forall_mem_cons.mp h
    have ih := ih hts
    by_cases hbreak : t.kind = .newline
    · rw [linesOf_break hbreak]
      refine List.forall_mem_cons.mpr ⟨⟨List.forall_mem_nil _, ?_⟩, ih⟩
      rintro _ ⟨rfl⟩
      exact hbreak
    · have hfirst {us : List Token} (hus : ∀ u ∈ us.filter (!·.kind.isSpaces), u.kind.isText = true) :
          ∀ u ∈ (t :: us).filter (!·.kind.isSpaces), u.kind.isText = true := by
        rcases ht with ht | ht | ht
        · exact absurd ht hbreak
        · simpa [ht] using hus
        · simpa [not_isSpaces_of_isText ht, ht] using hus
      rw [linesOf_cons hbreak]
      cases hlines : linesOf ts with
      | nil => exact List.forall_mem_singleton.mpr ⟨hfirst (List.forall_mem_nil _), fun _ h => nomatch h⟩
      | cons l lines =>
        rw [hlines] at ih
        obtain ⟨⟨htext, hend⟩, hlines⟩ := List.forall_mem_cons.mp ih
        exact List.forall_mem_cons.mpr ⟨⟨hfirst htext, hend⟩, hlines⟩

end

/-! ### The stream of a text -/

/-- A token without its marks. -/
def Token.unmarked (t : Token) : Token := { t with mustIndent := false, atLineStart := false }

def Item.unmarked : Item → Item := Except.map Token.unmarked

theorem Marking.unmarked_mark (g : Marking) (t : Token) : (g.mark t).unmarked = t.unmarked := by
  unfold mark
  split <;> rfl

theorem Marking.unmarked_markAll (g : Marking) (items : List Item) :
    (g.markAll items).map Item.unmarked = items.map Item.unmarked := by
  induction items generalizing g with
  | nil => rfl
  | cons item items ih =>
    cases item with
    | error fault => exact congrArg (_ :: ·) (ih g)
    | ok t => exact congrArg₂ (· :: ·) (congrArg Except.ok (g.unmarked_mark t)) (ih (g.after t.kind))

section
variable {items : List Item}

/-- Marking leaves items what they are and where they are. -/
theorem exists_unmarked {item : Item} (h : item ∈ markLines items) :
    ∃ item' ∈ items, item.unmarked = item'.unmarked := by
  have hmem := List.mem_map_of_mem (f := Item.unmarked) h
  rw [markLines, Marking.unmarked_markAll] at hmem
  obtain ⟨item', hitem, heq⟩ := List.mem_map.mp hmem
  exact ⟨item', hitem, heq.symm⟩

theorem token_of_marked {u : Token} (h : .ok u ∈ markLines items) :
    ∃ t, .ok t ∈ items ∧ u.kind = t.kind ∧ u.span = t.span := by
  obtain ⟨item, hitem, heq⟩ := exists_unmarked h
  cases item with
  | error fault => cases heq
  | ok t =>
    have ht : u.unmarked = t.unmarked := Except.ok.inj heq
    obtain ⟨hkind, hspan, -⟩ := Token.mk.inj ht
    exact ⟨t, hitem, hkind, hspan⟩

theorem fault_of_marked {fault : Fault} (h : .error fault ∈ markLines items) : .error fault ∈ items := by
  obtain ⟨item, hitem, heq⟩ := exists_unmarked h
  cases item with
  | error fault' =>
    obtain rfl := Except.error.inj heq
    exact hitem
  | ok t => cases heq

/-- A token ends before another one starts. -/
def Item.Precedes (x y : Item) : Prop := ∀ s t, x = .ok s → y = .ok t → s.span.stop ≤ t.span.offset

theorem Item.precedes_unmarked (x y : Item) : x.unmarked.Precedes y.unmarked ↔ x.Precedes y := by
  cases x <;> cases y <;> simp [Precedes, unmarked, Except.map, Token.unmarked]

theorem inOrder_markLines (h : items.Pairwise Item.Precedes) : (markLines items).Pairwise Item.Precedes := by
  have hiff (xs : List Item) : (xs.map Item.unmarked).Pairwise Item.Precedes ↔ xs.Pairwise Item.Precedes := by
    rw [List.pairwise_map]
    exact List.Pairwise.iff Item.precedes_unmarked
  rwa [← hiff, markLines, Marking.unmarked_markAll, hiff]

/-- The ending of items that have one. -/
theorem endingOf_mem (h : ∃ item ∈ items, ∀ t, item = .ok t → t.kind = .endMarker) : endingOf items ∈ items := by
  induction items with
  | nil =>
    obtain ⟨item, hitem, -⟩ := h
    cases hitem
  | cons item items ih =>
    cases item with
    | error fault => exact List.mem_cons_self
    | ok t =>
      simp only [endingOf]
      split
      · exact List.mem_cons_self
      · next ht =>
        obtain ⟨item, hitem, hend⟩ := h
        refine List.mem_cons_of_mem _ (ih ⟨item, (List.mem_cons.mp hitem).resolve_left ?_, hend⟩)
        rintro rfl
        exact ht (hend t rfl)

end

theorem tiled_lex (dialect : Dialect) (source : String) : Tiled [] {} source.toList (lex dialect source) := by
  have htiled := (Lexer.tiled_pulls (Lexer.follows_new dialect source) rfl
    (Nat.lt_succ_self (Lexer.new dialect source).rest.length)).1
  rwa [Lexer.fst_pulls] at htiled

theorem ends_markLines {before rest : List Char} {b : Brackets} {items : List Item} (h : Tiled before b rest items) :
    ∃ item ∈ markLines items, ∀ t, item = .ok t → t.kind = .endMarker := by
  obtain ⟨ts, last, rfl, -, hlast⟩ := h.ends
  have hmem : last.unmarked ∈ (markLines (ts.map .ok ++ [last])).map Item.unmarked := by
    rw [markLines, Marking.unmarked_markAll]
    exact List.mem_map_of_mem (List.mem_append_right _ (List.mem_singleton_self last))
  obtain ⟨item, hitem, heq⟩ := List.mem_map.mp hmem
  refine ⟨item, hitem, ?_⟩
  rintro t rfl
  cases last with
  | error fault => cases heq
  | ok m =>
    have ht : t.unmarked = m.unmarked := Except.ok.inj heq
    exact (Token.mk.inj ht).1.trans (hlast m rfl).1

theorem tokenStream_eq (dialect : Dialect) (source : String) :
    tokenStream dialect source = layByLines (markLines (lex dialect source)) :=
  layOut_eq_layByLines (ruled_markLines dialect source)

/-- The lines of a text, laid out. -/
theorem composed_tokenStream (dialect : Dialect) (source : String) :
    Composed (endingOf (markLines (lex dialect source))) [0] false (linesOf (bodyOf (markLines (lex dialect source))))
      (tokenStream dialect source) := by
  rw [tokenStream_eq]
  exact composed_layLines ..

theorem ordered_bodyOf {items : List Item} (h : items.Pairwise Item.Precedes) : Ordered (bodyOf items) := by
  obtain ⟨tail, hitems, -⟩ := Layout.exists_tail items
  rw [hitems] at h
  have hbody := List.pairwise_map.mp (List.pairwise_append.mp h).1
  exact (hbody.imp fun hle => hle _ _ rfl rfl).sublist List.filter_sublist

/-- A stream comes to an end, has its text in order and no empty blocks. -/
theorem bounded_tokenStream (dialect : Dialect) (source : String) : Bounded (tokenStream dialect source) := by
  have hcomposed := composed_tokenStream dialect source
  have hend : ∀ marker, endingOf (markLines (lex dialect source)) = .ok marker → marker.kind = .endMarker :=
    fun _ => kind_of_endingOf
  have hordered : Ordered (bodyOf (markLines (lex dialect source))) :=
    ordered_bodyOf (inOrder_markLines (tiled_lex dialect source).inOrder)
  refine ⟨hcomposed.ends hend, ?_, hcomposed.filled hend (kinds_linesOf (ruled_markLines dialect source).kinds)⟩
  obtain ⟨rest, htexts, -⟩ := hcomposed.exists_texts hend (kinds_linesOf (ruled_markLines dialect source).kinds)
  rw [flatMap_linesOf] at htexts
  rw [Ordered, htexts] at hordered
  exact (List.pairwise_append.mp hordered).1

/-- An item of a stream is a token of the lexer, a mark in front of one, the fault of the lexer, or a fault of the
    indentation at one of its tokens. -/
inductive Grounded (dialect : Dialect) (source : String) : Item → Prop
  | token {t u : Token} : .ok u ∈ lex dialect source → t.kind = u.kind → t.span = u.span →
    Grounded dialect source (.ok t)
  | mark {t u : Token} : .ok u ∈ lex dialect source → t.kind.isText = false → t.span = u.span.before →
    Grounded dialect source (.ok t)
  | char {fault : Fault} : .error fault ∈ lex dialect source → Grounded dialect source (.error fault)
  | indent {fault : IndentFault} {u : Token} : .ok u ∈ lex dialect source →
    Grounded dialect source (.error (.indent fault u.span.start))

theorem grounded_of_mem {dialect : Dialect} {source : String} {item : Item} (h : item ∈ tokenStream dialect source) :
    Grounded dialect source item := by
  have hending : endingOf (markLines (lex dialect source)) ∈ markLines (lex dialect source) :=
    endingOf_mem (ends_markLines (tiled_lex dialect source))
  have hbody : ∀ t ∈ bodyOf (markLines (lex dialect source)), .ok t ∈ markLines (lex dialect source) := by
    obtain ⟨tail, hitems, -⟩ := Layout.exists_tail (markLines (lex dialect source))
    intro t ht
    rw [hitems]
    exact List.mem_append_left _ (List.mem_map_of_mem ht)
  have hfrom {t : Token}
      (ht : t ∈ bodyOf (markLines (lex dialect source)) ∨ endingOf (markLines (lex dialect source)) = .ok t) :
      ∃ u, .ok u ∈ lex dialect source ∧ t.kind = u.kind ∧ t.span = u.span := by
    rcases ht with ht | ht
    · exact token_of_marked (hbody t ht)
    · exact token_of_marked (ht ▸ hending)
  cases (composed_tokenStream dialect source).stems (fun l hl t => mem_of_mem_linesOf hl) item h with
  | ending =>
    cases hlast : endingOf (markLines (lex dialect source)) with
    | error fault => exact .char (fault_of_marked (hlast ▸ hending))
    | ok marker =>
      obtain ⟨u, hu, hkind, hspan⟩ := hfrom (.inr hlast)
      exact .token hu hkind hspan
  | token ht =>
    obtain ⟨u, hu, hkind, hspan⟩ := hfrom (.inl ht)
    exact .token hu hkind hspan
  | mark kind ht htext =>
    obtain ⟨u, hu, -, hspan⟩ := hfrom ht
    exact .mark hu htext (congrArg Span.before hspan)
  | fault fault ht =>
    obtain ⟨u, hu, -, hspan⟩ := hfrom ht
    rw [hspan]
    exact .indent hu

/-- Behind the end marker of a stream there is nothing. -/
theorem nil_of_endMarker {dialect : Dialect} {source : String} {items rest : List Item} {t : Token}
    (h : tokenStream dialect source = items ++ .ok t :: rest) (ht : t.kind = .endMarker) : rest = [] := by
  have hkinds := kinds_linesOf (ruled_markLines dialect source).kinds
  have hlast := (composed_tokenStream dialect source).onlyLast fun l hl => by
    refine List.forall_mem_append.mpr ⟨fun t ht => ne_endMarker_of_isText ((hkinds l hl).1 t ht), fun t ht => ?_⟩
    rw [(hkinds l hl).2 t (Option.mem_toList.mp ht)]
    exact fun h => nomatch h
  rw [h] at hlast
  have hbehind := (List.pairwise_cons.mp (List.pairwise_append.mp hlast).2.1).1
  exact List.eq_nil_iff_forall_not_mem.mpr fun item hitem => hbehind item hitem t rfl ht

end Offside

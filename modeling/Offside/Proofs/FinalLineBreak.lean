import Offside.Proofs.LexemeBounds
import Offside.Proofs.TreePlaces

/-! # The final line break

A text may leave out the line break behind its last line. With or without it the text has the same tokens before
its end: only the line break, the end marker and the block ends between them stand elsewhere. The one exception is
a text whose last token is a colon, which asks for a block once its line has ended. -/

namespace Offside

/-! ### Runs before one more line feed -/

section
variable {cs : List Char}

theorem spaceRun_append (cs : List Char) : spaceRun (cs ++ ['\n']) = spaceRun cs :=
  takeWhile_append_of_head (by simp) cs

/-- A gap takes one more line feed if it has taken all before it, inside brackets. -/
theorem gapRun_append (nested comment : Bool) (h : cs.getLast? ≠ some '\r') :
    gapRun nested comment (cs ++ ['\n']) =
      if nested ∧ gapRun nested comment cs = cs then cs ++ ['\n'] else gapRun nested comment cs := by
  cases gapAcross nested comment h with
  | through comment' hall =>
    have hself : gapRun nested comment cs = cs := by
      have hnil : gapRun nested comment' [] = [] := by simp [gapRun]
      simpa [hnil] using hall []
    rw [hall, gapRun_lineFeed, hself]
    cases nested <;> simp [gapRun]
  | within hne hall => rw [hall, if_neg fun hwhole => hne hwhole.2]

end

/-! ### Lexing with one more line feed -/

/-- The items of a text and of the same text with one more line feed: the same up to a fault, or up to the end and
    perhaps the line break before it. -/
inductive Broken : List Item → List Item → Prop
  | same {items items' : List Item} (item : Item) : Broken items items' → Broken (item :: items) (item :: items')
  | fault (fault : Fault) : Broken [.error fault] [.error fault]
  | nested {m m' : Token} : m.kind = .endMarker → m'.kind = .endMarker → Broken [.ok m] [.ok m']
  | added {n m m' : Token} : n.kind = .newline → m.kind = .endMarker → m'.kind = .endMarker →
    Broken [.ok m] [.ok n, .ok m']
  | longer {n n' m m' : Token} : n.kind = .newline → n'.kind = .newline → m.kind = .endMarker →
    m'.kind = .endMarker → Broken [.ok n, .ok m] [.ok n', .ok m']

namespace Lexer

/-- The lexer with one more line feed to read. -/
def fed (l : Lexer) : Lexer := { l with rest := l.rest ++ ['\n'] }

variable {l l' : Lexer} {item : Item}

theorem advance_fed {n : Nat} (h : n ≤ l.rest.length) : l.fed.advance n = (l.advance n).fed := by
  simp only [advance, fed, List.take_append_of_le_length h, List.drop_append_of_le_length h]

theorem spanOf_fed {n : Nat} (h : n ≤ l.rest.length) : l.fed.spanOf n = l.spanOf n := by
  simp only [spanOf, fed, List.take_append_of_le_length h]

theorem lexeme_fed (c : Char) : l.fed.lexeme c = ((l.lexeme c).1, (l.lexeme c).2.fed) := by
  have hscan : Lexeme.scan? l.fed.rest = Lexeme.scan? l.rest := Lexeme.scan?_line (.lineFeed []) l.rest
  have hkind (x : Lexeme) : l.fed.kindOf x = l.kindOf x := rfl
  unfold lexeme
  rw [hscan]
  cases hs : Lexeme.scan? l.rest with
  | none => rfl
  | some r =>
    obtain ⟨x, n⟩ := r
    have hn := Lexeme.length_of_scan? hs
    simp only [hkind]
    cases l.kindOf x with
    | error fault => rfl
    | ok kind =>
      simp only [advance_fed hn, spanOf_fed hn]
      rfl

theorem indentation?_fed : l.fed.indentation? = l.indentation?.map fun r => (r.1, r.2.fed) := by
  have hle : (spaceRun l.rest).length ≤ l.rest.length := (List.takeWhile_prefix _).length_le
  have hspaces : spaceRun l.fed.rest = spaceRun l.rest := spaceRun_append l.rest
  have hhead : (l.fed.rest.drop (spaceRun l.rest).length).head? = some '#' ↔
      (l.rest.drop (spaceRun l.rest).length).head? = some '#' := by
    rw [fed, List.drop_append_of_le_length hle]
    cases l.rest.drop (spaceRun l.rest).length <;> simp
  have hstart : l.fed.lineStart = l.lineStart := rfl
  have hbrackets : l.fed.brackets = l.brackets := rfl
  simp only [indentation?, hspaces, hstart, hbrackets, ne_eq, hhead, advance_fed hle, spanOf_fed hle]
  split <;> rfl

/-- What the lexer leaves unread ends as the text does. -/
def Clean (l : Lexer) : Prop := l.rest.getLast? ≠ some '\r'

theorem Clean.advance (h : l.Clean) (n : Nat) : (l.advance n).Clean := by
  intro hlast
  refine h ?_
  rw [← List.take_append_drop n l.rest, List.getLast?_append]
  rw [show l.rest.drop n = (l.advance n).rest from rfl, hlast]
  rfl

theorem skipGap_fed (h : l.Clean) (hend : l.brackets.nested = true → l.skipGap.rest ≠ []) :
    l.fed.skipGap = l.skipGap.fed := by
  have hle : (gapRun l.brackets.nested false l.rest).length ≤ l.rest.length := by
    have hsplit := congrArg List.length (gapRun_append_drop l.brackets.nested false l.rest)
    rw [List.length_append] at hsplit
    omega
  have hgap : gapRun l.brackets.nested false (l.rest ++ ['\n']) = gapRun l.brackets.nested false l.rest := by
    rw [gapRun_append _ _ h]
    refine if_neg fun hall => hend hall.1 ?_
    rw [skipGap, hall.2]
    exact List.drop_length
  have hskip : l.fed.skipGap = l.fed.advance (gapRun l.brackets.nested false (l.rest ++ ['\n'])).length := rfl
  rw [hskip, hgap, advance_fed hle]
  rfl

theorem skipGap_fed_nil (h : l.Clean) (hn : l.brackets.nested = true) (hnil : l.skipGap.rest = []) :
    l.fed.skipGap.rest = [] := by
  have hall : gapRun l.brackets.nested false l.rest = l.rest := by
    have hsplit := gapRun_append_drop l.brackets.nested false l.rest
    rwa [show l.rest.drop (gapRun l.brackets.nested false l.rest).length = [] from hnil, List.append_nil] at hsplit
  have hgap : gapRun l.brackets.nested false (l.rest ++ ['\n']) = l.rest ++ ['\n'] :=
    (gapRun_append _ _ h).trans (if_pos ⟨hn, hall⟩)
  have hskip : l.fed.skipGap.rest =
      (l.rest ++ ['\n']).drop (gapRun l.brackets.nested false (l.rest ++ ['\n'])).length := rfl
  rw [hskip, hgap]
  exact List.drop_length

theorem significant_fed (h : l.Clean) (hne : l.rest ≠ []) (hrun : lineBreakRun l.rest ≠ l.rest) :
    l.fed.significant = (l.significant.1, l.significant.2.fed) := by
  have hbreaks : lineBreakRun l.fed.rest = lineBreakRun l.rest := (lineBreakRun_append h _).trans (if_neg hrun)
  obtain ⟨c, cs, hcons⟩ := List.exists_cons_of_ne_nil hne
  have hcons' : l.fed.rest = c :: (cs ++ ['\n']) := by
    rw [fed, hcons]
    rfl
  by_cases hb : lineBreakRun l.rest = []
  · rw [significant_lexeme hcons (hcons ▸ hb), significant_lexeme hcons' (by rw [← hcons', hbreaks, hb]), lexeme_fed]
  · have hle : (lineBreakRun l.rest).length ≤ l.rest.length := by
      have hsplit := congrArg List.length (lineBreakRun_append_drop l.rest)
      rw [List.length_append] at hsplit
      omega
    rw [significant_break hb, significant_break (hbreaks ▸ hb), hbreaks, spanOf_fed hle, advance_fed hle]
    rfl

/-- How the next items of both go on: together, or to the end. -/
inductive Parts (l k : Lexer) : Prop
  | together {item : Item} {l' : Lexer} : l.next? = some (item, l') → k.next? = some (item, l'.fed) → Parts l k
  | nested {m m' : Token} {l' k' : Lexer} : l.next? = some (.ok m, l') → k.next? = some (.ok m', k') →
    m.kind = .endMarker → m'.kind = .endMarker → l'.finished = true → k'.finished = true → Parts l k
  | added {m n : Token} {l' k' : Lexer} : l.next? = some (.ok m, l') → k.next? = some (.ok n, k') →
    m.kind = .endMarker → n.kind = .newline → l'.finished = true → k'.finished = false → k'.rest = [] → Parts l k
  | longer {n n' : Token} {l' k' : Lexer} : l.next? = some (.ok n, l') → k.next? = some (.ok n', k') →
    n.kind = .newline → n'.kind = .newline → l'.finished = false → l'.rest = [] → k'.finished = false → k'.rest = [] →
    Parts l k

theorem parts_fed (h : l.Clean) (hfin : l.finished = false) : l.Parts l.fed := by
  have hclean : l.skipGap.Clean := h.advance _
  cases hi : l.indentation? with
  | some r =>
    have hi' : l.fed.indentation? = some (r.1, r.2.fed) := by rw [indentation?_fed, hi]; rfl
    have hnext : l.next? = some (r.1, r.2) := by simp [next?, hfin, hi]
    have hnext' : l.fed.next? = some (r.1, r.2.fed) := by simp [next?, show l.fed.finished = false from hfin, hi']
    exact .together hnext hnext'
  | none =>
    have hnext := next?_significant hfin hi
    have hnext' : l.fed.next? = some l.fed.skipGap.significant :=
      next?_significant (l := l.fed) hfin (by rw [indentation?_fed, hi]; rfl)
    by_cases hend : l.brackets.nested = true ∧ l.skipGap.rest = []
    · obtain ⟨hn, hnil⟩ := hend
      rw [significant_nil hnil] at hnext
      rw [significant_nil (skipGap_fed_nil h hn hnil)] at hnext'
      exact .nested hnext hnext' rfl rfl rfl rfl
    have hskip : l.fed.skipGap = l.skipGap.fed := skipGap_fed h fun hn hnil => hend ⟨hn, hnil⟩
    rw [hskip] at hnext'
    by_cases hrun : lineBreakRun l.skipGap.rest = l.skipGap.rest
    · have hall : lineBreakRun l.skipGap.fed.rest = l.skipGap.fed.rest :=
        (lineBreakRun_append hclean _).trans (if_pos hrun)
      have hbreak : lineBreakRun l.skipGap.fed.rest ≠ [] := by
        rw [hall]
        exact List.append_ne_nil_of_right_ne_nil _ (List.cons_ne_nil _ _)
      rw [significant_break hbreak, hall] at hnext'
      by_cases hnil : l.skipGap.rest = []
      · rw [significant_nil hnil] at hnext
        exact .added hnext hnext' rfl rfl rfl hfin List.drop_length
      · rw [significant_break (hrun.symm ▸ hnil), hrun] at hnext
        exact .longer hnext hnext' rfl rfl hfin List.drop_length hfin List.drop_length
    · have hnil : l.skipGap.rest ≠ [] := fun hnil => hrun (by rw [hnil]; rfl)
      rw [significant_fed hclean hnil hrun] at hnext'
      exact .together hnext hnext'

theorem take_nil (h : l.rest = []) (hfin : l.finished = false) (n : Nat) :
    ∃ m : Token, l.take (n + 1) = [.ok m] ∧ m.kind = .endMarker := by
  refine ⟨{ kind := .endMarker, span := l.spanOf 0 }, ?_, rfl⟩
  rw [take_next (next?_end h hfin), take_finished rfl]

theorem broken_take (h : l.Clean) (hfin : l.finished = false) {fuel : Nat} (hfuel : l.rest.length + 1 < fuel) :
    Broken (l.take fuel) (l.fed.take fuel) := by
  induction fuel generalizing l with
  | zero => cases hfuel
  | succ fuel ih =>
    obtain ⟨n, rfl⟩ : ∃ n, fuel = n + 1 := ⟨fuel - 1, by omega⟩
    cases parts_fed h hfin with
    | @together item l' hnext hnext' =>
      rw [take_next hnext, take_next hnext']
      cases cuts_of_next? hnext with
      | @token m k kind lineStart hgap hpos hne hkind hl' =>
        refine .same _ (ih ?_ ?_ ?_)
        · rw [hl']
          exact (h.advance m).advance k
        · rw [hl']
          exact hfin
        · have := List.length_pos_iff.mpr hne
          simp only [hl', advance, List.length_drop] at this ⊢
          omega
      | ended _ _ hdone =>
        rw [take_finished hdone, take_finished (l := l'.fed) hdone]
        exact .nested rfl rfl
      | stopped _ _ _ _ _ _ hdone =>
        rw [take_finished hdone, take_finished (l := l'.fed) hdone]
        exact .fault _
    | nested hnext hnext' hm hm' hdone hdone' =>
      rw [take_next hnext, take_next hnext', take_finished hdone, take_finished hdone']
      exact .nested hm hm'
    | @added m n' l' k' hnext hnext' hm hn hdone hopen hnil =>
      obtain ⟨m', htake, hm'⟩ := take_nil hnil hopen n
      rw [take_next hnext, take_next hnext', take_finished hdone, htake]
      exact .added hn hm hm'
    | @longer a b l' k' hnext hnext' ha hb hopen hnil hopen' hnil' =>
      obtain ⟨m, htake, hm⟩ := take_nil hnil hopen n
      obtain ⟨m', htake', hm'⟩ := take_nil hnil' hopen' n
      rw [take_next hnext, take_next hnext', htake, htake']
      exact .longer ha hb hm hm'

end Lexer

theorem broken_lex (dialect : Dialect) {source : String} (h : source.toList.getLast? ≠ some '\r') :
    Broken (lex dialect source) (lex dialect (source ++ "\n")) := by
  have htext : (source ++ "\n").toList = source.toList ++ ['\n'] := by simp
  have hlt : source.toList.length + 1 < source.toList.length + 2 := Nat.lt_succ_self _
  have hbroken := Lexer.broken_take (l := Lexer.new dialect source) h rfl hlt
  have hfed : (Lexer.new dialect source).fed = Lexer.new dialect (source ++ "\n") := by
    simp only [Lexer.fed, Lexer.new, htext]
  rwa [hfed, take_eq_lex dialect (by omega), take_eq_lex dialect (by simp)] at hbroken

/-! ### Lines with one more break -/

/-- Lines of a text without and with a break behind the last one. -/
inductive LastLine : List Line → List Line → Prop
  | same (lines : List Line) : LastLine lines lines
  | cons {lines lines' : List Line} (l : Line) : LastLine lines lines' → LastLine (l :: lines) (l :: lines')
  | blank {n : Token} : n.kind = .newline → LastLine [] [⟨[], some n⟩]
  | broken {ts : List Token} {n : Token} : n.kind = .newline → LastLine [⟨ts, none⟩] [⟨ts, some n⟩]
  | longer {ts : List Token} {n n' : Token} : n.kind = .newline → n'.kind = .newline →
    LastLine [⟨ts, some n⟩] [⟨ts, some n'⟩]

theorem LastLine.lead {lines lines' : List Line} (h : LastLine lines lines') (ts : List Token) :
    LastLine (lead ts lines) (lead ts lines') := by
  cases h with
  | same => exact .same _
  | cons l h => exact .cons _ h
  | blank hn => simpa [Offside.lead] using LastLine.broken hn
  | broken hn => exact .broken hn
  | longer hn hn' => exact .longer hn hn'

theorem LastLine.before {ts ts' : List Token} (h : LastLine (linesOf ts) (linesOf ts')) (t : Token) :
    LastLine (linesOf (t :: ts)) (linesOf (t :: ts')) := by
  by_cases ht : t.kind = .newline
  · rw [linesOf_break ht, linesOf_break ht]
    exact .cons _ h
  · rw [linesOf_cons ht, linesOf_cons ht]
    exact h.lead [t]

section
variable {m m' : Token} {stack : List Nat} {unended : Bool} {lines lines' : List Line} {e e' : Item}

theorem alike_marksAt (t t' : Token) {marks : List Kind} (h : ∀ k ∈ marks, k.isText = false) :
    List.Forall₂ Item.Alike (marksAt t marks) (marksAt t' marks) := by
  induction marks with
  | nil => exact .nil
  | cons k marks ih =>
    obtain ⟨hk, hmarks⟩ := List.forall_mem_cons.mp h
    refine .cons (.ok ⟨rfl, fun htext => ?_⟩) (ih hmarks)
    rw [show (Layout.synthetic k t).kind = k from rfl, hk] at htext
    cases htext

theorem alike_mark {t t' : Token} {k : Kind} (ht : t.kind = k) (ht' : t'.kind = k) (hk : k.isText = false) :
    Item.Alike (.ok t) (.ok t') := by
  refine .ok ⟨ht'.trans ht.symm, fun htext => ?_⟩
  rw [ht, hk] at htext
  cases htext

theorem alike_same (items : List Item) : List.Forall₂ Item.Alike items items :=
  List.forall₂_same.mpr fun item _ => .refl item

/-- A line and the same line with another break, each in front of what follows it. -/
theorem alike_line {l l' : Line} (htokens : l'.tokens = l.tokens)
    (hblank : List.Forall₂ Item.Alike (layLines e stack unended lines) (layLines e' stack unended lines'))
    (hrest : ∀ stack, List.Forall₂ Item.Alike
      (l.break?.toList.map .ok ++ layLines e stack l.break?.isNone lines)
      (l'.break?.toList.map .ok ++ layLines e' stack l'.break?.isNone lines')) :
    List.Forall₂ Item.Alike (layLines e stack unended (l :: lines)) (layLines e' stack unended (l' :: lines')) := by
  have htext : l'.text = l.text := by rw [Line.text, Line.text, htokens]
  have hwidth : l'.width = l.width := by rw [Line.width, Line.width, htokens]
  cases hl : l.text with
  | nil =>
    simp only [layLines, htext, hl]
    exact hblank
  | cons first others =>
    simp only [layLines, Line.handed, htext, hwidth, hl]
    cases turn stack l.width first with
    | error fault => exact alike_same _
    | ok r =>
      simp only [reduceCtorEq, if_false, List.map_append, List.append_assoc]
      exact List.rel_append (alike_same _) (List.rel_append (alike_same _) (hrest r.2))

theorem alike_closing (hm : m.kind = .endMarker) (hm' : m'.kind = .endMarker) (hcalm : m.mustIndent = false)
    (hcalm' : m'.mustIndent = false) :
    List.Forall₂ Item.Alike (closing stack unended (.ok m)) (closing stack unended (.ok m')) := by
  simp only [closing, hcalm, hcalm']
  refine List.rel_append (alike_marksAt m m' fun k => not_isText_of_mem_closingMarks) ?_
  exact .cons (alike_mark hm hm' rfl) .nil

theorem alike_layLines (h : LastLine lines lines') (hm : m.kind = .endMarker) (hm' : m'.kind = .endMarker)
    (hcalm : m.mustIndent = false) (hcalm' : m'.mustIndent = false) :
    List.Forall₂ Item.Alike (layLines (.ok m) stack unended lines) (layLines (.ok m') stack unended lines') := by
  have hclosing {stack : List Nat} {unended : Bool} :
      List.Forall₂ Item.Alike (closing stack unended (.ok m)) (closing stack unended (.ok m')) :=
    alike_closing hm hm' hcalm hcalm'
  induction h generalizing stack unended with
  | same lines =>
    induction lines generalizing stack unended with
    | nil => exact hclosing
    | cons l lines ih => exact alike_line rfl ih fun stack => List.rel_append (alike_same _) ih
  | cons l _ ih => exact alike_line rfl ih fun stack => List.rel_append (alike_same _) ih
  | blank => exact hclosing
  | @broken ts n hn =>
    refine alike_line rfl hclosing fun stack => ?_
    have hopen : closing stack true (.ok m) = .ok (Layout.synthetic .newline m) :: closing stack false (.ok m) := by
      simp [closing, hcalm, marksAt]
    show List.Forall₂ Item.Alike (closing stack true (.ok m)) (.ok n :: closing stack false (.ok m'))
    rw [hopen]
    exact .cons (alike_mark rfl hn rfl) hclosing
  | longer hn hn' => exact alike_line rfl hclosing fun stack => .cons (alike_mark hn hn' rfl) hclosing

end

/-! ### Endings -/

/-- The last text of tokens is a colon. -/
def EndsInColon (w : List Token) : Prop := ∃ t ∈ (texts w).getLast?, t.kind = .symbol .colon

/-- An ending that cannot be reached without a fault. -/
def Halts (ending : Item) : Prop := ∀ marker, ending = .ok marker → marker.mustIndent = true

/-- Behind the tokens `u`, the rest of a text without and with one more break, and how both end. -/
inductive Ended (u : List Token) : List Token → Item → List Token → Item → Prop
  | halted {b b' : List Token} {e e' : Item} : Halts e → Halts e' → Ended u b e b' e'
  | colon {b b' : List Token} {e e' : Item} : EndsInColon (u ++ b) → Halts e' → Ended u b e b' e'
  | calm {b b' : List Token} {m m' : Token} : m.mustIndent = false → m'.mustIndent = false →
    LastLine (linesOf b) (linesOf b') → Ended u b (.ok m) b' (.ok m')

theorem Ended.before {u b b' : List Token} {e e' : Item} {t : Token} (h : Ended (u ++ [t]) b e b' e') :
    Ended u (t :: b) e (t :: b') e' := by
  cases h with
  | halted he he' => exact .halted he he'
  | colon hu he' => exact .colon (by simpa using hu) he'
  | calm hm hm' hlines => exact .calm hm hm' (hlines.before t)

theorem halts_fault (fault : Fault) : Halts (.error fault) := fun _ h => nomatch h

/-- Endings of which both or none has to begin a block. -/
theorem Ended.of_mustIndent {u b b' : List Token} {m m' : Token} (hm : m'.mustIndent = m.mustIndent)
    (h : LastLine (linesOf b) (linesOf b')) : Ended u b (.ok m) b' (.ok m') := by
  cases hcalm : m.mustIndent with
  | false => exact .calm hcalm (hm.trans hcalm) h
  | true =>
    refine .halted ?_ ?_
    · rintro _ ⟨rfl⟩
      exact hcalm
    · rintro _ ⟨rfl⟩
      exact hm.trans hcalm

namespace Marking
variable {g : Marking} {t : Token} {u : List Token}

theorem mustIndent_marker (ht : t.kind = .endMarker) : (g.mark t).mustIndent = decide (g.expectation = .block) := by
  simp only [mark, ht]

/-- A block may follow only text that ends in a colon. -/
theorem endsInColon_after (hg : g.expectation = .maybeBlock → EndsInColon u)
    (h : (g.after t.kind).expectation = .maybeBlock) : EndsInColon (u ++ [g.mark t]) := by
  have hskip (ht : t.kind.isText = false) (hu : EndsInColon u) : EndsInColon (u ++ [g.mark t]) := by
    rw [EndsInColon, texts_mark (by rwa [g.kind_mark])]
    exact hu
  unfold after at h
  split at h
  · next ht =>
    have htext : (g.mark t).kind.isText = true := by rw [g.kind_mark, ht]; rfl
    exact ⟨g.mark t, by simp [texts_append, texts_singleton htext], by rw [g.kind_mark, ht]⟩
  · dsimp only at h
    split at h
    · cases h
    · next hne => exact absurd h hne
  · next ht => exact hskip (by rw [ht]; rfl) (hg h)
  · cases h

theorem ended_markAll {items items' : List Item} (h : Broken items items')
    (hg : g.expectation = .maybeBlock → EndsInColon u) :
    Ended u (bodyOf (g.markAll items)) (endingOf (g.markAll items)) (bodyOf (g.markAll items'))
      (endingOf (g.markAll items')) := by
  induction h generalizing g u with
  | same item h ih =>
    cases item with
    | error fault => exact .halted (halts_fault fault) (halts_fault fault)
    | ok t =>
      by_cases ht : t.kind = .endMarker
      · simp only [markAll, bodyOf, endingOf, g.kind_mark, ht, if_true]
        exact .of_mustIndent rfl (.same _)
      · simp only [markAll, bodyOf, endingOf, g.kind_mark, ht, if_false]
        exact .before (ih (endsInColon_after hg))
  | fault fault => exact .halted (halts_fault fault) (halts_fault fault)
  | nested hm hm' =>
    simp only [markAll, bodyOf, endingOf, kind_mark, hm, hm', if_true]
    exact .of_mustIndent (by rw [mustIndent_marker hm, mustIndent_marker hm']) (.same _)
  | @added n m m' hn hm hm' =>
    have hbreak : LastLine (linesOf []) (linesOf [g.mark n]) := by
      rw [linesOf_break (by rwa [g.kind_mark])]
      exact .blank (by rwa [g.kind_mark])
    simp only [markAll, bodyOf, endingOf, kind_mark, hn, hm, hm', if_true, reduceCtorEq, if_false]
    cases hexpect : g.expectation with
    | maybeBlock =>
      refine .colon (by simpa using hg hexpect) ?_
      rintro _ ⟨rfl⟩
      rw [mustIndent_marker hm']
      simp [after, hexpect]
    | nothing | block =>
      refine .of_mustIndent ?_ hbreak
      rw [mustIndent_marker hm, mustIndent_marker hm']
      simp [after, hexpect]
  | @longer n n' m m' hn hn' hm hm' =>
    have hbreak : LastLine (linesOf [g.mark n]) (linesOf [g.mark n']) := by
      rw [linesOf_break (by rwa [g.kind_mark]), linesOf_break (by rwa [g.kind_mark])]
      exact .longer (by rwa [g.kind_mark]) (by rwa [g.kind_mark])
    simp only [markAll, bodyOf, endingOf, kind_mark, hn, hn', hm, hm', if_true, reduceCtorEq, if_false]
    exact .of_mustIndent (by rw [mustIndent_marker hm, mustIndent_marker hm']) hbreak

end Marking

/-! ### Programs -/

section
variable {dialect : Dialect} {source : String} {m : Module}

/-- A text with a fault in its stream is no program. -/
theorem parse_ne_of_fault {fault : Fault} (h : .error fault ∈ tokenStream dialect source) :
    parse dialect source ≠ .ok m := by
  intro hm
  obtain ⟨w, t, hstream, -⟩ := exists_program hm
  rw [hstream] at h
  obtain ⟨u, -, hu⟩ := List.mem_map.mp h
  cases hu

theorem parse_ne_of_halts (h : Halts (endingOf (markLines (lex dialect source)))) : parse dialect source ≠ .ok m := by
  obtain ⟨fault, hfault⟩ := (composed_tokenStream dialect source).exists_fault h
  exact parse_ne_of_fault hfault

/-- A text that ends in a colon is no program. -/
theorem parse_ne_of_colon (h : EndsInColon (bodyOf (markLines (lex dialect source)))) :
    parse dialect source ≠ .ok m := by
  intro hm
  obtain ⟨w, marker, hstream, hmarker, -, hprogram⟩ := exists_program hm
  have hnone : ∀ fault, .error fault ∉ tokenStream dialect source := fun fault hfault => parse_ne_of_fault hfault hm
  obtain ⟨rest, htexts, hrest⟩ := (composed_tokenStream dialect source).exists_texts (fun _ => kind_of_endingOf)
    (kinds_linesOf (ruled_markLines dialect source).kinds)
  have hsound : soundOf (tokenStream dialect source) = w ++ [marker] := by
    rw [hstream, ← List.append_nil (List.map _ _), soundOf_map_append]
    exact List.append_nil _
  rw [flatMap_linesOf, hrest hnone, List.append_nil, hsound, texts_mark (by rw [hmarker]; rfl)] at htexts
  obtain ⟨t, ht, hcolon⟩ := h
  rw [htexts] at ht
  rcases hprogram with ⟨-, hnil⟩ | hbears
  · rw [hnil] at ht
    cases ht
  · obtain ⟨t', ht', hnot⟩ := hbears.closes
    obtain rfl := Option.mem_unique ht ht'
    exact hnot hcolon

end

/-- A text that does not end in a carriage return is a program if and only if it is one with a line feed behind it,
    and it is the same program then. -/
theorem parse_lineFeed (dialect : Dialect) {source : String} (h : source.toList.getLast? ≠ some '\r') (m : Module) :
    parse dialect source = .ok m ↔ parse dialect (source ++ "\n") = .ok m := by
  have hended : Ended [] (bodyOf (markLines (lex dialect source))) (endingOf (markLines (lex dialect source)))
      (bodyOf (markLines (lex dialect (source ++ "\n")))) (endingOf (markLines (lex dialect (source ++ "\n")))) :=
    Marking.ended_markAll (broken_lex dialect h) fun hnothing => nomatch hnothing
  have hneither (hne : parse dialect source ≠ .ok m) (hne' : parse dialect (source ++ "\n") ≠ .ok m) :
      parse dialect source = .ok m ↔ parse dialect (source ++ "\n") = .ok m :=
    ⟨fun hm => absurd hm hne, fun hm => absurd hm hne'⟩
  generalize hb : bodyOf (markLines (lex dialect source)) = b, he : endingOf (markLines (lex dialect source)) = e,
    hb' : bodyOf (markLines (lex dialect (source ++ "\n"))) = b',
    he' : endingOf (markLines (lex dialect (source ++ "\n"))) = e' at hended
  cases hended with
  | halted hhalts hhalts' => exact hneither (parse_ne_of_halts (he ▸ hhalts)) (parse_ne_of_halts (he' ▸ hhalts'))
  | colon hcolon hhalts' => exact hneither (parse_ne_of_colon (hb ▸ hcolon)) (parse_ne_of_halts (he' ▸ hhalts'))
  | calm hcalm hcalm' hlines =>
    have halike : List.Forall₂ Item.Alike (tokenStream dialect source) (tokenStream dialect (source ++ "\n")) := by
      rw [tokenStream_eq, tokenStream_eq, layByLines, layByLines, hb, he, hb', he']
      exact alike_layLines hlines (kind_of_endingOf he) (kind_of_endingOf he') hcalm hcalm'
    have hverdict := Parse.verdict_run (bounded_tokenStream dialect source) halike
    unfold parse
    generalize Parse.module.run (tokenStream dialect source) = r,
      Parse.module.run (tokenStream dialect (source ++ "\n")) = r' at hverdict
    cases hverdict with
    | ok => exact Iff.rfl
    | error => exact iff_of_false (fun hm => by cases hm) fun hm => by cases hm

/-- A block whose last line has no break, with a comment at its end. -/
def unendedSteps : String := "if a: \n  b(1,\n2) # c"

theorem parse_lineFeed_unendedSteps : unendedSteps.toList.getLast? ≠ some '\r' ∧
    ∃ m, parse .english unendedSteps = .ok m ∧ parse .english (unendedSteps ++ "\n") = .ok m := by
  have hlast : unendedSteps.toList.getLast? ≠ some '\r' := by decide
  have hread : (parse .english unendedSteps).toOption.isSome = true := by decide +kernel
  obtain ⟨m, hm⟩ := Option.isSome_iff_exists.mp hread
  have hparse := ok_of_toOption hm
  exact ⟨hlast, m, hparse, (parse_lineFeed .english hlast m).mp hparse⟩

end Offside

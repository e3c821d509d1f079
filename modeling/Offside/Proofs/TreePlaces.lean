import Offside.Proofs.StmtPlaces
import Offside.Proofs.StreamPlaces

/-! # Where the nodes of a tree stand

Each node of a program has the span of its text: it begins and ends where tokens do, its line and column are those of
its first character, it holds all that is below it, and what is directly below it follows one after the other. -/

namespace Offside

namespace Spanned

/-- A node is another one, or stands somewhere below it. -/
inductive Under : Spanned → Spanned → Prop
  | refl (n : Spanned) : Under n n
  | part {m p n : Spanned} : Under m p → p ∈ n.parts → Under m n

/-- A node stands where its text does. -/
structure Sits (dialect : Dialect) (source : String) (n : Spanned) : Prop where
  filled : n.Filled
  starts : ∃ t, .ok t ∈ lex dialect source ∧ t.kind.isText = true ∧ n.span.offset = t.span.offset
  stops : ∃ t, .ok t ∈ lex dialect source ∧ t.kind.isText = true ∧ n.span.stop = t.span.stop
  nonempty : n.span.offset < n.span.stop
  inside : n.span.stop ≤ source.utf8ByteSize
  line : n.span.line = 1 + (charsBefore n.span.offset source.toList).count '\n'
  column : n.span.column = (lastLine (charsBefore n.span.offset source.toList)).length
  contains : ∀ m : Spanned, m.Under n → n.span.offset ≤ m.span.offset ∧ m.span.stop ≤ n.span.stop
  apart : n.parts.Pairwise fun a b => a.span.stop ≤ b.span.offset

end Spanned

section
variable {m n : Spanned} {w : List Token}

/-- What is below a node stands on some of its tokens. -/
theorem Over.under (h : Over n w) (hm : m.Under n) : ∃ v, v.Sublist w ∧ Over m v := by
  induction hm generalizing w with
  | refl => exact ⟨w, .refl w, h⟩
  | part _ hp ih =>
    obtain ⟨pieces, hparts, hsub, hover⟩ := h.scattered
    rw [hparts] at hp
    obtain ⟨p, hmem, rfl⟩ := List.mem_map.mp hp
    obtain ⟨v, hv, hm⟩ := ih (hover p hmem)
    obtain ⟨ps, qs, rfl⟩ := List.append_of_mem hmem
    rw [List.flatMap_append, List.flatMap_cons] at hsub
    exact ⟨v, hv.trans (((List.sublist_append_left _ _).trans (List.sublist_append_right _ _)).trans hsub), hm⟩

theorem Over.contains (h : Over n w) (ho : Ordered w) (hm : m.Under n) :
    n.span.offset ≤ m.span.offset ∧ m.span.stop ≤ n.span.stop := by
  obtain ⟨v, hv, hover⟩ := h.under hm
  have htexts : ∀ t ∈ texts v, t ∈ texts w := fun t ht => (hv.filter _).subset ht
  obtain ⟨f, hf, hfirst, -⟩ := h.ends.opens
  obtain ⟨l, hl, hlast, -⟩ := h.ends.shuts
  obtain ⟨f', hf', hfirst', -⟩ := hover.ends.opens.exists_mem
  obtain ⟨l', hl', hlast'⟩ := hover.ends.shuts.exists_mem
  rw [hfirst, hlast, hfirst', hlast']
  exact ⟨le_of_head? ho hf (htexts f' hf'), le_of_getLast? ho hl (htexts l' hl')⟩

theorem Over.apart (h : Over n w) (ho : Ordered w) : n.parts.Pairwise fun a b => a.span.stop ≤ b.span.offset := by
  obtain ⟨pieces, hparts, hsub, hover⟩ := h.scattered
  have hpieces := (List.pairwise_flatMap.mp (List.pairwise_filter.mp (ho.sublist hsub))).2
  rw [hparts, List.pairwise_map]
  refine hpieces.imp_of_mem fun {p q} hp hq hpq => ?_
  obtain ⟨l, hl, hlast⟩ := (hover p hp).ends.shuts.exists_mem
  obtain ⟨f, hf, hfirst, -⟩ := (hover q hq).ends.opens.exists_mem
  rw [hlast, hfirst]
  obtain ⟨hl, hltext⟩ := mem_texts.mp hl
  obtain ⟨hf, hftext⟩ := mem_texts.mp hf
  exact hpq l hl f hf hltext hftext

end

/-! ### Tokens of the lexer -/

section
variable {dialect : Dialect} {source : String} {t : Token}

/-- Text in a stream is text of the lexer. -/
theorem exists_lexed (ht : .ok t ∈ tokenStream dialect source) (htext : t.kind.isText = true) :
    ∃ u, .ok u ∈ lex dialect source ∧ u.kind.isText = true ∧ u.span = t.span := by
  cases grounded_of_mem ht with
  | token hu hkind hspan => exact ⟨_, hu, hkind ▸ htext, hspan.symm⟩
  | mark _ hnot => rw [htext] at hnot; cases hnot

theorem length_of_lexed (ht : .ok t ∈ lex dialect source) (htext : t.kind.isText = true) : 0 < t.span.len := by
  obtain ⟨ts, last, hlex, hts, hlast⟩ := (tiled_lex dialect source).ends
  rw [hlex] at ht
  rcases List.mem_append.mp ht with ht | ht
  · obtain ⟨u, hu, heq⟩ := List.mem_map.mp ht
    obtain rfl := Except.ok.inj heq
    exact (hts u hu).2
  · have hmarker := (hlast t (List.mem_singleton.mp ht).symm).1
    rw [hmarker] at htext
    cases htext

/-- A token begins and ends between characters. -/
theorem valid_of_lexed (ht : .ok t ∈ lex dialect source) :
    (⟨t.span.offset⟩ : String.Pos.Raw).IsValid source ∧ (⟨t.span.stop⟩ : String.Pos.Raw).IsValid source := by
  obtain ⟨cs, text, ds, hsplit, -, hspan⟩ := (tiled_lex dialect source).exists_text ht
  have hstop : t.span.stop = byteSize (cs ++ text) := by rw [hspan, byteSize_append]; rfl
  rw [hstop, hspan]
  exact ⟨isValid_byteSize hsplit, isValid_byteSize (hsplit.trans (List.append_assoc ..).symm)⟩

theorem place_of_lexed (ht : .ok t ∈ lex dialect source) :
    t.span.start = placeBehind (charsBefore t.span.offset source.toList) := by
  obtain ⟨cs, text, ds, hsplit, -, hspan⟩ := (tiled_lex dialect source).exists_text ht
  have hsource : source.toList = cs ++ (text ++ ds) := hsplit
  rw [hspan, hsource]
  simp only [spanBehind, charsBefore_byteSize]
  rfl

end

theorem Over.sits {dialect : Dialect} {source : String} {n : Spanned} {w : List Token} (h : Over n w) (ho : Ordered w)
    (hw : ∀ t ∈ w, .ok t ∈ tokenStream dialect source) : n.Sits dialect source := by
  obtain ⟨f, hf, hfirst, hstart⟩ := h.ends.opens
  obtain ⟨l, hl, hlast, -⟩ := h.ends.shuts
  have hl' := List.mem_of_getLast? hl
  have hlexed {t : Token} (ht : t ∈ texts w) := exists_lexed (hw t (mem_texts.mp ht).1) (mem_texts.mp ht).2
  obtain ⟨t, ht, htext, htspan⟩ := hlexed (List.mem_of_head? hf)
  obtain ⟨u, hu, hutext, huspan⟩ := hlexed hl'
  have hplace := place_of_lexed ht
  rw [htspan, ← hstart, ← hfirst] at hplace
  obtain ⟨hline, hcolumn⟩ := Position.mk.inj hplace
  refine ⟨h.filled, ⟨t, ht, htext, by rw [hfirst, htspan]⟩, ⟨u, hu, hutext, by rw [hlast, huspan]⟩, ?_, ?_, hline,
    hcolumn, fun m => h.contains ho, h.apart ho⟩
  · have hpos := length_of_lexed hu hutext
    rw [huspan] at hpos
    rw [hfirst, hlast]
    exact Nat.lt_of_le_of_lt (le_of_head? ho hf hl') (Nat.lt_add_of_pos_right hpos)
  · rw [hlast, ← huspan]
    exact (valid_of_lexed hu).2.le_rawEndPos

/-- A program is read from all the tokens of its stream. -/
theorem exists_program {dialect : Dialect} {source : String} {m : Module} (h : parse dialect source = .ok m) :
    ∃ (w : List Token) (t : Token), tokenStream dialect source = (w ++ [t]).map .ok ∧ t.kind = .endMarker ∧ Ordered w ∧
      Parse.Program m w := by
  have hbounded := bounded_tokenStream dialect source
  have hverdict := Parse.verdict_run hbounded (List.forall₂_same.mpr fun item _ => Item.Alike.refl item)
  rw [show Parse.module.run (tokenStream dialect source) = .ok m from h] at hverdict
  cases hverdict with
  | @ok _ w t rest hstream ht hprogram =>
    have hordered := hbounded.proper.ordered
    obtain rfl := nil_of_endMarker hstream ht
    rw [hstream, soundOf_map_append] at hordered
    exact ⟨w, t, by simpa using hstream, ht, hordered.sublist (List.sublist_append_left _ _), hprogram⟩

/-- All nodes of a program stand where their text does. -/
theorem sits_of_parse {dialect : Dialect} {source : String} {m : Module} (h : parse dialect source = .ok m)
    (hne : m.body.stmts ≠ []) : ∀ n : Spanned, n.Under (.block m.body) → n.Sits dialect source := by
  intro n hn
  obtain ⟨w, t, hstream, -, hordered, hprogram⟩ := exists_program h
  rcases hprogram with ⟨hnil, -⟩ | hbears
  · exact absurd hnil hne
  · obtain ⟨v, hv, hover⟩ := hbears.nodes.exists_over
    obtain ⟨x, hx, hover⟩ := hover.under hn
    refine hover.sits (hordered.sublist (hx.trans hv)) fun u hu => ?_
    rw [hstream, List.map_append]
    exact List.mem_append_left _ (List.mem_map_of_mem ((hx.trans hv).subset hu))

theorem ok_of_toOption {α : Type} {r : Except SyntaxError α} {a : α} (h : r.toOption = some a) : r = .ok a := by
  cases r with
  | error e => cases h
  | ok b => exact congrArg Except.ok (Option.some.inj h)

/-- Two statements on a line, and one with a block. -/
def layeredSteps : String := "\"é\"; a.b = c if d else [e]\nif f: \n  pass\n"

/-- Where the nodes directly below a node start and stop, with their lines and columns. -/
def Spanned.outline (n : Spanned) : List (Nat × Nat × Nat × Nat) :=
  n.parts.map fun p => (p.span.offset, p.span.stop, p.span.line, p.span.column)

theorem sits_of_parse_layeredSteps : ∃ m, parse .english layeredSteps = .ok m ∧ m.body.stmts ≠ [] ∧
    (Spanned.block m.body).outline = [(0, 4, 1, 0), (6, 27, 1, 5), (28, 41, 2, 0)] ∧
    ∀ n : Spanned, n.Under (.block m.body) → n.Sits .english layeredSteps := by
  have hread : (parse .english layeredSteps).toOption.map (fun m => (Spanned.block m.body).outline) =
      some [(0, 4, 1, 0), (6, 27, 1, 5), (28, 41, 2, 0)] := by
    decide +kernel
  obtain ⟨m, hm, houtline⟩ := Option.map_eq_some_iff.mp hread
  have hparse := ok_of_toOption hm
  have hne : m.body.stmts ≠ [] := by
    intro hnil
    simp [Spanned.outline, Spanned.parts, hnil] at houtline
  exact ⟨m, hparse, hne, houtline, sits_of_parse hparse hne⟩

end Offside

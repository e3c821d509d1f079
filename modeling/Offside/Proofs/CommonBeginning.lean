import Offside.Proofs.LexemeBounds
import Offside.Proofs.Relocation

/-! # Texts with a common beginning

The tokens of a text that lie within its beginning do not change with what stands behind that beginning, as long as
no lexeme grows over the seam. The lexer answers the same tokens from both texts, at the same places, and then stands
before what is left of the beginning and the rest of its own text. -/

namespace Offside

theorem takeWhile_append_of_lt {p : Char → Bool} {q : List Char} (h : (q.takeWhile p).length < q.length) (y : List Char) :
    (q ++ y).takeWhile p = q.takeWhile p := by
  rw [List.takeWhile_append, if_neg (Nat.ne_of_lt h)]

/-- A gap goes on behind spaces. -/
theorem gapRun_spaces (nested : Bool) {q : List Char} (h : spaceRun q = q) (rest : List Char) :
    gapRun nested false (q ++ rest) = q ++ gapRun nested false rest := by
  induction q with
  | nil => rfl
  | cons c q ih =>
    have hc : c = ' ' := by
      by_contra hc
      simp [spaceRun, hc] at h
    subst hc
    have htail : spaceRun q = q := by simpa [spaceRun] using h
    simp [gapRun, ih htail]

/-- A comment goes on over its own characters. -/
theorem gapRun_body (nested : Bool) {body : List Char} (h : ∀ c ∈ body, c ≠ '\n' ∧ c ≠ '\r') (rest : List Char) :
    gapRun nested true (body ++ rest) = body ++ gapRun nested true rest := by
  induction body with
  | nil => rfl
  | cons c body ih =>
    obtain ⟨⟨hfeed, hreturn⟩, hbody⟩ := List.forall_mem_cons.mp h
    rw [List.cons_append, gapRun_cons hfeed hreturn, if_pos rfl, ih hbody]
    rfl

/-- Lexemes that lie within `q` are the same before `y` and before `z`. -/
def Lexeme.Swaps (q y z : List Char) : Prop :=
  ∀ ⦃a : List Char⦄ ⦃x : Lexeme⦄ ⦃n : Nat⦄, a <:+ q → scan? (a ++ y) = some (x, n) → n ≤ a.length →
    scan? (a ++ z) = some (x, n)

theorem Lexeme.Swaps.suffix {q q' y z : List Char} (h : Swaps q y z) (hq : q' <:+ q) : Swaps q' y z :=
  fun _ _ _ ha => h (ha.trans hq)

namespace Lexer

/-- The lexer before other characters. -/
def facing (l : Lexer) (rest : List Char) : Lexer := { l with rest }

variable {l l' : Lexer} {q q' y z : List Char} {t : Token} {n : Nat}

/-! ### One item -/

/-- What the lexer finds behind a gap. -/
inductive Finds (l l' : Lexer) : Token → Prop
  | marker : l.rest = [] → l' = { l with finished := true } → Finds l l' { kind := .endMarker, span := l.spanOf 0 }
  | lineBreak : lineBreakRun l.rest ≠ [] → l' = { l.advance (lineBreakRun l.rest).length with lineStart := true } →
    Finds l l' { kind := .newline, span := l.spanOf (lineBreakRun l.rest).length }
  | text {x : Lexeme} {n : Nat} {k : Kind} : lineBreakRun l.rest = [] → Lexeme.scan? l.rest = some (x, n) →
    l.kindOf x = .ok k → l' = { l.advance n with brackets := l.brackets.track k, lineStart := false } →
    Finds l l' { kind := k, span := l.spanOf n }

theorem finds_of_significant (h : l.significant = (.ok t, l')) : l.Finds l' t := by
  cases hrest : l.rest with
  | nil =>
    rw [significant_nil hrest] at h
    simp only [Prod.mk.injEq, Except.ok.injEq] at h
    exact h.1 ▸ .marker hrest h.2.symm
  | cons c cs =>
    by_cases hbreak : lineBreakRun l.rest = []
    · rw [significant_lexeme hrest (hrest ▸ hbreak), lexeme] at h
      cases hscan : Lexeme.scan? l.rest with
      | none =>
        rw [hscan] at h
        cases h
      | some r =>
        simp only [hscan] at h
        cases hkind : l.kindOf r.1 with
        | error fault =>
          rw [hkind] at h
          cases h
        | ok kind =>
          simp only [hkind, Prod.mk.injEq, Except.ok.injEq] at h
          exact h.1 ▸ .text hbreak hscan hkind h.2.symm
    · rw [significant_break hbreak] at h
      simp only [Prod.mk.injEq, Except.ok.injEq] at h
      exact h.1 ▸ .lineBreak hbreak h.2.symm

theorem significant_text {x : Lexeme} {k : Kind} (hnone : lineBreakRun l.rest = [])
    (hscan : Lexeme.scan? l.rest = some (x, n)) (hkind : l.kindOf x = .ok k) : l.significant = (.ok { kind := k, span := l.spanOf n },
      { l.advance n with brackets := l.brackets.track k, lineStart := false }) := by
  cases hrest : l.rest with
  | nil =>
    rw [hrest] at hscan
    cases hscan
  | cons c cs =>
    rw [significant_lexeme hrest (hrest ▸ hnone), lexeme, hscan]
    simp only [hkind]

theorem advance_facing (hrest : l.rest = q ++ y) (hn : n ≤ q.length) (z : List Char) :
    (l.facing (q ++ z)).advance n = (l.advance n).facing (q.drop n ++ z) := by
  simp only [advance, facing, hrest, List.take_append_of_le_length hn, List.drop_append_of_le_length hn]

theorem spanOf_facing (hrest : l.rest = q ++ y) (hn : n ≤ q.length) (z : List Char) :
    (l.facing (q ++ z)).spanOf n = l.spanOf n := by
  simp only [spanOf, facing, hrest, List.take_append_of_le_length hn]

/-- What is left behind `n` characters shows that these lie within the beginning. -/
theorem within_of_drop (h : (q ++ y).drop n = q' ++ y) (hn : n ≤ (q ++ y).length) : n ≤ q.length ∧ q' = q.drop n := by
  have hlength := congrArg List.length h
  simp only [List.length_drop, List.length_append] at hlength hn
  have hle : n ≤ q.length := by omega
  rw [List.drop_append_of_le_length hle] at h
  exact ⟨hle, (List.append_cancel_right h).symm⟩

theorem length_lineBreakRun_le (cs : List Char) : (lineBreakRun cs).length ≤ cs.length := by
  have hsplit := congrArg List.length (lineBreakRun_append_drop cs)
  rw [List.length_append] at hsplit
  omega

/-- A token is the same in both texts if it lies within the beginning, and a line break if more of the beginning
    stands behind it. -/
theorem significant_facing (hrest : l.rest = q ++ y) (hne : q ≠ []) (hclean : q.getLast? ≠ some '\r')
    (h : l.significant = (.ok t, l')) (hrest' : l'.rest = q' ++ y) (hstrict : t.kind.isText = true ∨ q' ≠ [])
    (hswap : Lexeme.Swaps q y z) : (l.facing (q ++ z)).significant = (.ok t, l'.facing (q' ++ z)) := by
  have hbreaks := lineBreakRun_append hclean
  cases finds_of_significant h with
  | marker hnil => exact absurd (hrest.symm.trans hnil) (List.append_ne_nil_of_left_ne_nil hne y)
  | lineBreak hsome hl' =>
    have hdrop : (q ++ y).drop (lineBreakRun (q ++ y)).length = q' ++ y := by
      rw [← hrest, ← hrest', hl']
      rfl
    obtain ⟨hle, hq'⟩ := within_of_drop hdrop (length_lineBreakRun_le _)
    have hpart : lineBreakRun q ≠ q := by
      intro hall
      rw [hbreaks, if_pos hall] at hq'
      refine hstrict.resolve_left Bool.false_ne_true ?_
      rw [hq', List.drop_eq_nil_iff, List.length_append]
      exact Nat.le_add_right _ _
    have hsame (x : List Char) : lineBreakRun (q ++ x) = lineBreakRun q := (hbreaks x).trans (if_neg hpart)
    have hrun : lineBreakRun (l.facing (q ++ z)).rest = lineBreakRun l.rest := by rw [hrest, hsame, ← hsame z]; rfl
    have hlength : (lineBreakRun l.rest).length ≤ q.length := hrest ▸ hle
    rw [significant_break (by rw [hrun]; exact hsome), hrun, spanOf_facing hrest hlength, advance_facing hrest hlength,
      hl', hq', ← hrest]
    rfl
  | @text x n k hnone hscan hkind hl' =>
    have hdrop : (q ++ y).drop n = q' ++ y := by
      rw [← hrest, ← hrest', hl']
      rfl
    rw [hrest] at hscan hnone
    obtain ⟨hle, hq'⟩ := within_of_drop hdrop (Lexeme.length_of_scan? hscan)
    have hnone' : lineBreakRun (l.facing (q ++ z)).rest = [] := by
      have hpart : lineBreakRun q ≠ q := by
        intro hall
        rw [hbreaks, if_pos hall] at hnone
        exact hne (List.append_eq_nil_iff.mp hnone).1
      rw [hbreaks, if_neg hpart] at hnone
      exact (hbreaks z).trans ((if_neg hpart).trans hnone)
    rw [significant_text hnone' (hswap (List.suffix_refl q) hscan hle) hkind, spanOf_facing hrest hle,
      advance_facing hrest hle, hl', hq']
    rfl

theorem length_gapRun_le (nested comment : Bool) (cs : List Char) : (gapRun nested comment cs).length ≤ cs.length := by
  have hsplit := congrArg List.length (gapRun_append_drop nested comment cs)
  rw [List.length_append] at hsplit
  omega

/-- A token takes at least a character. -/
theorem length_of_significant (h : l.significant = (.ok t, l')) (ht : t.kind ≠ .endMarker) :
    l'.rest.length < l.rest.length := by
  have hdrop {n : Nat} (hn : 0 < n) (hle : n ≤ l.rest.length) : (l.rest.drop n).length < l.rest.length := by
    rw [List.length_drop]
    omega
  cases finds_of_significant h with
  | marker => exact absurd rfl ht
  | lineBreak hsome hl' =>
    rw [hl']
    exact hdrop (List.length_pos_iff.mpr hsome) (length_lineBreakRun_le _)
  | text _ hscan _ hl' =>
    rw [hl']
    exact hdrop (Lexeme.pos_of_scan? hscan) (Lexeme.length_of_scan? hscan)

theorem eq_of_indentation? {r : Item × Lexer} (h : l.indentation? = some r) :
    r = (.ok { kind := .whitespace (spaceRun l.rest).length, span := l.spanOf (spaceRun l.rest).length },
      { l.advance (spaceRun l.rest).length with lineStart := false }) := by
  simp only [indentation?] at h
  split at h
  · exact (Option.some.inj h).symm
  · cases h

theorem indentation?_facing (hrest : l.rest = q ++ y) (hlt : (spaceRun q).length < q.length) (z : List Char) :
    (l.facing (q ++ z)).indentation? =
      l.indentation?.map fun r => (r.1, r.2.facing (q.drop (spaceRun q).length ++ z)) := by
  have hspaces (x : List Char) : spaceRun (q ++ x) = spaceRun q := takeWhile_append_of_lt hlt x
  have hle := Nat.le_of_lt hlt
  have hne : q.drop (spaceRun q).length ≠ [] := List.ne_nil_of_length_pos (by rw [List.length_drop]; omega)
  have hhead (x : List Char) : ((q ++ x).drop (spaceRun q).length).head? = (q.drop (spaceRun q).length).head? := by
    rw [List.drop_append_of_le_length hle, List.head?_append_of_ne_nil _ hne]
  have hspan := spanOf_facing hrest hle z
  have hadvance := advance_facing hrest hle z
  have hface : (l.facing (q ++ z)).rest = q ++ z := rfl
  have hsame : (l.facing (q ++ z)).lineStart = l.lineStart ∧ (l.facing (q ++ z)).brackets = l.brackets := ⟨rfl, rfl⟩
  simp only [indentation?, hrest, hface, hspaces, hhead, hsame, hspan, hadvance]
  split <;> rfl

theorem finished_of_next? {r : Item × Lexer} (h : l.next? = some r) : l.finished = false := by
  by_contra hfin
  simp [next?, hfin] at h

/-- A token is indentation, or it is found behind a gap. -/
theorem indentation?_or_finds (h : l.next? = some (.ok t, l')) :
    l.indentation? = some (.ok t, l') ∨ l.indentation? = none ∧ l.skipGap.Finds l' t := by
  have hfin := finished_of_next? h
  cases hi : l.indentation? with
  | some r =>
    have hr : r = (.ok t, l') := by simpa [next?, hfin, hi] using h
    exact .inl (congrArg some hr)
  | none =>
    rw [next?_significant hfin hi] at h
    exact .inr ⟨rfl, finds_of_significant (Option.some.inj h)⟩

/-- A gap over the whole beginning leaves no token in it. -/
theorem gapRun_ne_through {g : List Char} (hrest : l.rest = q ++ y) (h : l.skipGap.significant = (.ok t, l'))
    (ht : t.kind ≠ .endMarker) (hrest' : l'.rest = q' ++ y) : gapRun l.brackets.nested false (q ++ y) ≠ q ++ g := by
  intro hgap
  have hlt := length_of_significant h ht
  have hskip : l.skipGap.rest = (q ++ y).drop (q ++ g).length := by rw [skipGap, hrest, hgap, ← hrest]; rfl
  rw [hskip, hrest'] at hlt
  simp only [List.length_drop, List.length_append] at hlt
  omega

theorem indentation?_within (hrest : l.rest = q ++ y) (hrest' : l'.rest = q' ++ y)
    (hstrict : t.kind.isText = true ∨ q' ≠ []) (h : l.indentation? = some (.ok t, l')) : (spaceRun q).length < q.length ∧ q' = q.drop (spaceRun q).length := by
  have heq := eq_of_indentation? h
  rw [hrest] at heq
  simp only [Prod.mk.injEq, Except.ok.injEq] at heq
  obtain ⟨rfl, rfl⟩ := heq
  have hdrop : (q ++ y).drop (spaceRun (q ++ y)).length = q' ++ y := hrest ▸ hrest'
  obtain ⟨hle, rfl⟩ := within_of_drop hdrop (List.takeWhile_prefix _).length_le
  have hsame : spaceRun (q ++ y) = spaceRun q := takeWhile_of_append hle
  rw [hsame] at hstrict ⊢
  refine ⟨?_, rfl⟩
  have hlength := List.length_pos_iff.mpr (hstrict.resolve_left Bool.false_ne_true)
  rw [List.length_drop] at hlength
  omega

/-- What is left before the end is all gap. -/
theorem gapRun_of_skipGap (h : l.skipGap.rest = []) : gapRun l.brackets.nested false l.rest = l.rest := by
  have hsplit := gapRun_append_drop l.brackets.nested false l.rest
  have hnone : l.rest.drop (gapRun l.brackets.nested false l.rest).length = [] := h
  rwa [hnone, List.append_nil] at hsplit

theorem skipGap_facing (hrest : l.rest = q ++ y)
    (hall : ∀ x, gapRun l.brackets.nested false (q ++ x) = gapRun l.brackets.nested false q) (z : List Char) :
    l.skipGap.rest = q.drop (gapRun l.brackets.nested false q).length ++ y ∧
      (l.facing (q ++ z)).skipGap = l.skipGap.facing (q.drop (gapRun l.brackets.nested false q).length ++ z) := by
  have hle := length_gapRun_le l.brackets.nested false q
  have hskip : l.skipGap = l.advance (gapRun l.brackets.nested false q).length := by rw [skipGap, hrest, hall]
  have hskip' : (l.facing (q ++ z)).skipGap = (l.facing (q ++ z)).advance (gapRun l.brackets.nested false q).length := by
    rw [← hall z]
    rfl
  refine ⟨?_, ?_⟩
  · rw [hskip, advance, hrest]
    exact List.drop_append_of_le_length hle
  · rw [hskip', hskip, advance_facing hrest hle]

/-- The next token is the same in both texts if it lies within the beginning, and a line break or spaces if more of
    the beginning stands behind them. -/
theorem next?_facing (hrest : l.rest = q ++ y) (hclean : q.getLast? ≠ some '\r') (h : l.next? = some (.ok t, l'))
    (ht : t.kind ≠ .endMarker) (hrest' : l'.rest = q' ++ y) (hstrict : t.kind.isText = true ∨ q' ≠ [])
    (hswap : Lexeme.Swaps q y z) : (l.facing (q ++ z)).next? = some (.ok t, l'.facing (q' ++ z)) := by
  have hfin := finished_of_next? h
  have hfin' : (l.facing (q ++ z)).finished = false := hfin
  cases hi : l.indentation? with
  | some r =>
    have hr : r = (.ok t, l') := by simpa [next?, hfin, hi] using h
    subst hr
    obtain ⟨hlt, rfl⟩ := indentation?_within hrest hrest' hstrict hi
    simp [next?, hfin', indentation?_facing hrest hlt, hi]
  | none =>
    have hsignificant : l.skipGap.significant = (.ok t, l') := by simpa [next?, hfin, hi] using h
    cases gapAcross l.brackets.nested false hclean with
    | through comment hall => exact absurd (hall y) (gapRun_ne_through hrest hsignificant ht hrest')
    | within hne hall =>
      have hle := length_gapRun_le l.brackets.nested false q
      have hlt : (gapRun l.brackets.nested false q).length < q.length := by
        refine Nat.lt_of_le_of_ne hle fun heq => hne ?_
        have hpre : gapRun l.brackets.nested false q <+: q := ⟨_, gapRun_append_drop ..⟩
        exact hpre.eq_of_length heq
      have hspaces : (spaceRun q).length < q.length := by
        refine Nat.lt_of_le_of_ne (List.takeWhile_prefix _).length_le fun heq => hne ?_
        have hself : spaceRun q = q := (List.takeWhile_prefix _).eq_of_length heq
        simpa [gapRun] using gapRun_spaces l.brackets.nested hself []
      have hi' : (l.facing (q ++ z)).indentation? = none := by
        rw [indentation?_facing hrest hspaces, hi]
        rfl
      obtain ⟨hbehind, hskip⟩ := skipGap_facing hrest hall z
      have hleft : q.drop (gapRun l.brackets.nested false q).length ≠ [] := by
        refine List.ne_nil_of_length_pos ?_
        rw [List.length_drop]
        omega
      have hlast : (q.drop (gapRun l.brackets.nested false q).length).getLast? ≠ some '\r' := by
        rw [List.getLast?_drop, if_neg (Nat.not_le_of_lt hlt)]
        exact hclean
      rw [next?_significant hfin' hi', hskip]
      exact congrArg some (significant_facing hbehind hleft hlast hsignificant hrest' hstrict
        (hswap.suffix (List.drop_suffix _ _)))

/-! ### Many items -/

/-- A token is cut off the unread characters. -/
theorem shorter_of_next? (h : l.next? = some (.ok t, l')) (ht : t.kind ≠ .endMarker) :
    l'.rest <:+ l.rest ∧ l'.rest.length < l.rest.length := by
  cases cuts_of_next? h with
  | @token m n k lineStart _ hpos hne _ hl' =>
    have hrest : l'.rest = (l.rest.drop m).drop n := by rw [hl']; rfl
    rw [hrest]
    refine ⟨(List.drop_suffix _ _).trans (List.drop_suffix _ _), ?_⟩
    have hlength := List.length_pos_iff.mpr hne
    simp only [List.length_drop] at hlength ⊢
    omega
  | ended => exact absurd rfl ht

theorem pulls_cons {ts : List Token} (h : l.pulls (n + 1) = (ts.map .ok, l')) :
    (ts = [] ∧ l' = l ∧ l.finished = true) ∨
      ∃ t us k, ts = t :: us ∧ l.next? = some (.ok t, k) ∧ k.pulls n = (us.map .ok, l') := by
  cases hfin : l.finished with
  | true =>
    rw [pulls_finished hfin] at h
    obtain ⟨hts, rfl⟩ := Prod.mk.inj h
    exact .inl ⟨List.map_eq_nil_iff.mp hts.symm, rfl, rfl⟩
  | false =>
    obtain ⟨item, k, hnext⟩ := exists_next? hfin
    rw [pulls_succ hnext] at h
    obtain ⟨hts, hk⟩ := Prod.mk.inj h
    obtain ⟨t, us, rfl, rfl, hus⟩ := List.map_eq_cons_iff.mp hts.symm
    exact .inr ⟨t, us, k, rfl, hnext, Prod.ext hus.symm hk⟩

/-- What each token keeps, all of them keep. -/
theorem invariant_of_pulls {ts : List Token} {P : Lexer → Prop} (h : l.pulls n = (ts.map .ok, l'))
    (hts : ∀ t ∈ ts, t.kind ≠ .endMarker)
    (hstep : ∀ {k k' : Lexer} {t : Token}, k.next? = some (.ok t, k') → t.kind ≠ .endMarker → P k → P k') (hl : P l) :
    P l' := by
  induction n generalizing l ts with
  | zero =>
    obtain ⟨-, rfl⟩ := Prod.mk.inj h
    exact hl
  | succ n ih =>
    rcases pulls_cons h with ⟨-, rfl, -⟩ | ⟨t, us, k, rfl, hnext, hpulls⟩
    · exact hl
    · obtain ⟨ht, hus⟩ := List.forall_mem_cons.mp hts
      exact ih hpulls hus (hstep hnext ht hl)

theorem dialect_of_pulls {ts : List Token} (h : l.pulls n = (ts.map .ok, l')) (hts : ∀ t ∈ ts, t.kind ≠ .endMarker) :
    l'.dialect = l.dialect := by
  refine invariant_of_pulls (P := (·.dialect = l.dialect)) h hts (fun {k k' t} hnext ht hk => ?_) rfl
  cases cuts_of_next? hnext with
  | token _ _ _ _ hk' =>
    rw [hk']
    exact hk
  | ended => exact absurd rfl ht

theorem shorter_of_pulls {ts : List Token} (h : l.pulls n = (ts.map .ok, l')) (hts : ∀ t ∈ ts, t.kind ≠ .endMarker) :
    l'.rest <:+ l.rest ∧ l'.rest.length + ts.length ≤ l.rest.length := by
  induction n generalizing l ts with
  | zero =>
    obtain ⟨hnil, rfl⟩ := Prod.mk.inj h
    rw [List.map_eq_nil_iff.mp hnil.symm]
    exact ⟨List.suffix_refl _, Nat.le_refl _⟩
  | succ n ih =>
    rcases pulls_cons h with ⟨rfl, rfl, -⟩ | ⟨t, us, k, rfl, hnext, hpulls⟩
    · exact ⟨List.suffix_refl _, Nat.le_refl _⟩
    · obtain ⟨ht, hus⟩ := List.forall_mem_cons.mp hts
      obtain ⟨hsuffix, hlt⟩ := shorter_of_next? hnext ht
      obtain ⟨hsuffix', hle⟩ := ih hpulls hus
      rw [List.length_cons]
      exact ⟨hsuffix'.trans hsuffix, by omega⟩

/-- What is left of a text behind some of its beginning. -/
theorem exists_of_suffix {rest : List Char} (hy : y <:+ rest) (hq : rest <:+ q ++ y) :
    ∃ q', rest = q' ++ y ∧ q' <:+ q := by
  obtain ⟨q', rfl⟩ := hy
  obtain ⟨pre, hpre⟩ := hq
  rw [← List.append_assoc] at hpre
  exact ⟨q', rfl, pre, List.append_cancel_right hpre⟩

theorem getLast?_ne_of_suffix {c : Char} (h : q.getLast? ≠ some c) (hq : q' <:+ q) : q'.getLast? ≠ some c := by
  obtain ⟨pre, rfl⟩ := hq
  intro hlast
  rw [List.getLast?_append, hlast] at h
  exact h rfl

theorem getLast?_of_suffix {c : Char} (h : q.getLast? = some c) (hq : q' <:+ q) (hne : q' ≠ []) :
    q'.getLast? = some c := by
  obtain ⟨pre, rfl⟩ := hq
  rwa [List.getLast?_append_of_ne_nil pre hne] at h

/-- The tokens within the beginning are the same in both texts. If they take the whole beginning, the last of them is
    no line break and no indentation, which would go on behind it. -/
theorem pulls_facing {ts : List Token} (hrest : l.rest = q ++ y) (hclean : q.getLast? ≠ some '\r')
    (h : l.pulls n = (ts.map .ok, l')) (hts : ∀ t ∈ ts, t.kind ≠ .endMarker) (hrest' : l'.rest = q' ++ y)
    (hstrict : q' ≠ [] ∨ ∀ t ∈ ts.getLast?, t.kind.isText = true) (hswap : Lexeme.Swaps q y z) :
    (l.facing (q ++ z)).pulls n = (ts.map .ok, l'.facing (q' ++ z)) := by
  induction n generalizing l q ts with
  | zero =>
    obtain ⟨hnil, rfl⟩ := Prod.mk.inj h
    rw [List.map_eq_nil_iff.mp hnil.symm]
    obtain rfl : q = q' := List.append_cancel_right (hrest.symm.trans hrest')
    rfl
  | succ n ih =>
    rcases pulls_cons h with ⟨rfl, rfl, hfin⟩ | ⟨t, us, k, rfl, hnext, hpulls⟩
    · obtain rfl : q = q' := List.append_cancel_right (hrest.symm.trans hrest')
      have hfin' : (l'.facing (q ++ z)).finished = true := hfin
      exact pulls_finished hfin' _
    · obtain ⟨ht, hus⟩ := List.forall_mem_cons.mp hts
      obtain ⟨hsuffix, -⟩ := shorter_of_next? hnext ht
      obtain ⟨hsuffix', hlength⟩ := shorter_of_pulls hpulls hus
      rw [hrest'] at hsuffix'
      rw [hrest] at hsuffix
      obtain ⟨r, hr, hrq⟩ := exists_of_suffix ((List.suffix_append q' y).trans hsuffix') hsuffix
      rw [hr, hrest', List.length_append, List.length_append] at hlength
      have hfirst : t.kind.isText = true ∨ r ≠ [] := by
        rcases hstrict with hne | htext
        · have hpos := List.length_pos_iff.mpr hne
          exact .inr (List.ne_nil_of_length_pos (by omega))
        · cases us with
          | nil => exact .inl (htext t rfl)
          | cons u us =>
            rw [List.length_cons] at hlength
            exact .inr (List.ne_nil_of_length_pos (by omega))
      have hlast : q' ≠ [] ∨ ∀ t ∈ us.getLast?, t.kind.isText = true := by
        refine hstrict.imp_right fun htext => ?_
        cases us with
        | nil =>
          intro t ht
          cases ht
        | cons u us => rwa [List.getLast?_cons_cons] at htext
      have hstep := next?_facing hrest hclean hnext ht hr hfirst hswap
      rw [pulls_succ hstep, ih hr (getLast?_ne_of_suffix hclean hrq) hpulls hus hlast (hswap.suffix hrq)]
      rfl

/-! ### The last of many items -/

theorem take_pulls (n m : Nat) : l.take (n + m) = (l.pulls n).1 ++ (l.pulls n).2.take m := by
  induction n generalizing l with
  | zero =>
    rw [Nat.zero_add]
    rfl
  | succ n ih =>
    cases hfin : l.finished with
    | true => rw [take_finished hfin, pulls_finished hfin, take_finished hfin, List.append_nil]
    | false =>
      obtain ⟨item, k, hnext⟩ := exists_next? hfin
      rw [Nat.add_right_comm, take_next hnext, pulls_succ hnext, ih]
      rfl

theorem leads_of_next? (h : l.next? = some (.ok t, l')) : l.Leads [t.relocated .unplaced] l' := by
  intro fuel
  rw [List.length_singleton, Nat.add_comm, take_next h]
  rfl

theorem leads_of_pulls {ts : List Token} (h : l.pulls ts.length = (ts.map .ok, l')) :
    l.Leads (ts.map (Token.relocated .unplaced)) l' := by
  intro fuel
  rw [List.length_map, take_pulls, h, List.map_append, List.map_map, List.map_map]
  rfl

/-- The items of a text, apart from their places, with any fuel that is enough. -/
theorem Leads.lex {dialect : Dialect} {source : String} {ts : List Token} (h : (new dialect source).Leads ts l) {n : Nat}
    (hn : source.toList.length < n) : (Offside.lex dialect source).map (Item.relocated .unplaced) =
      ts.map .ok ++ (l.take n).map (Item.relocated .unplaced) := by
  rw [← h, take_eq_lex dialect (by omega)]

theorem snd_pulls_of_nil (h : (l.pulls n).1 = []) : (l.pulls n).2 = l := by
  cases n with
  | zero => rfl
  | succ n =>
    cases hfin : l.finished with
    | true => rw [pulls_finished hfin]
    | false =>
      obtain ⟨item, k, hnext⟩ := exists_next? hfin
      rw [pulls_succ hnext] at h
      cases h

/-- The items before the last one are tokens, and none of them is an end marker. -/
theorem pulls_concat {items : List Item} {item : Item} (h : l.pulls n = (items ++ [item], l')) :
    ∃ (ts : List Token) (k : Lexer), items = ts.map .ok ∧ (∀ t ∈ ts, t.kind ≠ .endMarker) ∧
      l.pulls ts.length = (ts.map .ok, k) ∧ k.next? = some (item, l') := by
  have hsome : items ++ [item] ≠ [] := List.append_ne_nil_of_right_ne_nil _ (List.cons_ne_nil _ _)
  induction n generalizing l items with
  | zero => exact absurd (Prod.mk.inj h).1.symm hsome
  | succ n ih =>
    cases hfin : l.finished with
    | true =>
      rw [pulls_finished hfin] at h
      exact absurd (Prod.mk.inj h).1.symm hsome
    | false =>
      obtain ⟨first, k, hnext⟩ := exists_next? hfin
      rw [pulls_succ hnext] at h
      obtain ⟨hitems, hl'⟩ := Prod.mk.inj h
      cases items with
      | nil =>
        obtain ⟨rfl, hnone⟩ := List.cons.inj hitems
        rw [snd_pulls_of_nil hnone] at hl'
        exact ⟨[], l, rfl, List.forall_mem_nil _, rfl, hl' ▸ hnext⟩
      | cons x items =>
        obtain ⟨rfl, hmore⟩ := List.cons.inj hitems
        have hmany : items ++ [item] ≠ [] := List.append_ne_nil_of_right_ne_nil _ (List.cons_ne_nil _ _)
        -- The lexer goes on, so its first item was neither a fault nor the end marker.
        have hopen : k.finished = false := by
          by_contra hdone
          rw [Bool.not_eq_false] at hdone
          rw [pulls_finished hdone] at hmore
          exact hmany hmore.symm
        obtain ⟨ts, j, rfl, hts, hpulls, hlast⟩ := ih (Prod.ext hmore hl') hmany
        cases cuts_of_next? hnext with
        | @token m n kind lineStart _ _ _ hkind _ =>
          refine ⟨_ :: ts, j, rfl, List.forall_mem_cons.mpr ⟨hkind, hts⟩, ?_, hlast⟩
          rw [List.length_cons, pulls_succ hnext, hpulls]
          rfl
        | ended _ _ hdone => exact absurd hdone (by simp [hopen])
        | stopped _ _ _ _ _ _ hdone => exact absurd hdone (by simp [hopen])

/-- Nothing is pulled, or there is a last token. -/
theorem nil_or_last_of_pulls {ts : List Token} (h : l.pulls n = (ts.map .ok, l')) :
    l' = l ∨ ∃ (us : List Token) (t : Token) (k : Lexer), t ∈ ts ∧ (∀ u ∈ us, u.kind ≠ .endMarker) ∧
      l.pulls us.length = (us.map .ok, k) ∧ k.next? = some (.ok t, l') := by
  obtain rfl | ⟨before, t, rfl⟩ := List.eq_nil_or_concat' ts
  · have hsame := snd_pulls_of_nil (congrArg Prod.fst h)
    rw [h] at hsame
    exact .inl hsame
  · rw [List.map_append] at h
    obtain ⟨us, k, -, hus, hpulls, hnext⟩ := pulls_concat h
    exact .inr ⟨us, t, k, List.mem_append_right _ List.mem_cons_self, hus, hpulls, hnext⟩

theorem pulls_append {ts : List Token} {k : Lexer} (h : l.pulls ts.length = (ts.map .ok, k))
    (hnext : k.next? = some (.ok t, l')) : l.pulls (ts ++ [t]).length = ((ts ++ [t]).map .ok, l') := by
  induction ts generalizing l with
  | nil =>
    obtain ⟨-, rfl⟩ := Prod.mk.inj h
    rw [List.nil_append, List.length_singleton, pulls_succ hnext]
    rfl
  | cons u ts ih =>
    rcases pulls_cons h with ⟨hnil, -⟩ | ⟨u', us, j, hcons, hfirst, hpulls⟩
    · cases hnil
    · obtain ⟨rfl, rfl⟩ := List.cons.inj hcons
      rw [List.cons_append, List.length_cons, pulls_succ hfirst, ih hpulls]
      rfl

/-- The end marker is answered behind a gap up to the end. -/
theorem next?_endMarker (h : l.next? = some (.ok t, l')) (ht : t.kind = .endMarker) :
    l.skipGap.rest = [] ∧ t.span = l.skipGap.spanOf 0 ∧ l' = { l.skipGap with finished := true } := by
  rcases indentation?_or_finds h with hi | ⟨-, hfinds⟩
  · have heq := eq_of_indentation? hi
    simp only [Prod.mk.injEq, Except.ok.injEq] at heq
    rw [heq.1] at ht
    cases ht
  · cases hfinds with
    | marker hnil hl' => exact ⟨hnil, rfl, hl'⟩
    | lineBreak => cases ht
    | text _ _ hkind => exact absurd ht (ne_endMarker_of_isText (isText_of_kindOf hkind))

end Lexer

end Offside

import Offside.Proofs.LexemeLine

/-! # What decides a lexeme

Where a lexeme ends is decided by its own characters and by the first one behind it that divides. So a lexeme that
lies within the beginning of a text is the same whatever stands behind that beginning, if only it stands apart. -/

namespace Offside

theorem takeWhile_of_append {p : Char → Bool} {cs s : List Char} (h : ((cs ++ s).takeWhile p).length ≤ cs.length) :
    (cs ++ s).takeWhile p = cs.takeWhile p := by
  rw [List.takeWhile_append] at h ⊢
  split
  · next hall =>
    rw [if_pos hall, List.length_append] at h
    have hnone : s.takeWhile p = [] := List.length_eq_zero_iff.mp (by omega)
    have hself : cs.takeWhile p = cs := (List.takeWhile_prefix p).eq_of_length hall
    rw [hnone, List.append_nil, hself]
  · rfl

/-! ### Line breaks and gaps -/

section
variable {cs : List Char}

theorem getLast?_ne_of_cons {c d : Char} (h : (c :: cs).getLast? ≠ some d) : cs.getLast? ≠ some d := by
  cases cs with
  | nil => simp
  | cons e cs => rwa [List.getLast?_cons_cons] at h

/-- A run of line breaks goes on behind a text that it has taken whole. -/
theorem lineBreakRun_append (h : cs.getLast? ≠ some '\r') (rest : List Char) :
    lineBreakRun (cs ++ rest) = if lineBreakRun cs = cs then cs ++ lineBreakRun rest else lineBreakRun cs := by
  fun_induction lineBreakRun cs with
  | case1 cs ih =>
    rw [List.cons_append, lineBreakRun, ih (getLast?_ne_of_cons h)]
    simp only [List.cons.injEq, true_and]
    split <;> rfl
  | case2 cs ih =>
    rw [List.cons_append, List.cons_append, lineBreakRun, ih (getLast?_ne_of_cons (getLast?_ne_of_cons h))]
    simp only [List.cons.injEq, true_and]
    split <;> rfl
  | case3 cs hfeed hreturn =>
    cases cs with
    | nil => rfl
    | cons c cs =>
      have hc : c ≠ '\n' := fun hc => hfeed cs (by rw [hc])
      rw [if_neg (List.cons_ne_nil c cs).symm, List.cons_append, lineBreakRun]
      · rintro rest heq
        exact hc (List.cons.inj heq).1
      · rintro rest heq
        obtain ⟨rfl, htail⟩ := List.cons.inj heq
        cases cs with
        | nil => exact h rfl
        | cons d cs => exact hreturn cs (by rw [(List.cons.inj htail).1])

theorem gapRun_return {d : Char} (hd : d ≠ '\n') (nested comment : Bool) (cs : List Char) :
    gapRun nested comment ('\r' :: d :: cs) = [] := by
  rw [gapRun.eq_def]
  simp [hd]

/-- How a gap at the start of a text goes on behind it: it has taken the whole text and goes on, perhaps in a comment,
    or it has come to its end. -/
inductive GapAcross (nested comment : Bool) (cs : List Char) : Prop
  | through (comment' : Bool) : (∀ rest, gapRun nested comment (cs ++ rest) = cs ++ gapRun nested comment' rest) →
    GapAcross nested comment cs
  | within : gapRun nested comment cs ≠ cs → (∀ rest, gapRun nested comment (cs ++ rest) = gapRun nested comment cs) →
    GapAcross nested comment cs

theorem GapAcross.behind {nested comment comment' : Bool} (h : GapAcross nested comment' cs) (pre : List Char)
    (hpre : ∀ ds, gapRun nested comment (pre ++ ds) = pre ++ gapRun nested comment' ds) :
    GapAcross nested comment (pre ++ cs) := by
  cases h with
  | through comment'' h => exact .through comment'' fun rest => by simp only [List.append_assoc, hpre, h]
  | within hne h =>
    refine .within (fun heq => hne ?_) fun rest => by simp only [List.append_assoc, hpre, h]
    rw [hpre] at heq
    exact List.append_cancel_left heq

theorem gapAcross (nested comment : Bool) (h : cs.getLast? ≠ some '\r') : GapAcross nested comment cs := by
  fun_induction gapRun nested comment cs with
  | case1 comment cs hn ih =>
    exact (ih (getLast?_ne_of_cons (getLast?_ne_of_cons h))).behind ['\r', '\n'] fun ds => by simp [gapRun, hn]
  | case2 comment cs hn => exact .within (by simp [gapRun, hn]) fun rest => by simp [gapRun, hn]
  | case3 comment cs hn _ ih =>
    exact (ih (getLast?_ne_of_cons h)).behind ['\n'] fun ds => by simp [gapRun_lineFeed, hn]
  | case4 comment cs hn => exact .within (by simp [gapRun_lineFeed, hn]) fun rest => by simp [gapRun_lineFeed, hn]
  | case5 comment cs hreturn =>
    cases cs with
    | nil => exact absurd rfl h
    | cons d cs =>
      have hd : d ≠ '\n' := fun hd => hreturn cs rfl (by rw [hd])
      exact .within (by simp [gapRun_return hd]) fun rest => by simp [gapRun_return hd]
  | case6 c cs _ hn hr ih =>
    exact (ih (getLast?_ne_of_cons h)).behind [c] fun ds => by simp [gapRun_cons hn hr]
  | case7 comment cs hc _ _ _ ih =>
    exact (ih (getLast?_ne_of_cons h)).behind [' '] fun ds => by simp [gapRun_cons, hc]
  | case8 comment cs hc _ _ _ _ ih =>
    exact (ih (getLast?_ne_of_cons h)).behind ['#'] fun ds => by simp [gapRun_cons, hc]
  | case9 comment c cs _ hn hr hc hspace hcomment =>
    exact .within (by simp [gapRun_cons hn hr, hc, hspace, hcomment])
      fun rest => by simp [gapRun_cons hn hr, hc, hspace, hcomment]
  | case10 comment => exact .through comment fun rest => rfl

end

namespace Lexeme
variable {cs s r : List Char} {x : Lexeme} {n : Nat}

/-! ### Words and numbers -/

theorem wordRun_of_append {c : Char} (h : (wordRun (c :: cs ++ s)).length ≤ (c :: cs).length) :
    wordRun (c :: cs ++ s) = wordRun (c :: cs) := by
  simp only [List.cons_append, wordRun] at h ⊢
  by_cases hc : isWordStart c = true
  · simp only [hc, if_true, List.length_cons] at h ⊢
    rw [takeWhile_of_append (Nat.le_of_succ_le_succ h)]
  · simp [hc]

theorem fractionRun_of_append
    (h : (if (fractionRun (cs ++ s)).isEmpty then 0 else (fractionRun (cs ++ s)).length + 1) ≤ cs.length) :
    fractionRun (cs ++ s) = fractionRun cs := by
  cases cs with
  | nil =>
    split at h
    · next hempty => rw [List.isEmpty_iff.mp hempty]; rfl
    · simp at h
  | cons c cs =>
    by_cases hc : c = '.'
    · subst hc
      refine takeWhile_of_append ?_
      split at h
      · next hempty =>
        have hnil : (cs ++ s).takeWhile Char.isDigit = [] := List.isEmpty_iff.mp hempty
        rw [hnil]
        exact Nat.zero_le _
      · exact Nat.le_of_succ_le_succ h
    · rw [List.cons_append, fractionRun_cons hc, fractionRun_cons hc]

theorem lt_of_exponentOf? {sign e : Int} {m k : Nat} (h : exponentOf? sign m cs = some (e, k)) : m < k := by
  unfold exponentOf? at h
  split at h
  · cases h
  · next hne =>
    have hpos : 0 < cs.length := List.length_pos_iff.mpr (by simpa using hne)
    obtain ⟨-, rfl⟩ := Prod.mk.inj (Option.some.inj h)
    omega

theorem digitRun_of_exponent (sign : Int) (m : Nat)
    (h : ∀ e k, exponentOf? sign m (digitRun (cs ++ s)) = some (e, k) → k ≤ m + cs.length) :
    digitRun (cs ++ s) = digitRun cs := by
  refine takeWhile_of_append ?_
  by_cases hempty : (digitRun (cs ++ s)).isEmpty = true
  · have hnil : (cs ++ s).takeWhile Char.isDigit = [] := List.isEmpty_iff.mp hempty
    rw [hnil]
    exact Nat.zero_le _
  · have hle := h _ _ (if_neg hempty)
    exact Nat.le_of_add_le_add_left hle

theorem lt_of_exponent? {e : Int} {k : Nat} (h : exponent? cs = some (e, k)) : 1 < k := by
  cases cs with
  | nil => cases h
  | cons c cs =>
    rw [exponent?_cons] at h
    split at h
    · have hlt := lt_of_exponentOf? h
      omega
    · cases h

/-- An exponent that lies within the beginning of a text. -/
theorem exponent?_of_append (h : ∀ e k, exponent? (cs ++ s) = some (e, k) → k ≤ cs.length) :
    exponent? (cs ++ s) = exponent? cs := by
  have hnone (hlen : cs.length ≤ 1) : exponent? (cs ++ s) = none := by
    refine Option.eq_none_iff_forall_ne_some.mpr fun r hr => ?_
    have hle := h r.1 r.2 hr
    have hlt := lt_of_exponent? (e := r.1) (k := r.2) hr
    omega
  rcases cs with _ | ⟨c, _ | ⟨d, cs⟩⟩
  · exact hnone (Nat.zero_le _)
  · rw [hnone (Nat.le_refl _), exponent?_cons]
    simp [exponentOf?, digitRun]
  · have hle := signLength_le (d :: cs)
    have hsign : signValue (d :: cs ++ s) = signValue (d :: cs) ∧ signLength (d :: cs ++ s) = signLength (d :: cs) :=
      ⟨rfl, rfl⟩
    rw [List.cons_append, exponent?_cons, hsign.1, hsign.2, List.drop_append_of_le_length hle] at h ⊢
    rw [exponent?_cons]
    by_cases hc : (c == 'e' || c == 'E') = true
    · rw [if_pos hc] at h
      rw [digitRun_of_exponent (signValue (d :: cs)) (1 + signLength (d :: cs))]
      intro e k hk
      have hk := h e k hk
      rw [List.length_drop]
      simp only [List.length_cons] at hle hk ⊢
      omega
    · rw [if_neg hc, if_neg hc]

/-- A number has its digits, its fraction and perhaps an exponent. -/
theorem length_of_number?_eq (h : number? cs = some (x, n)) : mantissaLength cs ≤ n ∧
    ∀ e k, exponent? (cs.drop (mantissaLength cs)) = some (e, k) → n = mantissaLength cs + k := by
  rw [number?_eq] at h
  split at h
  · cases h
  · split at h
    · next hexp =>
      obtain ⟨-, rfl⟩ := Prod.mk.inj (Option.some.inj h)
      refine ⟨Nat.le_add_right _ _, fun e k hk => ?_⟩
      rw [hk] at hexp
      obtain ⟨-, rfl⟩ := Prod.mk.inj (Option.some.inj hexp)
      rfl
    · next hexp _ =>
      obtain ⟨-, rfl⟩ := Prod.mk.inj (Option.some.inj h)
      exact ⟨Nat.le_refl _, fun e k hk => nomatch hexp.symm.trans hk⟩
    · next hexp _ =>
      obtain ⟨-, rfl⟩ := Prod.mk.inj (Option.some.inj h)
      exact ⟨Nat.le_refl _, fun e k hk => nomatch hexp.symm.trans hk⟩

theorem number?_of_append (h : number? (cs ++ s) = some (x, n)) (hn : n ≤ cs.length) : number? cs = some (x, n) := by
  obtain ⟨hle, hexponent⟩ := length_of_number?_eq h
  have hlength : mantissaLength (cs ++ s) ≤ cs.length := Nat.le_trans hle hn
  have hwhole : digitRun (cs ++ s) = digitRun cs :=
    takeWhile_of_append (Nat.le_trans (Nat.le_add_right _ _) hlength)
  have hsplit : (cs ++ s).drop (digitRun cs).length = cs.drop (digitRun cs).length ++ s :=
    List.drop_append_of_le_length (length_digitRun_le cs)
  have hfraction : fractionOf (cs ++ s) = fractionOf cs := by
    have heq : fractionOf (cs ++ s) = fractionRun (cs.drop (digitRun cs).length ++ s) := by
      rw [fractionOf, hwhole, hsplit]
    rw [heq, fractionRun_of_append]
    · rfl
    · rw [← heq, List.length_drop]
      rw [mantissaLength, hwhole] at hlength
      omega
  have hmantissa : mantissaLength (cs ++ s) = mantissaLength cs := by
    rw [mantissaLength, hwhole, hfraction]
    rfl
  have hexp : exponent? ((cs ++ s).drop (mantissaLength cs)) = exponent? (cs.drop (mantissaLength cs)) := by
    rw [List.drop_append_of_le_length (mantissaLength_le cs)]
    refine exponent?_of_append fun e k hk => ?_
    rw [← List.drop_append_of_le_length (mantissaLength_le cs), ← hmantissa] at hk
    have := hexponent e k hk
    rw [List.length_drop]
    omega
  rw [number?_eq, hwhole, hfraction, hmantissa, hexp] at h
  exact h

theorem word?_of_append {c : Char} (h : word? (c :: cs ++ s) = some (x, n)) (hn : n ≤ (c :: cs).length) :
    word? (c :: cs) = some (x, n) := by
  have hlength : (wordRun (c :: cs ++ s)).length ≤ (c :: cs).length := by
    simp only [word?] at h
    split at h
    · cases h
    · obtain ⟨-, rfl⟩ := Prod.mk.inj (Option.some.inj h)
      exact hn
  rwa [word?, wordRun_of_append hlength] at h

/-! ### Symbols and strings -/

theorem symbol?_of_append (h : symbol? (cs ++ s) = some (x, n)) (hn : n ≤ cs.length) : symbol? cs = some (x, n) := by
  obtain ⟨z, hz, rfl, rfl⟩ := symbol?_eq_some_iff.mp h
  have hpre := List.prefix_append cs s
  have hlong : LongestSymbol cs z :=
    ⟨List.prefix_of_prefix_length_le hz.pre hpre hn, fun t ht => hz.length_le t (ht.trans hpre)⟩
  exact symbol?_eq_some_iff.mpr ⟨z, hlong, rfl, rfl⟩

/-- A string ends with a quote that belongs to no escape. -/
theorem quote_of_stringBody? {skip : Nat} {out : List Char} (h : stringBody? skip cs = some (out, n)) :
    ∃ body rest, cs = body ++ '"' :: rest ∧ n = body.length + 1 ∧ skip ≤ body.length := by
  induction cs generalizing skip out n with
  | nil => cases skip <;> cases h
  | cons c cs ih =>
    cases skip with
    | succ skip =>
      rw [stringBody?] at h
      obtain ⟨⟨out', k⟩, hbody, heq⟩ := Option.map_eq_some_iff.mp h
      obtain ⟨-, rfl⟩ := Prod.mk.inj heq
      obtain ⟨body, rest, rfl, rfl, hskip⟩ := ih hbody
      exact ⟨c :: body, rest, rfl, rfl, Nat.succ_le_succ hskip⟩
    | zero =>
      rw [stringBody?] at h
      split at h
      · next hc =>
        subst hc
        obtain ⟨-, rfl⟩ := Prod.mk.inj (Option.some.inj h)
        exact ⟨[], cs, rfl, rfl, Nat.le_refl _⟩
      split at h
      · cases h
      split at h
      · split at h
        · cases h
        · obtain ⟨⟨out', k⟩, hbody, heq⟩ := Option.map_eq_some_iff.mp h
          obtain ⟨-, rfl⟩ := Prod.mk.inj heq
          obtain ⟨body, rest, rfl, rfl, -⟩ := ih hbody
          exact ⟨c :: body, rest, rfl, rfl, Nat.zero_le _⟩
      · obtain ⟨⟨out', k⟩, hbody, heq⟩ := Option.map_eq_some_iff.mp h
        obtain ⟨-, rfl⟩ := Prod.mk.inj heq
        obtain ⟨body, rest, rfl, rfl, -⟩ := ih hbody
        exact ⟨c :: body, rest, rfl, rfl, Nat.zero_le _⟩

/-- An escape does not reach over a quote behind it. -/
theorem escape?_quote (body rest rest' : List Char) : escape? (body ++ '"' :: rest) = escape? (body ++ '"' :: rest') := by
  cases body with
  | nil => rfl
  | cons c body =>
    have hdivides (ds : List Char) : Divides ('"' :: ds) := by
      intro d hd
      obtain rfl := Option.some.inj hd
      decide
    have hne := List.cons_ne_nil c body
    rw [escape?_divided (hdivides rest) hne, escape?_divided (hdivides rest') hne]

/-- An escape in a string that lies within the beginning of a text is decided by that beginning. -/
theorem escape?_of_append {skip : Nat} {out : List Char} (h : stringBody? skip (cs ++ s) = some (out, n))
    (hn : n ≤ cs.length) (r : List Char) : escape? (cs ++ r) = escape? (cs ++ s) := by
  obtain ⟨body, rest, hsplit, rfl, -⟩ := quote_of_stringBody? h
  have hpre : body ++ ['"'] <+: cs := by
    refine List.prefix_of_prefix_length_le ⟨rest, ?_⟩ (List.prefix_append cs s) (by simpa using hn)
    rw [hsplit, List.append_assoc]
    rfl
  obtain ⟨more, rfl⟩ := hpre
  simp only [List.append_assoc, List.singleton_append]
  exact escape?_quote body _ _

/-- A string that lies within the beginning of a text is decided by that beginning. -/
theorem stringBody?_of_append {skip : Nat} {out : List Char} (h : stringBody? skip (cs ++ s) = some (out, n))
    (hn : n ≤ cs.length) (r : List Char) : stringBody? skip (cs ++ r) = some (out, n) := by
  induction cs generalizing skip out n with
  | nil =>
    obtain ⟨body, rest, -, rfl, -⟩ := quote_of_stringBody? h
    cases hn
  | cons c cs ih =>
    have hshort {k : Nat} (hk : k + 1 = n) : k ≤ cs.length := by
      simp only [List.length_cons] at hn
      omega
    -- Behind the first character the string is decided by the induction hypothesis.
    have hbehind {skip' : Nat} {f : List Char → List Char}
        (h : (stringBody? skip' (cs ++ s)).map (fun p => (f p.1, p.2 + 1)) = some (out, n)) :
        (stringBody? skip' (cs ++ r)).map (fun p => (f p.1, p.2 + 1)) = some (out, n) := by
      obtain ⟨⟨out', k⟩, hbody, heq⟩ := Option.map_eq_some_iff.mp h
      rw [ih hbody (hshort (Prod.mk.inj heq).2)]
      exact congrArg some heq
    rw [List.cons_append] at h ⊢
    cases skip with
    | succ skip =>
      rw [stringBody?] at h ⊢
      exact hbehind (f := id) h
    | zero =>
      rw [stringBody?] at h ⊢
      split
      · next hc => rwa [if_pos hc] at h
      next hquote =>
      rw [if_neg hquote] at h
      split
      · next hc => rwa [if_pos hc] at h
      next hfeed =>
      rw [if_neg hfeed] at h
      split
      · next hc =>
        rw [if_pos hc] at h
        split at h
        · cases h
        · next out' size hescape =>
          obtain ⟨⟨tail, k⟩, hbody, heq⟩ := Option.map_eq_some_iff.mp h
          rw [escape?_of_append hbody (hshort (Prod.mk.inj heq).2) r, hescape]
          exact hbehind (f := (out' ++ ·)) h
      · next hslash =>
        rw [if_neg hslash] at h
        exact hbehind (f := (c :: ·)) h

theorem string?_of_append (h : string? (cs ++ s) = some (x, n)) (hn : n ≤ cs.length) (r : List Char) :
    string? (cs ++ r) = some (x, n) := by
  cases cs with
  | nil =>
    have hpos := pos_of_string? h
    exact absurd hn (Nat.not_le_of_lt hpos)
  | cons c cs =>
    rw [List.cons_append] at h ⊢
    by_cases hc : c = '"'
    · subst hc
      rw [string?] at h ⊢
      obtain ⟨⟨out, k⟩, hbody, heq⟩ := Option.map_eq_some_iff.mp h
      have hk : k ≤ cs.length := by
        have := (Prod.mk.inj heq).2
        simp only [List.length_cons] at hn
        omega
      rw [stringBody?_of_append hbody hk r]
      exact congrArg some heq
    · simp [string?, hc] at h

/-! ### Lexemes -/

theorem isWordStart_of_word? {c : Char} (h : word? (c :: cs) = none) : isWordStart c = false := by
  refine Bool.eq_false_iff.mpr fun hc => ?_
  simp [word?, wordRun, hc] at h

theorem isDigit_of_number? {c : Char} (h : number? (c :: cs) = none) : c.isDigit = false := by
  refine Bool.eq_false_iff.mpr fun hc => ?_
  have hne : (digitRun (c :: cs)).isEmpty = false := by simp [digitRun, hc]
  rw [number?_eq, hne, if_neg Bool.false_ne_true] at h
  split at h <;> cases h

theorem ne_quote_of_symbol? {c : Char} (h : symbol? (c :: cs) = some (x, n)) : c ≠ '"' := by
  obtain ⟨z, hz, -, -⟩ := symbol?_eq_some_iff.mp h
  obtain ⟨d, ds, hcons, -, -, hquote⟩ := spelling_eq_cons z
  obtain ⟨rfl, -⟩ := List.cons_prefix_cons.mp (hcons ▸ hz.pre)
  exact hquote

/-- A lexeme that lies within the beginning of a text is the same whatever stands behind that beginning, if it stands
    apart. -/
theorem scan?_of_append (h : scan? (cs ++ s) = some (x, n)) (hn : n ≤ cs.length) (hr : Divides r) :
    scan? (cs ++ r) = some (x, n) := by
  obtain ⟨c, cs, rfl⟩ : ∃ c ds, cs = c :: ds := by
    refine List.exists_cons_of_ne_nil ?_
    rintro rfl
    exact absurd hn (Nat.not_le_of_lt (pos_of_scan? h))
  simp only [scan?, Option.orElse_eq_some] at h
  rcases h with h | ⟨hword, h | ⟨hnumber, h | ⟨hstring, h⟩⟩⟩
  · rw [scan?, word?, wordRun_divided hr, ← word?, word?_of_append h hn]
    rfl
  · rw [scan?, List.cons_append, word?_eq_none (isWordStart_of_word? hword), ← List.cons_append, number?_divided hr,
      number?_of_append h hn]
    rfl
  · rw [scan?, string?_of_append h hn r, List.cons_append, word?_eq_none (isWordStart_of_word? hword),
      number?_eq_none (isDigit_of_number? hnumber)]
    rfl
  · have hquote := ne_quote_of_symbol? h
    have hnone : string? (c :: (cs ++ r)) = none := by simp [string?, hquote]
    rw [scan?, symbol?_divided hr, symbol?_of_append h hn, List.cons_append, word?_eq_none (isWordStart_of_word? hword),
      number?_eq_none (isDigit_of_number? hnumber), hnone]
    rfl

/-- A string ends with a quote. -/
theorem getLast?_of_string? (h : string? cs = some (x, n)) : (cs.take n).getLast? = some '"' := by
  unfold string? at h
  split at h
  · obtain ⟨⟨out, k⟩, hbody, heq⟩ := Option.map_eq_some_iff.mp h
    obtain ⟨-, rfl⟩ := Prod.mk.inj heq
    obtain ⟨body, rest, rfl, rfl, -⟩ := quote_of_stringBody? hbody
    have htake : ('"' :: (body ++ '"' :: rest)).take (body.length + 1 + 1) = '"' :: (body ++ ['"']) := by
      rw [List.take_succ_cons, List.take_append, List.take_of_length_le (Nat.le_succ _), Nat.add_sub_cancel_left]
      rfl
    rw [htake, ← List.cons_append, List.getLast?_concat]
  · cases h

/-- A carriage return ends no lexeme: it divides, and a string ends with a quote. -/
theorem getLast?_of_scan? (h : scan? cs = some (x, n)) : (cs.take n).getLast? ≠ some '\r' := by
  intro hlast
  have hn := length_of_scan? h
  obtain ⟨a, ha⟩ := List.getLast?_eq_some_iff.mp hlast
  have hlength : n = a.length + 1 := by
    have := congrArg List.length ha
    simpa [Nat.min_eq_left hn] using this
  have hcs : cs = a ++ '\r' :: cs.drop n := by
    calc cs = cs.take n ++ cs.drop n := (List.take_append_drop n cs).symm
      _ = a ++ '\r' :: cs.drop n := by rw [ha, List.append_assoc]; rfl
  have hdivides : Divides ('\r' :: cs.drop n) := by
    intro c hc
    obtain rfl := Option.some.inj hc
    decide
  simp only [scan?, Option.orElse_eq_some] at h
  rcases h with h | ⟨-, h | ⟨-, h | ⟨-, h⟩⟩⟩
  · rw [hcs, word?, wordRun_divided hdivides, ← word?] at h
    have := length_of_word? h
    omega
  · rw [hcs, number?_divided hdivides] at h
    have := length_of_number? h
    omega
  · rw [getLast?_of_string? h] at hlast
    cases hlast
  · rw [hcs, symbol?_divided hdivides] at h
    have := length_of_symbol? h
    omega

end Lexeme

end Offside

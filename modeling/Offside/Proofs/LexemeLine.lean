import Mathlib.Data.Option.Basic
import Offside.Proofs.SourceTiling

/-! # A lexeme stands on one line

No lexeme reaches over a line break, and to find one the lexer does not look behind the break either: whatever
stands behind a line, its lexemes are the same. -/

namespace Offside

/-- The characters with which no lexeme goes on but a string: those between tokens, and the quote. -/
def dividers : List Char := [' ', '#', '\n', '\r', '"']

/-- What can stand behind a lexeme: nothing, or a character that divides it from more. -/
def Divides (rest : List Char) : Prop := ∀ c ∈ rest.head?, c ∈ dividers

/-- What can stand behind a line: nothing, or a line break and more. -/
inductive EndsLine : List Char → Prop
  | text : EndsLine []
  | lineFeed (rest : List Char) : EndsLine ('\n' :: rest)
  | lineBreak (rest : List Char) : EndsLine ('\r' :: '\n' :: rest)

section
variable {rest : List Char}

theorem EndsLine.divides (h : EndsLine rest) : Divides rest := by
  intro c hc
  cases h with
  | text => cases hc
  | lineFeed =>
    obtain rfl := Option.some.inj hc
    decide
  | lineBreak =>
    obtain rfl := Option.some.inj hc
    decide

/-- A property that no divider has fails for what stands behind a lexeme. -/
theorem Divides.not (h : Divides rest) {p : Char → Bool} (hp : dividers.all (!p ·) = true) :
    ∀ c ∈ rest.head?, p c = false := by
  intro c hc
  simpa using List.all_eq_true.mp hp c (h c hc)

theorem Divides.head?_ne (h : Divides rest) {c : Char} (hc : c ∉ dividers) : rest.head? ≠ some c :=
  fun hhead => hc (h c hhead)

theorem takeWhile_append_of_head {p : Char → Bool} (h : ∀ c ∈ rest.head?, p c = false) (cs : List Char) :
    (cs ++ rest).takeWhile p = cs.takeWhile p := by
  induction cs with
  | nil =>
    cases rest with
    | nil => rfl
    | cons c rest => simp [h c rfl]
  | cons c cs ih => simp only [List.cons_append, List.takeWhile_cons, ih]

end

/-! ### Gaps, character by character -/

section
variable {c : Char}

theorem gapRun_lineFeed (nested comment : Bool) (cs : List Char) :
    gapRun nested comment ('\n' :: cs) = if nested then '\n' :: gapRun nested false cs else [] := by
  rw [gapRun.eq_def]
  simp

/-- Within a line a gap goes on with a space, with the start of a comment and with any character of one. -/
theorem gapRun_cons (hfeed : c ≠ '\n') (hreturn : c ≠ '\r') (nested comment : Bool) (cs : List Char) :
    gapRun nested comment (c :: cs) = if comment then c :: gapRun nested true cs
      else if c = ' ' then c :: gapRun nested false cs
      else if c = '#' then c :: gapRun nested true cs else [] := by
  rw [gapRun.eq_def]
  simp [hfeed, hreturn]

end

namespace Lexeme

/-! ### Exponents in parts -/

/-- The number of characters of the sign at the start of a text. -/
def signLength (cs : List Char) : Nat := if cs.head? = some '+' ∨ cs.head? = some '-' then 1 else 0

/-- What the sign at the start of a text stands for. -/
def signValue (cs : List Char) : Int := if cs.head? = some '-' then -1 else 1

/-- The exponent of a sign and digits, the latter behind `n` characters. -/
def exponentOf? (sign : Int) (n : Nat) (digits : List Char) : Option (Int × Nat) :=
  if digits.isEmpty then none else some (sign * digitsValue 0 digits, n + digits.length)

theorem signLength_le (cs : List Char) : signLength cs ≤ cs.length := by
  cases cs with
  | nil => simp [signLength]
  | cons c cs =>
    unfold signLength
    split <;> simp

theorem exponent?_cons (c : Char) (cs : List Char) : exponent? (c :: cs) = if c == 'e' || c == 'E' then
    exponentOf? (signValue cs) (1 + signLength cs) (digitRun (cs.drop (signLength cs))) else none := by
  cases cs with
  | nil => rfl
  | cons d cs =>
    by_cases hplus : d = '+'
    · subst hplus
      rfl
    by_cases hminus : d = '-'
    · subst hminus
      rfl
    · simp [exponent?, exponentOf?, signValue, signLength, hplus, hminus]

/-! ### Numbers in parts -/

/-- The digits behind the point of a number. -/
def fractionOf (cs : List Char) : List Char := fractionRun (cs.drop (digitRun cs).length)

/-- The number of characters before the exponent of a number. -/
def mantissaLength (cs : List Char) : Nat :=
  (digitRun cs).length + if (fractionOf cs).isEmpty then 0 else (fractionOf cs).length + 1

theorem number?_eq (cs : List Char) : number? cs = if (digitRun cs).isEmpty then none
    else match exponent? (cs.drop (mantissaLength cs)), fractionOf cs with
      | some (e, n), _ => some (.float (.ofDigits (digitRun cs) (fractionOf cs) e), mantissaLength cs + n)
      | none, [] => some (.integer (digitRun cs), mantissaLength cs)
      | none, _ => some (.float (.ofDigits (digitRun cs) (fractionOf cs) 0), mantissaLength cs) := rfl

section
variable {rest : List Char} (h : Divides rest)
include h

/-! ### Words and numbers -/

theorem wordRun_divided (cs : List Char) : wordRun (cs ++ rest) = wordRun cs := by
  cases cs with
  | nil =>
    cases rest with
    | nil => rfl
    | cons c rest =>
      have hc : isWordStart c = false := h.not rfl c rfl
      simp [wordRun, hc]
  | cons c cs =>
    have hrun := takeWhile_append_of_head (p := isWordChar) (h.not rfl) cs
    simp only [List.cons_append, wordRun, hrun]

theorem digitRun_divided (cs : List Char) : digitRun (cs ++ rest) = digitRun cs :=
  takeWhile_append_of_head (h.not rfl) cs

omit h in
theorem fractionRun_cons {c : Char} (hc : c ≠ '.') (cs : List Char) : fractionRun (c :: cs) = [] := by
  simp [fractionRun, hc]

theorem fractionRun_divided (cs : List Char) : fractionRun (cs ++ rest) = fractionRun cs := by
  cases cs with
  | nil =>
    cases rest with
    | nil => rfl
    | cons c rest => exact fractionRun_cons (fun hc => h.head?_ne (by decide) (congrArg some hc)) rest
  | cons c cs =>
    by_cases hc : c = '.'
    · subst hc
      exact digitRun_divided h cs
    · rw [List.cons_append, fractionRun_cons hc, fractionRun_cons hc]

theorem exponent?_divided (cs : List Char) : exponent? (cs ++ rest) = exponent? cs := by
  cases cs with
  | nil =>
    cases rest with
    | nil => rfl
    | cons c rest =>
      have hc : (c == 'e' || c == 'E') = false := h.not (p := fun c => c == 'e' || c == 'E') rfl c rfl
      simp [exponent?, hc]
  | cons c cs =>
    have hhead : signValue (cs ++ rest) = signValue cs ∧ signLength (cs ++ rest) = signLength cs := by
      cases cs with
      | nil =>
        cases rest with
        | nil => exact ⟨rfl, rfl⟩
        | cons d rest =>
          have hd : (d == '+' || d == '-') = false := h.not (p := fun c => c == '+' || c == '-') rfl d rfl
          simp only [Bool.or_eq_false_iff, beq_eq_false_iff_ne] at hd
          simp [signValue, signLength, hd]
      | cons => exact ⟨rfl, rfl⟩
    rw [List.cons_append, exponent?_cons, exponent?_cons, hhead.1, hhead.2,
      List.drop_append_of_le_length (signLength_le cs), digitRun_divided h]

omit h in
theorem length_digitRun_le (cs : List Char) : (digitRun cs).length ≤ cs.length :=
  (List.takeWhile_prefix _).length_le

omit h in
theorem length_fractionRun_le (cs : List Char) (hne : (fractionRun cs).isEmpty = false) :
    (fractionRun cs).length + 1 ≤ cs.length := by
  unfold fractionRun at hne ⊢
  split at hne
  · exact Nat.succ_le_succ (length_digitRun_le _)
  · cases hne

omit h in
theorem mantissaLength_le (cs : List Char) : mantissaLength cs ≤ cs.length := by
  have hle := length_digitRun_le cs
  unfold mantissaLength fractionOf
  split
  · exact hle
  · next hne =>
    have hfraction := length_fractionRun_le (cs.drop (digitRun cs).length) (by simpa using hne)
    rw [List.length_drop] at hfraction
    omega

theorem number?_divided (cs : List Char) : number? (cs ++ rest) = number? cs := by
  have hfraction : fractionOf (cs ++ rest) = fractionOf cs := by
    rw [fractionOf, digitRun_divided h, List.drop_append_of_le_length (length_digitRun_le cs), fractionRun_divided h]
    rfl
  have hlength : mantissaLength (cs ++ rest) = mantissaLength cs := by
    rw [mantissaLength, digitRun_divided h, hfraction]
    rfl
  rw [number?_eq, number?_eq, digitRun_divided h, hfraction, hlength,
    List.drop_append_of_le_length (mantissaLength_le cs), exponent?_divided h]

/-! ### Strings -/

omit h in
theorem codePointEscape?_eq_none {cs : List Char} (hcs : ∀ ds, cs ≠ 'u' :: '\x7b' :: ds) :
    codePointEscape? cs = none := by
  unfold codePointEscape?
  split
  · exact absurd rfl (hcs _)
  · rfl

theorem codePointEscape?_divided (cs : List Char) : codePointEscape? (cs ++ rest) = codePointEscape? cs := by
  by_cases hopen : ∃ ds, cs = 'u' :: '\x7b' :: ds
  · obtain ⟨cs, rfl⟩ := hopen
    have hrun := takeWhile_append_of_head (p := fun c => (hexValue? c).isSome) (h.not rfl) cs
    have hle : (cs.takeWhile fun c => (hexValue? c).isSome).length ≤ cs.length :=
      (List.takeWhile_prefix _).length_le
    have hclose : ((cs.drop (cs.takeWhile fun c => (hexValue? c).isSome).length ++ rest).head? = some '\x7d') ↔
        (cs.drop (cs.takeWhile fun c => (hexValue? c).isSome).length).head? = some '\x7d' := by
      cases cs.drop (cs.takeWhile fun c => (hexValue? c).isSome).length with
      | nil => simpa using h.head?_ne (c := '\x7d') (by decide)
      | cons => rfl
    simp only [List.cons_append, codePointEscape?, hrun, List.drop_append_of_le_length hle, hclose]
  · have hnone : ∀ ds, cs ++ rest ≠ 'u' :: '\x7b' :: ds := by
      intro ds heq
      rcases cs with _ | ⟨c, _ | ⟨d, cs⟩⟩
      · exact h.head?_ne (c := 'u') (by decide) (congrArg List.head? heq)
      · exact h.head?_ne (c := '\x7b') (by decide) (congrArg List.head? (List.cons.inj heq).2)
      · obtain ⟨rfl, htail⟩ := List.cons.inj heq
        obtain ⟨rfl, -⟩ := List.cons.inj htail
        exact hopen ⟨cs, rfl⟩
    rw [codePointEscape?_eq_none hnone, codePointEscape?_eq_none fun ds heq => hopen ⟨ds, heq⟩]

omit h in
theorem byteEscape?_eq_none {cs : List Char} (hcs : ∀ ds, cs ≠ 'x' :: ds) : byteEscape? cs = none := by
  unfold byteEscape?
  split
  · exact absurd rfl (hcs _)
  · rfl

theorem byteEscape?_divided (cs : List Char) : byteEscape? (cs ++ rest) = byteEscape? cs := by
  by_cases hx : ∃ ds, cs = 'x' :: ds
  · obtain ⟨cs, rfl⟩ := hx
    have hhead : ∀ c ∈ rest.head?, (hexValue? c).isSome = false := h.not rfl
    rcases cs with _ | ⟨a, _ | ⟨b, cs⟩⟩
    · rcases rest with _ | ⟨a, _ | ⟨b, rest⟩⟩
      · rfl
      · rfl
      · simp [byteEscape?, hhead a rfl]
    · rcases rest with _ | ⟨b, rest⟩
      · rfl
      · simp [byteEscape?, hhead b rfl]
    · rfl
  · have hnone : ∀ ds, cs ++ rest ≠ 'x' :: ds := by
      intro ds heq
      cases cs with
      | nil => exact h.head?_ne (c := 'x') (by decide) (congrArg List.head? heq)
      | cons c cs => exact hx ⟨cs, by rw [(List.cons.inj heq).1]⟩
    rw [byteEscape?_eq_none hnone, byteEscape?_eq_none fun ds heq => hx ⟨ds, heq⟩]

theorem escape?_divided {cs : List Char} (hne : cs ≠ []) : escape? (cs ++ rest) = escape? cs := by
  obtain ⟨c, cs, rfl⟩ := List.exists_cons_of_ne_nil hne
  unfold escape?
  rw [codePointEscape?_divided h, byteEscape?_divided h]
  rfl

/-! ### Symbols -/

omit h in
theorem divider_not_mem_spelling (s : Symbol) : ∀ c ∈ dividers, c ∉ s.spelling.toList := by
  have hall : dividers.all (!s.spelling.toList.contains ·) = true := by cases s <;> decide
  intro c hc
  simpa using List.all_eq_true.mp hall c hc

theorem symbol?_divided (cs : List Char) : symbol? (cs ++ rest) = symbol? cs := by
  refine symbol?_congr fun s => ⟨fun hpre => ?_, fun hpre => hpre.trans (List.prefix_append cs rest)⟩
  rcases prefix_append_cases hpre with hcs | ⟨c, more, hhead, heq⟩
  · exact hcs
  · have hmem : c ∈ s.spelling.toList := by
      rw [heq]
      exact List.mem_append_right cs List.mem_cons_self
    exact absurd hmem (divider_not_mem_spelling s c (h c hhead))

end

/-! ### Strings on a line -/

theorem length_of_codePointEscape? {cs : List Char} {c : Char} {n : Nat} (hc : codePointEscape? cs = some (c, n)) :
    n ≤ cs.length := by
  unfold codePointEscape? at hc
  split at hc
  · next ds =>
    dsimp only at hc
    split at hc
    · next hclosed =>
      obtain ⟨_, -, heq⟩ := Option.map_eq_some_iff.mp hc
      obtain ⟨-, rfl⟩ := Prod.mk.inj heq
      obtain ⟨rest, hrest⟩ := List.head?_eq_some_iff.mp hclosed.2.2
      have hlen := congrArg List.length hrest
      simp only [List.length_drop, List.length_cons] at hlen ⊢
      omega
    · cases hc
  · cases hc

theorem length_of_byteEscape? {cs : List Char} {c : Char} {n : Nat} (hc : byteEscape? cs = some (c, n)) :
    n ≤ cs.length := by
  unfold byteEscape? at hc
  split at hc
  · split at hc
    · obtain ⟨_, -, heq⟩ := Option.map_eq_some_iff.mp hc
      obtain ⟨-, rfl⟩ := Prod.mk.inj heq
      simp
    · cases hc
  · cases hc

theorem length_of_escape? {cs out : List Char} {n : Nat} (hc : escape? cs = some (out, n)) : n ≤ cs.length := by
  unfold escape? at hc
  split at hc
  · next c m hlong =>
    obtain ⟨-, rfl⟩ := Prod.mk.inj (Option.some.inj hc)
    rcases (Option.orElse_eq_some ..).mp hlong with hlong | ⟨-, hlong⟩
    · exact length_of_codePointEscape? hlong
    · exact length_of_byteEscape? hlong
  · split at hc
    · cases hc
    · split at hc
      · obtain ⟨-, rfl⟩ := Prod.mk.inj (Option.some.inj hc)
        simp
      · split at hc
        · cases hc
        · obtain ⟨-, rfl⟩ := Prod.mk.inj (Option.some.inj hc)
          simp

section
variable {rest : List Char} (h : EndsLine rest)
include h

/-- A string that has not ended with its line does not end. -/
theorem stringBody?_rest : stringBody? 0 rest = none := by
  cases h <;> simp [stringBody?]

theorem stringBody?_line {skip : Nat} {cs : List Char} (hskip : skip ≤ cs.length) :
    stringBody? skip (cs ++ rest) = stringBody? skip cs := by
  induction cs generalizing skip with
  | nil =>
    obtain rfl := Nat.le_zero.mp hskip
    exact stringBody?_rest h
  | cons c cs ih =>
    cases skip with
    | succ skip =>
      rw [List.cons_append, stringBody?, stringBody?, ih (Nat.le_of_succ_le_succ hskip)]
    | zero =>
      rw [List.cons_append, stringBody?, stringBody?]
      split
      · rfl
      split
      · rfl
      split
      · cases cs with
        | nil =>
          -- The backslash at the end of a line takes at most a carriage return, and the line feed ends it all.
          cases h <;> simp [escape?, codePointEscape?, byteEscape?, shortEscape?, stringBody?]
        | cons d cs =>
          rw [escape?_divided h.divides (List.cons_ne_nil d cs)]
          cases hescape : escape? (d :: cs) with
          | none => rfl
          | some r =>
            obtain ⟨out, size⟩ := r
            have hbody := ih (length_of_escape? hescape)
            rw [List.cons_append] at hbody
            simp only [List.cons_append, hbody]
      · rw [ih (Nat.zero_le _)]

theorem string?_line (cs : List Char) : string? (cs ++ rest) = string? cs := by
  cases cs with
  | nil => cases h <;> rfl
  | cons c cs =>
    by_cases hc : c = '"'
    · subst hc
      rw [List.cons_append, string?, string?, stringBody?_line h (Nat.zero_le _)]
    · simp [string?, hc]

/-- Whatever stands behind a line, its lexemes are the same. -/
theorem scan?_line (cs : List Char) : scan? (cs ++ rest) = scan? cs := by
  rw [scan?, scan?, number?_divided h.divides, string?_line h, symbol?_divided h.divides, word?, word?,
    wordRun_divided h.divides]

end

/-! ### The characters of a lexeme -/

section
variable {cs : List Char} {x : Lexeme} {n : Nat}

theorem length_of_word? (h : word? cs = some (x, n)) : n ≤ cs.length := by
  simp only [word?] at h
  split at h
  · cases h
  · obtain ⟨-, rfl⟩ := Prod.mk.inj (Option.some.inj h)
    have hsplit := congrArg List.length (wordRun_append_drop cs)
    rw [List.length_append] at hsplit
    omega

theorem length_of_exponent? {e : Int} (h : exponent? cs = some (e, n)) : n ≤ cs.length := by
  cases cs with
  | nil => cases h
  | cons c cs =>
    have hbody {sign : Int} {m : Nat} {ds : List Char} (hds : m + ds.length = cs.length)
        (h : (if (digitRun ds).isEmpty then none
          else some (sign * digitsValue 0 (digitRun ds), 1 + m + (digitRun ds).length)) = some (e, n)) :
        n ≤ cs.length + 1 := by
      split at h
      · cases h
      · obtain ⟨-, rfl⟩ := Prod.mk.inj (Option.some.inj h)
        have := length_digitRun_le ds
        omega
    simp only [exponent?] at h
    split at h
    · split at h
      · exact hbody (Nat.add_comm ..) h
      · exact hbody (Nat.add_comm ..) h
      · exact hbody (Nat.zero_add _) h
    · cases h

theorem length_of_number? (h : number? cs = some (x, n)) : n ≤ cs.length := by
  have hsize := mantissaLength_le cs
  rw [number?_eq] at h
  split at h
  · cases h
  · split at h
    · next hexp =>
      obtain ⟨-, rfl⟩ := Prod.mk.inj (Option.some.inj h)
      have := length_of_exponent? hexp
      rw [List.length_drop] at this
      omega
    · obtain ⟨-, rfl⟩ := Prod.mk.inj (Option.some.inj h)
      exact hsize
    · obtain ⟨-, rfl⟩ := Prod.mk.inj (Option.some.inj h)
      exact hsize

theorem length_of_stringBody? {skip : Nat} {out : List Char} (h : stringBody? skip cs = some (out, n)) :
    n ≤ cs.length := by
  induction cs generalizing skip out n with
  | nil => cases skip <;> cases h
  | cons c cs ih =>
    have hmore {skip : Nat} {f : List Char → List Char}
        (h : ((stringBody? skip cs).map fun p => (f p.1, p.2 + 1)) = some (out, n)) : n ≤ cs.length + 1 := by
      obtain ⟨⟨s, k⟩, hs, heq⟩ := Option.map_eq_some_iff.mp h
      obtain ⟨-, rfl⟩ := Prod.mk.inj heq
      exact Nat.succ_le_succ (ih hs)
    cases skip with
    | succ skip => exact hmore (f := fun s => s) h
    | zero =>
      rw [stringBody?] at h
      split at h
      · obtain ⟨-, rfl⟩ := Prod.mk.inj (Option.some.inj h)
        exact Nat.le_add_left ..
      split at h
      · cases h
      split at h
      · split at h
        · cases h
        · exact hmore h
      · exact hmore h

theorem length_of_string? (h : string? cs = some (x, n)) : n ≤ cs.length := by
  unfold string? at h
  split at h
  · obtain ⟨⟨s, k⟩, hs, heq⟩ := Option.map_eq_some_iff.mp h
    obtain ⟨-, rfl⟩ := Prod.mk.inj heq
    exact Nat.succ_le_succ (length_of_stringBody? hs)
  · cases h

theorem length_of_symbol? (h : symbol? cs = some (x, n)) : n ≤ cs.length := by
  obtain ⟨s, hs, -, rfl⟩ := symbol?_eq_some_iff.mp h
  exact hs.pre.length_le

theorem length_of_scan? (h : scan? cs = some (x, n)) : n ≤ cs.length := by
  simp only [scan?, Option.orElse_eq_some] at h
  rcases h with h | ⟨-, h | ⟨-, h | ⟨-, h⟩⟩⟩
  · exact length_of_word? h
  · exact length_of_number? h
  · exact length_of_string? h
  · exact length_of_symbol? h

end

end Lexeme

/-- The first line of a text, and what stands behind it. -/
theorem exists_line (cs : List Char) :
    ∃ line rest, cs = line ++ rest ∧ '\n' ∉ line ∧ (rest = [] ∨ ∃ more, rest = '\n' :: more) := by
  induction cs with
  | nil => exact ⟨[], [], rfl, by simp, .inl rfl⟩
  | cons c cs ih =>
    by_cases hc : c = '\n'
    · exact ⟨[], c :: cs, rfl, by simp, .inr ⟨cs, by rw [hc]⟩⟩
    · obtain ⟨line, rest, rfl, hline, hrest⟩ := ih
      exact ⟨c :: line, rest, rfl, by simp [Ne.symm hc, hline], hrest⟩

/-- A lexeme has no line feed. -/
theorem lineFeed_not_mem_scan {cs : List Char} {x : Lexeme} {n : Nat} (h : Lexeme.scan? cs = some (x, n)) :
    '\n' ∉ cs.take n := by
  obtain ⟨line, rest, rfl, hline, hrest⟩ := exists_line cs
  have hends : EndsLine rest := by
    rcases hrest with rfl | ⟨more, rfl⟩
    · exact .text
    · exact .lineFeed more
  rw [Lexeme.scan?_line hends] at h
  rw [List.take_append_of_le_length (Lexeme.length_of_scan? h)]
  exact fun hmem => hline (List.mem_of_mem_take hmem)

/-! ### What the first unread character decides -/

namespace Lexer
variable {l : Lexer}

theorem significant_nil (h : l.rest = []) :
    l.significant = (.ok { kind := .endMarker, span := l.spanOf 0 }, { l with finished := true }) := by
  rw [significant, h]

theorem significant_break (h : lineBreakRun l.rest ≠ []) :
    l.significant = (.ok { kind := .newline, span := l.spanOf (lineBreakRun l.rest).length },
      { l.advance (lineBreakRun l.rest).length with lineStart := true }) := by
  cases hrest : l.rest with
  | nil => exact absurd (by rw [hrest]; rfl) h
  | cons c cs =>
    rw [hrest] at h
    rw [significant, hrest]
    exact if_pos (List.length_pos_iff.mpr h)

theorem significant_lexeme {c : Char} {cs : List Char} (hrest : l.rest = c :: cs) (h : lineBreakRun (c :: cs) = []) :
    l.significant = l.lexeme c := by
  rw [significant, hrest]
  simp only [h, List.length_nil, Nat.lt_irrefl, if_false]

/-! ### Enough fuel -/

theorem next?_significant (hfin : l.finished = false) (hi : l.indentation? = none) :
    l.next? = some l.skipGap.significant := by
  simp [next?, hfin, hi]

theorem take_finished (h : l.finished = true) (n : Nat) : l.take n = [] := by
  rw [← fst_pulls, pulls_finished h]

theorem take_next {l' : Lexer} {item : Item} (h : l.next? = some (item, l')) (n : Nat) :
    l.take (n + 1) = item :: l'.take n := by
  rw [take, h]

theorem take_of_ended {n m : Nat} (h : (l.pulls n).2.next? = none) (hle : n ≤ m) : l.take m = l.take n := by
  induction n generalizing l m with
  | zero => cases m <;> simp_all [pulls, take]
  | succ n ih =>
    cases m with
    | zero => cases hle
    | succ m =>
      cases hnext : l.next? with
      | none => simp only [take, hnext]
      | some r =>
        rw [pulls_succ hnext] at h
        simp only [take, hnext, ih h (Nat.le_of_succ_le_succ hle)]

end Lexer

/-- The tokens of a text are those of a lexer with any fuel that is enough for its characters. -/
theorem take_eq_lex (dialect : Dialect) {source : String} {n : Nat} (hn : source.toList.length < n) :
    (Lexer.new dialect source).take n = lex dialect source := by
  obtain ⟨-, hend⟩ :=
    Lexer.tiled_pulls (Lexer.follows_new dialect source) rfl (Nat.lt_succ_self (Lexer.new dialect source).rest.length)
  exact Lexer.take_of_ended hend hn

end Offside

import Offside.Proofs.LexemeLine
import Offside.Proofs.LongestBeginning

/-! # The longest lexeme

Which texts are lexemes, as regular expressions say it, and that the recognizers, for all their alternatives, take
the longest lexeme that a text begins with, and none only if it begins with none. -/

namespace Offside.Munch

open Computability Lexeme

/-! ### Languages of lexemes -/

/-- `[a-zA-Z_]` -/
def letters : Set Char := {c | 'a' ≤ c ∧ c ≤ 'z' ∨ 'A' ≤ c ∧ c ≤ 'Z' ∨ c = '_'}

/-- `[0-9]` -/
def digits : Set Char := {c | '0' ≤ c ∧ c ≤ '9'}

/-- `[a-zA-Z_][a-zA-Z_0-9]*` -/
def words : Language Char := oneOf letters * (oneOf (letters ∪ digits))∗

/-- `[0-9]+` -/
def integers : Language Char := oneOf digits * (oneOf digits)∗

/-- `[eE][+-]?[0-9]+` -/
def exponents : Language Char := oneOf {'e', 'E'} * (1 + oneOf {'+', '-'}) * integers

/-- Digits, a point, digits and perhaps an exponent, or digits and an exponent. -/
def floats : Language Char := integers * oneOf {'.'} * integers * (1 + exponents) + integers * exponents

/-- `"([^"\\\n]|\\[^\n])*"` -/
def strings : Language Char :=
  oneOf {'"'} * (oneOf {'"', '\\', '\n'}ᶜ + oneOf {'\\'} * oneOf {'\n'}ᶜ)∗ * oneOf {'"'}

/-- The spellings of operators and delimiters. -/
def symbols : Language Char := {w | ∃ s : Symbol, w = s.spelling.toList}

def lexemes : Language Char := words + (integers + floats) + strings + symbols

theorem isUpper_iff (c : Char) : c.isUpper = true ↔ 'A' ≤ c ∧ c ≤ 'Z' := decide_eq_true_iff

theorem isLower_iff (c : Char) : c.isLower = true ↔ 'a' ≤ c ∧ c ≤ 'z' :=
  (Bool.and_eq_true _ _).to_iff.trans (and_congr decide_eq_true_iff decide_eq_true_iff)

theorem isWordStart_iff (c : Char) : isWordStart c = true ↔ c ∈ letters := by
  show (c.isUpper || c.isLower || c == '_') = true ↔ _
  rw [Bool.or_eq_true, Bool.or_eq_true, isUpper_iff, isLower_iff, beq_iff_eq, or_assoc, or_left_comm]
  rfl

theorem isDigit_iff (c : Char) : c.isDigit = true ↔ c ∈ digits := by
  simp [digits, Char.isDigit, Char.le_def]

theorem isWordChar_iff (c : Char) : isWordChar c = true ↔ c ∈ letters ∪ digits := by
  rw [Set.mem_union, ← isWordStart_iff, ← isDigit_iff]
  simp [isWordStart, isWordChar, Char.isAlphanum]
  tauto

variable {L M : Language Char} {s t : Set Char} {cs w : List Char} {c : Char} {o : Option Nat}

/-! ### Answers of recognizers -/

/-- A lexeme and the characters it stands for. -/
inductive Stands : List Char → Lexeme → Prop
  | word {w : List Char} : w ∈ words → Stands w (.word (String.ofList w))
  | integer {w : List Char} : w ∈ integers → Stands w (.integer w)
  | float {w : List Char} {value : Decimal} : w ∈ floats → Stands w (.float value)
  | string {w : List Char} {text : String} : w ∈ strings → Stands w (.string text)
  | symbol (s : Symbol) : Stands s.spelling.toList (.symbol s)

/-- An answer is the longest beginning of a text that is in a language, as the lexeme that it stands for. -/
inductive Reads (L : Language Char) (cs : List Char) : Option (Lexeme × Nat) → Prop
  | lacks : Lacks L cs → Reads L cs none
  | takes {w : List Char} {x : Lexeme} : Longest L cs w → Stands w x → Reads L cs (some (x, w.length))

variable {a b : Option (Lexeme × Nat)}

theorem Reads.exists_longest {x : Lexeme} {n : Nat} (h : Reads L cs (some (x, n))) :
    ∃ w, Longest L cs w ∧ Stands w x ∧ w.length = n := by
  cases h with
  | takes h hx => exact ⟨_, h, hx, rfl⟩

theorem Reads.of_measures (h : Measures L cs (a.map (·.2)))
    (hstands : ∀ x w, a = some (x, w.length) → Longest L cs w → Stands w x) : Reads L cs a := by
  cases a with
  | none =>
    cases h with
    | lacks h => exact .lacks h
  | some r =>
    obtain ⟨x, n⟩ := r
    rw [Option.map_some] at h
    cases h with
    | takes h => exact .takes h (hstands x _ rfl h)

theorem Reads.or (ha : Reads L cs a) (hb : Reads M cs b) (hs : Starts s L) (ht : Starts t M) (hst : Disjoint s t) :
    Reads (L + M) cs (a <|> b) := by
  cases ha with
  | takes h hx => exact .takes (h.add_left (h.lacks hs ht hst)) hx
  | lacks h =>
    cases hb with
    | lacks h' => exact .lacks (h.add h')
    | takes h' hx => exact .takes (h'.add_right h) hx

/-! ### Words -/

theorem starts_words : Starts letters words := starts_oneOf_mul _ _

theorem measures_word (cs : List Char) : Measures words cs ((word? cs).map (·.2)) := by
  cases cs with
  | nil => exact .lacks starts_words.lacks_nil
  | cons c cs =>
    by_cases hc : isWordStart c = true
    · have h : Measures words _ _ :=
        (Measures.takes (Longest.run_only isWordChar_iff cs)).oneOf_mul ((isWordStart_iff c).mp hc)
      simpa [word?, wordRun, hc] using h
    · have h := starts_words.lacks_cons (mt (isWordStart_iff c).mpr hc) cs
      simpa [word?, wordRun, hc] using Measures.lacks h

theorem reads_word (cs : List Char) : Reads words cs (word? cs) := by
  refine .of_measures (measures_word cs) fun x w hx h => ?_
  have hrun := wordRun_append_drop cs
  unfold word? at hx
  dsimp only at hx
  split at hx
  · cases hx
  · obtain ⟨rfl, hlength⟩ := Prod.mk.inj (Option.some.inj hx)
    rw [h.eq_of_length ⟨_, hrun⟩ hlength]
    exact .word h.mem

/-! ### Numbers -/

theorem starts_integers : Starts digits integers := starts_oneOf_mul _ _

theorem starts_exponents : Starts {'e', 'E'} exponents := ((starts_oneOf_mul _ _).mul _ : Starts _ _)

/-- The number of characters of a run and `n` others, if there is any run. -/
def runLength? (n : Nat) (run : List Char) : Option Nat := if run.isEmpty then none else some (n + run.length)

theorem runLength?_succ (n : Nat) (run : List Char) : (runLength? n run).map (· + 1) = runLength? (n + 1) run := by
  unfold runLength?
  split
  · rfl
  · rw [Option.map_some, Nat.add_right_comm]

theorem map_exponentOf? (sign : Int) (n : Nat) (run : List Char) :
    (exponentOf? sign n run).map (·.2) = runLength? n run := by
  unfold exponentOf? runLength?
  split <;> rfl

/-- Digits and what may follow them. -/
theorem measures_digits (hM : Starts t M) (hst : Disjoint digits t) (h : Measures M (cs.drop (digitRun cs).length) o) :
    Measures (integers * (1 + M)) cs (runLength? (o.getD 0) (digitRun cs)) := by
  cases cs with
  | nil => exact .lacks (starts_integers.mul _).lacks_nil
  | cons c cs =>
    by_cases hc : c.isDigit = true
    · have hrun : digitRun (c :: cs) = c :: digitRun cs := List.takeWhile_cons_of_pos hc
      rw [hrun] at h ⊢
      obtain ⟨w, hw, hlength⟩ := h.optional
      have hlong := (Measures.takes (Longest.run isDigit_iff hM hst hw)).oneOf_mul ((isDigit_iff c).mp hc)
      rw [← mul_assoc, Option.map_some, List.length_append, hlength, Nat.add_comm _ (o.getD 0)] at hlong
      exact hlong
    · have hrun : digitRun (c :: cs) = [] := List.takeWhile_cons_of_neg hc
      rw [hrun]
      exact .lacks ((starts_integers.mul _).lacks_cons (mt (isDigit_iff c).mpr hc) cs)

theorem measures_integer (cs : List Char) : Measures integers cs (runLength? 0 (digitRun cs)) := by
  have h : Measures (integers * (1 + 0)) cs _ :=
    measures_digits (starts_zero ∅) (Set.disjoint_empty _) (.lacks fun _ _ => id)
  rwa [add_zero, mul_one] at h

theorem disjoint_digits (h : ∀ c ∈ s, c.isDigit = false) : Disjoint digits s :=
  Set.disjoint_right.mpr fun c hc hdigit => Bool.false_ne_true ((h c hc).symm.trans ((isDigit_iff c).mpr hdigit))

/-- Digits behind a sign or without one. -/
theorem measures_signed (cs : List Char) : Measures ((1 + oneOf {'+', '-'}) * integers) cs
    (runLength? (signLength cs) (digitRun (cs.drop (signLength cs)))) := by
  rw [add_mul, one_mul]
  have hsigned : Starts {'+', '-'} (oneOf {'+', '-'} * integers) := starts_oneOf_mul _ _
  have hdisjoint : Disjoint digits {'+', '-'} := disjoint_digits (by rintro c (rfl | rfl) <;> rfl)
  by_cases hsign : cs.head? = some '+' ∨ cs.head? = some '-'
  · obtain ⟨c, hc, rest, rfl⟩ : ∃ c ∈ ({'+', '-'} : Set Char), ∃ rest, cs = c :: rest := by
      rcases hsign with h | h
      · exact ⟨'+', .inl rfl, List.head?_eq_some_iff.mp h⟩
      · exact ⟨'-', .inr rfl, List.head?_eq_some_iff.mp h⟩
    have hlacks := starts_integers.lacks_cons (Set.disjoint_right.mp hdisjoint hc) rest
    have h := (Measures.lacks hlacks).or ((measures_integer rest).oneOf_mul hc) starts_integers hsigned hdisjoint
    rw [Option.orElse_eq_orElse, runLength?_succ] at h
    rwa [signLength, if_pos hsign]
  · have hlacks : Lacks (oneOf {'+', '-'} * integers) cs := by
      cases cs with
      | nil => exact hsigned.lacks_nil
      | cons c rest => exact hsigned.lacks_cons (by simpa using hsign) rest
    have h := (measures_integer cs).or (Measures.lacks hlacks) starts_integers hsigned hdisjoint
    rw [signLength, if_neg hsign]
    simpa using h

theorem measures_exponent (cs : List Char) : Measures exponents cs ((exponent? cs).map (·.2)) := by
  cases cs with
  | nil => exact .lacks starts_exponents.lacks_nil
  | cons c cs =>
    rw [exponent?_cons]
    by_cases hc : c ∈ ({'e', 'E'} : Set Char)
    · have hbool : (c == 'e' || c == 'E') = true := by simpa using hc
      have h : Measures exponents (c :: cs) _ := mul_assoc (oneOf {'e', 'E'}) _ _ ▸ (measures_signed cs).oneOf_mul hc
      rwa [if_pos hbool, map_exponentOf?, Nat.add_comm, ← runLength?_succ]
    · have hbool : ¬(c == 'e' || c == 'E') = true := by simpa using hc
      rw [if_neg hbool]
      exact .lacks (starts_exponents.lacks_cons hc cs)

/-- What may follow the digits of a number. -/
def numberTails : Language Char := oneOf {'.'} * (integers * (1 + exponents)) + exponents

theorem starts_numberTails : Starts {'.', 'e', 'E'} numberTails := by
  have h : Starts ({'.'} ∪ {'e', 'E'}) numberTails := (starts_oneOf_mul _ _).add starts_exponents
  exact h

theorem floats_eq : floats = integers * numberTails := by
  simp only [floats, numberTails, mul_add, mul_assoc]

theorem numbers_eq : integers + floats = integers * (1 + numberTails) := by rw [floats_eq, mul_one_add]

/-- The number of characters of the exponent at the start of a text. -/
def exponentLength? (cs : List Char) : Option Nat := (exponent? cs).map (·.2)

/-- The number of characters of a point, digits and what may follow them. -/
def fractionLength? (cs : List Char) : Option Nat :=
  runLength? ((exponentLength? (cs.drop ((fractionRun cs).length + 1))).getD 0 + 1) (fractionRun cs)

theorem measures_fraction (cs : List Char) :
    Measures (oneOf {'.'} * (integers * (1 + exponents))) cs (fractionLength? cs) := by
  have hstarts : Starts {'.'} (oneOf {'.'} * (integers * (1 + exponents))) := starts_oneOf_mul _ _
  cases cs with
  | nil => exact .lacks hstarts.lacks_nil
  | cons c cs =>
    by_cases hc : c = '.'
    · subst hc
      have hdisjoint : Disjoint digits {'e', 'E'} := disjoint_digits (by rintro c (rfl | rfl) <;> rfl)
      have hdigits : Measures _ cs _ := measures_digits starts_exponents hdisjoint (measures_exponent _)
      have h := hdigits.oneOf_mul (Set.mem_singleton '.')
      rwa [runLength?_succ] at h
    · rw [fractionLength?, fractionRun_cons hc]
      exact .lacks (hstarts.lacks_cons hc cs)

theorem measures_numberTail (cs : List Char) :
    Measures numberTails cs (fractionLength? cs <|> exponentLength? cs) := by
  have hdisjoint : Disjoint {'.'} ({'e', 'E'} : Set Char) := by simp
  exact (measures_fraction cs).or (measures_exponent cs) (starts_oneOf_mul _ _) starts_exponents hdisjoint

/-- The number of characters behind the first digits of a number. -/
def tailLength? (cs : List Char) : Option Nat :=
  fractionLength? (cs.drop (digitRun cs).length) <|> exponentLength? (cs.drop (digitRun cs).length)

/-- A number by what follows its first digits: with nothing it is an integer. -/
theorem number?_tail (hne : (digitRun cs).isEmpty = false) :
    (tailLength? cs = none ∧ number? cs = some (.integer (digitRun cs), (digitRun cs).length)) ∨
      ∃ m value, tailLength? cs = some m ∧ number? cs = some (.float value, (digitRun cs).length + m) := by
  have hdrop : cs.drop (mantissaLength cs) = (cs.drop (digitRun cs).length).drop
      (if (fractionOf cs).isEmpty then 0 else (fractionOf cs).length + 1) := (List.drop_drop ..).symm
  rw [number?_eq, hne, if_neg Bool.false_ne_true, hdrop, mantissaLength, tailLength?, fractionLength?, exponentLength?,
    exponentLength?, runLength?, ← fractionOf]
  cases fractionOf cs with
  | nil =>
    simp only [List.isEmpty_nil, if_true, List.drop_zero]
    cases exponent? (cs.drop (digitRun cs).length) with
    | none => exact Or.inl ⟨rfl, rfl⟩
    | some r => exact Or.inr ⟨r.2, _, rfl, rfl⟩
  | cons c fraction =>
    simp only [List.isEmpty_cons, Bool.false_eq_true, if_false]
    right
    cases exponent? ((cs.drop (digitRun cs).length).drop ((c :: fraction).length + 1)) with
    | none =>
      refine ⟨_, .ofDigits (digitRun cs) (c :: fraction) 0, rfl, congrArg (fun n => some (_, n)) ?_⟩
      simp only [Option.map_none, Option.getD_none]
      omega
    | some r =>
      refine ⟨_, .ofDigits (digitRun cs) (c :: fraction) r.1, rfl, congrArg (fun n => some (_, n)) ?_⟩
      simp only [Option.map_some, Option.getD_some]
      omega

theorem disjoint_digits_tails : Disjoint digits {'.', 'e', 'E'} :=
  disjoint_digits (by rintro c (rfl | rfl | rfl) <;> rfl)

theorem measures_number (cs : List Char) :
    Measures (integers + floats) cs (runLength? ((tailLength? cs).getD 0) (digitRun cs)) := by
  rw [numbers_eq]
  exact measures_digits starts_numberTails disjoint_digits_tails (measures_numberTail _)

theorem digitRun_mem_integers (hne : (digitRun cs).isEmpty = false) : digitRun cs ∈ integers := by
  have h := measures_integer cs
  rw [runLength?, hne, if_neg Bool.false_ne_true, Nat.zero_add] at h
  obtain ⟨w, hw, hlength⟩ := h.exists_longest
  have heq : digitRun cs = w := hw.eq_of_length (List.takeWhile_prefix _) hlength.symm
  exact heq ▸ hw.mem

theorem reads_number (cs : List Char) : Reads (integers + floats) cs (number? cs) := by
  have hmeasures := measures_number cs
  by_cases hempty : (digitRun cs).isEmpty = true
  · rw [runLength?, if_pos hempty] at hmeasures
    rw [number?_eq, if_pos hempty]
    exact .of_measures hmeasures nofun
  have hne := eq_false_of_ne_true hempty
  have hrun : digitRun cs <+: cs := List.takeWhile_prefix _
  rw [runLength?, if_neg hempty] at hmeasures
  obtain ⟨htail, hnumber⟩ | ⟨m, value, htail, hnumber⟩ := number?_tail hne
  · rw [htail, Option.getD_none, Nat.zero_add] at hmeasures
    rw [hnumber]
    refine .of_measures hmeasures fun x w hx h => ?_
    obtain ⟨rfl, hlength⟩ := Prod.mk.inj (Option.some.inj hx)
    rw [h.eq_of_length hrun hlength]
    exact .integer (h.eq_of_length hrun hlength ▸ digitRun_mem_integers hne)
  · rw [htail, Option.getD_some, Nat.add_comm] at hmeasures
    rw [hnumber]
    refine .of_measures hmeasures fun x w hx h => ?_
    obtain ⟨rfl, hlength⟩ := Prod.mk.inj (Option.some.inj hx)
    have htails := measures_numberTail (cs.drop (digitRun cs).length)
    rw [← tailLength?, htail] at htails
    obtain ⟨v, hv, rfl⟩ := htails.exists_longest
    have hpre : digitRun cs ++ v <+: digitRun cs ++ cs.drop (digitRun cs).length :=
      (List.prefix_append_right_inj _).mpr hv.pre
    rw [List.prefix_iff_eq_append.mp hrun] at hpre
    have hw := h.eq_of_length hpre (by rw [List.length_append, hlength])
    refine .float ?_
    rw [floats_eq, ← hw]
    exact Language.append_mem_mul (digitRun_mem_integers hne) hv.mem

/-! ### Strings -/

/-- The characters that stand for themselves between quotes. -/
def plainChars : Set Char := {'"', '\\', '\n'}ᶜ

/-- What may stand behind the first quote of a string. -/
def stringBodies : Language Char := (oneOf plainChars + oneOf {'\\'} * oneOf {'\n'}ᶜ)∗ * oneOf {'"'}

theorem strings_eq : strings = oneOf {'"'} * stringBodies := mul_assoc _ _ _

theorem starts_strings : Starts {'"'} strings := strings_eq ▸ starts_oneOf_mul _ _

theorem stringBodies_eq : stringBodies = oneOf {'"'} * 1 +
    (oneOf plainChars * stringBodies + oneOf {'\\'} * (oneOf {'\n'}ᶜ * stringBodies)) := by
  rw [← mul_assoc, ← add_mul, mul_one]
  exact star_mul_eq _ _

theorem nil_not_mem_stringBodies : [] ∉ stringBodies := by
  rw [stringBodies_eq]
  rintro (h | h | h) <;> exact nil_not_mem_oneOf_mul h

theorem cons_mem_stringBodies : c :: w ∈ stringBodies ↔
    c = '"' ∧ w = [] ∨ c ∈ plainChars ∧ w ∈ stringBodies ∨ c = '\\' ∧ w ∈ oneOf {'\n'}ᶜ * stringBodies := by
  rw [stringBodies_eq, Language.mem_add, Language.mem_add, cons_mem_oneOf_mul, cons_mem_oneOf_mul, cons_mem_oneOf_mul,
    ← stringBodies_eq]
  rfl

theorem Measures.plain (hc : c ∈ plainChars) (h : Measures stringBodies cs o) :
    Measures stringBodies (c :: cs) (o.map (· + 1)) := by
  obtain ⟨hquote, hslash, -⟩ : c ≠ '"' ∧ c ≠ '\\' ∧ c ≠ '\n' := by simpa [plainChars] using hc
  refine h.cons nil_not_mem_stringBodies fun w => ?_
  rw [cons_mem_stringBodies]
  simp [hc, hquote, hslash]

theorem Measures.plains {pre : List Char} (hpre : ∀ c ∈ pre, c ∈ plainChars) (h : Measures stringBodies cs o) :
    Measures stringBodies (pre ++ cs) (o.map (· + pre.length)) := by
  induction pre with
  | nil => simpa using h
  | cons c pre ih =>
    obtain ⟨hc, hpre⟩ := List.forall_mem_cons.mp hpre
    have hcons := (ih hpre).plain hc
    rwa [Option.map_map] at hcons

theorem backslash_mem_stringBodies : '\\' :: w ∈ stringBodies ↔ w ∈ oneOf {'\n'}ᶜ * stringBodies := by
  rw [cons_mem_stringBodies]
  simp [plainChars]

theorem Measures.escaped (hc : c ≠ '\n') (h : Measures stringBodies cs o) :
    Measures stringBodies ('\\' :: c :: cs) (o.map (· + 2)) := by
  have hbehind := h.oneOf_mul (s := {'\n'}ᶜ) hc
  have hcons := hbehind.cons nil_not_mem_stringBodies fun w => backslash_mem_stringBodies
  rwa [Option.map_map] at hcons

theorem longest_quote (cs : List Char) : Longest stringBodies ('"' :: cs) ['"'] := by
  have hcons (w : List Char) : '"' :: w ∈ stringBodies ↔ w ∈ (1 : Language Char) := by
    rw [cons_mem_stringBodies]
    simp [plainChars]
  have hempty : Longest 1 cs [] := ⟨List.nil_prefix, rfl, fun v _ hv => by rw [(Language.mem_one v).mp hv]⟩
  exact hempty.cons hcons

theorem lacks_feed (cs : List Char) : Lacks stringBodies ('\n' :: cs) := by
  have hcons (w : List Char) : '\n' :: w ∈ stringBodies ↔ w ∈ (0 : Language Char) := by
    rw [cons_mem_stringBodies]
    simp [plainChars]
  exact Lacks.cons nil_not_mem_stringBodies hcons fun _ _ => id

/-- Behind a backslash that escapes nothing, no string goes on. -/
theorem lacks_backslash (h : ∀ c ∈ cs.head?, c = '\n') : Lacks stringBodies ('\\' :: cs) := by
  refine Lacks.cons nil_not_mem_stringBodies (fun w => backslash_mem_stringBodies) ?_
  cases cs with
  | nil => exact (starts_oneOf_mul _ _).lacks_nil
  | cons c cs => exact (starts_oneOf_mul _ _).lacks_cons (by simp [h c rfl]) cs

/-! ### Escapes -/

theorem plain_of_hexValue? (h : (hexValue? c).isSome = true) : c ∈ plainChars := by
  rintro (rfl | rfl | rfl) <;> exact absurd h (by decide)

theorem exists_of_codePointEscape? {n : Nat} {d : Char} (h : codePointEscape? cs = some (d, n)) : ∃ ds rest,
    cs = 'u' :: '\x7b' :: (ds ++ '\x7d' :: rest) ∧ (∀ d ∈ ds, (hexValue? d).isSome = true) ∧ n = ds.length + 3 := by
  unfold codePointEscape? at h
  split at h
  · next rest =>
    dsimp only at h
    split at h
    · next hclosed =>
      obtain ⟨_, -, heq⟩ := Option.map_eq_some_iff.mp h
      obtain ⟨rest', hrest⟩ := List.head?_eq_some_iff.mp hclosed.2.2
      have hdigits : ∀ d ∈ rest.takeWhile fun c => (hexValue? c).isSome, (hexValue? d).isSome = true :=
        fun d hd => List.mem_takeWhile_imp (p := fun c => (hexValue? c).isSome) hd
      refine ⟨_, rest', ?_, hdigits, (Prod.mk.inj heq).2.symm⟩
      rw [← hrest]
      exact congrArg ('u' :: '\x7b' :: ·) (List.prefix_iff_eq_append.mp (List.takeWhile_prefix _)).symm
    · cases h
  · cases h

theorem exists_of_byteEscape? {n : Nat} {d : Char} (h : byteEscape? cs = some (d, n)) : ∃ a b rest,
    cs = 'x' :: a :: b :: rest ∧ (hexValue? a).isSome = true ∧ (hexValue? b).isSome = true ∧ n = 3 := by
  unfold byteEscape? at h
  split at h
  · next a b rest =>
    split at h
    · next hhex =>
      obtain ⟨_, -, heq⟩ := Option.map_eq_some_iff.mp h
      exact ⟨a, b, rest, rfl, hhex.1, hhex.2, (Prod.mk.inj heq).2.symm⟩
    · cases h
  · cases h

/-- What an escape takes is a character and then characters that stand for themselves. -/
theorem exists_of_escape? {out : List Char} {n : Nat} (h : escape? cs = some (out, n)) :
    ∃ c pre rest, cs = c :: (pre ++ rest) ∧ c ≠ '\n' ∧ (∀ d ∈ pre, d ∈ plainChars) ∧ n = pre.length + 1 := by
  unfold escape? at h
  split at h
  · next d m hlong =>
    obtain ⟨-, rfl⟩ := Prod.mk.inj (Option.some.inj h)
    obtain hpoint | ⟨-, hbyte⟩ := (Option.orElse_eq_some ..).mp hlong
    · obtain ⟨ds, rest, rfl, hds, rfl⟩ := exists_of_codePointEscape? hpoint
      refine ⟨'u', '\x7b' :: (ds ++ ['\x7d']), rest, by simp, by decide, ?_, by simp⟩
      have hbraces : '\x7b' ∈ plainChars ∧ '\x7d' ∈ plainChars := by simp [plainChars]
      simp only [List.forall_mem_cons, List.forall_mem_append]
      exact ⟨hbraces.1, fun d hd => plain_of_hexValue? (hds d hd), hbraces.2, nofun⟩
    · obtain ⟨a, b, rest, rfl, ha, hb, rfl⟩ := exists_of_byteEscape? hbyte
      refine ⟨'x', [a, b], rest, rfl, by decide, ?_, rfl⟩
      simpa using ⟨plain_of_hexValue? ha, plain_of_hexValue? hb⟩
  · split at h
    · cases h
    · next c rest _ =>
      split at h
      · next d hshort =>
        obtain ⟨-, rfl⟩ := Prod.mk.inj (Option.some.inj h)
        refine ⟨c, [], rest, rfl, ?_, nofun, rfl⟩
        rintro rfl
        cases hshort
      · split at h
        · cases h
        · next hfeed =>
          obtain ⟨-, rfl⟩ := Prod.mk.inj (Option.some.inj h)
          exact ⟨c, [], rest, rfl, hfeed, nofun, rfl⟩

theorem head_of_escape?_eq_none (h : escape? cs = none) : ∀ c ∈ cs.head?, c = '\n' := by
  rintro c hc
  obtain ⟨rest, rfl⟩ := List.head?_eq_some_iff.mp hc
  unfold escape? at h
  split at h
  · cases h
  · dsimp only at h
    split at h
    · cases h
    · split at h
      · assumption
      · cases h

theorem measures_stringBody (cs : List Char) : Measures stringBodies cs ((stringBody? 0 cs).map (·.2)) := by
  -- An escape may take several characters at once, so the induction is on the length and not on the text.
  induction hn : cs.length using Nat.strongRecOn generalizing cs with
  | ind n ih =>
  cases cs with
  | nil => exact .lacks fun v hv hmem => nil_not_mem_stringBodies (List.prefix_nil.mp hv ▸ hmem)
  | cons c cs =>
    subst hn
    by_cases hquote : c = '"'
    · subst hquote
      exact .takes (longest_quote cs)
    by_cases hfeed : c = '\n'
    · subst hfeed
      exact .lacks (lacks_feed cs)
    by_cases hslash : c = '\\'
    · subst hslash
      cases hescape : escape? cs with
      | none =>
        have hnone : stringBody? 0 ('\\' :: cs) = none := by simp [stringBody?, hescape]
        rw [hnone]
        exact .lacks (lacks_backslash (head_of_escape?_eq_none hescape))
      | some r =>
        obtain ⟨out, size⟩ := r
        obtain ⟨d, pre, rest, rfl, hd, hpre, rfl⟩ := exists_of_escape? hescape
        have hbody := stringBody?_backslash (d :: pre) rest hescape
        have hlong := ((ih rest.length (by simp; omega) rest rfl).plains hpre).escaped hd
        rw [List.cons_append] at hbody
        rw [hbody]
        rw [Option.map_map, Option.map_map] at hlong
        rw [Option.map_map]
        exact hlong
    · have hc : c ∈ plainChars := by simp [plainChars, hquote, hslash, hfeed]
      have hplain := (ih cs.length (Nat.lt_succ_self _) cs rfl).plain hc
      rw [Option.map_map] at hplain
      simp only [stringBody?, hquote, hfeed, hslash, if_false, Option.map_map]
      exact hplain

theorem measures_string (cs : List Char) : Measures strings cs ((string? cs).map (·.2)) := by
  cases cs with
  | nil => exact .lacks starts_strings.lacks_nil
  | cons c cs =>
    by_cases hc : c = '"'
    · subst hc
      have h := (measures_stringBody cs).oneOf_mul (Set.mem_singleton '"')
      rw [← strings_eq, Option.map_map] at h
      rw [string?, Option.map_map]
      exact h
    · have hnone : string? (c :: cs) = none := by simp [string?, hc]
      rw [hnone]
      exact .lacks (starts_strings.lacks_cons hc cs)

theorem reads_string (cs : List Char) : Reads strings cs (string? cs) := by
  refine .of_measures (measures_string cs) fun x w hx h => ?_
  unfold string? at hx
  split at hx
  · obtain ⟨r, -, heq⟩ := Option.map_eq_some_iff.mp hx
    obtain ⟨rfl, -⟩ := Prod.mk.inj heq
    exact .string h.mem
  · cases hx

/-! ### Symbols -/

theorem reads_symbol (cs : List Char) : Reads symbols cs (symbol? cs) := by
  cases h : symbol? cs with
  | none =>
    refine .lacks ?_
    rintro _ hv ⟨s, rfl⟩
    exact symbol?_eq_none_iff.mp h s hv
  | some r =>
    obtain ⟨s, hs, hx, hn⟩ := symbol?_eq_some_iff.mp h
    have hlong : Longest symbols cs s.spelling.toList := by
      refine ⟨hs.pre, ⟨s, rfl⟩, ?_⟩
      rintro _ hv ⟨t, rfl⟩
      exact hs.length_le t hv
    obtain rfl : r = (.symbol s, s.spelling.toList.length) := Prod.ext hx hn
    exact .takes hlong (.symbol s)

/-! ### The longest lexeme -/

/-- The characters that begin neither a word nor a number nor a string. -/
def marks : Set Char := {c | c ∉ letters ∧ c ∉ digits ∧ c ≠ '"'}

theorem starts_symbols : Starts marks symbols := by
  rintro _ ⟨s, rfl⟩
  obtain ⟨c, cs, hcons, hletter, hdigit, hquote⟩ := spelling_eq_cons s
  refine ⟨c, ⟨?_, ?_, hquote⟩, cs, hcons⟩
  · rw [← isWordStart_iff, hletter]
    exact Bool.false_ne_true
  · rw [← isDigit_iff, hdigit]
    exact Bool.false_ne_true

theorem starts_numbers : Starts digits (integers + floats) := numbers_eq ▸ starts_integers.mul _

theorem disjoint_letters_digits : Disjoint letters digits := by
  rw [Set.disjoint_left]
  intro c hletter hdigit
  have hnot := not_isWordStart_of_isDigit ((isDigit_iff c).mpr hdigit)
  exact Bool.false_ne_true (hnot.symm.trans ((isWordStart_iff c).mpr hletter))

theorem disjoint_letters_quote : Disjoint letters {'"'} := by
  rw [Set.disjoint_right]
  rintro c rfl hletter
  exact absurd ((isWordStart_iff _).mpr hletter) (by decide)

theorem disjoint_digits_quote : Disjoint digits {'"'} := disjoint_digits (by rintro c rfl; rfl)

theorem disjoint_letters_marks : Disjoint letters marks := Set.disjoint_left.mpr fun _ hc hmark => hmark.1 hc

theorem disjoint_digits_marks : Disjoint digits marks := Set.disjoint_left.mpr fun _ hc hmark => hmark.2.1 hc

theorem disjoint_quote_marks : Disjoint {'"'} marks := Set.disjoint_left.mpr fun _ hc hmark => hmark.2.2 hc

theorem reads_scan? (cs : List Char) : Reads lexemes cs (scan? cs) := by
  have hmarked := (reads_string cs).or (reads_symbol cs) starts_strings starts_symbols disjoint_quote_marks
  have hdigits := (reads_number cs).or hmarked starts_numbers (starts_strings.add starts_symbols)
    (disjoint_digits_quote.union_right disjoint_digits_marks)
  have hall := (reads_word cs).or hdigits starts_words (starts_numbers.add (starts_strings.add starts_symbols))
    (disjoint_letters_digits.union_right (disjoint_letters_quote.union_right disjoint_letters_marks))
  rw [← add_assoc, ← add_assoc] at hall
  exact hall

/-! ### Integers in the lexer -/

theorem within_integers : Within digits integers := (within_oneOf subset_rfl).mul (within_oneOf subset_rfl).star

theorem not_mem_floats (h : w ∈ integers) : w ∉ floats := by
  rw [floats_eq]
  rintro ⟨a, -, b, hb, rfl⟩
  obtain ⟨c, hc, v, rfl⟩ := starts_numberTails b hb
  have hdigit := within_integers _ h c (by simp)
  exact Set.disjoint_left.mp disjoint_digits_tails hdigit hc

/-- Digits by themselves are an integer and nothing else. -/
theorem Stands.eq_integer {x : Lexeme} (hw : w ∈ integers) (h : Stands w x) : x = .integer w := by
  cases h with
  | integer => rfl
  | word h => exact absurd h (starts_integers.not_mem starts_words disjoint_letters_digits.symm hw)
  | float h => exact absurd h (not_mem_floats hw)
  | string h => exact absurd h (starts_integers.not_mem starts_strings disjoint_digits_quote hw)
  | symbol s => exact absurd ⟨s, rfl⟩ (starts_integers.not_mem starts_symbols disjoint_digits_marks hw)

theorem scan?_integer (h : Longest lexemes cs w) (hw : w ∈ integers) : scan? cs = some (.integer w, w.length) := by
  cases hscan : scan? cs with
  | none =>
    cases hscan ▸ reads_scan? cs with
    | lacks hlacks => exact absurd h.mem (hlacks w h.pre)
  | some r =>
    obtain ⟨v, hlong, hstands, hlength⟩ := (hscan ▸ reads_scan? cs).exists_longest
    obtain rfl := h.unique hlong
    rw [← hstands.eq_integer hw, hlength]

/-- An integer as the lexer answers it: by its value, if that has at most 63 bits. -/
def integerItem (l : Lexer) (w : List Char) : Item :=
  if Nat.ofDigitChars 10 w 0 < 2 ^ 63 then
    .ok { kind := .integer (Nat.ofDigitChars 10 w 0 : Nat), span := l.spanOf w.length }
  else .error (.lex (.invalidLiteral (String.ofList w)) l.position)

theorem fst_lexeme_integer {l : Lexer} {c : Char} (h : Longest lexemes l.rest w) (hw : w ∈ integers) :
    (l.lexeme c).1 = integerItem l w := by
  have hlimit : integerLimit = 2 ^ 63 := rfl
  rw [Lexer.lexeme, scan?_integer h hw, integerItem, ← hlimit, ← digitsValue_eq]
  by_cases hvalue : digitsValue 0 w < integerLimit
  · simp only [Lexer.kindOf, hvalue, if_true]
  · simp only [Lexer.kindOf, hvalue, if_false, Lexer.fail]

theorem next?_integer {l : Lexer} (hfin : l.finished = false) (hi : l.indentation? = none)
    (h : Longest lexemes l.skipGap.rest w) (hw : w ∈ integers) :
    l.next?.map (·.1) = some (integerItem l.skipGap w) := by
  obtain ⟨c, hc, v, rfl⟩ := starts_integers w hw
  obtain ⟨rest, hrest⟩ := h.pre
  have hbreak : lineBreakRun (c :: (v ++ rest)) = [] := by
    have hfeed : c ≠ '\n' := by
      rintro rfl
      exact absurd ((isDigit_iff _).mpr hc) (by decide)
    have hreturn : c ≠ '\r' := by
      rintro rfl
      exact absurd ((isDigit_iff _).mpr hc) (by decide)
    simp [lineBreakRun, hfeed, hreturn]
  rw [Lexer.next?_significant hfin hi, Option.map_some, Lexer.significant_lexeme hrest.symm hbreak,
    fst_lexeme_integer h hw]

/-- The recognizer finds a lexeme if and only if the text begins with one, and then it takes the longest and says
    what it is. If that is an integer, the lexer answers its value, or a fault if it has more than 63 bits. -/
theorem longest_lexeme :
    (∀ cs, Reads lexemes cs (scan? cs)) ∧ ∀ (l : Lexer) (w : List Char), l.finished = false → l.indentation? = none →
      Longest lexemes l.skipGap.rest w → w ∈ integers → l.next?.map (·.1) = some (integerItem l.skipGap w) :=
  ⟨reads_scan?, fun _ _ => next?_integer⟩

/-- The least number that is too large, before what is no exponent. -/
theorem longest_lexeme_tooLarge :
    Longest lexemes "9223372036854775808e+".toList "9223372036854775808".toList ∧
      "9223372036854775808".toList ∈ integers ∧
      (Lexer.new .english "9223372036854775808e+").next?.map (·.1) =
        some (.error (.lex (.invalidLiteral "9223372036854775808") ⟨1, 0⟩)) := by
  have hscan : scan? "9223372036854775808e+".toList = some (.integer "9223372036854775808".toList, 19) := by
    decide +kernel
  obtain ⟨w, hlong, hstands, -⟩ := (hscan ▸ longest_lexeme.1 "9223372036854775808e+".toList).exists_longest
  cases hstands with
  | integer h =>
    have hanswer := longest_lexeme.2 (Lexer.new .english "9223372036854775808e+") _ rfl rfl hlong h
    exact ⟨hlong, h, hanswer⟩

end Offside.Munch

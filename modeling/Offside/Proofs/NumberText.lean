import Mathlib.Tactic.Ring
import Offside.Decimal.Style
import Offside.Token.Lexeme

/-! # Numbers read back

The text of a number literal stands for the number it was written for. For a double this comes down to
two facts: moving zeros between coefficient and exponent does not change what a decimal is read as, and the
exact decimal of a double is read as that double. -/

namespace Offside

/-! ### Digits -/

theorem digitsValue_eq (acc : Nat) (ds : List Char) : digitsValue acc ds = Nat.ofDigitChars 10 ds acc :=
  Nat.ofDigitChars_eq_foldl.symm

theorem digitsValue_append (acc : Nat) (ds es : List Char) :
    digitsValue acc (ds ++ es) = digitsValue (digitsValue acc ds) es := by
  simp only [digitsValue, List.foldl_append]

theorem digitsValue_replicate (acc k : Nat) : digitsValue acc (List.replicate k '0') = acc * 10 ^ k := by
  rw [digitsValue_eq, Nat.ofDigitChars_replicate_zero, Nat.mul_comm]

theorem digitsValue_decimalDigits (n : Nat) : digitsValue 0 (decimalDigits n) = n := by
  rw [digitsValue_eq]
  exact Nat.ofDigitChars_ten_toDigits

theorem isDigit_of_mem_decimalDigits {n : Nat} {c : Char} (h : c ∈ decimalDigits n) : c.isDigit = true :=
  Nat.isDigit_of_mem_toDigits (by decide) (by decide) h

theorem length_decimalDigits_pos (n : Nat) : 0 < (decimalDigits n).length := Nat.length_toDigits_pos

theorem lt_pow_length (n : Nat) : n < 10 ^ (decimalDigits n).length :=
  (Nat.length_toDigits_le_iff (by decide) (length_decimalDigits_pos n)).mp (Nat.le_refl _)

theorem pow_length_le {n : Nat} (hn : n ≠ 0) : 10 ^ ((decimalDigits n).length - 1) ≤ n := by
  by_cases hone : (decimalDigits n).length - 1 = 0
  · rw [hone]
    exact Nat.pos_of_ne_zero hn
  refine Nat.le_of_not_lt fun hlt => ?_
  have hle : (decimalDigits n).length ≤ (decimalDigits n).length - 1 :=
    (Nat.length_toDigits_le_iff (by decide) (Nat.pos_of_ne_zero hone)).mpr hlt
  omega

/-! ### The normal form -/

namespace Decimal

/-- Any fuel from the binary length of the coefficient on gives the same. -/
theorem stripZeros_of_log2_le {n : Nat} (hn : 0 < n) {fuel : Nat} (hfuel : n.log2 ≤ fuel) (e : Int) :
    stripZeros fuel n e = stripZeros n.log2 n e := by
  induction n using Nat.strongRecOn generalizing fuel e with
  | ind n ih =>
    by_cases hten : n % 10 = 0
    · have hpos : 0 < n / 10 := by omega
      have hlog : (n / 10).log2 < n.log2 := by
        have hself := Nat.log2_self_le (n := n / 10) (by omega)
        have hdouble : 2 ^ ((n / 10).log2 + 1) ≤ n := by
          rw [Nat.pow_succ]
          omega
        exact (Nat.le_log2 (by omega)).mpr hdouble
      obtain ⟨f, rfl⟩ : ∃ f, fuel = f + 1 := ⟨fuel - 1, by omega⟩
      obtain ⟨g, hg⟩ : ∃ g, n.log2 = g + 1 := ⟨n.log2 - 1, by omega⟩
      rw [hg]
      simp only [stripZeros, hten, if_true]
      have hlt : n / 10 < n := by omega
      have hless : (n / 10).log2 ≤ g := by omega
      rw [ih (n / 10) hlt hpos (by omega), ih (n / 10) hlt hpos hless]
    · have hstop : ∀ f, stripZeros f n e = ⟨n, e⟩ := by
        intro f
        cases f <;> simp [stripZeros, hten]
      rw [hstop, hstop]

theorem normalize_ten_mul (c : Nat) (e : Int) : normalize ⟨10 * c, e⟩ = normalize ⟨c, e + 1⟩ := by
  by_cases hc : c = 0
  · simp [normalize, hc]
  have hlog : c.log2 < (10 * c).log2 := by
    have hself := Nat.log2_self_le (n := c) hc
    refine (Nat.le_log2 (by omega)).mpr ?_
    rw [Nat.pow_succ]
    omega
  obtain ⟨f, hf⟩ : ∃ f, (10 * c).log2 = f + 1 := ⟨(10 * c).log2 - 1, by omega⟩
  have hten : 10 * c ≠ 0 := by omega
  simp only [normalize, hc, hten, if_false, hf, stripZeros, Nat.mul_mod_right, if_true]
  rw [Nat.mul_div_cancel_left c (by decide), stripZeros_of_log2_le (Nat.pos_of_ne_zero hc) (by omega)]

/-- Zeros at the end of the coefficient may as well stand in the exponent. -/
theorem normalize_mul_pow (c k : Nat) (e : Int) : normalize ⟨c * 10 ^ k, e⟩ = normalize ⟨c, e + k⟩ := by
  induction k generalizing e with
  | zero => simp
  | succ k ih =>
    have hpow : c * 10 ^ (k + 1) = 10 * (c * 10 ^ k) := by
      rw [Nat.pow_succ]
      simp only [Nat.mul_comm, Nat.mul_left_comm]
    rw [hpow, normalize_ten_mul, ih]
    congr 2
    omega

theorem exists_stripZeros (fuel n : Nat) (e : Int) :
    ∃ k : Nat, n = (stripZeros fuel n e).coeff * 10 ^ k ∧ (stripZeros fuel n e).exponent = e + k := by
  induction fuel generalizing n e with
  | zero => exact ⟨0, by simp [stripZeros]⟩
  | succ fuel ih =>
    by_cases hten : n % 10 = 0
    · simp only [stripZeros, hten, if_true]
      obtain ⟨k, hn, he⟩ := ih (n / 10) (e + 1)
      refine ⟨k + 1, ?_, by omega⟩
      rw [Nat.pow_succ, ← Nat.mul_assoc, ← hn]
      omega
    · exact ⟨0, by simp [stripZeros, hten]⟩

/-- The normal form has moved some zeros from the coefficient to the exponent. -/
theorem exists_normalize {c : Nat} (hc : c ≠ 0) (e : Int) :
    ∃ k : Nat, c = (normalize ⟨c, e⟩).coeff * 10 ^ k ∧ (normalize ⟨c, e⟩).exponent = e + k := by
  simp only [normalize, hc, if_false]
  exact exists_stripZeros _ c e

theorem normalize_normalize (d : Decimal) : d.normalize.normalize = d.normalize := by
  obtain ⟨c, e⟩ := d
  by_cases hc : c = 0
  · simp [normalize, hc]
  obtain ⟨k, hcoeff, hexp⟩ := exists_normalize hc e
  have hmove := normalize_mul_pow (normalize ⟨c, e⟩).coeff k e
  rw [← hcoeff, ← hexp] at hmove
  exact hmove.symm

end Decimal

/-! ### Doubles -/

namespace Binary64

theorem ofDecimal_normalize (d : Decimal) : ofDecimal d.normalize = ofDecimal d := by
  unfold ofDecimal
  rw [Decimal.normalize_normalize]

theorem ofDecimal_mul_pow (c k : Nat) (e : Int) : ofDecimal ⟨c * 10 ^ k, e⟩ = ofDecimal ⟨c, e + k⟩ := by
  rw [← ofDecimal_normalize, Decimal.normalize_mul_pow, ofDecimal_normalize]

theorem roundDiv_mul (q : Nat) {den : Nat} (hden : 0 < den) : roundDiv (q * den) den = q := by
  simp [roundDiv, Nat.mul_div_cancel q hden, hden]

theorem scale_add_significand (m : Nat) : scale m * leadingWeight + significand m = m := by
  have hdiv := Nat.div_add_mod m leadingWeight
  unfold scale significand
  by_cases hsmall : m < leadingWeight
  · rw [if_pos hsmall, Nat.div_eq_of_lt hsmall]
    omega
  · have hpos : 0 < m / leadingWeight := Nat.div_pos (Nat.le_of_not_lt hsmall) (by decide)
    obtain ⟨q, hq⟩ : ∃ q, m / leadingWeight = q + 1 := ⟨m / leadingWeight - 1, by omega⟩
    rw [if_neg hsmall, hq, Nat.add_sub_cancel]
    rw [hq, Nat.mul_comm, Nat.succ_mul] at hdiv
    omega

/-- What a double lies above the doubles of the least unit is its scale. -/
theorem log2_numerator (m : Nat) : (numerator m).log2 - 52 = scale m := by
  unfold numerator significand
  by_cases hsmall : m < leadingWeight
  · have hscale : scale m = 0 := by rw [scale, Nat.div_eq_of_lt hsmall]
    have hlog : m.log2 < 53 := by
      by_cases hz : m = 0
      · simp [hz]
      · exact (Nat.log2_lt hz).mpr (Nat.lt_trans hsmall (by decide))
    have hone : Nat.pow 2 0 = 1 := rfl
    rw [if_pos hsmall, hscale, hone, Nat.mul_one]
    omega
  · rw [if_neg hsmall]
    have hweight : leadingWeight = 2 ^ 52 := rfl
    have hmod : m % leadingWeight < 2 ^ 52 := Nat.mod_lt m (by decide)
    have hne : (m % leadingWeight + leadingWeight) * 2 ^ scale m ≠ 0 :=
      Nat.mul_ne_zero (by omega) (Nat.pos_iff_ne_zero.mp (Nat.two_pow_pos _))
    have hlow : 2 ^ (52 + scale m) ≤ (m % leadingWeight + leadingWeight) * 2 ^ scale m := by
      rw [Nat.pow_add]
      exact Nat.mul_le_mul_right _ (by omega)
    have hhigh : (m % leadingWeight + leadingWeight) * 2 ^ scale m < 2 ^ (53 + scale m) := by
      rw [Nat.pow_add]
      exact Nat.mul_lt_mul_of_pos_right (by omega) (Nat.two_pow_pos _)
    have hge := (Nat.le_log2 hne).mpr hlow
    have hlt := (Nat.log2_lt hne).mpr hhigh
    simp only [Nat.pow_eq]
    omega

/-- A ratio that is exactly a double is rounded to that double. -/
theorem roundRatio_numerator {m num den : Nat} (hm : m < infinityBits) (hden : 0 < den)
    (h : num * unitScale = numerator m * den) : roundRatio num den = m := by
  have hexcess : excess num den = scale m := by
    simp only [excess, h, Nat.mul_div_cancel _ hden]
    exact log2_numerator m
  have hunit : 0 < den * Nat.pow 2 (scale m) := Nat.mul_pos hden (Nat.two_pow_pos _)
  have hratio : numerator m * den = significand m * (den * Nat.pow 2 (scale m)) := by
    simp only [numerator, Nat.mul_assoc, Nat.mul_comm]
  simp only [roundRatio, hexcess, h, hratio, roundDiv_mul _ hunit, scale_add_significand]
  exact Nat.min_eq_left (Nat.le_of_lt hm)

theorem numerator_pos {m : Nat} (hm : m ≠ 0) : 0 < numerator m := by
  refine Nat.mul_pos ?_ (Nat.two_pow_pos _)
  unfold significand
  split
  · omega
  · exact Nat.add_pos_right _ (by decide)

theorem scale_le {m : Nat} (hm : m < infinityBits) : scale m ≤ 2045 := by
  have hdiv : m / leadingWeight < 0x7FF := Nat.div_lt_of_lt_mul (by rw [Nat.mul_comm]; exact hm)
  unfold scale
  omega

theorem numerator_lt {m s : Nat} (hs : scale m ≤ s) : numerator m < 2 ^ 53 * 2 ^ s := by
  have hsig : significand m < 2 ^ 53 := by
    unfold significand
    split
    · next h => exact Nat.lt_trans h (by decide)
    · have hmod := Nat.mod_lt m (show leadingWeight > 0 by decide)
      have hweight : leadingWeight = 2 ^ 52 := rfl
      omega
  calc numerator m < 2 ^ 53 * 2 ^ scale m := Nat.mul_lt_mul_of_pos_right hsig (Nat.two_pow_pos _)
    _ ≤ 2 ^ 53 * 2 ^ s := Nat.mul_le_mul_left _ (Nat.pow_le_pow_right (by decide) hs)

section
variable {m c k p s : Nat}

theorem point_low (hz : m ≠ 0) (hp : 10 ^ 750 < 5 ^ p) (h : numerator m * 5 ^ p = c * 10 ^ k) :
    750 < (decimalDigits c).length + k := by
  refine (Nat.pow_lt_pow_iff_right (a := 10) (by decide)).mp ?_
  calc 10 ^ 750 < 5 ^ p := hp
    _ ≤ numerator m * 5 ^ p := Nat.le_mul_of_pos_left _ (numerator_pos hz)
    _ = c * 10 ^ k := h
    _ < 10 ^ (decimalDigits c).length * 10 ^ k := Nat.mul_lt_mul_of_pos_right (lt_pow_length c) (Nat.pow_pos (by decide))
    _ = 10 ^ ((decimalDigits c).length + k) := (Nat.pow_add ..).symm

theorem point_high (hs : scale m ≤ s) (hc : c ≠ 0) (hp : 2 ^ 53 * 2 ^ s * 5 ^ p < 10 ^ 1383)
    (h : numerator m * 5 ^ p = c * 10 ^ k) : (decimalDigits c).length - 1 + k < 1383 := by
  refine (Nat.pow_lt_pow_iff_right (a := 10) (by decide)).mp ?_
  calc 10 ^ ((decimalDigits c).length - 1 + k) = 10 ^ ((decimalDigits c).length - 1) * 10 ^ k := Nat.pow_add ..
    _ ≤ c * 10 ^ k := Nat.mul_le_mul_right _ (pow_length_le hc)
    _ = numerator m * 5 ^ p := h.symm
    _ < 2 ^ 53 * 2 ^ s * 5 ^ p := Nat.mul_lt_mul_of_pos_right (numerator_lt hs) (Nat.pow_pos (by decide))
    _ < 10 ^ 1383 := hp

/-- The decimal with `k` zeros moved to its exponent, as a ratio, is the double. -/
theorem ratio_of_exact (hp : 10 ^ p = 5 ^ p * unitScale) (h : numerator m * 5 ^ p = c * 10 ^ k) :
    c * 10 ^ (k - p) * unitScale = numerator m * 10 ^ (p - k) := by
  have hscaled : c * 10 ^ k * unitScale = numerator m * 10 ^ p := by rw [← h, hp, Nat.mul_assoc]
  by_cases hpk : p ≤ k
  · obtain ⟨j, rfl⟩ := Nat.exists_eq_add_of_le hpk
    rw [Nat.add_sub_cancel_left, Nat.sub_eq_zero_of_le hpk]
    refine Nat.eq_of_mul_eq_mul_right (Nat.pow_pos (n := p) (show 0 < 10 by decide)) ?_
    rw [Nat.pow_zero, Nat.mul_one, ← hscaled, Nat.pow_add]
    simp only [Nat.mul_comm, Nat.mul_left_comm]
  · obtain ⟨j, rfl⟩ := Nat.exists_eq_add_of_le (Nat.le_of_not_le hpk)
    rw [Nat.add_sub_cancel_left, Nat.sub_eq_zero_of_le (Nat.le_of_not_le hpk)]
    refine Nat.eq_of_mul_eq_mul_right (Nat.pow_pos (n := k) (show 0 < 10 by decide)) ?_
    rw [Nat.pow_zero, Nat.mul_one, Nat.mul_right_comm, hscaled, Nat.pow_add]
    simp only [Nat.mul_assoc, Nat.mul_comm]

end

/-- The exact decimal of a double is read as that double. -/
theorem ofDecimal_exactDecimal {m : Nat} (hm : m < infinityBits) (hz : m ≠ 0) :
    ofDecimal (exactDecimal m) = ofMagnitude m := by
  -- the least double is above `10 ^ (-324)`, and all doubles are below `10 ^ 309`
  obtain ⟨p, hp, hunit, hleast, hmost⟩ : ∃ p, p = 1074 ∧ 10 ^ p = 5 ^ p * unitScale ∧ 10 ^ 750 < 5 ^ p ∧
      2 ^ 53 * 2 ^ 2045 * 5 ^ p < 10 ^ 1383 :=
    ⟨1074, rfl, by decide +kernel, by decide +kernel, by decide +kernel⟩
  have hne : numerator m * 5 ^ p ≠ 0 :=
    Nat.pos_iff_ne_zero.mp (Nat.mul_pos (numerator_pos hz) (Nat.pow_pos (by decide)))
  obtain ⟨k, hcoeff, hexp⟩ := Decimal.exists_normalize hne (-1074)
  have hexact : exactDecimal m = Decimal.normalize ⟨numerator m * 5 ^ p, -1074⟩ := by
    rw [exactDecimal, ← hp]
    rfl
  rw [ofDecimal, hexact, Decimal.normalize_normalize]
  generalize Decimal.normalize ⟨numerator m * 5 ^ p, -1074⟩ = d at hcoeff hexp ⊢
  obtain ⟨c, e⟩ := d
  simp only at hcoeff hexp ⊢
  have hc : c ≠ 0 := by
    rintro rfl
    exact hne (by rw [hcoeff, Nat.zero_mul])
  have hlow := point_low hz hleast hcoeff
  have hhigh := point_high (scale_le hm) hc hmost hcoeff
  have hratio := ratio_of_exact hunit hcoeff
  have hpoint : Decimal.point ⟨c, e⟩ = (decimalDigits c).length + e := rfl
  have hfine : ¬(c = 0 ∨ Decimal.point ⟨c, e⟩ < -323) := by omega
  have hfinite : ¬309 < Decimal.point ⟨c, e⟩ := by omega
  rw [if_neg hfine, if_neg hfinite]
  by_cases hwhole : 0 ≤ e
  · have hk : e.toNat = k - p := by omega
    have hone : p - k = 0 := by omega
    rw [hone, Nat.pow_zero] at hratio
    rw [if_pos hwhole, hk]
    exact congrArg ofMagnitude (roundRatio_numerator hm Nat.one_pos hratio)
  · have hk : (-e).toNat = p - k := by omega
    have hone : k - p = 0 := by omega
    rw [hone, Nat.pow_zero, Nat.mul_one] at hratio
    rw [if_neg hwhole, hk]
    exact congrArg ofMagnitude (roundRatio_numerator hm (Nat.pow_pos (by decide)) hratio)

/-- The digits that are written for a double are read as that double. -/
theorem ofDecimal_shortest {m : Nat} (hm : m < infinityBits) : ofDecimal (shortest m) = ofMagnitude m := by
  unfold shortest
  by_cases hz : m = 0
  · rw [if_pos hz, hz]
    rfl
  rw [if_neg hz]
  generalize hfound : List.findSome? _ (List.range 17) = found
  cases found with
  | none =>
    rw [Option.getD_none]
    exact ofDecimal_exactDecimal hm hz
  | some d =>
    obtain ⟨n, -, hd⟩ := List.exists_of_findSome?_eq_some hfound
    have hreads := List.find?_some hd
    rw [Option.getD_some]
    exact eq_of_beq hreads

end Binary64

/-! ### Numerals -/

/-- Digits behind a point, which is left out if there are none. -/
def pointedChars (fraction : List Char) : List Char := if fraction.isEmpty then [] else '.' :: fraction

/-- An exponent behind its mark. -/
def exponentChars : Option Int → List Char
  | none => []
  | some e => 'e' :: intChars e

/-- A numeral in its parts, the point and the mark of the exponent apart. -/
structure Numeral where
  whole : List Char
  fraction : List Char
  exponent? : Option Int
  whole_ne_nil : whole ≠ []
  digits : ∀ c ∈ whole ++ fraction, c.isDigit = true

namespace Numeral

def chars (n : Numeral) : List Char := n.whole ++ (pointedChars n.fraction ++ exponentChars n.exponent?)

def value (n : Numeral) : Decimal := .ofDigits n.whole n.fraction (n.exponent?.getD 0)

/-- A numeral without point and exponent is that of an integer. -/
def lexeme (n : Numeral) : Lexeme :=
  if n.fraction = [] ∧ n.exponent? = none then .integer n.whole else .float n.value

end Numeral

namespace Lexeme

/-- A word does not go on into the text. -/
def EndsWord (rest : List Char) : Prop := ∀ c ∈ rest.head?, isWordChar c = false

variable {rest : List Char}

theorem EndsWord.not_isDigit (h : EndsWord rest) : ∀ c ∈ rest.head?, c.isDigit = false := by
  intro c hc
  have hword := h c hc
  simp only [isWordChar, Char.isAlphanum, Bool.or_eq_false_iff] at hword
  exact hword.1.2

theorem exponent?_eq_none (h : EndsWord rest) : exponent? rest = none := by
  cases rest with
  | nil => rfl
  | cons c cs =>
    have hc := h c rfl
    have he : (c == 'e' || c == 'E') = false := by
      refine Bool.eq_false_iff.mpr fun he => ?_
      rcases Bool.or_eq_true_iff.mp he with he | he
      · rw [eq_of_beq he] at hc
        cases hc
      · rw [eq_of_beq he] at hc
        cases hc
    simp only [exponent?, he, Bool.false_eq_true, if_false]

theorem digitRun_append {ds : List Char} (hds : ∀ c ∈ ds, c.isDigit = true)
    (hrest : ∀ c ∈ rest.head?, c.isDigit = false) : digitRun (ds ++ rest) = ds := by
  have hnone : digitRun rest = [] := by
    cases rest with
    | nil => rfl
    | cons c cs => simp [digitRun, hrest c rfl]
  rw [digitRun, List.takeWhile_append_of_pos hds]
  exact (congrArg (ds ++ ·) hnone).trans (List.append_nil ds)

theorem exponent?_intChars (e : Int) (hrest : ∀ c ∈ rest.head?, c.isDigit = false) :
    exponent? ('e' :: (intChars e ++ rest)) = some (e, ('e' :: intChars e).length) := by
  have hrun (n : Nat) : digitRun (decimalDigits n ++ rest) = decimalDigits n :=
    digitRun_append (fun _ => isDigit_of_mem_decimalDigits) hrest
  have hne (n : Nat) : (decimalDigits n).isEmpty = false := by
    simpa using List.length_pos_iff.mp (length_decimalDigits_pos n)
  cases e with
  | ofNat n =>
    obtain ⟨d, ds, hds⟩ := List.exists_cons_of_length_pos (length_decimalDigits_pos n)
    have hd : d.isDigit = true := isDigit_of_mem_decimalDigits (n := n) (by rw [hds]; exact List.mem_cons_self)
    -- the first digit is no sign
    have hplus : d ≠ '+' := by
      rintro rfl
      cases hd
    have hminus : d ≠ '-' := by
      rintro rfl
      cases hd
    have hrun := hrun n
    have hvalue := digitsValue_decimalDigits n
    rw [hds, List.cons_append] at hrun
    rw [hds] at hvalue
    simp [exponent?, intChars, hds, hplus, hminus, hrun, hvalue]
    omega
  | negSucc n =>
    simp [exponent?, intChars, hrun, hne, digitsValue_decimalDigits]
    omega

theorem head_exponentChars (exponent? : Option Int) (hword : EndsWord rest) :
    ∀ c ∈ (exponentChars exponent? ++ rest).head?, c.isDigit = false := by
  cases exponent? with
  | none => exact hword.not_isDigit
  | some e =>
    intro c hc
    obtain rfl : 'e' = c := by simpa [exponentChars] using hc
    rfl

theorem head_pointedChars (fraction : List Char) (hrest : ∀ c ∈ rest.head?, c.isDigit = false) :
    ∀ c ∈ (pointedChars fraction ++ rest).head?, c.isDigit = false := by
  unfold pointedChars
  split
  · exact hrest
  · intro c hc
    obtain rfl : '.' = c := by simpa using hc
    rfl

theorem exponent?_exponentChars (exponent? : Option Int) (hword : EndsWord rest) :
    Lexeme.exponent? (exponentChars exponent? ++ rest) = exponent?.map (·, (exponentChars exponent?).length) := by
  cases exponent? with
  | none => exact exponent?_eq_none hword
  | some e => exact exponent?_intChars e hword.not_isDigit

theorem fractionRun_exponentChars (exponent? : Option Int) (hpoint : fractionRun rest = []) :
    fractionRun (exponentChars exponent? ++ rest) = [] := by
  cases exponent? with
  | none => exact hpoint
  | some e => rfl

theorem fractionRun_pointedChars {fraction : List Char} (hdigits : ∀ c ∈ fraction, c.isDigit = true)
    (hrest : ∀ c ∈ rest.head?, c.isDigit = false) (hpoint : fractionRun rest = []) :
    fractionRun (pointedChars fraction ++ rest) = fraction := by
  unfold pointedChars
  split
  · next hempty => rw [List.isEmpty_iff.mp hempty, List.nil_append, hpoint]
  · exact digitRun_append hdigits hrest

/-- A numeral is read whole in front of a text into which it does not go on. -/
theorem number?_chars (n : Numeral) (hword : EndsWord rest) (hpoint : fractionRun rest = []) :
    number? (n.chars ++ rest) = some (n.lexeme, n.chars.length) := by
  obtain ⟨whole, fraction, exponent?, hne, hdigits⟩ := n
  have hbehind := head_exponentChars exponent? hword
  have hsplit : (Numeral.mk whole fraction exponent? hne hdigits).chars ++ rest =
      whole ++ (pointedChars fraction ++ (exponentChars exponent? ++ rest)) := by
    simp only [Numeral.chars, List.append_assoc]
  have hrun : digitRun (whole ++ (pointedChars fraction ++ (exponentChars exponent? ++ rest))) = whole :=
    digitRun_append (fun c hc => hdigits c (List.mem_append_left _ hc)) (head_pointedChars fraction hbehind)
  have hfraction : fractionRun (pointedChars fraction ++ (exponentChars exponent? ++ rest)) = fraction :=
    fractionRun_pointedChars (fun c hc => hdigits c (List.mem_append_right _ hc)) hbehind
      (fractionRun_exponentChars exponent? hpoint)
  have hsize : (if fraction.isEmpty then 0 else fraction.length + 1) = (pointedChars fraction).length := by
    unfold pointedChars
    split <;> rfl
  have hempty : whole.isEmpty = false := by simpa using hne
  simp only [hsplit, number?, hrun, List.drop_left, hfraction, hempty, hsize, ← List.drop_drop,
    exponent?_exponentChars exponent? hword, Bool.false_eq_true, if_false]
  cases exponent? with
  | some e => simp [Numeral.lexeme, Numeral.value, Numeral.chars, Nat.add_assoc]
  | none =>
    cases fraction with
    | nil => simp [Numeral.lexeme, Numeral.chars, pointedChars, exponentChars]
    | cons c cs => simp [Numeral.lexeme, Numeral.value, Numeral.chars, exponentChars]

end Lexeme

/-! ### The text of a number -/

/-- The digits of an integer alone. -/
def Numeral.integer (n : Nat) : Numeral where
  whole := decimalDigits n
  fraction := []
  exponent? := none
  whole_ne_nil := List.length_pos_iff.mp (length_decimalDigits_pos n)
  digits c hc := by
    rw [List.append_nil] at hc
    exact isDigit_of_mem_decimalDigits hc

namespace Decimal

theorem isDigit_of_mem_zeros {k : Nat} {c : Char} (h : c ∈ List.replicate k '0') : c.isDigit = true := by
  rw [List.eq_of_mem_replicate h]
  rfl

/-- The digits of a coefficient, with zeros around them, spread over both sides of the point. -/
structure Spread (whole fraction : List Char) (exponent? : Option Int) (d : Decimal) (zeros : Nat) : Prop where
  whole_ne_nil : whole ≠ []
  digits : ∃ k, whole ++ fraction = List.replicate k '0' ++ (decimalDigits d.coeff ++ List.replicate zeros '0')
  exponent : exponent?.getD 0 - fraction.length + zeros = d.exponent
  isFloat : fraction = [] → exponent?.isSome

/-- A text that is read whole, as a float that stands for the same double as a decimal. -/
def Writes (cs : List Char) (d : Decimal) : Prop :=
  ∃ n : Numeral, cs = n.chars ∧ ∃ v, n.lexeme = .float v ∧ Binary64.ofDecimal v = Binary64.ofDecimal d

theorem Spread.writes {whole fraction : List Char} {exponent? : Option Int} {d : Decimal} {zeros : Nat}
    (h : Spread whole fraction exponent? d zeros) :
    Writes (whole ++ (pointedChars fraction ++ exponentChars exponent?)) d := by
  obtain ⟨c, e⟩ := d
  obtain ⟨k, hdigits⟩ := h.digits
  have hall : ∀ x ∈ whole ++ fraction, x.isDigit = true := by
    rw [hdigits]
    intro x hx
    rcases List.mem_append.mp hx with hx | hx
    · exact isDigit_of_mem_zeros hx
    rcases List.mem_append.mp hx with hx | hx
    · exact isDigit_of_mem_decimalDigits hx
    · exact isDigit_of_mem_zeros hx
  refine ⟨⟨whole, fraction, exponent?, h.whole_ne_nil, hall⟩, rfl, ofDigits whole fraction (exponent?.getD 0), ?_, ?_⟩
  · have hfloat : ¬(fraction = [] ∧ exponent? = none) := by
      rintro ⟨hf, he⟩
      have hsome := h.isFloat hf
      rw [he] at hsome
      cases hsome
    simp only [Numeral.lexeme, hfloat, if_false]
    rfl
  · have hvalue : digitsValue 0 (whole ++ fraction) = c * 10 ^ zeros := by
      rw [hdigits, digitsValue_append, digitsValue_replicate, Nat.zero_mul, digitsValue_append,
        digitsValue_decimalDigits, digitsValue_replicate]
    rw [ofDigits, hvalue, Binary64.ofDecimal_mul_pow]
    exact congrArg (fun x => Binary64.ofDecimal ⟨c, x⟩) h.exponent

theorem writes_places (d : Decimal) : Writes (literal.places (decimalDigits d.coeff) d.point) d := by
  obtain ⟨c, e⟩ := d
  have hpos := length_decimalDigits_pos c
  have hne := List.length_pos_iff.mp hpos
  have hp : point ⟨c, e⟩ = (decimalDigits c).length + e := rfl
  generalize point ⟨c, e⟩ = p at hp ⊢
  simp only [Style.places, literal]
  by_cases hlow : p ≤ 0
  · have h : Spread ['0'] (List.replicate (-p).toNat '0' ++ decimalDigits c) none ⟨c, e⟩ 0 := by
      refine ⟨by simp, ⟨(-p).toNat + 1, by simp [List.replicate_succ]⟩, ?_, by simp [hne]⟩
      simp
      omega
    rw [if_pos hlow]
    simpa [pointedChars, exponentChars, hne] using h.writes
  rw [if_neg hlow]
  by_cases hwhole : (decimalDigits c).length ≤ p.toNat
  · have h : Spread (decimalDigits c ++ List.replicate (p.toNat - (decimalDigits c).length) '0') ['0'] none ⟨c, e⟩
        (p.toNat - (decimalDigits c).length + 1) := by
      refine ⟨by simp [hne], ⟨0, by simp [List.replicate_succ']⟩, ?_, by simp⟩
      simp
      omega
    rw [if_pos hwhole]
    simpa [pointedChars, exponentChars] using h.writes
  · have h : Spread ((decimalDigits c).take p.toNat) ((decimalDigits c).drop p.toNat) none ⟨c, e⟩ 0 := by
      refine ⟨?_, ⟨0, by simp⟩, ?_, ?_⟩
      · exact List.length_pos_iff.mp (by rw [List.length_take]; omega)
      · simp
        omega
      · simp
        omega
    have hdrop : (decimalDigits c).drop p.toNat ≠ [] := List.length_pos_iff.mp (by rw [List.length_drop]; omega)
    rw [if_neg hwhole]
    simpa [pointedChars, exponentChars, hdrop] using h.writes

theorem writes_scientific (d : Decimal) : Writes (scientific (decimalDigits d.coeff) d.point) d := by
  obtain ⟨c, e⟩ := d
  have hpos := length_decimalDigits_pos c
  have h : Spread ((decimalDigits c).take 1) ((decimalDigits c).drop 1) (some (point ⟨c, e⟩ - 1)) ⟨c, e⟩ 0 := by
    refine ⟨List.length_pos_iff.mp (by rw [List.length_take]; omega), ⟨0, ?_⟩, ?_, fun _ => rfl⟩
    · rw [List.take_append_drop]
      simp
    · simp only [point, Option.getD_some, List.length_drop]
      omega
  have hw := h.writes
  rwa [← List.append_assoc] at hw

theorem writes_literal (d : Decimal) : Writes (literal.chars d) d := by
  simp only [Style.chars]
  split
  · exact writes_places d
  · exact writes_scientific d

end Decimal

namespace Binary64

theorem ofMagnitude_magnitude {x : Binary64} (h : x.isNegative = false) : ofMagnitude x.magnitude = x := by
  obtain ⟨bits⟩ := x
  have hlt : bits.toNat < signWeight := by simpa [isNegative] using h
  rw [magnitude, Nat.mod_eq_of_lt hlt, ofMagnitude, UInt64.ofNat_toNat]

/-- A finite double without a sign is written as a numeral that is read as the double. -/
theorem exists_numeral {x : Binary64} (hneg : x.isNegative = false) (hnan : x.isNaN = false)
    (hinf : x.isInfinite = false) :
    ∃ n : Numeral, x.chars Decimal.literal = n.chars ∧ ∃ v, n.lexeme = .float v ∧ ofDecimal v = x := by
  have hfinite : x.magnitude < infinityBits := by
    simp only [isNaN, decide_eq_false_iff_not] at hnan
    simp only [isInfinite, beq_eq_false_iff_ne] at hinf
    omega
  obtain ⟨n, hn, v, hv, hd⟩ := Decimal.writes_literal (shortest x.magnitude)
  refine ⟨n, ?_, v, hv, ?_⟩
  · simpa [chars, hneg, hnan, hinf] using hn
  · rw [hd, ofDecimal_shortest hfinite, ofMagnitude_magnitude hneg]

end Binary64

end Offside

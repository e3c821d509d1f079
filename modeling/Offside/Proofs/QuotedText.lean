import Mathlib.Data.List.Forall2
import Mathlib.Data.List.Induction
import Mathlib.Data.Nat.Digits.Defs
import Offside.Text.Quoted
import Offside.Token.Lexeme

/-! # Quoted text read back

Between double quotes there are several ways to write a character, and a text may mix them. Every way is
read back as that character, whatever comes behind it, so a quoted text is read as the text it quotes. -/

namespace Offside

/-! ### What quotes a text -/

namespace Text

/-- The characters with an escape of one letter, digit or mark, and that letter, digit or mark. -/
def shortPairs : List (Char × Char) :=
  [('"', '"'), ('\\', '\\'), ('\n', 'n'), ('\r', 'r'), ('\t', 't'), ('\x00', '0')]

/-- What may stand for a character between double quotes: the character as it is, a short escape, or its code
    point in braces, in one to six lower case hexadecimal digits. -/
inductive Shows : Char → List Char → Prop
  | bare {c : Char} : c ≠ '"' → c ≠ '\\' → c ≠ '\n' → Shows c [c]
  | short {c d : Char} : (c, d) ∈ shortPairs → Shows c ['\\', d]
  | codePoint {c : Char} {ds : List Nat} : (∀ d ∈ ds, d < 16) → 1 ≤ ds.length → ds.length ≤ 6 →
    Nat.ofDigits 16 ds.reverse = c.toNat →
    Shows c ('\\' :: 'u' :: '\x7b' :: (ds.map Nat.digitChar ++ ['\x7d']))

/-- What shows the characters of a text one by one, between double quotes. -/
def Quotes (cs w : List Char) : Prop := ∃ parts, List.Forall₂ Shows cs parts ∧ w = '"' :: (parts.flatten ++ ['"'])

variable {c : Char} {cs w : List Char}

/-- The digits of a number are below the base and stand for the number. -/
theorem exists_hexDigits (n : Nat) : ∃ ds : List Nat, hexDigits n = ds.map Nat.digitChar ∧ (∀ d ∈ ds, d < 16) ∧
    Nat.ofDigits 16 ds.reverse = n := by
  induction n using Nat.strongRecOn with
  | ind n ih =>
    rw [hexDigits, Nat.toDigits_eq_if (by decide)]
    by_cases hn : n < 16
    · exact ⟨[n], by rw [if_pos hn]; rfl, by simpa using hn, Nat.ofDigits_singleton ..⟩
    · obtain ⟨ds, hds, hlt, hvalue⟩ := ih (n / 16) (by omega)
      have hmod : n % 16 < 16 := Nat.mod_lt n (by decide)
      refine ⟨ds ++ [n % 16], ?_, ?_, ?_⟩
      · rw [if_neg hn, ← hexDigits, hds, List.map_append]
        rfl
      · exact List.forall_mem_append.mpr ⟨hlt, by simpa using hmod⟩
      · rw [List.reverse_append, List.reverse_singleton, List.singleton_append, Nat.ofDigits_cons, hvalue]
        exact Nat.mod_add_div n 16

theorem length_hexDigits (c : Char) : 1 ≤ (hexDigits c.toNat).length ∧ (hexDigits c.toNat).length ≤ 6 := by
  refine ⟨Nat.length_toDigits_pos, (Nat.length_toDigits_le_iff (by decide) (by decide)).mpr ?_⟩
  have hvalid : c.toNat.isValidChar := c.valid
  simp only [Nat.isValidChar] at hvalid
  omega

/-- Whatever is written for a character shows it. -/
theorem shows_escape (c : Char) : Shows c (escape '"' c) := by
  unfold escape
  split
  · next h => rcases h with rfl | rfl <;> exact .short (by decide)
  split
  · next h => exact h ▸ .short (by decide)
  split
  · next h => exact h ▸ .short (by decide)
  split
  · next h => exact h ▸ .short (by decide)
  split
  · next h => exact h ▸ .short (by decide)
  split
  · next hquote hfeed _ _ _ _ => exact .bare (not_or.mp hquote).1 (not_or.mp hquote).2 hfeed
  · obtain ⟨ds, hds, hlt, hvalue⟩ := exists_hexDigits c.toNat
    have hlength : (hexDigits c.toNat).length = ds.length := by rw [hds, List.length_map]
    obtain ⟨hpos, hsix⟩ := hlength ▸ length_hexDigits c
    rw [hds]
    exact .codePoint hlt hpos hsix hvalue

theorem quotes_quoteChars (cs : List Char) : Quotes cs (quoteChars cs) := by
  have hparts : List.Forall₂ Shows cs (cs.map (escape '"')) := by
    rw [List.forall₂_map_right_iff]
    exact List.forall₂_same.mpr fun c _ => shows_escape c
  exact ⟨_, hparts, by rw [← List.flatMap_def]; rfl⟩

/-- No line ends within what shows a character. -/
theorem Shows.not_mem_feed (h : Shows c w) : '\n' ∉ w := by
  cases h with
  | bare hquote hslash hfeed => simpa using Ne.symm hfeed
  | short h =>
    have hpairs : ∀ p ∈ shortPairs, '\n' ∉ ['\\', p.2] := by decide
    exact hpairs _ h
  | codePoint hds hpos hsix hvalue =>
    have hdigit : ∀ d < 16, Nat.digitChar d ≠ '\n' := by decide
    simp only [List.mem_cons, List.mem_append, List.mem_map]
    rintro (h | h | h | ⟨d, hd, h⟩ | h)
    case inr.inr.inr.inl => exact hdigit d (hds d hd) h
    all_goals exact absurd h (by decide)

theorem Quotes.not_mem_feed (h : Quotes cs w) : '\n' ∉ w := by
  obtain ⟨parts, hparts, rfl⟩ := h
  have hmem : ∀ part ∈ parts, '\n' ∉ part := by
    induction hparts with
    | nil => nofun
    | cons h _ ih => exact List.forall_mem_cons.mpr ⟨h.not_mem_feed, ih⟩
  simpa using hmem

end Text

/-! ### Reading it -/

namespace Lexeme
open Text

variable {c : Char} {cs w : List Char}

theorem hexValue?_digitChar : ∀ d < 16, hexValue? d.digitChar = some d := by decide

theorem hexNumber_map_digitChar {ds : List Nat} (h : ∀ d ∈ ds, d < 16) :
    hexNumber (ds.map Nat.digitChar) = Nat.ofDigits 16 ds.reverse := by
  induction ds using List.reverseRecOn with
  | nil => rfl
  | append_singleton ds d ih =>
    obtain ⟨hds, hd⟩ := List.forall_mem_append.mp h
    have hlast := hexValue?_digitChar d (hd d (List.mem_singleton_self d))
    rw [List.reverse_append, List.reverse_singleton, List.singleton_append, Nat.ofDigits_cons, ← ih hds, hexNumber,
      hexNumber, List.map_append, List.foldl_append, List.map_singleton, List.foldl_cons, List.foldl_nil, hlast,
      Option.getD_some]
    exact Nat.add_comm ..

/-- A code point in braces is read as its character. -/
theorem codePointEscape?_digits {ds : List Nat} (hds : ∀ d ∈ ds, d < 16) (hpos : 1 ≤ ds.length) (hsix : ds.length ≤ 6)
    (hc : Nat.ofDigits 16 ds.reverse = c.toNat) (rest : List Char) :
    codePointEscape? ('u' :: '\x7b' :: (ds.map Nat.digitChar ++ '\x7d' :: rest)) = some (c, ds.length + 3) := by
  have hdigits : ∀ x ∈ ds.map Nat.digitChar, (hexValue? x).isSome = true := by
    simp only [List.forall_mem_map]
    exact fun d hd => by rw [hexValue?_digitChar d (hds d hd)]; rfl
  have hrun : (ds.map Nat.digitChar ++ '\x7d' :: rest).takeWhile (fun d => (hexValue? d).isSome) =
      ds.map Nat.digitChar := by
    rw [List.takeWhile_append_of_pos hdigits]
    exact List.append_nil _
  have hdrop : (ds.map Nat.digitChar ++ '\x7d' :: rest).drop ds.length = '\x7d' :: rest :=
    List.drop_left' (List.length_map ..)
  have hchar : charOf? c.toNat = some c := by
    have hvalid : c.toNat.isValidChar := c.valid
    rw [charOf?, if_pos hvalid, Char.ofNat_toNat]
  have hnumber : hexNumber (ds.map Nat.digitChar) = c.toNat := (hexNumber_map_digitChar hds).trans hc
  simp [codePointEscape?, hrun, hdrop, hpos, hsix, hnumber, hchar]

theorem escape?_codePoint {ds : List Nat} (hds : ∀ d ∈ ds, d < 16) (hpos : 1 ≤ ds.length) (hsix : ds.length ≤ 6)
    (hc : Nat.ofDigits 16 ds.reverse = c.toNat) (rest : List Char) :
    escape? ('u' :: '\x7b' :: (ds.map Nat.digitChar ++ ['\x7d']) ++ rest) =
      some ([c], ('u' :: '\x7b' :: (ds.map Nat.digitChar ++ ['\x7d'])).length) := by
  have hpoint := codePointEscape?_digits hds hpos hsix hc rest
  simp [escape?, hpoint]

theorem escape?_short {d : Char} (h : (c, d) ∈ shortPairs) (rest : List Char) :
    escape? (d :: rest) = some ([c], 1) := by
  have hpairs : ∀ p ∈ shortPairs, shortEscape? p.2 = some p.1 ∧ p.2 ≠ 'u' ∧ p.2 ≠ 'x' := by decide
  obtain ⟨hshort, hu, hx⟩ := hpairs _ h
  have hpoint : codePointEscape? (d :: rest) = none := by simp [codePointEscape?, hu]
  have hbyte : byteEscape? (d :: rest) = none := by simp [byteEscape?, hx]
  rw [escape?, hpoint, hbyte]
  simp [hshort]

theorem stringBody?_skip (pre rest : List Char) :
    stringBody? pre.length (pre ++ rest) = (stringBody? 0 rest).map fun (s, n) => (s, n + pre.length) := by
  induction pre with
  | nil => simp
  | cons c pre ih =>
    simp only [List.length_cons, List.cons_append, stringBody?, ih, Option.map_map]
    rfl

theorem stringBody?_backslash {out : List Char} (esc rest : List Char)
    (h : escape? (esc ++ rest) = some (out, esc.length)) :
    stringBody? 0 ('\\' :: (esc ++ rest)) =
      (stringBody? 0 rest).map fun (s, n) => (out ++ s, n + ('\\' :: esc).length) := by
  simp [stringBody?, h, stringBody?_skip, Option.map_map]
  rfl

/-- What shows a character is read as this character. -/
theorem stringBody?_shows (h : Shows c w) (rest : List Char) :
    stringBody? 0 (w ++ rest) = (stringBody? 0 rest).map fun (s, n) => (c :: s, n + w.length) := by
  cases h with
  | bare hquote hslash hfeed => simp [stringBody?, hquote, hslash, hfeed]
  | short h =>
    exact stringBody?_backslash [_] rest (escape?_short h rest)
  | codePoint hds hpos hsix hvalue =>
    exact stringBody?_backslash _ rest (escape?_codePoint hds hpos hsix hvalue rest)

theorem stringBody?_flatten {parts : List (List Char)} (h : List.Forall₂ Shows cs parts) (rest : List Char) :
    stringBody? 0 (parts.flatten ++ '"' :: rest) = some (cs, parts.flatten.length + 1) := by
  induction h with
  | nil => rfl
  | cons h _ ih =>
    simp only [List.flatten_cons, List.append_assoc, stringBody?_shows h, ih, Option.map_some, List.length_append]
    congr 2
    omega

/-- A quoted text is read as a whole, and as the text it quotes. -/
theorem string?_quotes (h : Quotes cs w) (rest : List Char) :
    string? (w ++ rest) = some (.string (String.ofList cs), w.length) := by
  obtain ⟨parts, hparts, rfl⟩ := h
  simp [string?, stringBody?_flatten hparts]

end Lexeme

end Offside

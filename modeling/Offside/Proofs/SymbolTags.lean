import Mathlib.Data.List.Find
import Offside.Token.Lexeme

/-! # The tags of symbols

The recognizer of symbols goes through a table of tags from the top. Its entries are the spellings of the
symbols, each once, and no tag begins one that stands below it. So the first tag that fits is the longest symbol
with which a text begins. -/

namespace Offside.Lexeme

variable {cs ds : List Char} {x : Lexeme} {n : Nat} {s t : Symbol} {tag : String}

/-! ### The table -/

theorem eq_spelling_of_mem_symbolTags : ∀ p ∈ symbolTags, p.1 = p.2.spelling := by decide

theorem spelling_mem_symbolTags : ∀ s ∈ Symbol.all, (s.spelling, s) ∈ symbolTags := by decide

/-- The table has just the spellings of the symbols. -/
theorem mem_symbolTags_iff : (tag, s) ∈ symbolTags ↔ tag = s.spelling :=
  ⟨eq_spelling_of_mem_symbolTags _, fun h => h ▸ spelling_mem_symbolTags s s.mem_all⟩

/-- No tag begins one that stands below it. -/
theorem pairwise_symbolTags : symbolTags.Pairwise fun p q => ¬ p.1.toList <+: q.1.toList := by decide

/-- Of two tags with which a text begins the one further down is not the longer. -/
theorem length_le_of_below {before behind : List (String × Symbol)} {lower : String}
    (hsplit : symbolTags = before ++ (tag, s) :: behind) (hmem : (lower, t) ∈ behind) (htag : tag.toList <+: cs)
    (hlower : lower.toList <+: cs) : lower.toList.length ≤ tag.toList.length := by
  have hbelow := (List.pairwise_append.mp (hsplit ▸ pairwise_symbolTags)).2.1
  have hnot := (List.pairwise_cons.mp hbelow).1 (lower, t) hmem
  exact Nat.le_of_not_le fun hle => hnot (List.prefix_of_prefix_length_le htag hlower hle)

/-! ### The first tag that fits -/

/-- A text begins with a symbol, and with none that is longer. -/
structure LongestSymbol (cs : List Char) (s : Symbol) : Prop where
  pre : s.spelling.toList <+: cs
  length_le : ∀ t : Symbol, t.spelling.toList <+: cs → t.spelling.toList.length ≤ s.spelling.toList.length

theorem LongestSymbol.unique (hs : LongestSymbol cs s) (ht : LongestSymbol cs t) : s = t := by
  have hpre := List.prefix_of_prefix_length_le hs.pre ht.pre (ht.length_le s hs.pre)
  have heq := hpre.eq_of_length_le (hs.length_le t ht.pre)
  exact Symbol.spelling_injective (String.toList_inj.mp heq)

theorem symbol?_eq_none_iff : symbol? cs = none ↔ ∀ s : Symbol, ¬ s.spelling.toList <+: cs := by
  simp only [symbol?, Option.map_eq_none_iff, List.find?_eq_none, List.isPrefixOf_iff_prefix]
  exact ⟨fun h s => h (s.spelling, s) (mem_symbolTags_iff.mpr rfl), fun h p hp => mem_symbolTags_iff.mp hp ▸ h p.2⟩

/-- The first tag that fits is the longest one: no tag above it fits, and those below it are not longer. -/
theorem symbol?_eq_some (h : symbol? cs = some (x, n)) :
    ∃ s, LongestSymbol cs s ∧ x = .symbol s ∧ n = s.spelling.toList.length := by
  obtain ⟨⟨tag, s⟩, hfind, heq⟩ := Option.map_eq_some_iff.mp h
  obtain ⟨rfl, rfl⟩ := Prod.mk.inj heq
  obtain ⟨hfits, before, behind, hsplit, habove⟩ := List.find?_eq_some_iff_append.mp hfind
  obtain rfl : tag = s.spelling := mem_symbolTags_iff.mp (List.mem_of_find?_eq_some hfind)
  have hpre : s.spelling.toList <+: cs := List.isPrefixOf_iff_prefix.mp hfits
  refine ⟨s, ⟨hpre, fun t ht => ?_⟩, rfl, String.length_toList.symm⟩
  have hmem : (t.spelling, t) ∈ symbolTags := mem_symbolTags_iff.mpr rfl
  rw [hsplit, List.mem_append, List.mem_cons] at hmem
  rcases hmem with hmem | heq | hmem
  · have hnot := habove _ hmem
    rw [List.isPrefixOf_iff_prefix.mpr ht] at hnot
    cases hnot
  · exact Nat.le_of_eq (congrArg (·.1.toList.length) heq)
  · exact length_le_of_below hsplit hmem hpre ht

theorem symbol?_eq_some_iff :
    symbol? cs = some (x, n) ↔ ∃ s, LongestSymbol cs s ∧ x = .symbol s ∧ n = s.spelling.toList.length := by
  refine ⟨symbol?_eq_some, ?_⟩
  rintro ⟨s, hs, rfl, rfl⟩
  cases h : symbol? cs with
  | none => exact absurd hs.pre (symbol?_eq_none_iff.mp h s)
  | some r =>
    obtain ⟨t, ht, hx, hn⟩ := symbol?_eq_some h
    obtain rfl := hs.unique ht
    exact congrArg some (Prod.ext hx hn)

/-- The answer depends on nothing but the symbols that a text begins with. -/
theorem symbol?_congr (h : ∀ s : Symbol, s.spelling.toList <+: cs ↔ s.spelling.toList <+: ds) :
    symbol? cs = symbol? ds := by
  have hfind : symbolTags.find? (·.1.toList.isPrefixOf cs) = symbolTags.find? (·.1.toList.isPrefixOf ds) := by
    refine List.find?_congr fun p hp => ?_
    rw [mem_symbolTags_iff.mp hp, Bool.eq_iff_iff, List.isPrefixOf_iff_prefix, List.isPrefixOf_iff_prefix]
    exact h p.2
  rw [symbol?, symbol?, hfind]

end Offside.Lexeme

import Mathlib.Computability.Language
import Mathlib.Order.CompletePartialOrder

/-! # The longest beginning in a language

A reader that takes the longest beginning of a text in a language is put together from readers of parts: of
two languages whose texts start with different characters, of a character and what may come behind it, of a
part that may be missing, and of a run of characters. -/

namespace Offside.Munch

open Computability

variable {L M : Language Char} {s t : Set Char} {cs v w : List Char} {c : Char}

/-! ### First characters -/

/-- Texts of one character. -/
def oneOf (s : Set Char) : Language Char := {w | ∃ c ∈ s, w = [c]}

theorem cons_mem_oneOf_mul : c :: w ∈ oneOf s * L ↔ c ∈ s ∧ w ∈ L := by
  constructor
  · rintro ⟨_, ⟨d, hd, rfl⟩, b, hb, heq⟩
    obtain ⟨rfl, rfl⟩ := List.cons.inj heq
    exact ⟨hd, hb⟩
  · rintro ⟨hc, hw⟩
    exact ⟨[c], ⟨c, hc, rfl⟩, w, hw, rfl⟩

theorem nil_not_mem_oneOf_mul : [] ∉ oneOf s * L := by
  rintro ⟨_, ⟨d, hd, rfl⟩, b, hb, heq⟩
  cases heq

theorem star_mul_eq (L M : Language Char) : L∗ * M = M + L * (L∗ * M) := by
  rw [← mul_assoc, ← one_add_mul, Language.one_add_self_mul_kstar_eq_kstar]

theorem cons_mem_star_mul : c :: w ∈ (oneOf s)∗ * L ↔ c :: w ∈ L ∨ c ∈ s ∧ w ∈ (oneOf s)∗ * L := by
  rw [← cons_mem_oneOf_mul, ← Language.mem_add, ← star_mul_eq]

/-! ### Characters of all texts -/

/-- All characters of a language's texts are among some characters. -/
def Within (s : Set Char) (L : Language Char) : Prop := ∀ w ∈ L, ∀ c ∈ w, c ∈ s

theorem Within.mono (h : Within s L) (hst : s ⊆ t) : Within t L := fun w hw c hc => hst (h w hw c hc)

theorem within_one (s : Set Char) : Within s 1 := by
  rintro _ rfl c hc
  cases hc

theorem within_oneOf (h : t ⊆ s) : Within s (oneOf t) := by
  rintro _ ⟨d, hd, rfl⟩ c hc
  exact List.mem_singleton.mp hc ▸ h hd

theorem Within.add (hL : Within s L) (hM : Within s M) : Within s (L + M) := fun w hw => hw.elim (hL w) (hM w)

theorem Within.mul (hL : Within s L) (hM : Within s M) : Within s (L * M) := by
  rintro _ ⟨a, ha, b, hb, rfl⟩ c hc
  exact (List.mem_append.mp hc).elim (hL a ha c) (hM b hb c)

theorem Within.star (hL : Within s L) : Within s L∗ := by
  rintro _ ⟨parts, rfl, hparts⟩ c hc
  obtain ⟨part, hpart, hc⟩ := List.mem_flatten.mp hc
  exact hL part (hparts part hpart) c hc

/-! ### Longest beginnings -/

/-- The longest beginning of a text that is in a language. -/
structure Longest (L : Language Char) (cs w : List Char) : Prop where
  pre : w <+: cs
  mem : w ∈ L
  max : ∀ v, v <+: cs → v ∈ L → v.length ≤ w.length

/-- No beginning of a text is in a language. -/
def Lacks (L : Language Char) (cs : List Char) : Prop := ∀ v, v <+: cs → v ∉ L

/-- The length of the longest beginning of a text that is in a language, if there is any. -/
inductive Measures (L : Language Char) (cs : List Char) : Option Nat → Prop
  | lacks : Lacks L cs → Measures L cs none
  | takes {w : List Char} : Longest L cs w → Measures L cs (some w.length)

/-- All texts of a language begin with one of some characters. -/
def Starts (s : Set Char) (L : Language Char) : Prop := ∀ w ∈ L, ∃ c ∈ s, ∃ v, w = c :: v

theorem starts_oneOf_mul (s : Set Char) (L : Language Char) : Starts s (oneOf s * L) := by
  rintro w ⟨_, ⟨c, hc, rfl⟩, b, hb, rfl⟩
  exact ⟨c, hc, b, rfl⟩

theorem Starts.mul (h : Starts s L) (M : Language Char) : Starts s (L * M) := by
  rintro w ⟨a, ha, b, hb, rfl⟩
  obtain ⟨c, hc, v, rfl⟩ := h a ha
  exact ⟨c, hc, v ++ b, rfl⟩

theorem Starts.add (hL : Starts s L) (hM : Starts t M) : Starts (s ∪ t) (L + M) := by
  rintro w (hw | hw)
  · obtain ⟨c, hc, hv⟩ := hL w hw
    exact ⟨c, .inl hc, hv⟩
  · obtain ⟨c, hc, hv⟩ := hM w hw
    exact ⟨c, .inr hc, hv⟩

theorem Starts.lacks_nil (hL : Starts s L) : Lacks L [] := by
  rintro v hv hmem
  obtain ⟨d, hd, v, rfl⟩ := hL v hmem
  cases List.prefix_nil.mp hv

theorem Starts.lacks_cons (hL : Starts s L) (hc : c ∉ s) (cs : List Char) : Lacks L (c :: cs) := by
  rintro v hv hmem
  obtain ⟨d, hd, v, rfl⟩ := hL v hmem
  exact hc ((List.cons_prefix_cons.mp hv).1 ▸ hd)

/-- A text that begins in one language does not begin in another whose texts start with other characters. -/
theorem Longest.lacks (h : Longest L cs w) (hL : Starts s L) (hM : Starts t M) (hst : Disjoint s t) : Lacks M cs := by
  obtain ⟨c, hc, w, rfl⟩ := hL w h.mem
  obtain ⟨rest, rfl⟩ := h.pre
  exact hM.lacks_cons (Set.disjoint_left.mp hst hc) _

theorem Longest.add_left (h : Longest L cs w) (hM : Lacks M cs) : Longest (L + M) cs w where
  pre := h.pre
  mem := (Language.mem_add L M w).mpr (.inl h.mem)
  max v hv hmem := h.max v hv (hmem.resolve_right (hM v hv))

theorem Longest.add_right (hL : Lacks L cs) (h : Longest M cs w) : Longest (L + M) cs w :=
  add_comm L M ▸ h.add_left hL

theorem Lacks.add (hL : Lacks L cs) (hM : Lacks M cs) : Lacks (L + M) cs :=
  fun v hv hmem => hmem.elim (hL v hv) (hM v hv)

variable {o o' : Option Nat}

theorem Measures.or (hL : Measures L cs o) (hM : Measures M cs o') (hs : Starts s L) (ht : Starts t M)
    (hst : Disjoint s t) : Measures (L + M) cs (o <|> o') := by
  cases hL with
  | takes h => exact .takes (h.add_left (h.lacks hs ht hst))
  | lacks h =>
    cases hM with
    | lacks h' => exact .lacks (h.add h')
    | takes h' => exact .takes (h'.add_right h)

/-- A language as it goes on behind a character. -/
theorem Longest.cons (hcons : ∀ w, c :: w ∈ L ↔ w ∈ M) (h : Longest M cs w) : Longest L (c :: cs) (c :: w) where
  pre := List.cons_prefix_cons.mpr ⟨rfl, h.pre⟩
  mem := (hcons w).mpr h.mem
  max v hv hmem := by
    cases v with
    | nil => exact Nat.zero_le _
    | cons d v =>
      obtain ⟨rfl, hpre⟩ := List.cons_prefix_cons.mp hv
      exact Nat.succ_le_succ (h.max v hpre ((hcons v).mp hmem))

theorem Lacks.cons (hnil : [] ∉ L) (hcons : ∀ w, c :: w ∈ L ↔ w ∈ M) (h : Lacks M cs) : Lacks L (c :: cs) := by
  rintro (_ | ⟨d, v⟩) hv hmem
  · exact hnil hmem
  · obtain ⟨rfl, hpre⟩ := List.cons_prefix_cons.mp hv
    exact h v hpre ((hcons v).mp hmem)

theorem Measures.cons (hnil : [] ∉ L) (hcons : ∀ w, c :: w ∈ L ↔ w ∈ M) (h : Measures M cs o) :
    Measures L (c :: cs) (o.map (· + 1)) := by
  cases h with
  | lacks h => exact .lacks (h.cons hnil hcons)
  | takes h => exact .takes (h.cons hcons)

theorem Measures.oneOf_mul (hc : c ∈ s) (h : Measures L cs o) : Measures (oneOf s * L) (c :: cs) (o.map (· + 1)) :=
  h.cons nil_not_mem_oneOf_mul fun w => by simp [cons_mem_oneOf_mul, hc]

/-- An optional part is there or it has no length. -/
theorem Measures.optional (h : Measures M cs o) : ∃ w, Longest (1 + M) cs w ∧ w.length = o.getD 0 := by
  cases h with
  | lacks h =>
    refine ⟨[], ⟨List.nil_prefix, .inl rfl, ?_⟩, rfl⟩
    rintro v hv (rfl | hmem)
    · exact Nat.le_refl 0
    · exact absurd hmem (h v hv)
  | @takes w h =>
    refine ⟨w, ⟨h.pre, .inr h.mem, ?_⟩, rfl⟩
    rintro v hv (rfl | hmem)
    · exact Nat.zero_le _
    · exact h.max v hv hmem

theorem Measures.exists_longest {n : Nat} (h : Measures L cs (some n)) : ∃ w, Longest L cs w ∧ w.length = n := by
  cases h with
  | takes h => exact ⟨_, h, rfl⟩

theorem Longest.eq_of_length (h : Longest L cs w) (hv : v <+: cs) (hlength : v.length = w.length) : v = w :=
  (List.prefix_of_prefix_length_le hv h.pre hlength.le).eq_of_length hlength

theorem Longest.unique (h : Longest L cs w) (h' : Longest L cs v) : v = w :=
  h.eq_of_length h'.pre (Nat.le_antisymm (h.max v h'.pre h'.mem) (h'.max w h.pre h.mem))

theorem Starts.not_mem (hL : Starts s L) (hM : Starts t M) (hst : Disjoint s t) (hw : w ∈ L) : w ∉ M := by
  intro hmem
  obtain ⟨c, hc, v, rfl⟩ := hL w hw
  obtain ⟨d, hd, u, hu⟩ := hM _ hmem
  obtain ⟨rfl, -⟩ := List.cons.inj hu
  exact Set.disjoint_left.mp hst hc hd

/-! ### Runs of characters -/

variable {p : Char → Bool}

theorem Longest.star_mul (hs : ∀ c ∈ cs.head?, c ∉ s) (h : Longest L cs w) : Longest ((oneOf s)∗ * L) cs w where
  pre := h.pre
  mem := Language.append_mem_mul (Language.nil_mem_kstar _) h.mem
  max v hv hmem := by
    refine h.max v hv ?_
    cases v with
    | nil =>
      obtain ⟨a, -, b, hb, hab⟩ := hmem
      obtain ⟨-, rfl⟩ := List.append_eq_nil_iff.mp hab
      exact hb
    | cons c v =>
      obtain ⟨rest, rfl⟩ := hv
      exact (cons_mem_star_mul.mp hmem).resolve_right fun hc => hs c rfl hc.1

/-- A run of characters goes as far as it can before what begins otherwise. -/
theorem Longest.run (hp : ∀ c, p c = true ↔ c ∈ s) (hM : Starts t M) (hst : Disjoint s t)
    (h : Longest (1 + M) (cs.drop (cs.takeWhile p).length) w) :
    Longest ((oneOf s)∗ * (1 + M)) cs (cs.takeWhile p ++ w) := by
  induction cs with
  | nil => exact h.star_mul nofun
  | cons c cs ih =>
    by_cases hc : p c = true
    · rw [List.takeWhile_cons_of_pos hc] at h ⊢
      refine (ih h).cons fun v => ?_
      have hnot : c :: v ∉ 1 + M := by
        rintro (hnil | hmem)
        · cases hnil
        · obtain ⟨d, hd, u, hu⟩ := hM _ hmem
          obtain ⟨rfl, -⟩ := List.cons.inj hu
          exact Set.disjoint_left.mp hst ((hp c).mp hc) hd
      simp only [cons_mem_star_mul, hnot, false_or, (hp c).mp hc, true_and]
    · have hhead : ∀ d ∈ (c :: cs).head?, d ∉ s := by
        rintro d ⟨⟩
        exact fun hd => hc ((hp c).mpr hd)
      rw [List.takeWhile_cons_of_neg hc] at h ⊢
      exact h.star_mul hhead

theorem starts_zero (s : Set Char) : Starts s 0 := nofun

theorem Longest.run_only (hp : ∀ c, p c = true ↔ c ∈ s) (cs : List Char) :
    Longest ((oneOf s)∗) cs (cs.takeWhile p) := by
  have hempty : Longest (1 + 0) (cs.drop (cs.takeWhile p).length) [] := by
    refine ⟨List.nil_prefix, .inl rfl, ?_⟩
    rintro v - (rfl | hmem)
    · exact Nat.le_refl 0
    · exact hmem.elim
  have h := Longest.run hp (starts_zero ∅) (Set.disjoint_empty s) hempty
  rwa [add_zero, mul_one, List.append_nil] at h

end Offside.Munch

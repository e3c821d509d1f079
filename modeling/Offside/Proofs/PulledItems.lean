import Offside.Proofs.StmtAbreast

/-! # What is behind the first error

The reading of a program pulls items one at a time, and never more than one that it has not taken. What it has not
pulled it knows nothing of: the kinds of the tokens pulled, and the fault if one was pulled, decide the program that is
read, or what is wrong with it and which productions were open. -/

namespace Offside

/-- What a reading comes to, without places. -/
def bareOutcome : Except SyntaxError Module → Except SyntaxError Module
  | .ok m => .ok m.bare
  | .error e => .error e.bare

namespace Cursor

/-- A new cursor has no items behind it. -/
theorem stands_new (items : List Item) : Stands { input := items } items 0 := ⟨⟨[], .new⟩, rfl⟩

/-- New cursors over lists that agree up to the fork. -/
theorem beside_new {fork : Fork} {items items' : List Item} (h : fork.Agree items items') :
    Beside { input := items } { input := items' } fork items' 0 :=
  ⟨.unread, h, rfl, rfl⟩

end Cursor

namespace Parse

/-- Two lists that agree up to where the reading of the first has come to are read the same. -/
theorem bareOutcome_eq_of_agree {items items' : List Item} {fork : Fork}
    (hbefore : (module.after { input := items }).Before fork) (hagree : fork.Agree items items') :
    bareOutcome (module.run items') = bareOutcome (module.run items) := by
  have hcourse := abreast_module items items' (Cursor.stands_new items)
  have hbeside := Cursor.beside_new hagree
  unfold after at hbefore
  unfold run
  generalize module { input := items } = r at hcourse hbefore
  cases hcourse with
  | ok _ _ _ _ hpair =>
    obtain ⟨m', d', hmodule, -, hm, -⟩ := hpair hbefore hbeside
    rw [hmodule]
    exact congrArg Except.ok hm
  | error _ _ _ _ hpair =>
    obtain ⟨e', d', hmodule, -, he⟩ := hpair hbefore hbeside
    rw [hmodule]
    exact congrArg Except.error he

/-- A cursor never has more than one item pulled that it has not taken. The reading of a program ends where moves lead,
    and its outcome is the same for every list of items that agrees with the ones pulled, and that ends where the first
    list was seen to end. -/
theorem module_pulls_one_ahead (items : List Item) :
    (∀ c taken, Cursor.Reached items taken c →
      ∃ sight : List Item, sight.length ≤ 1 ∧ items = taken.map .ok ++ sight ++ c.input) ∧
    ∃ taken sight, Cursor.Reached items taken (module.after { input := items }) ∧ sight.length ≤ 1 ∧
      items = taken.map .ok ++ sight ++ (module.after { input := items }).input ∧
      ∀ pulled rest : List Item, List.Forall₂ Item.SameKind (taken.map .ok ++ sight) pulled →
        ((module.after { input := items }).atEnd = true → rest = []) →
        bareOutcome (module.run (pulled ++ rest)) = bareOutcome (module.run items) := by
  have hsight (c : Cursor) (taken : List Token) (hc : c.Reached items taken) :
      ∃ sight : List Item, sight.length ≤ 1 ∧ items = taken.map .ok ++ sight ++ c.input := by
    obtain ⟨sight, hsighted, hitems⟩ := hc.exists_sighted
    exact ⟨sight, hsighted.length_le, hitems⟩
  refine ⟨hsight, ?_⟩
  obtain ⟨taken, hreached⟩ := (abreast_module items items (Cursor.stands_new items)).reached
  obtain ⟨sight, hlength, hitems⟩ := hsight _ taken hreached
  refine ⟨taken, sight, hreached, hlength, hitems, fun pulled rest hpulled hends => ?_⟩
  have hbefore : (module.after { input := items }).Before
      { first := (module.after { input := items }).input, second := rest
        seen := (module.after { input := items }).atEnd, ends := hends } := by
    refine ⟨List.suffix_refl _, fun hlook => ?_⟩
    show (_ == Lookahead.ended) = true
    rw [hlook]
    rfl
  exact bareOutcome_eq_of_agree hbefore ⟨_, pulled, hitems, rfl, hpulled⟩

end Parse

end Offside

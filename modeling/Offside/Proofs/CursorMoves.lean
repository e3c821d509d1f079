import Offside.Proofs.PlainCursor

/-! # The moves of a cursor

Whatever is read, a cursor only moves in four ways: it looks at the first item, it takes the token it sees, a production
is opened, and a production is closed. A cursor that has come somewhere by such moves holds at most one item that has
been pulled and not taken, and never more open productions than may be open at once. -/

namespace Offside

/-- The cursor that a reader leaves, whether it answers or fails. -/
def Parse.after {α : Type} (p : Parse α) (c : Cursor) : Cursor :=
  match p c with
  | .ok _ d => d
  | .error _ d => d

section
variable {α : Type} {p : Parse α} {c d : Cursor}

theorem Parse.after_ok {a : α} (h : p c = .ok a d) : p.after c = d := by rw [Parse.after, h]

theorem Parse.after_error {e : SyntaxError} (h : p c = .error e d) : p.after c = d := by rw [Parse.after, h]

end

namespace Cursor

/-- A cursor over `items` that has moved to where it is by taking the tokens `taken`. -/
inductive Reached (items : List Item) : List Token → Cursor → Prop
  | new : Reached items [] { input := items }
  | look {taken : List Token} {c : Cursor} : Reached items taken c → c.look = .unread →
    Reached items taken (Parse.advance.after c)
  | take {taken : List Token} {c : Cursor} {t : Token} : Reached items taken c → c.look = .token t →
    Reached items (taken ++ [t]) (Parse.advance.after { c with last := some t.span })
  | opening {taken : List Token} {c : Cursor} (name : String) : Reached items taken c → c.stack.length < nestingLimit →
    Reached items taken { c with stack := c.stack ++ [name] }
  | closing {taken : List Token} {c : Cursor} : Reached items taken c →
    Reached items taken { c with stack := c.stack.dropLast }

/-- The item that a cursor has pulled and not taken, if there is one. -/
def Sighted (c : Cursor) (sight : List Item) : Prop :=
  match c.look with
  | .unread => sight = []
  | .token t => sight = [.ok t]
  | .ended => sight = [] ∧ c.input = []
  | .poisoned => ∃ f, sight = [.error f]

variable {items sight : List Item} {taken : List Token} {c d : Cursor}

theorem Sighted.length_le (h : c.Sighted sight) : sight.length ≤ 1 := by
  unfold Sighted at h
  split at h
  · simp [h]
  · simp [h]
  · simp [h.1]
  · obtain ⟨f, rfl⟩ := h
    exact Nat.le_refl _

theorem stack_advance (c : Cursor) : (Parse.advance.after c).stack = c.stack := by
  obtain ⟨input, look, last, stack⟩ := c
  cases input with
  | nil => rfl
  | cons item rest => cases item <;> rfl

/-- Looking further pulls one item, or comes to the end. -/
theorem exists_sighted_advance (c : Cursor) :
    ∃ sight, (Parse.advance.after c).Sighted sight ∧ c.input = sight ++ (Parse.advance.after c).input := by
  obtain ⟨input, look, last, stack⟩ := c
  cases input with
  | nil => exact ⟨[], ⟨rfl, rfl⟩, rfl⟩
  | cons item rest =>
    cases item with
    | ok t => exact ⟨[.ok t], rfl, rfl⟩
    | error f => exact ⟨[.error f], ⟨f, rfl⟩, rfl⟩

namespace Reached

theorem stack_le (h : c.Reached items taken) : c.stack.length ≤ nestingLimit := by
  induction h with
  | new => exact Nat.zero_le _
  | look _ _ ih => rwa [stack_advance]
  | take _ _ ih => rwa [stack_advance]
  | opening name _ hroom =>
    rw [List.length_append, List.length_singleton]
    exact hroom
  | closing _ ih =>
    rw [List.length_dropLast]
    exact Nat.le_trans (Nat.sub_le _ _) ih

/-- All items are taken, in sight or not yet pulled. -/
theorem exists_sighted (h : c.Reached items taken) :
    ∃ sight, c.Sighted sight ∧ items = taken.map .ok ++ sight ++ c.input := by
  induction h with
  | new => exact ⟨[], rfl, rfl⟩
  | @look taken c _ hl ih =>
    obtain ⟨sight, hsight, hitems⟩ := ih
    obtain ⟨further, hfurther, hinput⟩ := exists_sighted_advance c
    obtain rfl : sight = [] := by simpa only [Sighted, hl] using hsight
    refine ⟨further, hfurther, ?_⟩
    rw [List.append_assoc, ← hinput, hitems, List.append_nil]
  | @take taken c t _ hl ih =>
    obtain ⟨sight, hsight, hitems⟩ := ih
    obtain ⟨further, hfurther, hinput⟩ := exists_sighted_advance { c with last := some t.span }
    obtain rfl : sight = [.ok t] := by simpa only [Sighted, hl] using hsight
    refine ⟨further, hfurther, ?_⟩
    rw [List.append_assoc, ← hinput, hitems, List.map_append]
    rfl
  | opening name _ _ ih => exact ih
  | closing _ ih => exact ih

theorem remaining_le (h : c.Reached items taken) : c.remaining ≤ items.length := by
  obtain ⟨sight, hsight, hitems⟩ := h.exists_sighted
  have hlength := congrArg List.length hitems
  simp only [List.length_append, List.length_map] at hlength
  unfold remaining
  cases hl : c.look with
  | token t =>
    simp only [Sighted, hl] at hsight
    rw [hsight, List.length_singleton] at hlength
    dsimp only
    omega
  | _ =>
    dsimp only
    omega

end Reached

end Cursor

end Offside

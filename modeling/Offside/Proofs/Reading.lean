import Offside.Parse.Cursor

/-! # What readers do on tokens without faults

A reader is judged by what it does at every place of a token list: the kinds of the tokens ahead and the
number of productions that may still be opened decide it, up to spans. `Reads` says that a reader either
answers a value and leaves tokens that fit together, or fails for an accepted reason. Each way to put
readers together has one rule, so that a production is followed step by step. -/

namespace Offside

theorem map_ok_inj {ts us : List Token} (h : ts.map (Except.ok : Token → Item) = us.map .ok) : ts = us :=
  (List.map_inj_right fun _ _ => Except.ok.inj).mp h

/-- The tokens that a cursor has ahead of it. -/
def Cursor.Faces (c : Cursor) (ts : List Token) : Prop :=
  match c.look with
  | .unread => c.input = ts.map .ok
  | .token t => ∃ rest, ts = t :: rest ∧ c.input = rest.map .ok
  | .ended => ts = [] ∧ c.input = []
  | .poisoned => False

/-- A cursor stands in the tokens `all` before tokens of the kinds `ks`, and `room` more productions may
    be opened. -/
structure Cursor.At (c : Cursor) (all : List Token) (ks : List Kind) (room : Nat) : Prop where
  faces : ∃ ts, c.Faces ts ∧ ts <:+ all ∧ ts.map (·.kind) = ks
  room : c.stack.length + room = nestingLimit

namespace Cursor
variable {c : Cursor} {all ts : List Token} {ks : List Kind} {room : Nat}

theorem Faces.unique {us : List Token} (h : c.Faces ts) (hu : c.Faces us) : ts = us := by
  unfold Faces at h hu
  split at h
  · next hl =>
    rw [hl] at hu
    exact map_ok_inj (h.symm.trans hu)
  · next t hl =>
    rw [hl] at hu
    obtain ⟨rest, rfl, hr⟩ := h
    obtain ⟨rest', rfl, hr'⟩ := hu
    rw [map_ok_inj (hr.symm.trans hr')]
  · next hl =>
    rw [hl] at hu
    rw [h.1, hu.1]
  · exact h.elim

theorem at_new (ts : List Token) : At { input := ts.map .ok } ts (ts.map (·.kind)) nestingLimit :=
  ⟨⟨ts, rfl, List.suffix_refl ts, rfl⟩, Nat.zero_add _⟩

theorem at_append (w rest : List Token) : At { input := (w ++ rest).map .ok } (w ++ rest)
    (w.map (·.kind) ++ rest.map (·.kind)) nestingLimit := by
  rw [← List.map_append]
  exact at_new _

theorem Faces.remaining (h : c.Faces ts) : c.remaining = ts.length := by
  unfold Faces at h
  unfold Cursor.remaining
  split at h
  · next hl => simp [hl, h]
  · next t hl =>
    obtain ⟨rest, rfl, hr⟩ := h
    simp [hl, hr]
  · next hl =>
    obtain ⟨rfl, hr⟩ := h
    simp [hl, hr]
  · exact h.elim

theorem At.remaining (h : c.At all ks room) : c.remaining = ks.length := by
  obtain ⟨ts, hf, -, rfl⟩ := h.faces
  rw [hf.remaining, List.length_map]

/-- A cursor that is left before the kinds of the last tokens of its list is before those tokens. -/
theorem At.faces_of_append {w rest : List Token} (h : c.At (w ++ rest) (rest.map (·.kind)) room) : c.Faces rest := by
  obtain ⟨ts, hf, hs, hk⟩ := h.faces
  have hlen : ts.length = rest.length := by simpa using congrArg List.length hk
  obtain ⟨u, hu⟩ := hs
  obtain ⟨-, rfl⟩ := List.append_inj' hu hlen
  exact hf

end Cursor

namespace Parse
variable {α β : Type} {all : List Token} {ks rest : List Kind} {room : Nat} {err : SyntaxFault → Prop}

theorem bind_ok {p : Parse α} {f : α → Parse β} {c d : Cursor} {a : α} (h : p c = .ok a d) : (p >>= f) c = f a d := by
  simp only [Bind.bind, EStateM.bind, h]

theorem bind_error {p : Parse α} {f : α → Parse β} {c d : Cursor} {e : SyntaxError} (h : p c = .error e d) :
    (p >>= f) c = .error e d := by
  simp only [Bind.bind, EStateM.bind, h]

/-- Started before tokens of the kinds `ks`, a reader answers a value that fits with the kinds it leaves,
    or fails with an accepted fault. -/
def Reads (p : Parse α) (all : List Token) (room : Nat) (ks : List Kind) (err : SyntaxFault → Prop)
    (Q : α → List Kind → Prop) : Prop :=
  ∀ c : Cursor, c.At all ks room →
    match p c with
    | .ok a d => ∃ rest, d.At all rest room ∧ Q a rest
    | .error e _ => err e.fault

namespace Reads
variable {p : Parse α} {Q Q' : α → List Kind → Prop}

theorem of_ok (h : ∀ c : Cursor, c.At all ks room → ∃ a d rest, p c = .ok a d ∧ d.At all rest room ∧ Q a rest) :
    p.Reads all room ks err Q := fun c hc => by
  obtain ⟨a, d, rest, hp, hd, hq⟩ := h c hc
  rw [hp]
  exact ⟨rest, hd, hq⟩

theorem imp (h : p.Reads all room ks err Q) {err' : SyntaxFault → Prop} (he : ∀ f, err f → err' f)
    (hq : ∀ a rest, Q a rest → Q' a rest) : p.Reads all room ks err' Q' := fun c hc => by
  have := h c hc
  split at this
  · obtain ⟨rest, hd, h⟩ := this
    exact ⟨rest, hd, hq _ _ h⟩
  · exact he _ this

theorem pure {a : α} (h : Q a ks) : (Pure.pure a : Parse α).Reads all room ks err Q :=
  of_ok fun c hc => ⟨a, c, ks, rfl, hc, h⟩

theorem bind {f : α → Parse β} {R : β → List Kind → Prop} (hp : p.Reads all room ks err Q)
    (hf : ∀ a rest, Q a rest → (f a).Reads all room rest err R) : (p >>= f).Reads all room ks err R := fun c hc => by
  have h := hp c hc
  split at h
  · next a d hpc =>
    obtain ⟨rest, hd, hq⟩ := h
    rw [bind_ok hpc]
    exact hf a rest hq d hd
  · next e d hpc =>
    rw [bind_error hpc]
    exact h

theorem ite {b : Prop} [Decidable b] {q : Parse α} (hp : b → p.Reads all room ks err Q)
    (hq : ¬b → q.Reads all room ks err Q) : (if b then p else q).Reads all room ks err Q := by
  split
  · next h => exact hp h
  · next h => exact hq h

/-- A named production needs room for one more. -/
theorem within {name : String} (hdeep : room = 0 → err (.tooDeeplyNested nestingLimit))
    (hp : ∀ r, room = r + 1 → p.Reads all r ks err Q) : (Parse.within name p).Reads all room ks err Q := by
  intro c hc
  unfold Parse.within
  have hroom := hc.room
  cases room with
  | zero =>
    rw [if_pos (by omega)]
    exact hdeep rfl
  | succ r =>
    rw [if_neg (by omega)]
    have h := hp r rfl { c with stack := c.stack ++ [name] } ⟨hc.faces, by simp only [List.length_append, List.length_singleton]; omega⟩
    cases hpc : p { c with stack := c.stack ++ [name] } with
    | ok a d =>
      rw [hpc] at h
      obtain ⟨rest, hd, hq⟩ := h
      refine ⟨rest, ⟨hd.faces, ?_⟩, hq⟩
      have := hd.room
      simp only [List.length_dropLast]
      omega
    | error e d =>
      rw [hpc] at h
      exact h

theorem repeatUpTo {step : α → Parse (ForInStep α)} {R : α → List Kind → Prop}
    (hstep : ∀ a ks, R a ks → (step a).Reads all room ks err fun r rest =>
      match r with
      | .done b => Q b rest
      | .yield b => R b rest ∧ rest.length < ks.length) :
    ∀ {bound : Nat} {a : α} {ks : List Kind}, ks.length < bound → R a ks →
      (Parse.repeatUpTo step bound a).Reads all room ks err Q := by
  intro bound
  induction bound with
  | zero => exact fun h => absurd h (Nat.not_lt_zero _)
  | succ bound ih =>
    intro a ks hlt hr
    refine (hstep a ks hr).bind fun r rest h => ?_
    cases r with
    | done b => exact .pure h
    | yield b => exact ih (by omega) h.1

/-- A loop keeps what each of its steps keeps, if a step that goes on leaves fewer tokens. -/
theorem loop {step : α → Parse (ForInStep α)} {R : α → List Kind → Prop} {a : α} (hr : R a ks)
    (hstep : ∀ a ks, R a ks → (step a).Reads all room ks err fun r rest =>
      match r with
      | .done b => Q b rest
      | .yield b => R b rest ∧ rest.length < ks.length) : (Parse.loop step a).Reads all room ks err Q := by
  intro c hc
  have hlt : ks.length < c.remaining + 1 := by rw [hc.remaining]; exact Nat.lt_succ_self _
  exact repeatUpTo hstep hlt hr c hc

end Reads

/-! ### Taking tokens -/

theorem advance_eq {c : Cursor} {ts : List Token} (h : c.input = ts.map .ok) :
    ∃ d, advance c = .ok () d ∧ d.Faces ts ∧ d.look ≠ .unread ∧ d.stack = c.stack := by
  unfold advance
  cases ts with
  | nil =>
    rw [h]
    exact ⟨_, rfl, ⟨rfl, rfl⟩, nofun, rfl⟩
  | cons t ts =>
    rw [h]
    exact ⟨_, rfl, ⟨ts, rfl, rfl⟩, nofun, rfl⟩

theorem begin_eq {c : Cursor} {ts : List Token} (h : c.Faces ts) :
    ∃ d, begin c = .ok () d ∧ d.Faces ts ∧ d.look ≠ .unread ∧ d.stack = c.stack := by
  cases hl : c.look with
  | unread =>
    have hi : c.input = ts.map .ok := by simpa only [Cursor.Faces, hl] using h
    obtain ⟨d, hd, hf, hu, hs⟩ := advance_eq hi
    exact ⟨d, by rw [begin, hl]; exact hd, hf, hu, hs⟩
  | token t => exact ⟨c, by rw [begin, hl], h, by simp [hl], rfl⟩
  | ended => exact ⟨c, by rw [begin, hl], h, by simp [hl], rfl⟩
  | poisoned =>
    simp only [Cursor.Faces, hl] at h

/-- A cursor shows the first of the tokens ahead of it. -/
theorem peek_eq {c : Cursor} {ts : List Token} (h : c.Faces ts) :
    ∃ d, peek c = .ok ts.head? d ∧ d.Faces ts ∧ (∀ t ∈ ts.head?, d.look = .token t) ∧ d.stack = c.stack := by
  obtain ⟨d, hb, hf, hu, hs⟩ := begin_eq h
  refine ⟨d, ?_, hf, ?_, hs⟩
  · refine (bind_ok hb).trans ?_
    cases hl : d.look with
    | unread => exact absurd hl hu
    | token t =>
      simp only [Cursor.Faces, hl] at hf
      obtain ⟨rest, rfl, -⟩ := hf
      rfl
    | ended =>
      simp only [Cursor.Faces, hl] at hf
      rw [hf.1]
      rfl
    | poisoned => simp only [Cursor.Faces, hl] at hf
  · intro t ht
    cases hl : d.look with
    | unread => exact absurd hl hu
    | token u =>
      simp only [Cursor.Faces, hl] at hf
      obtain ⟨rest, rfl, -⟩ := hf
      cases ht
      rfl
    | ended =>
      simp only [Cursor.Faces, hl] at hf
      rw [hf.1] at ht
      cases ht
    | poisoned => simp only [Cursor.Faces, hl] at hf

theorem takeNext_eq {c : Cursor} {t : Token} {ts : List Token} (h : c.Faces (t :: ts)) :
    ∃ d, takeNext c = .ok (some t) d ∧ d.Faces ts ∧ d.stack = c.stack := by
  obtain ⟨d, hp, hf, hl, hs⟩ := peek_eq h
  have hl := hl t rfl
  simp only [Cursor.Faces, hl] at hf
  obtain ⟨rest, hcons, hin⟩ := hf
  cases hcons
  obtain ⟨e, ha, hfe, -, hse⟩ := advance_eq (c := { d with last := some t.span }) hin
  refine ⟨e, ?_, hfe, hse.trans hs⟩
  rw [takeNext, bind_ok hp]
  show ((modify fun c => { c with last := some t.span }) >>= fun _ => advance >>= fun _ => pure (some t) : Parse _) d = _
  rw [bind_ok (rfl : (modify fun c : Cursor => { c with last := some t.span } : Parse _) d = .ok () _), bind_ok ha]
  rfl

namespace Reads

theorem peek : Parse.peek.Reads all room ks err fun o rest => rest = ks ∧ o.map (·.kind) = ks.head? :=
  of_ok fun c hc => by
    obtain ⟨ts, hf, hs, rfl⟩ := hc.faces
    obtain ⟨d, hp, hfd, -, hst⟩ := peek_eq hf
    exact ⟨_, d, _, hp, ⟨⟨ts, hfd, hs, rfl⟩, hst ▸ hc.room⟩, rfl, by simp⟩

theorem takeNext {k : Kind} :
    Parse.takeNext.Reads all room (k :: ks) err fun o rest => rest = ks ∧ ∃ t, o = some t ∧ t.kind = k :=
  of_ok fun c hc => by
    obtain ⟨ts, hf, hs, hk⟩ := hc.faces
    obtain ⟨t, ts, rfl, rfl, rfl⟩ := List.map_eq_cons_iff.mp hk
    obtain ⟨d, hp, hfd, hst⟩ := takeNext_eq hf
    exact ⟨_, d, _, hp, ⟨⟨ts, hfd, (List.suffix_cons t ts).trans hs, rfl⟩, hst ▸ hc.room⟩, rfl, t, rfl, rfl⟩

theorem acceptMap {meaning : Token → Option β} : (Parse.acceptMap meaning).Reads all room ks err fun o rest =>
    (∃ t, ks = t.kind :: rest ∧ (meaning t).isSome ∧ o = meaning t) ∨
      (o = none ∧ rest = ks ∧ ∀ k ∈ ks.head?, ∃ t : Token, t.kind = k ∧ meaning t = none) := by
  refine peek.bind fun o ks' ho => ?_
  obtain ⟨rfl, ho⟩ := ho
  cases o with
  | none => exact .pure (.inr ⟨rfl, rfl, fun k hk => by rw [← ho] at hk; cases hk⟩)
  | some t =>
    obtain ⟨ks, rfl⟩ : ∃ ks, ks' = t.kind :: ks := List.head?_eq_some_iff.mp ho.symm
    dsimp only
    cases hm : meaning t with
    | none => exact .pure (.inr ⟨rfl, rfl, fun k hk => ⟨t, Option.some.inj hk, hm⟩⟩)
    | some b =>
      refine takeNext.bind fun _ rest h => ?_
      obtain ⟨rfl, -⟩ := h
      exact .pure (.inl ⟨t, rfl, by rw [hm]; rfl, hm.symm⟩)

/-- A meaning that depends on the kind alone. -/
theorem acceptKind {meaning : Kind → Option β} :
    (Parse.acceptMap (meaning ·.kind)).Reads all room ks err fun o rest =>
      (∃ k b, ks = k :: rest ∧ meaning k = some b ∧ o = some b) ∨
        (o = none ∧ rest = ks ∧ ∀ k ∈ ks.head?, meaning k = none) := by
  refine acceptMap.imp (fun _ h => h) fun o rest h => ?_
  rcases h with ⟨t, rfl, hs, rfl⟩ | ⟨rfl, rfl, h⟩
  · obtain ⟨b, hb⟩ := Option.isSome_iff_exists.mp hs
    exact .inl ⟨t.kind, b, rfl, hb, hb⟩
  · refine .inr ⟨rfl, rfl, fun k hk => ?_⟩
    obtain ⟨t, rfl, ht⟩ := h k hk
    exact ht

theorem takeIf {w : Kind → Bool} : (Parse.takeIf (w ·.kind)).Reads all room ks err fun o rest =>
    (∃ t : Token, ks = t.kind :: rest ∧ w t.kind = true ∧ o = some t) ∨
      (o = none ∧ rest = ks ∧ ∀ k ∈ ks.head?, w k = false) := by
  refine peek.bind fun o ks' ho => ?_
  obtain ⟨rfl, ho⟩ := ho
  cases o with
  | none => exact .pure (.inr ⟨rfl, rfl, fun k hk => by rw [← ho] at hk; cases hk⟩)
  | some t =>
    obtain ⟨ks, rfl⟩ : ∃ ks, ks' = t.kind :: ks := List.head?_eq_some_iff.mp ho.symm
    refine .ite (fun hw => ?_) fun hw => ?_
    · refine takeNext.imp (fun _ h => h) fun o rest h => ?_
      obtain ⟨rfl, u, rfl, hu⟩ := h
      exact .inl ⟨u, by rw [hu], by rw [hu]; exact hw, rfl⟩
    · exact .pure (.inr ⟨rfl, rfl, fun k hk => by rw [← Option.some.inj hk]; simpa using hw⟩)

end Reads

end Parse

/-- A kind other than a float. -/
class Kind.Exact (k : Kind) : Prop where
  not_float : ∀ x, k ≠ .float x

namespace Kind

instance {s : Symbol} : Exact (.symbol s) := ⟨nofun⟩

instance {w : Keyword} : Exact (.keyword w) := ⟨nofun⟩

instance : Exact .newline := ⟨nofun⟩

instance : Exact .blockStart := ⟨nofun⟩

instance : Exact .blockEnd := ⟨nofun⟩

instance : Exact .endMarker := ⟨nofun⟩

/-- Kinds other than floats are the same only if they are equal. -/
theorem same_iff {k l : Kind} [hl : l.Exact] : k.same l = true ↔ k = l := by
  unfold Kind.same
  split
  · next x y => exact absurd rfl (hl.not_float y)
  · exact beq_iff_eq

end Kind

namespace Parse
variable {α β : Type} {all : List Token} {ks rest : List Kind} {room : Nat} {err : SyntaxFault → Prop} {kind : Kind}

namespace Reads

theorem accept [kind.Exact] : (Parse.accept kind).Reads all room ks err fun o rest =>
    (∃ t : Token, o = some t ∧ ks = kind :: rest) ∨ (o = none ∧ rest = ks ∧ ks.head? ≠ some kind) := by
  refine (takeIf (w := (·.same kind))).imp (fun _ h => h) fun o rest h => ?_
  rcases h with ⟨t, rfl, ht, rfl⟩ | ⟨rfl, rfl, h⟩
  · exact .inl ⟨t, rfl, by rw [Kind.same_iff.mp ht]⟩
  · refine .inr ⟨rfl, rfl, fun hs => ?_⟩
    have := h kind hs
    rw [Kind.same_iff.mpr rfl] at this
    cases this

theorem accept_next [kind.Exact] :
    (Parse.accept kind).Reads all room (kind :: ks) err fun o rest => (∃ t, o = some t) ∧ rest = ks := by
  refine accept.imp (fun _ h => h) fun o rest h => ?_
  rcases h with ⟨t, rfl, h⟩ | ⟨-, -, h⟩
  · exact ⟨⟨t, rfl⟩, (List.cons.inj h).2.symm⟩
  · exact absurd rfl h

theorem accept_other [kind.Exact] (h : ks.head? ≠ some kind) :
    (Parse.accept kind).Reads all room ks err fun o rest => o = none ∧ rest = ks := by
  refine accept.imp (fun _ h => h) fun o rest ho => ?_
  rcases ho with ⟨t, -, rfl⟩ | ⟨rfl, rfl, -⟩
  · exact absurd rfl h
  · exact ⟨rfl, rfl⟩

theorem sees [kind.Exact] : (Parse.sees kind).Reads all room ks err fun b rest =>
    rest = ks ∧ (b = true ↔ ks.head? = some kind) := by
  refine peek.bind fun o ks' ho => ?_
  obtain ⟨rfl, ho⟩ := ho
  refine .pure ⟨rfl, ?_⟩
  rw [← ho]
  cases o with
  | none => simp
  | some t => simpa using Kind.same_iff

theorem complaint_ok (fault : Token → SyntaxFault) (c : Cursor) : ∃ e d, complaint fault c = .ok e d := by
  unfold complaint
  split <;> exact ⟨_, _, rfl⟩

theorem failWanting {Q : α → List Kind → Prop} {names : List String} (h : ∀ f, err f) :
    (Parse.failWanting names : Parse α).Reads all room ks err Q := fun c _ => by
  obtain ⟨e, d, he⟩ := complaint_ok (fun t => .expectedToken names (some t)) c
  have hfail : (Parse.failWanting names : Parse α) c = .error e d := (bind_ok he).trans rfl
  rw [hfail]
  exact h e.fault

theorem failUnexpected {Q : α → List Kind → Prop} (h : ∀ f, err f) :
    (Parse.failUnexpected : Parse α).Reads all room ks err Q := fun c _ => by
  obtain ⟨e, d, he⟩ := complaint_ok .unexpectedToken c
  have hfail : (Parse.failUnexpected : Parse α) c = .error e d := (bind_ok he).trans rfl
  rw [hfail]
  exact h e.fault

/-- A wanted token is taken; all faults have to be accepted only where another one comes next. -/
theorem require [kind.Exact] {description : String} (herr : ks.head? ≠ some kind → ∀ f, err f) :
    (Parse.require kind description).Reads all room ks err fun _ rest => ks = kind :: rest := by
  refine accept.bind fun o ks' h => ?_
  rcases h with ⟨t, rfl, rfl⟩ | ⟨rfl, rfl, h⟩
  · exact .pure rfl
  · exact failWanting (herr h)

theorem require_next [kind.Exact] {description : String} :
    (Parse.require kind description).Reads all room (kind :: ks) err fun _ rest => rest = ks :=
  (require fun h => absurd rfl h).imp (fun _ h => h) fun _ _ h => (List.cons.inj h).2.symm

theorem requireName (herr : (∀ n, ks.head? ≠ some (.name n)) → ∀ f, err f) :
    Parse.requireName.Reads all room ks err fun r rest => ks = .name r.1 :: rest := by
  refine acceptMap.bind fun o ks' h => ?_
  rcases h with ⟨t, rfl, hs, rfl⟩ | ⟨rfl, rfl, h⟩
  · cases hk : t.kind with
    | name n =>
      simp only [hk] at hs ⊢
      exact .pure rfl
    | _ => simp [hk] at hs
  · refine failWanting (herr fun n hn => ?_)
    obtain ⟨t, ht, hnone⟩ := h _ hn
    simp [ht] at hnone

theorem requireName_next {n : String} :
    Parse.requireName.Reads all room (.name n :: ks) err fun r rest => r.1 = n ∧ rest = ks := by
  refine (requireName fun h => absurd rfl (h n)).imp (fun _ h => h) fun r rest h => ?_
  obtain ⟨hn, rfl⟩ := List.cons.inj h
  exact ⟨(Kind.name.inj hn).symm, rfl⟩

theorem spanFrom {start : Span} : (Parse.spanFrom start).Reads all room ks err fun _ rest => rest = ks :=
  of_ok fun c hc => ⟨_, c, ks, rfl, hc, rfl⟩

end Reads

/-! ### Readers of languages -/

/-- The fault of a reader that may open `room` productions, on words that need `depth` of them. -/
def TooDeep (room depth : Nat) (f : SyntaxFault) : Prop := room < depth ∧ f = .tooDeeplyNested nestingLimit

theorem TooDeep.succ {room depth : Nat} {f : SyntaxFault} (h : TooDeep room depth f) :
    TooDeep (room + 1) (depth + 1) f :=
  ⟨Nat.succ_lt_succ h.1, h.2⟩

/-- What follows does not go on with a phrase that the kinds in `more` extend. -/
def Stops (more : Kind → Bool) (rest : List Kind) : Prop := ∀ k ∈ rest.head?, more k = false

theorem stops_cons {more : Kind → Bool} {k : Kind} {ks : List Kind} (h : more k = false) : Stops more (k :: ks) :=
  fun _ hk => Option.some.inj hk ▸ h

theorem stops_nothing {ks : List Kind} : Stops (fun _ => false) ks := fun _ _ => rfl

theorem Stops.imp {more less : Kind → Bool} {ks : List Kind} (h : Stops more ks)
    (hl : ∀ k, less k = true → more k = true) : Stops less ks := fun k hk => by
  have := h k hk
  cases hless : less k with
  | false => rfl
  | true => rw [hl k hless] at this; cases this

theorem Stops.head?_ne {more : Kind → Bool} {k : Kind} {ks : List Kind} (h : Stops more ks) (hk : more k = true) :
    ks.head? ≠ some k := fun he => by
  have := h k he
  rw [hk] at this
  cases this

/-- A reader takes exactly the words of a language, which says for each depth what the words mean. On less
    than `n` tokens, what it takes is in the language as deep as there is room. Words in the language are
    taken whole where nothing that extends them follows, unless they are too deep. -/
structure Parses (p : Parse α) (view : α → β) (L : Nat → List Kind → β → Prop) (more : Kind → Bool)
    (n : Nat) : Prop where
  sound : ∀ {all room ks}, ks.length < n →
    p.Reads all room ks (fun _ => True) fun a rest => ∃ w, ks = w ++ rest ∧ L room w (view a)
  complete : ∀ {all room depth w rest b}, (w ++ rest).length < n → L depth w b → Stops more rest →
    p.Reads all room (w ++ rest) (TooDeep room depth) fun a left => left = rest ∧ view a = b

/-- The words that a production with a name of its own is read from. -/
def Opened (L : Nat → List Kind → β → Prop) : Nat → List Kind → β → Prop
  | 0, _, _ => False
  | depth + 1, w, b => L depth w b

namespace Parses
variable {p : Parse α} {view : α → β} {L L' : Nat → List Kind → β → Prop} {more : Kind → Bool} {n : Nat}

theorem congr (h : p.Parses view L more n) (hl : ∀ k w b, L k w b ↔ L' k w b) : p.Parses view L' more n where
  sound hlt := (h.sound hlt).imp (fun _ h => h) fun a rest => by
    rintro ⟨w, rfl, hw⟩
    exact ⟨w, rfl, (hl _ _ _).mp hw⟩
  complete hlt hw hstop := h.complete hlt ((hl _ _ _).mpr hw) hstop

theorem within {name : String} (h : p.Parses view L more n) : (Parse.within name p).Parses view (Opened L) more n where
  sound hlt := by
    refine .within (fun _ => trivial) fun r hr => ?_
    subst hr
    exact h.sound hlt
  complete {all room depth w rest b} hlt hw hstop := by
    cases depth with
    | zero => exact hw.elim
    | succ depth =>
      refine .within (fun h0 => ⟨by omega, rfl⟩) fun r hr => ?_
      subst hr
      exact (h.complete hlt hw hstop).imp (fun _ => TooDeep.succ) fun _ _ h => h

section
variable {w rest : List Token} {b : β} (h : ∀ n, p.Parses view L more n) (hstop : Stops more (rest.map (·.kind)))
include h hstop

/-- On a new cursor, a value is answered before the tokens `rest` exactly if the tokens before them mean it. -/
theorem ok_iff (hmono : ∀ {k m w b}, k ≤ m → L k w b → L m w b) :
    (∃ a d, p { input := (w ++ rest).map .ok } = .ok a d ∧ d.Faces rest ∧ view a = b) ↔
      ∃ depth ≤ nestingLimit, L depth (w.map (·.kind)) b := by
  have hat := Cursor.at_append w rest
  constructor
  · rintro ⟨a, d, hp, hd, rfl⟩
    have hread := (h _).sound (Nat.lt_succ_self _) _ hat
    rw [hp] at hread
    obtain ⟨left, hleft, u, hks, hu⟩ := hread
    obtain ⟨ts, hts, -, rfl⟩ := hleft.faces
    rw [hts.unique hd] at hks
    rw [List.append_cancel_right hks]
    exact ⟨nestingLimit, Nat.le_refl _, hu⟩
  · rintro ⟨depth, hle, hw⟩
    have hread := (h _).complete (Nat.lt_succ_self _) (hmono hle hw) hstop _ hat
    split at hread
    · next a d hp =>
      obtain ⟨_, hd, rfl, ha⟩ := hread
      exact ⟨a, d, hp, hd.faces_of_append, ha⟩
    · next e d hp => exact absurd hread.1 (Nat.lt_irrefl _)

/-- Words that need more productions than may be open are refused for that reason. -/
theorem error_of_too_deep {depth : Nat} (hw : L depth (w.map (·.kind)) b)
    (hdeep : ¬∃ k ≤ nestingLimit, L k (w.map (·.kind)) b) :
    ∃ e d, p { input := (w ++ rest).map .ok } = .error e d ∧ e.fault = .tooDeeplyNested nestingLimit := by
  have hat := Cursor.at_append w rest
  have hsound := (h _).sound (Nat.lt_succ_self _) _ hat
  have hread := (h _).complete (Nat.lt_succ_self _) hw hstop _ hat
  split at hread
  · next a d hp =>
    rw [hp] at hsound
    obtain ⟨left, hd, rfl, rfl⟩ := hread
    obtain ⟨left', hd', u, hks, hu⟩ := hsound
    obtain ⟨ts, hts, -, rfl⟩ := hd'.faces
    rw [hts.unique hd.faces_of_append] at hks
    rw [← List.append_cancel_right hks] at hu
    exact absurd ⟨nestingLimit, Nat.le_refl _, hu⟩ hdeep
  · next e d hp => exact ⟨e, d, hp, hread.2⟩

end

end Parses

end Parse

end Offside

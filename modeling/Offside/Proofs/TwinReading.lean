import Offside.Parse.Stmt
import Offside.Proofs.TokenTaking

/-! # Two streams read side by side

Two streams of tokens of the same kinds, with the same text, may differ in where their line breaks and block marks
stand. A reader cannot tell them apart: it answers the same for both, or fails for both. `Proceeds` follows the
tokens taken so far through a reader of such streams, one rule for each way to put readers together, and says at
once where an error points. Read beside itself, a stream has what its reader takes and where its reader fails. -/

namespace Offside

/-! ### Streams -/

/-- Tokens that a reader cannot tell apart. -/
structure Token.Alike (t t' : Token) : Prop where
  kind : t'.kind = t.kind
  text : t.kind.isText = true → t' = t

inductive Item.Alike : Item → Item → Prop
  | ok {t t' : Token} : t.Alike t' → Item.Alike (.ok t) (.ok t')
  | error (fault fault' : Fault) : Item.Alike (.error fault) (.error fault')

theorem Token.Alike.refl (t : Token) : t.Alike t := ⟨rfl, fun _ => rfl⟩

theorem Item.Alike.refl (item : Item) : item.Alike item := by
  cases item with
  | error fault => exact .error fault fault
  | ok t => exact .ok (.refl t)

/-- The tokens that stand for characters within a line. -/
def texts (w : List Token) : List Token := w.filter (·.kind.isText)

/-- The text of tokens follows one after the other. -/
def Ordered (ts : List Token) : Prop := (texts ts).Pairwise fun t u => t.span.stop ≤ u.span.offset

/-- Text in order, and no block without a token in it. -/
structure Proper (ts : List Token) : Prop where
  ordered : Ordered ts
  filled : ts.IsChain fun t t' => t.kind = .blockStart → t'.kind ≠ .blockEnd

section
variable {t : Token} {u v w : List Token}

theorem texts_append (w v : List Token) : texts (w ++ v) = texts w ++ texts v := List.filter_append ..

theorem texts_eq_self (h : ∀ t ∈ w, t.kind.isText = true) : texts w = w := List.filter_eq_self.mpr h

theorem texts_singleton (ht : t.kind.isText = true) : texts [t] = [t] := texts_eq_self (by simpa using ht)

theorem mem_texts : t ∈ texts w ↔ t ∈ w ∧ t.kind.isText = true := List.mem_filter

theorem Ordered.sublist (h : Ordered w) (hv : v.Sublist w) : Ordered v := List.Pairwise.sublist (hv.filter _) h

theorem Proper.left (h : Proper (u ++ v)) : Proper u :=
  ⟨h.ordered.sublist (List.sublist_append_left u v), h.filled.left_of_append⟩

theorem Proper.rest (h : Proper v) (hv : v = u ++ w) : Ordered w :=
  Ordered.sublist (hv ▸ h.ordered) (List.sublist_append_right u w)

end

/-- A stream that comes to an end. -/
structure Bounded (s : List Item) : Prop where
  ends : ∃ item ∈ s, ∀ t, item = .ok t → t.kind = .endMarker
  proper : Proper (soundOf s)

/-! ### Where errors point -/

/-- An error points to a token of the stream, or it is a fault of the stream and points behind the last token
    before it, with the line and column of the fault. -/
inductive SyntaxError.Points (s : List Item) (e : SyntaxError) : Prop
  | token {t : Token} {place : Span} : t ∈ soundOf s → (∀ f, e.fault ≠ .fault f) → e.location = some place →
    place.offset = t.span.offset → place.start = t.span.start → Points s e
  | fault {ts : List Token} {f : Fault} {rest : List Item} : s = ts.map .ok ++ .error f :: rest → e.fault = .fault f →
    e.location = some
      { offset := (ts.getLast?.map (·.span.stop)).getD 0, line := f.position.line, column := f.position.column } →
    Points s e

/-! ### Cursors -/

/-- Cursors at the same place of two streams, the first of which is `s`, each with a token in sight. -/
structure Twin (s : List Item) (c c' : Cursor) (u : List Token) : Prop where
  bounded : Bounded s
  behind : c.Behind s u
  plain : ∀ t ∈ u, t.kind ≠ .endMarker
  sight : ∃ t t', c.look = .token t ∧ c'.look = .token t'
  ahead : List.Forall₂ Item.Alike c.ahead c'.ahead
  last : ∀ t ∈ u.getLast?, t.kind.isText = true → c'.last = c.last
  stack : c'.stack = c.stack

/-- A cursor has taken the same tokens of a stream however one looks at it. -/
theorem Cursor.Behind.unique {c : Cursor} {s : List Item} {u v : List Token} (h : c.Behind s u) (h' : c.Behind s v) :
    u = v :=
  map_ok_inj (List.append_cancel_right (h.ahead.symm.trans h'.ahead))

namespace Twin
variable {s : List Item} {c c' : Cursor} {u : List Token}

/-- The tokens that the cursors see, and what stands behind them. -/
theorem exists_sight (h : Twin s c c' u) : ∃ t t', c.look = .token t ∧ c'.look = .token t' ∧ t.Alike t' ∧
    List.Forall₂ Item.Alike c.input c'.input ∧ s = u.map .ok ++ .ok t :: c.input := by
  obtain ⟨t, t', hl, hl'⟩ := h.sight
  have hahead := h.ahead
  have hs := h.behind.ahead
  simp only [Cursor.ahead, hl, hl'] at hahead hs
  obtain ⟨htoken, hinput⟩ := List.forall₂_cons.mp hahead
  cases htoken with
  | ok ht => exact ⟨t, t', hl, hl', ht, hinput, hs⟩

theorem proper (h : Twin s c c' u) : Proper u := by
  have hp := h.bounded.proper
  rw [h.behind.ahead, soundOf_map_append] at hp
  exact hp.left

theorem remaining (h : Twin s c c' u) : c'.remaining = c.remaining := by
  rw [Cursor.remaining_eq, Cursor.remaining_eq, h.ahead.length_eq]

/-- A token of the stream is in sight, and an error of the cursor points to it. -/
theorem points (h : Twin s c c' u) {fault : SyntaxFault} (hf : ∀ f, fault ≠ .fault f) : (c.error fault).Points s := by
  obtain ⟨t, -, hl, -, -, -, hs⟩ := h.exists_sight
  have hmem : t ∈ soundOf s := by
    rw [hs, soundOf_map_append]
    exact List.mem_append_right _ List.mem_cons_self
  have hlocation : (c.error fault).location = some t.span := by simp only [Cursor.error, Cursor.errorAt, hl]
  exact .token hmem hf hlocation rfl rfl

/-- What stands behind a token in sight that is not the end marker: another token, or a fault. -/
theorem input_ne_nil (h : Twin s c c' u) {t : Token} (hl : c.look = .token t) (ht : t.kind ≠ .endMarker) :
    c.input ≠ [] := by
  intro hnil
  obtain ⟨item, hmem, hend⟩ := h.bounded.ends
  rw [h.behind.ahead, Cursor.ahead, hl, hnil] at hmem
  have hnot : ∀ x : Token, .ok x = item → x.kind ≠ .endMarker → False := fun x hx hk => hk (hend x hx.symm)
  rcases List.mem_append.mp hmem with hmem | hmem
  · obtain ⟨x, hx, hitem⟩ := List.mem_map.mp hmem
    exact hnot x hitem (h.plain x hx)
  · exact hnot t (List.mem_singleton.mp hmem).symm ht

end Twin

namespace Parse
variable {s : List Item} {c c' : Cursor} {u : List Token} {t : Token}

theorem peek_of_look (h : c.look = .token t) : peek c = .ok (some t) c := by
  have hb : begin c = .ok () c := by rw [begin, h]
  refine (bind_ok hb).trans ?_
  rw [h]

theorem takeNext_of_look (h : c.look = .token t) :
    takeNext c = (do advance; return some t) { c with last := some t.span } :=
  (bind_ok (peek_of_look h)).trans rfl

theorem takeNext_token {x : Token} {rest : List Item} (h : c.look = .token t) (hi : c.input = .ok x :: rest) :
    takeNext c = .ok (some t) { c with input := rest, look := .token x, last := some t.span } := by
  rw [takeNext_of_look h]
  refine bind_ok (a := ()) ?_
  simp only [advance, hi]

theorem takeNext_fault {f : Fault} {rest : List Item} (h : c.look = .token t) (hi : c.input = .error f :: rest) :
    takeNext c = .error
      { fault := .fault f, stack := some c.stack
        location := some { offset := t.span.stop, line := f.position.line, column := f.position.column } }
      { c with input := rest, look := .poisoned, last := some t.span } := by
  rw [takeNext_of_look h]
  refine bind_error ?_
  simp only [advance, hi]
  rfl

theorem bind_congr_at {α β : Type} {p q : Parse α} {f : α → Parse β} (h : p c = q c') : (p >>= f) c = (q >>= f) c' := by
  simp only [Bind.bind, EStateM.bind, h]

theorem takeIf_of_look {wanted : Token → Bool} (h : c.look = .token t) :
    takeIf wanted c = if wanted t then takeNext c else .ok none c := by
  refine (bind_ok (peek_of_look h)).trans ?_
  dsimp only
  split <;> rfl

theorem accept_of_look {kind : Kind} [kind.Exact] (h : c.look = .token t) :
    accept kind c = if t.kind = kind then takeNext c else .ok none c := by
  rw [accept, takeIf_of_look h]
  exact if_congr Kind.same_iff rfl rfl

theorem acceptMap_of_look {β : Type} {meaning : Token → Option β} (h : c.look = .token t) :
    acceptMap meaning c = match meaning t with
      | none => .ok none c
      | some b => (takeNext >>= fun _ => pure (some b)) c := by
  refine (bind_ok (peek_of_look h)).trans ?_
  dsimp only
  cases meaning t <;> rfl

/-- The tokens in sight are taken from both streams, or a fault stands behind them in both. -/
theorem takeNext_twin (h : Twin s c c' u) {t' : Token} (hl : c.look = .token t) (hl' : c'.look = .token t')
    (ht : t.kind ≠ .endMarker) :
    (∃ d d', takeNext c = .ok (some t) d ∧ takeNext c' = .ok (some t') d' ∧ Twin s d d' (u ++ [t])) ∨
      ∃ e d e' d', takeNext c = .error e d ∧ takeNext c' = .error e' d' ∧ e.Points s := by
  obtain ⟨_, _, hsight, hsight', halike, hinput, hs⟩ := h.exists_sight
  obtain rfl := Lookahead.token.inj (hl.symm.trans hsight)
  obtain rfl := Lookahead.token.inj (hl'.symm.trans hsight')
  obtain ⟨item, rest, hi⟩ := List.exists_cons_of_ne_nil (h.input_ne_nil hl ht)
  obtain ⟨item', rest', hitem, hrest, hi'⟩ : ∃ item' rest', item.Alike item' ∧ List.Forall₂ Item.Alike rest rest' ∧
      c'.input = item' :: rest' := List.forall₂_cons_left_iff.mp (hi ▸ hinput)
  rw [hi] at hs
  cases hitem with
  | @ok x x' hx =>
    refine .inl ⟨_, _, takeNext_token hl hi, takeNext_token hl' hi', ?_⟩
    refine ⟨h.bounded, h.behind.concat ?_ rfl, ?_, ⟨x, x', rfl, rfl⟩, .cons (.ok hx) hrest, ?_, h.stack⟩
    · simp only [Cursor.ahead, hl, hi]
    · exact List.forall_mem_append.mpr ⟨h.plain, List.forall_mem_singleton.mpr ht⟩
    · intro y hy htext
      obtain rfl : t = y := by simpa using hy
      rw [halike.text htext]
  | error f f' =>
    refine .inr ⟨_, _, _, _, takeNext_fault hl hi, takeNext_fault hl' hi', ?_⟩
    have hfault : s = (u ++ [t]).map .ok ++ .error f :: rest := by
      rw [hs]
      simp
    exact .fault hfault rfl (by simp)

/-- How two readings come out: with one answer, or both with an error. -/
inductive Outcome {α : Type} (s : List Item) (Q : α → List Token → Prop) :
    EStateM.Result SyntaxError Cursor α → EStateM.Result SyntaxError Cursor α → Prop
  | ok {a : α} {d d' : Cursor} {v : List Token} : Twin s d d' v → Q a v → Outcome s Q (.ok a d) (.ok a d')
  | error {e e' : SyntaxError} {d d' : Cursor} : e.Points s → Outcome s Q (.error e d) (.error e' d')

namespace Outcome
variable {α β : Type} {p : Parse α} {Q R : α → List Token → Prop} {r r' : EStateM.Result SyntaxError Cursor α}

theorem imp (h : Outcome s Q r r') (hq : ∀ a v, Q a v → R a v) : Outcome s R r r' := by
  cases h with
  | ok hd hv => exact .ok hd (hq _ _ hv)
  | error he => exact .error he

/-- What else is known of the answer. -/
theorem and (h : Outcome s Q r r') (hr : ∀ ⦃a d d' v⦄, r = .ok a d → Twin s d d' v → R a v) :
    Outcome s (fun a v => Q a v ∧ R a v) r r' := by
  cases h with
  | ok hd hv => exact .ok hd ⟨hv, hr rfl hd⟩
  | error he => exact .error he

end Outcome

/-- Behind the tokens `u` a reader answers the same for two streams, and the answer fits with all tokens taken then,
    or it fails for both. -/
def Proceeds {α : Type} (p : Parse α) (s : List Item) (u : List Token) (Q : α → List Token → Prop) : Prop :=
  ∀ ⦃c c' : Cursor⦄, Twin s c c' u → Outcome s Q (p c) (p c')

/-- A reader goes on from where another one has come to. -/
theorem Outcome.bind {α β : Type} {p : Parse α} {f : α → Parse β} {Q : α → List Token → Prop}
    {R : β → List Token → Prop} (h : Outcome s Q (p c) (p c')) (hf : ∀ a v, Q a v → (f a).Proceeds s v R) :
    Outcome s R ((p >>= f) c) ((p >>= f) c') := by
  obtain ⟨r, hpc⟩ : ∃ r, p c = r := ⟨_, rfl⟩
  obtain ⟨r', hpc'⟩ : ∃ r', p c' = r' := ⟨_, rfl⟩
  rw [hpc, hpc'] at h
  cases h with
  | ok hd hv =>
    rw [bind_ok hpc, bind_ok hpc']
    exact hf _ _ hv hd
  | error he =>
    rw [bind_error hpc, bind_error hpc']
    exact .error he

namespace Proceeds
variable {α β : Type} {p : Parse α} {Q Q' : α → List Token → Prop}

theorem imp (h : p.Proceeds s u Q) (hq : ∀ a v, Q a v → Q' a v) : p.Proceeds s u Q' := fun _ _ hc => (h hc).imp hq

theorem pure {a : α} (h : Q a u) : (Pure.pure a : Parse α).Proceeds s u Q := fun _ _ hc => .ok hc h

theorem bind {f : α → Parse β} {R : β → List Token → Prop} (hp : p.Proceeds s u Q)
    (hf : ∀ a v, Q a v → (f a).Proceeds s v R) : (p >>= f).Proceeds s u R := fun _ _ hc => (hp hc).bind hf

theorem ite {b : Prop} [Decidable b] {q : Parse α} (hp : b → p.Proceeds s u Q) (hq : ¬b → q.Proceeds s u Q) :
    (if b then p else q).Proceeds s u Q := by
  split
  · next h => exact hp h
  · next h => exact hq h

/-- What is known of the tokens taken. -/
theorem known (h : Proper u → p.Proceeds s u Q) : p.Proceeds s u Q := fun _ _ hc => h hc.proper hc

/-- What is known of the rest of the stream. -/
theorem facing (h : ∀ rest, s = u.map .ok ++ rest → p.Proceeds s u Q) : p.Proceeds s u Q := fun _ _ hc =>
  h _ hc.behind.ahead hc

theorem both (h : p.Proceeds s u Q) (h' : p.Proceeds s u Q') : p.Proceeds s u fun a v => Q a v ∧ Q' a v := by
  intro c c' hc
  refine (h hc).and fun a d d' v hpc hd => ?_
  have h' := h' hc
  rw [hpc] at h'
  generalize p c' = r' at h'
  cases h' with
  | ok hd' hv => exact hd'.behind.unique hd.behind ▸ hv

/-- What is known of the tokens that a reader takes. -/
theorem walked (h : p.Proceeds s u Q) (hw : p.Walks s u Q') : p.Proceeds s u fun a v => Q a v ∧ Q' a v := by
  intro c c' hc
  refine (h hc).and fun a d d' v hpc hd => ?_
  obtain ⟨x, hx, hq⟩ := hw hc.behind hpc
  exact hx.unique hd.behind ▸ hq

/-- A reader that depends on how many tokens remain. -/
theorem counted {f : Nat → Parse α} (h : ∀ n, (f n).Proceeds s u Q) :
    Proceeds (fun c => f c.remaining c) s u Q := by
  intro c c' hc
  have hsame := h c.remaining hc
  rwa [← congrArg (f · c') hc.remaining] at hsame

/-- In a named production, the stack is not too deep. -/
theorem withinLimit {name : String}
    (hp : ∀ ⦃c c'⦄, Twin s c c' u → c.stack.length ≤ nestingLimit → Outcome s Q (p c) (p c')) :
    (Parse.within name p).Proceeds s u Q := by
  intro c c' hc
  unfold Parse.within
  rw [hc.stack]
  split
  · exact .error (hc.points nofun)
  · next hroom =>
    have hinner : Twin s { c with stack := c.stack ++ [name] } { c' with stack := c.stack ++ [name] } u :=
      ⟨hc.bounded, hc.behind.same rfl rfl, hc.plain, hc.sight, hc.ahead, hc.last, rfl⟩
    have hlimit : (c.stack ++ [name]).length ≤ nestingLimit := by
      rw [List.length_append]
      exact Nat.not_le.mp hroom
    have h := hp hinner hlimit
    generalize p { c with stack := c.stack ++ [name] } = r, p { c' with stack := c.stack ++ [name] } = r' at h
    cases h with
    | ok hd hv =>
      refine .ok ⟨hd.bounded, hd.behind.same rfl rfl, hd.plain, hd.sight, hd.ahead, hd.last, ?_⟩ hv
      exact congrArg List.dropLast hd.stack
    | error he => exact .error he

theorem within {name : String} (hp : p.Proceeds s u Q) : (Parse.within name p).Proceeds s u Q :=
  withinLimit fun _ _ hc _ => hp hc

theorem repeatUpTo {step : α → Parse (ForInStep α)} {R : α → List Token → Prop}
    (hstep : ∀ a v, R a v → (step a).Proceeds s v fun r v' =>
      match r with
      | .done b => Q b v'
      | .yield b => R b v' ∧ v.length < v'.length) :
    ∀ {bound : Nat} {a : α} {v : List Token}, s.length < v.length + bound → R a v →
      (Parse.repeatUpTo step bound a).Proceeds s v Q := by
  intro bound
  induction bound with
  | zero =>
    intro a v hlt _ c c' hc
    have := congrArg List.length hc.behind.ahead
    simp at this
    omega
  | succ bound ih =>
    intro a v hlt hr
    refine (hstep a v hr).bind fun r v' h => ?_
    cases r with
    | done b => exact .pure h
    | yield b => exact ih (by omega) h.1

/-- A loop keeps what each of its steps keeps, if a step that goes on takes a token. -/
theorem loop {step : α → Parse (ForInStep α)} {R : α → List Token → Prop} {a : α} (hr : R a u)
    (hstep : ∀ a v, R a v → (step a).Proceeds s v fun r v' =>
      match r with
      | .done b => Q b v'
      | .yield b => R b v' ∧ v.length < v'.length) : (Parse.loop step a).Proceeds s u Q := by
  intro c c' hc
  have hlen := congrArg List.length hc.behind.ahead
  simp only [List.length_append, List.length_map, ← c.remaining_eq] at hlen
  unfold Parse.loop
  rw [hc.remaining]
  exact repeatUpTo hstep (by omega) hr hc

/-! ### One token -/

/-- What a reader says of the token in sight, if that only depends on its kind. -/
theorem see {f : Kind → β} {g : Option Token → β} (hg : ∀ t, g (some t) = f t.kind) :
    (peek >>= fun o => Pure.pure (g o) : Parse β).Proceeds s u fun _ v => v = u := by
  intro c c' hc
  obtain ⟨t, t', hl, hl', halike, -⟩ := hc.exists_sight
  rw [bind_ok (peek_of_look hl), bind_ok (peek_of_look hl'), hg, hg, halike.kind]
  exact .ok hc rfl

theorem sees {kind : Kind} : (Parse.sees kind).Proceeds s u fun _ v => v = u :=
  see (f := (·.same kind)) fun _ => rfl

theorem seesExpr : Parse.seesExpr.Proceeds s u fun _ v => v = u := see (f := startsExpr) fun _ => rfl

/-- A token is in sight, so a reader that asks for one goes on. -/
theorem present {p q : Parse α} (h : p.Proceeds s u Q) :
    (do if (← peek).isNone then q else p : Parse α).Proceeds s u Q := by
  intro c c' hc
  obtain ⟨t, t', hl, hl', -⟩ := hc.exists_sight
  rw [bind_ok (peek_of_look hl), bind_ok (peek_of_look hl')]
  exact h hc

theorem complain (fault : Token → SyntaxFault) (hfault : ∀ t f, fault t ≠ .fault f) :
    (do throw (← complaint fault) : Parse α).Proceeds s u Q := by
  intro c c' hc
  obtain ⟨t, t', hl, hl', halike, -⟩ := hc.exists_sight
  have hcomplaint : complaint fault c = .ok (c.error (if t.kind = .endMarker then .unexpectedEnd else fault t)) c := by
    simp only [complaint, peek_of_look hl]
  have hcomplaint' :
      complaint fault c' = .ok (c'.error (if t'.kind = .endMarker then .unexpectedEnd else fault t')) c' := by
    simp only [complaint, peek_of_look hl']
  rw [bind_ok hcomplaint, bind_ok hcomplaint']
  refine .error (hc.points fun f => ?_)
  split
  · exact nofun
  · exact hfault t f

theorem failWanting {names : List String} : (Parse.failWanting names : Parse α).Proceeds s u Q :=
  complain _ fun _ _ => nofun

theorem failUnexpected : (Parse.failUnexpected : Parse α).Proceeds s u Q := complain _ fun _ _ => nofun

/-- Taking the tokens in sight, and what a reader does about them. -/
theorem taking {f : Option Token → Parse β} {Q : β → List Token → Prop} {t t' : Token} (hc : Twin s c c' u)
    (hl : c.look = .token t) (hl' : c'.look = .token t') (ht : t.kind ≠ .endMarker) (hf : f (some t') = f (some t))
    (h : (f (some t)).Proceeds s (u ++ [t]) Q) : Outcome s Q ((takeNext >>= f) c) ((takeNext >>= f) c') := by
  rcases takeNext_twin hc hl hl' ht with ⟨d, d', hd, hd', htwin⟩ | ⟨e, d, e', d', hd, hd', he⟩
  · rw [bind_ok hd, bind_ok hd', hf]
    exact h htwin
  · rw [bind_error hd, bind_error hd']
    exact .error he

theorem acceptMap {meaning : Token → Option β} (htext : ∀ t b, meaning t = some b → t.kind.isText = true)
    (hnone : ∀ t t', t'.kind = t.kind → meaning t = none → meaning t' = none) :
    (Parse.acceptMap meaning).Proceeds s u fun o v =>
      (o = none ∧ v = u) ∨ ∃ t b, o = some b ∧ meaning t = some b ∧ v = u ++ [t] := by
  intro c c' hc
  obtain ⟨t, t', hl, hl', halike, -⟩ := hc.exists_sight
  rw [acceptMap_of_look hl, acceptMap_of_look hl']
  cases hm : meaning t with
  | none =>
    rw [hnone t t' halike.kind hm]
    exact .ok hc (.inl ⟨rfl, rfl⟩)
  | some b =>
    have hkind := htext t b hm
    obtain rfl := halike.text hkind
    rw [hm]
    exact taking hc hl hl' (ne_endMarker_of_isText hkind) rfl (.pure (.inr ⟨_, b, rfl, hm, rfl⟩))

theorem acceptKind {meaning : Kind → Option β} (htext : ∀ k b, meaning k = some b → k.isText = true) :
    (Parse.acceptMap (meaning ·.kind)).Proceeds s u fun o v =>
      (o = none ∧ v = u) ∨ ∃ t b, o = some b ∧ meaning t.kind = some b ∧ v = u ++ [t] :=
  acceptMap (fun t b => htext t.kind b) fun t t' ht hnone => by rwa [ht]

theorem takeIf {f : Kind → Bool} (htext : ∀ k, f k = true → k.isText = true) :
    (Parse.takeIf (f ·.kind)).Proceeds s u fun o v =>
      (o = none ∧ v = u) ∨ ∃ t, o = some t ∧ f t.kind = true ∧ v = u ++ [t] := by
  intro c c' hc
  obtain ⟨t, t', hl, hl', halike, -⟩ := hc.exists_sight
  rw [takeIf_of_look hl, takeIf_of_look hl', halike.kind]
  split
  · next hw =>
    obtain rfl := halike.text (htext _ hw)
    have htake := taking (f := Pure.pure) hc hl hl' (ne_endMarker_of_isText (htext _ hw)) rfl
      (.pure (Q := fun o v => (o = none ∧ v = u) ∨ ∃ t, o = some t ∧ f t.kind = true ∧ v = u ++ [t])
        (.inr ⟨_, rfl, hw, rfl⟩))
    rwa [bind_pure] at htake
  · exact .ok hc (.inl ⟨rfl, rfl⟩)

section
variable {kind : Kind}

theorem accept [kind.Exact] (htext : kind.isText = true) :
    (Parse.accept kind).Proceeds s u fun o v =>
      (o = none ∧ v = u) ∨ ∃ t, o = some t ∧ t.kind = kind ∧ v = u ++ [t] := by
  refine (takeIf (f := (·.same kind)) fun k hsame => ?_).imp fun o v h => ?_
  · rwa [Kind.same_iff.mp hsame]
  · rcases h with h | ⟨t, rfl, ht, rfl⟩
    · exact .inl h
    · exact .inr ⟨t, rfl, Kind.same_iff.mp ht, rfl⟩

theorem require [kind.Exact] {description : String} (htext : kind.isText = true) :
    (Parse.require kind description).Proceeds s u fun t v => t.kind = kind ∧ v = u ++ [t] := by
  refine (accept htext).bind fun o v h => ?_
  rcases h with ⟨rfl, rfl⟩ | ⟨t, rfl, ht, rfl⟩
  · exact failWanting
  · exact .pure ⟨ht, rfl⟩

/-- Taking a line break or a block mark: which one it was is not looked at. -/
theorem mark [kind.Exact] {f : Option Token → Parse β} {Q : β → List Token → Prop} (hmarker : kind ≠ .endMarker)
    (hf : ∀ t t', f (some t) = f (some t')) (hnone : (f none).Proceeds s u Q)
    (hsome : ∀ t, t.kind = kind → (f (some t)).Proceeds s (u ++ [t]) Q) : (Parse.accept kind >>= f).Proceeds s u Q := by
  intro c c' hc
  obtain ⟨t, t', hl, hl', halike, -⟩ := hc.exists_sight
  have haccept : Parse.accept kind c = _ := accept_of_look hl
  have haccept' : Parse.accept kind c' = _ := accept_of_look hl'
  rw [halike.kind] at haccept'
  split at haccept
  · next ht =>
    rw [if_pos ht] at haccept'
    rw [bind_congr_at haccept, bind_congr_at haccept']
    exact taking hc hl hl' (ht ▸ hmarker) (hf t' t) (hsome t ht)
  · next ht =>
    rw [if_neg ht] at haccept'
    rw [bind_ok haccept, bind_ok haccept']
    exact hnone hc

theorem requireMark [kind.Exact] {f : Token → Parse β} {Q : β → List Token → Prop} {description : String}
    (hmarker : kind ≠ .endMarker) (hf : ∀ t t', f t = f t') (h : ∀ t, t.kind = kind → (f t).Proceeds s (u ++ [t]) Q) :
    (Parse.require kind description >>= f).Proceeds s u Q := by
  unfold Parse.require
  rw [bind_assoc]
  refine mark hmarker (fun t t' => ?_) ?_ fun t ht => ?_
  · simp only [pure_bind, hf t t']
  · exact failWanting.bind (Q := fun _ _ => False) fun _ _ h => h.elim
  · simpa only [pure_bind] using h t ht

end

theorem requireName : Parse.requireName.Proceeds s u fun r v =>
    ∃ t : Token, t.kind = .name r.1 ∧ t.span = r.2 ∧ v = u ++ [t] := by
  refine (acceptMap (fun t b hb => ?_) fun t t' ht hnone => ?_).bind fun o v h => ?_
  · split at hb
    · next hk => rw [hk]; rfl
    · cases hb
  · rw [ht]
    split at hnone
    · cases hnone
    · rfl
  · rcases h with ⟨rfl, rfl⟩ | ⟨t, b, rfl, ht, rfl⟩
    · exact failWanting
    · split at ht
      · next n hk =>
        obtain rfl := Option.some.inj ht
        exact .pure ⟨t, hk, rfl, rfl⟩
      · cases ht

/-- The span up to the last token, if that stands for text. -/
theorem spanFrom {start : Span} {w : List Token} {t : Token} (hlast : w.getLast? = some t) (ht : t.kind.isText = true) :
    (Parse.spanFrom start).Proceeds s (u ++ w) fun r v => r = start.join t.span ∧ v = u ++ w := by
  intro c c' hc
  have hw : (u ++ w).getLast? = some t := by simp [hlast]
  have hspan : c.last = some t.span := by rw [hc.behind.last, hw]; rfl
  have hspan' : c'.last = some t.span := by rw [hc.last t hw ht, hspan]
  have hfrom : ∀ {c : Cursor}, c.last = some t.span → Parse.spanFrom start c = .ok (start.join t.span) c := by
    intro c h
    have : c.spanFrom start = start.join t.span := by rw [Cursor.spanFrom, h]
    exact congrArg (EStateM.Result.ok · c) this
  rw [hfrom hspan, hfrom hspan']
  exact .ok hc ⟨rfl, rfl⟩

/-- An expression that cannot be assigned to is pointed to by where it starts. -/
theorem target {e : Expr} {t : Token} (ht : t ∈ u) (hoffset : e.span.offset = t.span.offset)
    (hstart : e.span.start = t.span.start) :
    (Parse.target e).Proceeds s u fun x v => targetOf e = .ok x ∧ v = u := by
  intro c c' hc
  unfold Parse.target
  cases htarget : targetOf e with
  | ok x => exact .ok hc ⟨rfl, rfl⟩
  | error found =>
    have hmem : t ∈ soundOf s := by
      rw [hc.behind.ahead, soundOf_map_append]
      exact List.mem_append_left _ ht
    exact .error (.token hmem nofun rfl hoffset hstart)

end Proceeds

/-- Wherever it stands, what a reader takes fits with its answer, and it answers the same for streams that it cannot
    tell apart. -/
def Yields {α : Type} (p : Parse α) (s : List Item) (L : α → List Token → Prop) : Prop :=
  ∀ u : List Token, p.Proceeds s u fun a v => ∃ w, v = u ++ w ∧ L a w

namespace Yields
variable {α β : Type} {p : Parse α} {L : α → List Token → Prop}

theorem bind {f : α → Parse β} {Q : β → List Token → Prop} (hp : p.Yields s L)
    (hf : ∀ a w, L a w → (f a).Proceeds s (u ++ w) Q) : (p >>= f).Proceeds s u Q := by
  refine (hp u).bind fun a v h => ?_
  obtain ⟨w, rfl, hw⟩ := h
  exact hf a w hw

theorem within {name : String} (h : p.Yields s L) : (Parse.within name p).Yields s L := fun u => (h u).within

theorem both {M : α → List Token → Prop} (h : p.Yields s L) (h' : p.Yields s M) :
    p.Yields s fun a w => L a w ∧ M a w := by
  refine fun u => ((h u).both (h' u)).imp fun a v hv => ?_
  obtain ⟨⟨w, rfl, hw⟩, w', hw', hm⟩ := hv
  obtain rfl := List.append_cancel_left hw'
  exact ⟨w, rfl, hw, hm⟩

theorem walked {M : α → List Token → Prop} (h : p.Yields s L) (h' : p.Takes M) :
    p.Yields s fun a w => L a w ∧ M a w := by
  refine fun u => ((h u).walked (h' s u)).imp fun a v hv => ?_
  obtain ⟨⟨w, rfl, hw⟩, w', hw', hm⟩ := hv
  obtain rfl := List.append_cancel_left hw'
  exact ⟨w, rfl, hw, hm⟩

end Yields

end Parse

end Offside

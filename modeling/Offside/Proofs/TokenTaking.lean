import Offside.Parse.Expr
import Offside.Proofs.Reading
import Offside.Proofs.TokenColumns

/-! # The tokens that readers take

A reader that answers has taken tokens off the stream. `Walks` follows the tokens taken so far through a
reader, one rule for each way to put readers together. Expressions take tokens of one line whose brackets
are closed, and the span of an expression starts where its first token does. -/

namespace Offside

/-- What a cursor has not taken. -/
def Cursor.ahead (c : Cursor) : List Item :=
  match c.look with
  | .token t => .ok t :: c.input
  | _ => c.input

/-- A cursor has taken the tokens `taken` from the start of a stream. -/
structure Cursor.Behind (c : Cursor) (stream : List Item) (taken : List Token) : Prop where
  ahead : stream = taken.map .ok ++ c.ahead
  last : c.last = taken.getLast?.map (·.span)

theorem Cursor.remaining_eq (c : Cursor) : c.remaining = c.ahead.length := by
  cases h : c.look <;> simp [remaining, ahead, h]

theorem Cursor.Behind.same {c d : Cursor} {stream : List Item} {u : List Token} (hc : c.Behind stream u)
    (hahead : d.ahead = c.ahead) (hlast : d.last = c.last) : d.Behind stream u :=
  ⟨by rw [hahead, hc.ahead], by rw [hlast, hc.last]⟩

theorem Cursor.Behind.concat {c d : Cursor} {stream : List Item} {u : List Token} {t : Token} (hc : c.Behind stream u)
    (hahead : c.ahead = .ok t :: d.ahead) (hlast : d.last = some t.span) : d.Behind stream (u ++ [t]) :=
  ⟨by rw [hc.ahead, hahead]; simp, by rw [hlast]; simp⟩

namespace Parse
variable {α β : Type} {stream : List Item} {u : List Token}

/-- Behind the tokens `u` of a stream, a reader that answers is left behind tokens that fit with its answer. -/
def Walks (p : Parse α) (stream : List Item) (u : List Token) (Q : α → List Token → Prop) : Prop :=
  ∀ ⦃c d : Cursor⦄ ⦃a : α⦄, c.Behind stream u → p c = .ok a d → ∃ v, d.Behind stream v ∧ Q a v

/-- Wherever it stands, what a reader takes fits with its answer. -/
def Takes (p : Parse α) (L : α → List Token → Prop) : Prop :=
  ∀ (stream : List Item) (u : List Token), p.Walks stream u fun a v => ∃ w, v = u ++ w ∧ L a w

namespace Walks
variable {p : Parse α} {Q Q' : α → List Token → Prop}

theorem imp (h : p.Walks stream u Q) (hq : ∀ a v, Q a v → Q' a v) : p.Walks stream u Q' := by
  intro c d a hc hp
  obtain ⟨v, hd, hv⟩ := h hc hp
  exact ⟨v, hd, hq a v hv⟩

theorem pure {a : α} (h : Q a u) : (Pure.pure a : Parse α).Walks stream u Q := by
  intro c d b hc hp
  obtain ⟨rfl, rfl⟩ := EStateM.Result.ok.inj hp
  exact ⟨u, hc, h⟩

theorem bind {f : α → Parse β} {R : β → List Token → Prop} (hp : p.Walks stream u Q)
    (hf : ∀ a v, Q a v → (f a).Walks stream v R) : (p >>= f).Walks stream u R := by
  intro c d b hc hb
  cases hpc : p c with
  | error e c' =>
    rw [bind_error hpc] at hb
    cases hb
  | ok a c' =>
    rw [bind_ok hpc] at hb
    obtain ⟨v, hv, hq⟩ := hp hc hpc
    exact hf a v hq hv hb

theorem ite {b : Prop} [Decidable b] {q : Parse α} (hp : p.Walks stream u Q) (hq : q.Walks stream u Q) :
    (if b then p else q).Walks stream u Q := by
  split
  · exact hp
  · exact hq

theorem of_error (h : ∀ c, ∃ e d, p c = .error e d) : p.Walks stream u Q := by
  intro c d a _ hp
  obtain ⟨e, d', he⟩ := h c
  rw [he] at hp
  cases hp

theorem within {name : String} (hp : p.Walks stream u Q) : (Parse.within name p).Walks stream u Q := by
  intro c d a hc h
  unfold Parse.within at h
  split at h
  · cases h
  · split at h
    · next b c' hpc =>
      obtain ⟨rfl, rfl⟩ := EStateM.Result.ok.inj h
      obtain ⟨v, hv, hq⟩ := hp (c := { c with stack := c.stack ++ [name] }) ⟨hc.ahead, hc.last⟩ hpc
      exact ⟨v, ⟨hv.ahead, hv.last⟩, hq⟩
    · cases h

theorem repeatUpTo {step : α → Parse (ForInStep α)} {R : α → List Token → Prop}
    (hstep : ∀ a v, R a v → (step a).Walks stream v fun r v' =>
      match r with
      | .done b => Q b v'
      | .yield b => R b v' ∧ v.length < v'.length) :
    ∀ {bound : Nat} {a : α} {v : List Token}, stream.length < v.length + bound → R a v →
      (Parse.repeatUpTo step bound a).Walks stream v Q := by
  intro bound
  induction bound with
  | zero =>
    intro a v hlt _ c d b hc _
    have := congrArg List.length hc.ahead
    simp at this
    omega
  | succ bound ih =>
    intro a v hlt hr
    refine (hstep a v hr).bind fun r v' h => ?_
    cases r with
    | done b => exact .pure h
    | yield b => exact ih (by omega) h.1

/-- A loop keeps what each of its steps keeps, if a step that goes on takes a token. -/
theorem loop {step : α → Parse (ForInStep α)} {R : α → List Token → Prop} {a : α} (hr : R a u)
    (hstep : ∀ a v, R a v → (step a).Walks stream v fun r v' =>
      match r with
      | .done b => Q b v'
      | .yield b => R b v' ∧ v.length < v'.length) : (Parse.loop step a).Walks stream u Q := by
  intro c d b hc h
  have hlen := congrArg List.length hc.ahead
  simp only [List.length_append, List.length_map, ← c.remaining_eq] at hlen
  exact repeatUpTo hstep (by omega) hr hc h

end Walks

/-! ### Taking one token -/

theorem exists_of_bind {p : Parse α} {f : α → Parse β} {c d : Cursor} {b : β} (h : (p >>= f) c = .ok b d) :
    ∃ a c', p c = .ok a c' ∧ f a c' = .ok b d := by
  cases hpc : p c with
  | error e c' =>
    rw [bind_error hpc] at h
    cases h
  | ok a c' =>
    rw [bind_ok hpc] at h
    exact ⟨a, c', rfl, h⟩

theorem ahead_of_advance {c d : Cursor} (h : advance c = .ok () d) : d.ahead = c.input ∧ d.last = c.last := by
  unfold advance at h
  split at h <;> cases h <;> simp_all [Cursor.ahead]

theorem ahead_of_begin {c d : Cursor} (h : begin c = .ok () d) : d.ahead = c.ahead ∧ d.last = c.last := by
  unfold begin at h
  split at h
  · next hl => simpa [Cursor.ahead, hl] using ahead_of_advance h
  · cases h
    exact ⟨rfl, rfl⟩

/-- Looking at a token does not take it. -/
theorem ahead_of_peek {c d : Cursor} {o : Option Token} (h : peek c = .ok o d) :
    d.ahead = c.ahead ∧ d.last = c.last ∧ ∀ t ∈ o, d.look = .token t := by
  obtain ⟨_, c', hb, h⟩ := exists_of_bind h
  obtain ⟨hahead, hlast⟩ := ahead_of_begin hb
  split at h
  · next t hl =>
    obtain ⟨rfl, rfl⟩ := EStateM.Result.ok.inj h
    exact ⟨hahead, hlast, fun u hu => by rw [hl, Option.some.inj hu]⟩
  · cases h
  · obtain ⟨rfl, rfl⟩ := EStateM.Result.ok.inj h
    exact ⟨hahead, hlast, by simp⟩

/-- The token that the cursor sees is the one that is taken. -/
theorem ahead_of_takeNext {c d : Cursor} {o : Option Token} {t : Token} (hl : c.look = .token t)
    (h : takeNext c = .ok o d) : o = some t ∧ c.ahead = .ok t :: d.ahead ∧ d.last = some t.span := by
  have hpeek : peek c = .ok (some t) c := by
    have hb : begin c = .ok () c := by rw [begin, hl]
    refine (bind_ok hb).trans ?_
    rw [hl]
  rw [takeNext, bind_ok hpeek] at h
  obtain ⟨_, c₁, hm, hrest⟩ := exists_of_bind h
  obtain ⟨_, c₂, ha, hpure⟩ := exists_of_bind hrest
  obtain ⟨-, rfl⟩ := EStateM.Result.ok.inj hm
  obtain ⟨rfl, rfl⟩ := EStateM.Result.ok.inj hpure
  obtain ⟨hahead, hlast⟩ := ahead_of_advance ha
  refine ⟨rfl, ?_, hlast⟩
  rw [hahead]
  simp [Cursor.ahead, hl]

namespace Walks

theorem peek : Parse.peek.Walks stream u fun _ v => v = u := by
  intro c d o hc h
  obtain ⟨hahead, hlast, -⟩ := ahead_of_peek h
  exact ⟨u, hc.same hahead hlast, rfl⟩

theorem acceptMap {meaning : Token → Option β} : (Parse.acceptMap meaning).Walks stream u fun o v =>
    (o = none ∧ v = u) ∨ ∃ t b, o = some b ∧ meaning t = some b ∧ v = u ++ [t] := by
  intro c d o hc h
  obtain ⟨o', c', hp, h⟩ := exists_of_bind h
  obtain ⟨hahead, hlast, hlook⟩ := ahead_of_peek hp
  have hc := hc.same hahead hlast
  cases o' with
  | none =>
    obtain ⟨rfl, rfl⟩ := EStateM.Result.ok.inj h
    exact ⟨u, hc, .inl ⟨rfl, rfl⟩⟩
  | some t =>
    dsimp only at h
    cases hb : meaning t with
    | none =>
      rw [hb] at h
      obtain ⟨rfl, rfl⟩ := EStateM.Result.ok.inj h
      exact ⟨u, hc, .inl ⟨rfl, rfl⟩⟩
    | some b =>
      rw [hb] at h
      obtain ⟨o, c₁, ht, h⟩ := exists_of_bind h
      obtain ⟨-, hahead, hlast⟩ := ahead_of_takeNext (hlook t rfl) ht
      obtain ⟨rfl, rfl⟩ := EStateM.Result.ok.inj h
      exact ⟨_, hc.concat hahead hlast, .inr ⟨t, b, rfl, hb, rfl⟩⟩

theorem takeIf {wanted : Token → Bool} : (Parse.takeIf wanted).Walks stream u fun o v =>
    (o = none ∧ v = u) ∨ ∃ t, o = some t ∧ wanted t = true ∧ v = u ++ [t] := by
  intro c d o hc h
  obtain ⟨o', c', hp, h⟩ := exists_of_bind h
  obtain ⟨hahead, hlast, hlook⟩ := ahead_of_peek hp
  have hc := hc.same hahead hlast
  cases o' with
  | none =>
    obtain ⟨rfl, rfl⟩ := EStateM.Result.ok.inj h
    exact ⟨u, hc, .inl ⟨rfl, rfl⟩⟩
  | some t =>
    dsimp only at h
    split at h
    · next hw =>
      obtain ⟨rfl, hahead, hlast⟩ := ahead_of_takeNext (hlook t rfl) h
      exact ⟨_, hc.concat hahead hlast, .inr ⟨t, rfl, hw, rfl⟩⟩
    · obtain ⟨rfl, rfl⟩ := EStateM.Result.ok.inj h
      exact ⟨u, hc, .inl ⟨rfl, rfl⟩⟩

theorem accept {kind : Kind} [kind.Exact] : (Parse.accept kind).Walks stream u fun o v =>
    (o = none ∧ v = u) ∨ ∃ t, o = some t ∧ t.kind = kind ∧ v = u ++ [t] := by
  refine takeIf.imp fun o v h => ?_
  rcases h with h | ⟨t, rfl, ht, rfl⟩
  · exact .inl h
  · exact .inr ⟨t, rfl, Kind.same_iff.mp ht, rfl⟩

theorem sees {kind : Kind} : (Parse.sees kind).Walks stream u fun _ v => v = u :=
  peek.bind fun _ _ h => .pure h

theorem seesExpr : Parse.seesExpr.Walks stream u fun _ v => v = u :=
  peek.bind fun _ _ h => .pure h

variable {Q : α → List Token → Prop}

theorem failWanting {names : List String} : (Parse.failWanting names : Parse α).Walks stream u Q :=
  of_error fun c => by
    obtain ⟨e, d, he⟩ := Reads.complaint_ok (fun t => .expectedToken names (some t)) c
    exact ⟨e, d, (bind_ok he).trans rfl⟩

theorem failUnexpected : (Parse.failUnexpected : Parse α).Walks stream u Q :=
  of_error fun c => by
    obtain ⟨e, d, he⟩ := Reads.complaint_ok .unexpectedToken c
    exact ⟨e, d, (bind_ok he).trans rfl⟩

theorem require {kind : Kind} [kind.Exact] {description : String} :
    (Parse.require kind description).Walks stream u fun t v => t.kind = kind ∧ v = u ++ [t] := by
  refine accept.bind fun o v h => ?_
  rcases h with ⟨rfl, -⟩ | ⟨t, rfl, ht, rfl⟩
  · exact failWanting
  · exact .pure ⟨ht, rfl⟩

theorem requireName : Parse.requireName.Walks stream u fun r v =>
    ∃ t : Token, t.kind = .name r.1 ∧ t.span = r.2 ∧ v = u ++ [t] := by
  refine acceptMap.bind fun o v h => ?_
  rcases h with ⟨rfl, -⟩ | ⟨t, b, rfl, ht, rfl⟩
  · exact failWanting
  · cases hk : t.kind with
    | name n =>
      rw [hk] at ht
      obtain rfl := Option.some.inj ht
      exact .pure ⟨t, hk, rfl, rfl⟩
    | _ => simp [hk] at ht

end Walks

theorem spanFrom_eq {start : Span} {w : List Token} {t : Token} (hlast : w.getLast? = some t) :
    (Parse.spanFrom start).Walks stream (u ++ w) fun s v => s = start.join t.span ∧ v = u ++ w := by
  intro c d s hc h
  obtain ⟨rfl, rfl⟩ := EStateM.Result.ok.inj h
  have hspan : c.last = some t.span := by
    rw [hc.last, List.getLast?_append, hlast]
    rfl
  exact ⟨_, hc, by simp [Cursor.spanFrom, hspan], rfl⟩

namespace Takes
variable {p : Parse α} {L : α → List Token → Prop}

theorem bind {f : α → Parse β} {Q : β → List Token → Prop} (hp : p.Takes L)
    (hf : ∀ a w, L a w → (f a).Walks stream (u ++ w) Q) : (p >>= f).Walks stream u Q := by
  refine (hp stream u).bind fun a v h => ?_
  obtain ⟨w, rfl, hw⟩ := h
  exact hf a w hw

theorem within {name : String} (h : p.Takes L) : (Parse.within name p).Takes L :=
  fun stream u => (h stream u).within

end Takes

end Parse

/-! ### Spans and brackets of tokens -/

/-- The tokens of text stand in the order of their offsets. -/
def InOrder (ts : List Token) : Prop :=
  ts.Pairwise fun t u => t.kind.isText = true → u.kind.isText = true → t.span.offset ≤ u.span.offset

/-- A span starts where the first of some tokens does. -/
def Starts (s : Span) (w : List Token) : Prop :=
  ∃ t rest, w = t :: rest ∧ t.kind.isText = true ∧
    (InOrder w → s.offset = t.span.offset ∧ s.column = t.span.column)

/-- A span starts where one of some tokens does. -/
def StartsIn (s : Span) (w : List Token) : Prop :=
  InOrder w → ∃ t ∈ w, t.kind.isText = true ∧ s.offset = t.span.offset

section
variable {s r : Span} {t : Token} {v w : List Token}

theorem InOrder.left (h : InOrder (w ++ v)) : InOrder w := (List.pairwise_append.mp h).1

theorem InOrder.right (h : InOrder (w ++ v)) : InOrder v := (List.pairwise_append.mp h).2.1

theorem starts_token (ht : t.kind.isText = true) (w : List Token) : Starts t.span (t :: w) :=
  ⟨t, w, rfl, ht, fun _ => ⟨rfl, rfl⟩⟩

theorem Starts.append (h : Starts s w) (v : List Token) : Starts s (w ++ v) := by
  obtain ⟨t, rest, rfl, ht, hs⟩ := h
  exact ⟨t, rest ++ v, rfl, ht, fun ho => hs ho.left⟩

theorem Starts.ne_nil (h : Starts s w) : w ≠ [] := by
  obtain ⟨t, rest, rfl, -⟩ := h
  simp

theorem Starts.startsIn (h : Starts s w) : StartsIn s w := by
  obtain ⟨t, rest, rfl, ht, hs⟩ := h
  exact fun ho => ⟨t, List.mem_cons_self, ht, (hs ho).1⟩

theorem startsIn_token (ht : t.kind.isText = true) (hmem : t ∈ w) : StartsIn t.span w := fun _ => ⟨t, hmem, ht, rfl⟩

theorem StartsIn.append_right (h : StartsIn s w) (v : List Token) : StartsIn s (w ++ v) := by
  intro ho
  obtain ⟨t, hmem, ht, hs⟩ := h ho.left
  exact ⟨t, List.mem_append_left _ hmem, ht, hs⟩

theorem StartsIn.append_left (h : StartsIn s w) (v : List Token) : StartsIn s (v ++ w) := by
  intro ho
  obtain ⟨t, hmem, ht, hs⟩ := h ho.right
  exact ⟨t, List.mem_append_right _ hmem, ht, hs⟩

/-- A span joined with one that does not start before it starts where it did. -/
theorem Starts.join (h : Starts s w) (hr : StartsIn r w) : Starts (s.join r) w := by
  obtain ⟨t, rest, rfl, ht, hs⟩ := h
  refine ⟨t, rest, rfl, ht, fun ho => ?_⟩
  obtain ⟨hoff, hcol⟩ := hs ho
  obtain ⟨u, hmem, hu, hroff⟩ := hr ho
  have hle : s.offset ≤ r.offset := by
    rw [hoff, hroff]
    rcases List.mem_cons.mp hmem with rfl | hmem
    · exact Nat.le_refl _
    · exact (List.pairwise_cons.mp ho).1 u hmem ht hu
  simp only [Span.join, hle, if_true, hcol, and_true]
  omega

end

/-- Whether a kind is text and no bracket. -/
def Kind.isFlat : Kind → Bool
  | .symbol .leftParen | .symbol .rightParen | .symbol .leftBracket | .symbol .rightBracket
  | .symbol .leftCurly | .symbol .rightCurly => false
  | k => k.isText

theorem Kind.isText_of_isFlat {k : Kind} (h : k.isFlat = true) : k.isText = true := by
  unfold isFlat at h
  split at h <;> simp_all

theorem Brackets.track_of_isFlat {k : Kind} (h : k.isFlat = true) (b : Brackets) : b.track k = b := by
  unfold Kind.isFlat at h
  split at h
  iterate 6 cases h
  unfold track
  split <;> simp_all

/-- Tokens of one line that close the brackets they open. -/
structure Flat (w : List Token) : Prop where
  text : ∀ t ∈ w, t.kind.isText = true
  closed : ∀ b : Brackets, (w.map (·.kind)).foldl Brackets.track b = b

namespace Flat
variable {t u : Token} {v w : List Token}

theorem nil : Flat [] := ⟨by simp, fun _ => rfl⟩

theorem append (hw : Flat w) (hv : Flat v) : Flat (w ++ v) where
  text x hx := (List.mem_append.mp hx).elim (hw.text x) (hv.text x)
  closed b := by rw [List.map_append, List.foldl_append, hw.closed, hv.closed]

theorem single (ht : t.kind.isFlat = true) : Flat [t] where
  text x hx := by rw [List.mem_singleton.mp hx]; exact Kind.isText_of_isFlat ht
  closed b := Brackets.track_of_isFlat ht b

theorem cons (ht : t.kind.isFlat = true) (hw : Flat w) : Flat (t :: w) := (single ht).append hw

theorem concat (hw : Flat w) (ht : t.kind.isFlat = true) : Flat (w ++ [t]) := hw.append (single ht)

theorem enclosed {l r : Symbol} (ht : t.kind = .symbol l) (hu : u.kind = .symbol r)
    (hpair : ∀ b : Brackets, (b.track (.symbol l)).track (.symbol r) = b) (hw : Flat w) : Flat (t :: (w ++ [u])) where
  text x hx := by
    rw [List.mem_cons, List.mem_append, List.mem_singleton] at hx
    rcases hx with rfl | hx | rfl
    · rw [ht]; rfl
    · exact hw.text x hx
    · rw [hu]; rfl
  closed b := by
    rw [List.map_cons, List.foldl_cons, List.map_append, List.foldl_append, hw.closed, ht]
    simpa [hu] using hpair b

end Flat

/-- Tokens of one line that a span covers from the first on. -/
structure Stretch (s : Span) (w : List Token) : Prop where
  starts : Starts s w
  flat : Flat w

namespace Stretch
variable {s r : Span} {t : Token} {v w : List Token}

theorem extend (h : Stretch s w) (hv : Flat v) : Stretch s (w ++ v) := ⟨h.starts.append v, h.flat.append hv⟩

theorem join (h : Stretch s w) (hr : StartsIn r w) : Stretch (s.join r) w := ⟨h.starts.join hr, h.flat⟩

theorem token (ht : t.kind.isFlat = true) : Stretch t.span [t] :=
  ⟨starts_token (Kind.isText_of_isFlat ht) [], .single ht⟩

/-- Two stretches with tokens between them are one, at the span around both. -/
theorem joined (h : Stretch s w) (hv : Flat v) {x : List Token} (hx : Stretch r x) : Stretch (s.join r) (w ++ v ++ x) :=
  ((h.extend hv).extend hx.flat).join (hx.starts.startsIn.append_left _)

end Stretch

namespace Parse
variable {α β : Type} {stream : List Item} {u w : List Token} {s : Span}

/-- The span from the start of tokens to the last of them. -/
theorem Walks.spanFrom (h : Stretch s w) : (Parse.spanFrom s).Walks stream (u ++ w) fun r v => Stretch r w ∧ v = u ++ w := by
  obtain ⟨t, ht⟩ := Option.isSome_iff_exists.mp (List.getLast?_isSome.mpr h.starts.ne_nil)
  refine (spanFrom_eq ht).imp fun r v hr => ?_
  obtain ⟨rfl, rfl⟩ := hr
  have hmem := List.mem_of_getLast? ht
  exact ⟨h.join (startsIn_token (h.flat.text t hmem) hmem), rfl⟩

/-! ### Expressions -/

/-- A reader of expressions takes the tokens that they stand at. -/
def Phrases (p : Parse Expr) : Prop := p.Takes fun e w => Stretch e.span w

theorem phrases_chain {operand : Parse Expr} {node? : Kind → Option (Expr → Expr → Expr)} (h : operand.Phrases)
    (hnode : ∀ k node, node? k = some node → k.isFlat = true ∧ ∀ l r : Expr, (node l r).span = l.span.join r.span) :
    (chain operand node?).Phrases := by
  intro stream u
  refine h.bind fun first w hw => ?_
  refine Walks.loop (R := fun e v => ∃ w, v = u ++ w ∧ Stretch e.span w) ⟨w, rfl, hw⟩ ?_
  rintro l _ ⟨w, rfl, hl⟩
  refine Walks.acceptMap.bind fun o v ho => ?_
  rcases ho with ⟨rfl, rfl⟩ | ⟨t, node, rfl, ht, rfl⟩
  · exact .pure ⟨w, rfl, hl⟩
  · obtain ⟨hflat, hspan⟩ := hnode _ _ ht
    refine h.bind fun r x hr => .pure ⟨⟨w ++ [t] ++ x, by simp, ?_⟩, by simp⟩
    rw [hspan]
    exact hl.joined (.single hflat) hr

theorem phrases_boolChain {operand : Parse Expr} (hop : operand.Phrases) (word : Keyword) (op : BoolOp) :
    (chain operand fun k => if k = .keyword word then some (boolNode op) else none).Phrases := by
  refine phrases_chain hop fun k node hk => ?_
  split at hk
  · next hword =>
    obtain rfl := Option.some.inj hk
    exact ⟨by rw [hword]; rfl, fun l r => rfl⟩
  · cases hk

theorem phrases_binaryFrom {operand : Parse Expr} (h : operand.Phrases) {levels : List (List (Symbol × BinaryOp))}
    (hlevels : ∀ ops ∈ levels, ∀ p ∈ ops, (Kind.symbol p.1).isFlat = true) : (binaryFrom operand levels).Phrases := by
  induction levels with
  | nil => exact h
  | cons ops levels ih =>
    obtain ⟨hops, hlevels⟩ := List.forall_mem_cons.mp hlevels
    refine phrases_chain (ih hlevels) fun k node hk => ?_
    split at hk
    · next s =>
      obtain ⟨op, hop, rfl⟩ := Option.map_eq_some_iff.mp hk
      obtain ⟨before, behind, rfl, -⟩ := List.lookup_eq_some_iff.mp hop
      exact ⟨hops (s, op) (by simp), fun l r => rfl⟩
    · cases hk

theorem flat_binaryLevels : ∀ ops ∈ binaryLevels, ∀ p ∈ ops, (Kind.symbol p.1).isFlat = true := by decide

theorem isFlat_of_compareOp {k : Kind} {op : CompareOp} (h : compareOp? k = some op) : k.isFlat = true := by
  unfold compareOp? at h
  split at h <;> first | rfl | cases h

theorem isFlat_of_signOp {k : Kind} {op : UnaryOp} (h : signOp? k = some op) : k.isFlat = true := by
  unfold signOp? at h
  split at h <;> first | rfl | cases h

theorem takes_comparisonOp : comparisonOp.Takes fun _ w => Flat w := by
  intro stream u
  refine Walks.acceptMap.bind fun o v ho => ?_
  rcases ho with ⟨rfl, rfl⟩ | ⟨t, op, rfl, ht, rfl⟩
  · refine (Walks.accept).bind fun o v ho => ?_
    rcases ho with ⟨rfl, rfl⟩ | ⟨t, rfl, ht, rfl⟩
    · refine (Walks.accept).bind fun o v ho => ?_
      rcases ho with ⟨rfl, rfl⟩ | ⟨t, rfl, ht, rfl⟩
      · exact .pure ⟨[], by simp, .nil⟩
      · refine (Walks.require).bind fun t' v ht' => ?_
        obtain ⟨ht', rfl⟩ := ht'
        exact .pure ⟨[t, t'], by simp, .cons (by rw [ht]; rfl) (.single (by rw [ht']; rfl))⟩
    · refine (Walks.accept).bind fun o v ho => ?_
      rcases ho with ⟨rfl, rfl⟩ | ⟨t', rfl, ht', rfl⟩
      · exact .pure ⟨[t], rfl, .single (by rw [ht]; rfl)⟩
      · exact .pure ⟨[t, t'], by simp, .cons (by rw [ht]; rfl) (.single (by rw [ht']; rfl))⟩
  · exact .pure ⟨[t], rfl, .single (isFlat_of_compareOp ht)⟩

/-- Items with commas between them, in front of the closing bracket. -/
theorem takes_commaList {item : Parse α} (h : item.Takes fun _ w => Flat w) {close : Symbol} {description : String} :
    (commaList item close description).Takes fun _ w => ∃ v t, w = v ++ [t] ∧ Flat v ∧ t.kind = .symbol close := by
  intro stream u
  refine Walks.bind (Q := fun _ v => ∃ w, v = u ++ w ∧ Flat w) ?_ fun items v hv => ?_
  · refine Walks.loop (R := fun _ v => ∃ w, v = u ++ w ∧ Flat w) ⟨[], by simp, .nil⟩ ?_
    rintro items _ ⟨w, rfl, hw⟩
    refine Walks.sees.bind fun b v hv => ?_
    subst hv
    refine .ite (.pure ⟨w, rfl, hw⟩) ?_
    refine h.bind fun a x hx => ?_
    refine (Walks.accept).bind fun o v ho => ?_
    rcases ho with ⟨rfl, rfl⟩ | ⟨t, rfl, ht, rfl⟩
    · exact .pure ⟨w ++ x, by simp, hw.append hx⟩
    · exact .pure ⟨⟨w ++ x ++ [t], by simp, (hw.append hx).concat (by rw [ht]; rfl)⟩, by simp⟩
  · obtain ⟨w, rfl, hw⟩ := hv
    refine (Walks.require).bind fun t v ht => ?_
    obtain ⟨ht, rfl⟩ := ht
    exact .pure ⟨w ++ [t], by simp, w, t, rfl, hw, ht⟩

theorem phrases_testlistOf {test : Parse Expr} (h : test.Phrases) : (testlistOf test).Phrases := by
  refine Takes.within fun stream u => ?_
  refine Takes.bind h.within fun first w hw => ?_
  refine Walks.sees.bind fun b v hv => ?_
  subst hv
  refine .ite (.pure ⟨w, rfl, hw⟩) ?_
  refine Walks.bind (Q := fun _ v => ∃ w, v = u ++ w ∧ Stretch first.span w) ?_ fun items v hv => ?_
  · refine Walks.loop (R := fun _ v => ∃ w, v = u ++ w ∧ Stretch first.span w) ⟨w, rfl, hw⟩ ?_
    rintro items _ ⟨w, rfl, hw⟩
    refine (Walks.accept).bind fun o v ho => ?_
    rcases ho with ⟨rfl, rfl⟩ | ⟨t, rfl, ht, rfl⟩
    · exact .pure ⟨w, rfl, hw⟩
    · have hcomma : Stretch first.span (w ++ [t]) := hw.extend (.single (by rw [ht]; rfl))
      refine Walks.seesExpr.bind fun b v hv => ?_
      subst hv
      refine .ite ?_ (.pure ⟨w ++ [t], by simp, hcomma⟩)
      refine Takes.bind h.within fun e x hx => ?_
      exact .pure ⟨⟨w ++ [t] ++ x, by simp, hcomma.extend hx.flat⟩, by simp⟩
  · obtain ⟨w, rfl, hw⟩ := hv
    refine (Walks.spanFrom hw).bind fun r v hr => ?_
    obtain ⟨hr, rfl⟩ := hr
    exact .pure ⟨w, rfl, hr⟩

section
variable {below : Rule → Parse Expr} (h : ∀ r, (below r).Phrases)
include h

theorem takes_below (r : Rule) : (below r).Takes fun _ w => Flat w :=
  fun stream u => (h r stream u).imp fun _ _ ⟨w, hw, hs⟩ => ⟨w, hw, hs.flat⟩

theorem takes_dictEntry : (dictEntry below).Takes fun _ w => Flat w := by
  intro stream u
  refine (takes_below h _).bind fun key w hw => ?_
  refine (Walks.require).bind fun t v ht => ?_
  obtain ⟨ht, rfl⟩ := ht
  rw [List.append_assoc]
  refine (takes_below h _).bind fun value x hx => ?_
  exact .pure ⟨w ++ [t] ++ x, by simp, (hw.concat (by rw [ht]; rfl)).append hx⟩

/-- What follows the first token of an atom closes the bracket that it opens. -/
theorem takes_atomBody {t : Token} (ht : startsAtom t.kind = true) : (atomBody below t).Takes fun _ w => Flat (t :: w) := by
  intro stream u
  have hplain : t.kind.isFlat = true → ∀ e : Expr, (pure e : Parse Expr).Walks stream u fun _ v => ∃ w, v = u ++ w ∧ Flat (t :: w) :=
    fun hk e => .pure ⟨[], by simp, .single hk⟩
  unfold atomBody
  split
  · next hk => exact hplain (by rw [hk]; rfl) _
  · next hk => exact hplain (by rw [hk]; rfl) _
  · next hk => exact hplain (by rw [hk]; rfl) _
  · next hk => exact hplain (by rw [hk]; rfl) _
  · next hk =>
    refine (Walks.accept).bind fun o v ho => ?_
    rcases ho with ⟨rfl, rfl⟩ | ⟨t', rfl, ht', rfl⟩
    · refine Takes.bind (phrases_testlistOf (h .test)) fun e w hw => ?_
      refine (Walks.require).bind fun t' v ht' => ?_
      obtain ⟨ht', rfl⟩ := ht'
      exact .pure ⟨w ++ [t'], by simp, hw.flat.enclosed hk ht' fun _ => rfl⟩
    · exact .pure ⟨[t'], rfl, Flat.nil.enclosed hk ht' fun _ => rfl⟩
  · next hk =>
    refine (takes_commaList (takes_below h .test)).bind fun items w hw => ?_
    obtain ⟨v, t', rfl, hv, ht'⟩ := hw
    exact .pure ⟨v ++ [t'], rfl, hv.enclosed hk ht' fun _ => rfl⟩
  · next hname hint hfloat hstring hround hsquare =>
    have hk : t.kind = .symbol .leftCurly := by
      unfold startsAtom at ht
      split at ht <;> simp_all
    refine (takes_commaList (takes_dictEntry h)).bind fun items w hw => ?_
    obtain ⟨v, t', rfl, hv, ht'⟩ := hw
    exact .pure ⟨v ++ [t'], rfl, hv.enclosed hk ht' fun _ => rfl⟩

theorem phrases_atom : (atom below).Phrases := by
  refine Takes.within fun stream u => ?_
  refine Walks.takeIf.bind fun o v ho => ?_
  rcases ho with ⟨rfl, rfl⟩ | ⟨t, rfl, ht, rfl⟩
  · exact .failWanting
  refine (takes_atomBody h ht).bind fun e w hw => ?_
  have hstretch : Stretch t.span (t :: w) := ⟨starts_token (hw.text t List.mem_cons_self) w, hw⟩
  rw [List.append_assoc]
  refine (Walks.spanFrom hstretch).bind fun r v hr => ?_
  obtain ⟨hr, rfl⟩ := hr
  exact .pure ⟨t :: w, rfl, by rw [Expr.span_withSpan]; exact hr⟩

theorem phrases_atomTrailers : (atomTrailers below).Phrases := by
  intro stream u
  refine Takes.bind (phrases_atom h) fun first w hw => ?_
  refine Walks.loop (R := fun e v => ∃ w, v = u ++ w ∧ Stretch e.span w) ⟨w, rfl, hw⟩ ?_
  rintro owner _ ⟨w, rfl, hw⟩
  refine (Walks.accept).bind fun o v ho => ?_
  rcases ho with ⟨rfl, rfl⟩ | ⟨t, rfl, ht, rfl⟩
  · refine (Walks.accept).bind fun o v ho => ?_
    rcases ho with ⟨rfl, rfl⟩ | ⟨t, rfl, ht, rfl⟩
    · exact .pure ⟨w, rfl, hw⟩
    · refine Walks.requireName.bind fun r v hr => ?_
      obtain ⟨t', ht', hspan, rfl⟩ := hr
      have htext : t'.kind.isText = true := by rw [ht']; rfl
      have hflat : Flat [t, t'] := .cons (by rw [ht]; rfl) (.single (by rw [ht']; rfl))
      refine .pure ⟨⟨w ++ [t, t'], by simp, ?_⟩, by simp⟩
      show Stretch (owner.span.join r.2) _
      rw [← hspan]
      exact (hw.extend hflat).join (startsIn_token htext (by simp))
  · refine (takes_commaList (takes_below h .test)).bind fun args x hx => ?_
    obtain ⟨v, t', rfl, hv, ht'⟩ := hx
    have hcall : Stretch owner.span (w ++ t :: (v ++ [t'])) := hw.extend (hv.enclosed ht ht' fun _ => rfl)
    have hassoc : u ++ w ++ [t] ++ (v ++ [t']) = u ++ (w ++ t :: (v ++ [t'])) := by simp
    rw [hassoc]
    refine (Walks.spanFrom hcall).bind fun r v hr => ?_
    obtain ⟨hr, rfl⟩ := hr
    exact .pure ⟨⟨_, rfl, hr⟩, by simp⟩

theorem phrases_power : (power below).Phrases := by
  intro stream u
  refine Takes.bind (phrases_atomTrailers h) fun base w hw => ?_
  refine (Walks.accept).bind fun o v ho => ?_
  rcases ho with ⟨rfl, rfl⟩ | ⟨t, rfl, ht, rfl⟩
  · exact .pure ⟨w, rfl, hw⟩
  · refine Takes.bind (h .factor) fun e x hx => ?_
    exact .pure ⟨w ++ [t] ++ x, by simp, hw.joined (.single (by rw [ht]; rfl)) hx⟩

theorem phrases_factorBody : (factorBody below).Phrases := by
  intro stream u
  refine Walks.acceptMap.bind fun o v ho => ?_
  rcases ho with ⟨rfl, rfl⟩ | ⟨t, b, rfl, ht, rfl⟩
  · exact phrases_power h stream _
  · obtain ⟨op, hop, rfl⟩ := Option.map_eq_some_iff.mp ht
    refine Takes.bind (h .factor).within fun e x hx => ?_
    exact .pure ⟨[t] ++ x, by simp, (Stretch.token (isFlat_of_signOp hop)).joined .nil hx⟩

theorem phrases_binary : (binary below).Phrases := phrases_binaryFrom (phrases_factorBody h) flat_binaryLevels

theorem phrases_comparison : (comparison below).Phrases := by
  intro stream u
  refine Takes.bind (phrases_binary h) fun left w hw => ?_
  refine takes_comparisonOp.bind fun o x hx => ?_
  cases o with
  | none => exact .pure ⟨w ++ x, by simp, hw.extend hx⟩
  | some op =>
    refine Takes.bind (phrases_binary h) fun right y hy => ?_
    exact .pure ⟨w ++ x ++ y, by simp, hw.joined hx hy⟩

theorem phrases_notTestBody : (notTestBody below).Phrases := by
  intro stream u
  refine (Walks.accept).bind fun o v ho => ?_
  rcases ho with ⟨rfl, rfl⟩ | ⟨t, rfl, ht, rfl⟩
  · exact phrases_comparison h stream _
  · refine Takes.bind (h .notTest).within fun e x hx => ?_
    exact .pure ⟨[t] ++ x, by simp, (Stretch.token (by rw [ht]; rfl)).joined .nil hx⟩

theorem phrases_orTest : (orTest below).Phrases :=
  phrases_boolChain (phrases_boolChain (phrases_notTestBody h) .andKw .and) .orKw .or

theorem phrases_testBody : (testBody below).Phrases := by
  intro stream u
  refine Takes.bind (phrases_orTest h) fun body w hw => ?_
  refine (Walks.accept).bind fun o v ho => ?_
  rcases ho with ⟨rfl, rfl⟩ | ⟨t, rfl, ht, rfl⟩
  · exact .pure ⟨w, rfl, hw⟩
  · refine Takes.bind (phrases_orTest h) fun test x hx => ?_
    refine (Walks.require).bind fun t' v ht' => ?_
    obtain ⟨ht', rfl⟩ := ht'
    refine Takes.bind (h .test) fun orelse y hy => ?_
    have hmiddle : Flat ([t] ++ x ++ [t']) := ((Flat.single (by rw [ht]; rfl)).append hx.flat).concat (by rw [ht']; rfl)
    exact .pure ⟨w ++ ([t] ++ x ++ [t']) ++ y, by simp, hw.joined hmiddle hy⟩

theorem phrases_rule (r : Rule) : (rule below r).Phrases := by
  cases r with
  | test => exact phrases_testBody h
  | notTest => exact phrases_notTestBody h
  | factor => exact phrases_factorBody h

end

theorem phrases_storey (height : Nat) (r : Rule) : (storey height r).Phrases := by
  induction height generalizing r with
  | zero => exact fun _ _ => .failUnexpected
  | succ height ih => exact phrases_rule ih r

theorem phrases_expr (r : Rule) : (expr r).Phrases := by
  intro stream u c d e hc h
  exact phrases_storey (c.remaining + 1) r stream u hc h

theorem phrases_test : test.Phrases := Takes.within (phrases_expr .test)

theorem phrases_testlist : testlist.Phrases := phrases_testlistOf (phrases_expr .test)

theorem phrases_operation : operation.Phrases := phrases_binaryFrom (phrases_expr .factor) flat_binaryLevels

end Parse

end Offside

import Offside.Proofs.TwinReading

/-! # The cursor as a list with a head

A cursor pulls items from a stream one ahead of those taken, and gives up what it sees while it pulls. What it answers
is nevertheless what a plain cursor answers, which has the whole list of items and looks at its head: `ask_plain` says
so of one call and `transcript_plain` of any number of calls, one after the other. Once a fault has come in sight, or
the end, this stays so. -/

namespace Offside

/-! ### Calls -/

/-- A call on a cursor. -/
inductive Ask where
  | peek
  | sees (kind : Kind)
  | takeNext
  | takeIf (wanted : Token → Bool)
  | require (kind : Kind) (description : String)
  | requireName

/-- What a call answers. -/
inductive Reply where
  | token (found : Option Token)
  | flag (holds : Bool)
  | name (text : String) (span : Span)
deriving DecidableEq, Repr

def Ask.run : Ask → Parse Reply
  | .peek => return .token (← Parse.peek)
  | .sees kind => return .flag (← Parse.sees kind)
  | .takeNext => return .token (← Parse.takeNext)
  | .takeIf wanted => return .token (← Parse.takeIf wanted)
  | .require kind description => return .token (some (← Parse.require kind description))
  | .requireName => do
    let (text, span) ← Parse.requireName
    return .name text span

/-- What a call leaves to be seen: its answer, whether the end has been seen, the span of the token taken last, and the
    items that have not been pulled from the stream. -/
structure Showing where
  answer : Except SyntaxError Reply
  atEnd : Bool
  last : Option Span
  unread : List Item

/-- The answer of a reader and the cursor behind it. -/
def answered : EStateM.Result SyntaxError Cursor Reply → Except SyntaxError Reply × Cursor
  | .ok reply c => (.ok reply, c)
  | .error e c => (.error e, c)

namespace Cursor

def ask (c : Cursor) (a : Ask) : Except SyntaxError Reply × Cursor := answered (a.run c)

def showing (c : Cursor) (answer : Except SyntaxError Reply) : Showing := ⟨answer, c.atEnd, c.last, c.input⟩

/-- What calls made one after the other show. -/
def transcript : Cursor → List Ask → List Showing
  | _, [] => []
  | c, a :: asks => (c.ask a).2.showing (c.ask a).1 :: (c.ask a).2.transcript asks

end Cursor

/-! ### The plain cursor -/

/-- What a call makes of the token that comes next. -/
inductive Reaction where
  /-- The token stays where it is. -/
  | leave (reply : Reply)
  /-- The token is taken. -/
  | take (reply : Reply)
  /-- The token is none of those named. -/
  | refuse (names : List String)

namespace Ask

def reaction : Ask → Token → Reaction
  | .peek, t => .leave (.token (some t))
  | .sees kind, t => .leave (.flag (t.kind.same kind))
  | .takeNext, t => .take (.token (some t))
  | .takeIf wanted, t => if wanted t then .take (.token (some t)) else .leave (.token none)
  | .require kind description, t =>
    if t.kind.same kind then .take (.token (some t)) else .refuse [description]
  | .requireName, t =>
    match t.kind with
    | .name n => .take (.name n t.span)
    | _ => .refuse ["name"]

/-- The answer to a call when no token comes next. -/
def pastEnd : Ask → Except SyntaxFault Reply
  | .peek | .takeNext | .takeIf _ => .ok (.token none)
  | .sees _ => .ok (.flag false)
  | .require .. | .requireName => .error .unexpectedEnd

end Ask

/-- A cursor over a list of items whose head comes next. -/
structure PlainCursor where
  items : List Item
  /-- The span of the token taken last. -/
  last : Option Span := none
  /-- Whether a fault has come in sight. -/
  broken : Bool := false
  stack : List String := []

namespace PlainCursor

def errorAt (p : PlainCursor) (location : Option Span) (fault : SyntaxFault) : SyntaxError :=
  { fault, location, stack := some p.stack }

/-- The place of a fault: its line and column, and the offset behind the token taken last. -/
def faultPlace (p : PlainCursor) (f : Fault) : Span :=
  { offset := (p.last.map Span.stop).getD 0, line := f.position.line, column := f.position.column }

/-- Looks at the head. A fault there is answered instead, and breaks the cursor. -/
def reach (p : PlainCursor) (answer : Except SyntaxError Reply) : Except SyntaxError Reply × PlainCursor :=
  match p.items with
  | .error f :: rest =>
    (.error (p.errorAt (some (p.faultPlace f)) (.fault f)), { p with items := rest, broken := true })
  | _ => (answer, p)

def ask (p : PlainCursor) (a : Ask) : Except SyntaxError Reply × PlainCursor :=
  if p.broken then (.error (p.errorAt (p.last.map Span.after) .poisoned), p)
  else match p.items with
    | .ok t :: rest =>
      match a.reaction t with
      | .leave reply => (.ok reply, p)
      | .take reply => reach { p with items := rest, last := some t.span } (.ok reply)
      | .refuse names =>
        let fault := if t.kind = .endMarker then .unexpectedEnd else .expectedToken names (some t)
        (.error (p.errorAt (some t.span) fault), p)
    | _ => p.reach (a.pastEnd.mapError (p.errorAt (p.last.map Span.after)))

/-- The head is pulled from the stream when it is looked at, so it is not among the unread items. -/
def showing (p : PlainCursor) (answer : Except SyntaxError Reply) : Showing :=
  ⟨answer, !p.broken && p.items.isEmpty, p.last, if p.broken then p.items else p.items.tail⟩

def transcript : PlainCursor → List Ask → List Showing
  | _, [] => []
  | p, a :: asks => (p.ask a).2.showing (p.ask a).1 :: (p.ask a).2.transcript asks

end PlainCursor

/-! ### One call -/

namespace Cursor

/-- The token that a cursor sees goes before what it has not pulled. -/
def plain (c : Cursor) : PlainCursor where
  items := match c.look with
    | .token t => .ok t :: c.input
    | _ => c.input
  last := c.last
  broken := c.look == .poisoned
  stack := c.stack

/-- A cursor that sees the end has nothing left to pull. -/
def Settled (c : Cursor) : Prop := c.look = .ended → c.input = []

variable {c d : Cursor}

/-- A cursor that has looked at its head shows what the plain one shows. -/
theorem showing_plain (h : c.Settled) (hl : c.look ≠ .unread) (answer : Except SyntaxError Reply) :
    c.showing answer = c.plain.showing answer := by
  unfold showing PlainCursor.showing atEnd plain
  cases hlook : c.look with
  | unread => exact absurd hlook hl
  | token t => rfl
  | ended =>
    rw [h hlook]
    rfl
  | poisoned => rfl

/-- What a cursor sees when it is made to look. -/
inductive Sight (c : Cursor) : Prop
  | token {t : Token} {d : Cursor} : Parse.peek c = .ok (some t) d → d.look = .token t → d.plain = c.plain → Sight c
  | ended {d : Cursor} : Parse.peek c = .ok none d → d.look = .ended → d.input = [] → d.plain = c.plain → Sight c
  | fault {f : Fault} {rest : List Item} {d : Cursor} : c.plain.broken = false → c.plain.items = .error f :: rest →
    Parse.peek c = .error (c.plain.errorAt (some (c.plain.faultPlace f)) (.fault f)) d →
    d.look = .poisoned → d.plain = { c.plain with items := rest, broken := true } → Sight c
  | poisoned : c.look = .poisoned →
    Parse.peek c = .error (c.plain.errorAt (c.plain.last.map Span.after) .poisoned) c → Sight c

theorem Settled.sight (h : c.Settled) : c.Sight := by
  obtain ⟨input, look, last, stack⟩ := c
  cases look with
  | unread =>
    cases input with
    | nil => exact .ended rfl rfl rfl rfl
    | cons item rest =>
      cases item with
      | ok t => exact .token rfl rfl rfl
      | error f => exact .fault rfl rfl rfl rfl rfl
  | token t => exact .token rfl rfl rfl
  | ended => exact .ended rfl rfl (h rfl) rfl
  | poisoned => exact .poisoned rfl rfl

end Cursor

namespace Ask
variable {c d : Cursor} {e : SyntaxError} {t : Token}
open Parse

/-- Every call looks first, and answers the error of that look. -/
theorem run_error (h : Parse.peek c = .error e d) (a : Ask) : a.run c = .error e d := by
  cases a with
  | peek => exact bind_error h
  | sees kind => exact bind_error (bind_error h)
  | takeNext => exact bind_error (bind_error h)
  | takeIf wanted => exact bind_error (bind_error h)
  | require kind description => exact bind_error (bind_error (bind_error h))
  | requireName => exact bind_error (bind_error (bind_error h))

/-- Every call looks first, and asks nothing else of the cursor before that. -/
theorem run_congr (h : Parse.peek c = Parse.peek d) (a : Ask) : a.run c = a.run d := by
  have hlook {α : Type} {f : Option Token → Parse α} : (Parse.peek >>= f) c = (Parse.peek >>= f) d := bind_congr_at h
  cases a with
  | peek => exact hlook
  | sees kind => exact bind_congr_at hlook
  | takeNext => exact bind_congr_at hlook
  | takeIf wanted => exact bind_congr_at hlook
  | require kind description => exact bind_congr_at (bind_congr_at hlook)
  | requireName => exact bind_congr_at (bind_congr_at hlook)

theorem peek_of_ended (h : c.look = .ended) : Parse.peek c = .ok none c := by
  have hb : begin c = .ok () c := by rw [begin, h]
  refine (bind_ok hb).trans ?_
  rw [h]

theorem failWanting_of_ended {α : Type} {names : List String} (h : c.look = .ended) :
    (failWanting names : Parse α) c = .error (c.error .unexpectedEnd) c := by
  have hexpected : expected names c = .ok (c.error .unexpectedEnd) c := by
    rw [expected, complaint, peek_of_ended h]
  exact bind_ok hexpected

theorem failWanting_of_look {α : Type} {names : List String} (h : c.look = .token t) :
    (failWanting names : Parse α) c =
      .error (c.error (if t.kind = .endMarker then .unexpectedEnd else .expectedToken names (some t))) c := by
  have hexpected : expected names c =
      .ok (c.error (if t.kind = .endMarker then .unexpectedEnd else .expectedToken names (some t))) c := by
    rw [expected, complaint, peek_of_look h]
  exact bind_ok hexpected

/-- Past the end a call answers nothing, or fails where a token is required. -/
theorem run_of_ended (h : c.look = .ended) (a : Ask) :
    a.run c = match a.pastEnd with
      | .ok reply => .ok reply c
      | .error fault => .error (c.error fault) c := by
  have hlook := peek_of_ended h
  have hnothing {wanted : Token → Bool} : Parse.takeIf wanted c = .ok none c := bind_ok hlook
  have hmeaning {β : Type} {meaning : Token → Option β} : acceptMap meaning c = .ok none c := bind_ok hlook
  cases a with
  | peek => exact bind_ok hlook
  | sees kind => exact bind_ok (bind_ok hlook)
  | takeNext => exact bind_ok (bind_ok hlook)
  | takeIf wanted => exact bind_ok hnothing
  | require kind description => exact bind_error ((bind_ok hnothing).trans (failWanting_of_ended h))
  | requireName => exact bind_error ((bind_ok hmeaning).trans (failWanting_of_ended h))

/-- A call that takes the token in sight answers it, or the fault that stands behind it. -/
theorem eq_of_takeNext {α : Type} {a : α} {p : Parse α} (h : c.look = .token t)
    (hok : ∀ d, Parse.takeNext c = .ok (some t) d → p c = .ok a d)
    (herror : ∀ e d, Parse.takeNext c = .error e d → p c = .error e d) :
    p c = (Parse.takeNext >>= fun _ => pure a) c := by
  have htake := takeNext_of_look h
  cases hadvance : Parse.advance { c with last := some t.span } with
  | ok u d =>
    have hd : Parse.takeNext c = .ok (some t) d := htake.trans (bind_ok hadvance)
    rw [hok d hd, bind_ok hd]
    rfl
  | error e d =>
    have hd : Parse.takeNext c = .error e d := htake.trans (bind_error hadvance)
    rw [herror e d hd, bind_error hd]

theorem requireName_of_name {n : String} (h : c.look = .token t) (hk : t.kind = .name n) :
    Parse.requireName c = (Parse.takeNext >>= fun _ => pure (n, t.span)) c := by
  refine eq_of_takeNext h (fun d hd => bind_ok (a := some (n, t.span)) ((acceptMap_of_look h).trans ?_))
    fun e d hd => bind_error ((acceptMap_of_look h).trans ?_)
  · simp only [hk]
    exact bind_ok hd
  · simp only [hk]
    exact bind_error hd

theorem requireName_of_other (h : c.look = .token t) (hk : ∀ n, t.kind ≠ .name n) :
    Parse.requireName c = failWanting ["name"] c := by
  refine bind_ok (a := none) ((acceptMap_of_look h).trans ?_)
  cases hkind : t.kind with
  | name n => exact absurd hkind (hk n)
  | _ => rfl

/-- A token in sight is taken, left or refused. -/
theorem run_of_look (h : c.look = .token t) (a : Ask) :
    a.run c = match a.reaction t with
      | .leave reply => .ok reply c
      | .take reply => (Parse.takeNext >>= fun _ => pure reply) c
      | .refuse names =>
        .error (c.error (if t.kind = .endMarker then .unexpectedEnd else .expectedToken names (some t))) c := by
  have hlook := peek_of_look h
  cases a with
  | peek => exact bind_ok hlook
  | sees kind => exact bind_ok (bind_ok hlook)
  | takeNext => exact eq_of_takeNext h (fun d hd => bind_ok hd) fun e d hd => bind_error hd
  | takeIf wanted =>
    have hif : Parse.takeIf wanted c = if wanted t then Parse.takeNext c else .ok none c := takeIf_of_look h
    by_cases hw : wanted t = true
    · simp only [reaction, hw, if_true] at hif ⊢
      exact eq_of_takeNext h (fun d hd => bind_ok (hif.trans hd)) fun e d hd => bind_error (hif.trans hd)
    · simp only [reaction, hw] at hif ⊢
      exact bind_ok hif
  | require kind description =>
    have hif : accept kind c = if t.kind.same kind then Parse.takeNext c else .ok none c := takeIf_of_look h
    by_cases hw : t.kind.same kind = true
    · simp only [reaction, hw, if_true] at hif ⊢
      exact eq_of_takeNext h (fun d hd => bind_ok (bind_ok (hif.trans hd)))
        fun e d hd => bind_error (bind_error (hif.trans hd))
    · simp only [reaction, hw] at hif ⊢
      exact bind_error ((bind_ok hif).trans (failWanting_of_look h))
  | requireName =>
    cases hk : t.kind with
    | name n =>
      have hname := requireName_of_name h hk
      simp only [reaction, hk]
      exact eq_of_takeNext h (fun d hd => bind_ok (hname.trans (bind_ok hd)))
        fun e d hd => bind_error (hname.trans (bind_error hd))
    | _ =>
      have hother := requireName_of_other h (by simp [hk])
      simp only [reaction, hk]
      exact bind_error (hother.trans ((failWanting_of_look h).trans (by simp [hk])))

end Ask

/-! ### Any number of calls -/

namespace Cursor
variable {c d : Cursor} {t : Token}

/-- The same answer from both, and cursors before the same items. -/
structure InStep (r : Except SyntaxError Reply × Cursor) (q : Except SyntaxError Reply × PlainCursor) : Prop where
  answer : r.1 = q.1
  plain : r.2.plain = q.2
  settled : r.2.Settled
  looked : r.2.look ≠ .unread

/-- Taking the token in sight is to look at what stands behind it. -/
theorem inStep_takeNext (h : c.look = .token t) (reply : Reply) :
    InStep (answered ((Parse.takeNext >>= fun _ => pure reply) c))
      (PlainCursor.reach { c.plain with items := c.input, last := some t.span } (.ok reply)) := by
  obtain ⟨input, look, last, stack⟩ := c
  cases h
  cases input with
  | nil => exact ⟨rfl, rfl, fun _ => rfl, by nofun⟩
  | cons item rest =>
    cases item with
    | ok t => exact ⟨rfl, rfl, nofun, nofun⟩
    | error f => exact ⟨rfl, rfl, nofun, nofun⟩

theorem inStep_of_look (h : c.look = .token t) (a : Ask) : InStep (c.ask a) (c.plain.ask a) := by
  have htake := inStep_takeNext h
  have hplain : c.plain = { items := .ok t :: c.input, last := c.last, stack := c.stack } := by
    rw [plain, h]
    rfl
  have hsettled : c.Settled := fun hended => nomatch h.symm.trans hended
  have hlooked : c.look ≠ .unread := fun hunread => nomatch h.symm.trans hunread
  rw [ask, Ask.run_of_look h]
  rw [hplain] at htake ⊢
  simp only [PlainCursor.ask, Bool.false_eq_true, if_false]
  cases a.reaction t with
  | leave reply => exact ⟨rfl, hplain, hsettled, hlooked⟩
  | take reply => exact htake reply
  | refuse names =>
    refine ⟨?_, hplain, hsettled, hlooked⟩
    simp only [answered, error, h]
    rfl

theorem inStep_of_ended (h : c.look = .ended) (hi : c.input = []) (a : Ask) : InStep (c.ask a) (c.plain.ask a) := by
  have hplain : c.plain = { items := [], last := c.last, stack := c.stack } := by
    rw [plain, h, hi]
    rfl
  have hlooked : c.look ≠ .unread := fun hunread => nomatch h.symm.trans hunread
  have hask : c.plain.ask a = (a.pastEnd.mapError (c.plain.errorAt (c.last.map Span.after)), c.plain) := by
    rw [hplain]
    rfl
  rw [ask, Ask.run_of_ended h, hask]
  cases a.pastEnd with
  | ok reply => exact ⟨rfl, rfl, fun _ => hi, hlooked⟩
  | error fault =>
    refine ⟨?_, rfl, fun _ => hi, hlooked⟩
    simp only [answered, error, h]
    rfl

/-- A cursor answers a call as the plain cursor does, and stays in step with it. -/
theorem ask_plain (h : c.Settled) (a : Ask) : InStep (c.ask a) (c.plain.ask a) := by
  cases h.sight with
  | @token t d hpeek hlook hplain =>
    have hrun : a.run c = a.run d := a.run_congr (hpeek.trans (Parse.peek_of_look hlook).symm)
    rw [ask, hrun, ← hplain]
    exact inStep_of_look hlook a
  | @ended d hpeek hlook hinput hplain =>
    have hrun : a.run c = a.run d := a.run_congr (hpeek.trans (Ask.peek_of_ended hlook).symm)
    rw [ask, hrun, ← hplain]
    exact inStep_of_ended hlook hinput a
  | @fault f rest d hsound hitems hpeek hlook hplain =>
    have hsettled : d.Settled := fun hended => nomatch hlook.symm.trans hended
    have hlooked : d.look ≠ .unread := fun hunread => nomatch hlook.symm.trans hunread
    rw [ask, Ask.run_error hpeek]
    simp only [PlainCursor.ask, PlainCursor.reach, hsound, hitems, Bool.false_eq_true, if_false]
    exact ⟨rfl, hplain, hsettled, hlooked⟩
  | poisoned hlook hpeek =>
    have hbroken : c.plain.broken = true := by rw [plain, hlook]; rfl
    have hlooked : c.look ≠ .unread := fun hunread => nomatch hlook.symm.trans hunread
    rw [ask, Ask.run_error hpeek]
    simp only [PlainCursor.ask, hbroken, if_true]
    exact ⟨rfl, rfl, h, hlooked⟩

/-- A cursor answers calls, however many, as the plain cursor does. -/
theorem transcript_plain (h : c.Settled) (asks : List Ask) : c.transcript asks = c.plain.transcript asks := by
  induction asks generalizing c with
  | nil => rfl
  | cons a asks ih =>
    have hstep := ask_plain h a
    rw [transcript, PlainCursor.transcript, showing_plain hstep.settled hstep.looked, hstep.answer, hstep.plain,
      ih hstep.settled, hstep.plain]

end Cursor

/-! ### What lasts -/

namespace Showing

/-- The answer is a fault of the stream. -/
def Faulted (s : Showing) : Prop := ∃ e f, s.answer = .error e ∧ e.fault = .fault f

/-- The answer is that the cursor is broken. -/
def Poisoned (s : Showing) : Prop := ∃ e, s.answer = .error e ∧ e.fault = .poisoned

/-- What a call says about the calls behind it: a fault is answered once and then nothing moves, and the end stays in
    sight. -/
structure Before (s s' : Showing) : Prop where
  faulted : s.Faulted → s'.Poisoned ∧ s'.last = s.last ∧ s'.unread = s.unread
  ended : s.atEnd = true → s'.atEnd = true ∧ s'.last = s.last ∧ s'.unread = s.unread

end Showing

namespace PlainCursor
variable {p : PlainCursor}

theorem transcript_of_broken (h : p.broken = true) (asks : List Ask) :
    ∀ s ∈ p.transcript asks, s.Poisoned ∧ s.last = p.last ∧ s.unread = p.items := by
  have hask (a : Ask) : p.ask a = (.error (p.errorAt (p.last.map Span.after) .poisoned), p) := by
    rw [ask, if_pos h]
  induction asks with
  | nil => exact List.forall_mem_nil _
  | cons a asks ih =>
    rw [transcript, hask]
    refine List.forall_mem_cons.mpr ⟨⟨⟨_, rfl, rfl⟩, rfl, ?_⟩, ih⟩
    simp [showing, h]

theorem transcript_of_ended (h : p.broken = false) (hi : p.items = []) (asks : List Ask) :
    ∀ s ∈ p.transcript asks, s.atEnd = true ∧ s.last = p.last ∧ s.unread = [] := by
  have hask (a : Ask) : (p.ask a).2 = p := by
    simp only [ask, h, reach, hi, Bool.false_eq_true, if_false]
  induction asks with
  | nil => exact List.forall_mem_nil _
  | cons a asks ih =>
    rw [transcript, hask]
    refine List.forall_mem_cons.mpr ⟨⟨?_, rfl, ?_⟩, ih⟩
    · simp [showing, h, hi]
    · simp [showing, h, hi]

/-- A call has an answer of its own, which is no fault of the stream, and keeps it unless it looks further. -/
theorem exists_answer (p : PlainCursor) (a : Ask) : ∃ answer : Except SyntaxError Reply,
    (∀ e f, answer = .error e → e.fault ≠ .fault f) ∧
      (p.ask a = (answer, p) ∨ ∃ q : PlainCursor, p.ask a = q.reach answer) := by
  unfold ask
  split
  · exact ⟨_, by rintro _ f ⟨⟩; nofun, .inl rfl⟩
  split
  · next t rest _ =>
    cases a.reaction t with
    | leave reply => exact ⟨.ok reply, nofun, .inl rfl⟩
    | take reply => exact ⟨.ok reply, nofun, .inr ⟨_, rfl⟩⟩
    | refuse names =>
      refine ⟨_, ?_, .inl rfl⟩
      rintro _ f ⟨⟩
      dsimp only [errorAt]
      split <;> nofun
  · refine ⟨_, ?_, .inr ⟨p, rfl⟩⟩
    cases a <;> nofun

/-- A fault is answered by a cursor that breaks. -/
theorem broken_of_ask {a : Ask} {e : SyntaxError} {f : Fault} (h : (p.ask a).1 = .error e) (hf : e.fault = .fault f) :
    (p.ask a).2.broken = true := by
  obtain ⟨answer, hanswer, hask | ⟨q, hask⟩⟩ := p.exists_answer a
  · rw [hask] at h
    exact absurd hf (hanswer e f h)
  · rw [hask] at h ⊢
    unfold reach at h ⊢
    split
    · rfl
    · next hitems =>
      split at h
      · next hfault => exact absurd hfault (hitems _ _)
      · exact absurd hf (hanswer e f h)

theorem pairwise_transcript (p : PlainCursor) (asks : List Ask) : (p.transcript asks).Pairwise Showing.Before := by
  induction asks generalizing p with
  | nil => exact .nil
  | cons a asks ih =>
    refine .cons (fun s hs => ⟨fun hfault => ?_, fun hended => ?_⟩) (ih _)
    · obtain ⟨e, f, he, hf⟩ := hfault
      have hbroken := broken_of_ask he hf
      have hlast := transcript_of_broken hbroken asks s hs
      simpa [showing, hbroken] using hlast
    · simp only [showing, Bool.and_eq_true, Bool.not_eq_true', List.isEmpty_iff] at hended
      have hlast := transcript_of_ended hended.1 hended.2 asks s hs
      simpa [showing, hended] using hlast

end PlainCursor

/-! ### States that a cursor is never in -/

def Token.isName (t : Token) : Bool :=
  match t.kind with
  | .name _ => true
  | _ => false

namespace Parse

/-- Shows the token in sight, and does as `arm` says when nothing has been looked at. -/
def peekOr (arm : Parse (Option Token)) : Parse (Option Token) := do
  begin
  fun c => match c.look with
    | .unread => arm c
    | .token t => .ok (some t) c
    | .ended => .ok none c
    | .poisoned => .error (c.error .poisoned) c

/-- Takes the token in sight, and does as `arm` says when nothing has been looked at. What is in sight is given up while
    the next item is being pulled. -/
def takeNextOr (arm : Parse (Option Token)) : Parse (Option Token) := do
  begin
  fun c =>
    let d := { c with look := .poisoned }
    match c.look with
    | .unread => arm d
    | .token t => (do advance; return some t) { d with last := some t.span }
    | .ended => .ok none { d with look := .ended }
    | .poisoned => .error (d.error .poisoned) d

/-- Takes a name, and does as `arm` says when the token taken is none. -/
def requireNameOr (arm : Parse (String × Span)) : Parse (String × Span) := do
  match ← takeIf Token.isName with
  | some t =>
    match t.kind with
    | .name n => return (n, t.span)
    | _ => arm
  | none => failWanting ["name"]

theorem peekOr_eq (arm : Parse (Option Token)) : peekOr arm = peek := by
  funext ⟨input, look, last, stack⟩
  cases look with
  | unread =>
    cases input with
    | nil => rfl
    | cons item rest => cases item <;> rfl
  | token | ended | poisoned => rfl

theorem takeNextOr_eq (arm : Parse (Option Token)) : takeNextOr arm = takeNext := by
  have hadvance (t : Token) (c : Cursor) : (do advance; return some t : Parse (Option Token)) { c with look := .poisoned } =
      (do advance; return some t : Parse (Option Token)) c := by
    refine bind_congr_at ?_
    unfold advance
    cases c.input with
    | nil => rfl
    | cons item rest => cases item <;> rfl
  funext ⟨input, look, last, stack⟩
  cases look with
  | unread =>
    cases input with
    | nil => rfl
    | cons item rest =>
      cases item with
      | ok t => exact hadvance t ⟨rest, .token t, some t.span, stack⟩
      | error f => rfl
  | token t => exact hadvance t ⟨input, .token t, some t.span, stack⟩
  | ended | poisoned => rfl

theorem requireNameOr_of_look {c : Cursor} {t : Token} (h : c.look = .token t) (arm : Parse (String × Span)) :
    requireNameOr arm c = requireName c := by
  have hif : takeIf Token.isName c = if t.isName then takeNext c else .ok none c := takeIf_of_look h
  cases hk : t.kind with
  | name n =>
    have hwanted : t.isName = true := by rw [Token.isName, hk]
    rw [hwanted, if_pos rfl] at hif
    rw [Ask.requireName_of_name h hk]
    refine Ask.eq_of_takeNext h (fun d hd => (bind_ok (hif.trans hd)).trans ?_) fun e d hd => bind_error (hif.trans hd)
    simp only [hk]
    rfl
  | _ =>
    have hwanted : t.isName = false := by rw [Token.isName, hk]
    rw [hwanted, if_neg Bool.false_ne_true] at hif
    rw [Ask.requireName_of_other h (by simp [hk])]
    exact bind_ok hif

theorem requireNameOr_eq (arm : Parse (String × Span)) : requireNameOr arm = requireName := by
  funext ⟨input, look, last, stack⟩
  cases look with
  | unread =>
    cases input with
    | nil => rfl
    | cons item rest =>
      cases item with
      | ok t =>
        have hor : requireNameOr arm ⟨.ok t :: rest, .unread, last, stack⟩ =
            requireNameOr arm ⟨rest, .token t, last, stack⟩ :=
          bind_congr_at (bind_congr_at rfl)
        have hname : requireName ⟨.ok t :: rest, .unread, last, stack⟩ = requireName ⟨rest, .token t, last, stack⟩ :=
          bind_congr_at (bind_congr_at rfl)
        rw [hor, hname, requireNameOr_of_look rfl]
      | error f => rfl
  | token t => exact requireNameOr_of_look rfl arm
  | ended | poisoned => rfl

end Parse

/-- A cursor over any items answers any calls as the plain cursor over them does. A fault or the end, once in sight,
    stays. What stands in the arms for a cursor that has not looked, or for a name that is none, does not matter. -/
theorem transcript_eq_plain (items : List Item) (stack : List String) (asks : List Ask) :
    Cursor.transcript { input := items, stack } asks = PlainCursor.transcript { items, stack } asks ∧
      (Cursor.transcript { input := items, stack } asks).Pairwise Showing.Before ∧
      (∀ arm, Parse.peekOr arm = Parse.peek) ∧ (∀ arm, Parse.takeNextOr arm = Parse.takeNext) ∧
      ∀ arm, Parse.requireNameOr arm = Parse.requireName := by
  have hplain : Cursor.transcript { input := items, stack } asks = PlainCursor.transcript { items, stack } asks :=
    Cursor.transcript_plain (c := { input := items, stack }) nofun asks
  refine ⟨hplain, ?_, Parse.peekOr_eq, Parse.takeNextOr_eq, Parse.requireNameOr_eq⟩
  rw [hplain]
  exact PlainCursor.pairwise_transcript _ asks

end Offside

import Offside.Proofs.ExprGrammar
import Offside.Proofs.Reading

/-! # Readers that repeat others

Operands with operators between them, and items with commas between them. Each of these readers takes exactly
the repetitions of what the repeated reader takes, as long as no separator goes on with a single one. -/

namespace Offside.Parse
open Grammar

variable {α β γ : Type} {all : List Token} {ks rest : List Kind} {room n : Nat} {err : SyntaxFault → Prop}

theorem Reads.seesExpr : Parse.seesExpr.Reads all room ks err fun b rest =>
    rest = ks ∧ (b = true ↔ ∃ k ∈ ks.head?, startsExpr k = true) := by
  refine Reads.peek.bind fun o ks' ho => ?_
  obtain ⟨rfl, ho⟩ := ho
  refine .pure ⟨rfl, ?_⟩
  rw [← ho]
  cases o with
  | none => simp
  | some t => simp

/-! ### Chains -/

/-- The words of a first operand and of links behind it. -/
def Chained (L : Nat → List Kind → Expr → Prop) (mark : Kind → Option (Expr → Expr → Expr)) (k : Nat)
    (w : List Kind) (e : Expr) : Prop :=
  ∃ w₀ e₀ links, w = w₀ ++ List.flatMap Link.allWords links ∧ e = grouped e₀ links ∧ L k w₀ e₀ ∧
    (∀ l ∈ links, mark l.op = some l.node) ∧ ∀ l ∈ links, L k l.words l.tree

section
variable {L : Nat → List Kind → Expr → Prop} {mark : Kind → Option (Expr → Expr → Expr)} {more : Kind → Bool}

theorem Chained.one {k : Nat} {w : List Kind} {e : Expr} (h : L k w e) : Chained L mark k w e :=
  ⟨w, e, [], by simp, rfl, h, by simp, by simp⟩

theorem Chained.snoc {k : Nat} {w v : List Kind} {e t : Expr} {op : Kind} {node : Expr → Expr → Expr}
    (h : Chained L mark k w e) (hop : mark op = some node) (hv : L k v t) :
    Chained L mark k (w ++ op :: v) (node e t) := by
  obtain ⟨w₀, e₀, links, rfl, rfl, h₀, hops, hls⟩ := h
  refine ⟨w₀, e₀, links ++ [⟨op, node, v, t⟩], ?_, ?_, h₀, ?_, ?_⟩
  · simp [Link.allWords]
  · simp [grouped]
  · intro l hl
    rcases List.mem_append.mp hl with hl | hl
    · exact hops l hl
    · rw [List.mem_singleton.mp hl]
      exact hop
  · intro l hl
    rcases List.mem_append.mp hl with hl | hl
    · exact hls l hl
    · rw [List.mem_singleton.mp hl]
      exact hv

/-- Behind an operand comes an operator, which does not extend it, or what stops the whole chain. -/
theorem stops_links {links : List Link} (hops : ∀ l ∈ links, mark l.op = some l.node)
    (hapart : ∀ k, (mark k).isSome = true → more k = false)
    (hstop : Stops (fun k => (mark k).isSome || more k) rest) :
    Stops more (links.flatMap Link.allWords ++ rest) := by
  cases links with
  | nil => exact hstop.imp fun k hk => by simp [hk]
  | cons l links =>
    refine stops_cons (hapart l.op ?_)
    rw [hops l (List.mem_cons_self ..)]
    rfl

/-- Operands and operators between them are read as a chain, if no operator extends an operand. -/
theorem Parses.chain {operand : Parse Expr} {node? : Kind → Option (Expr → Expr → Expr)}
    (h : operand.Parses Expr.bare L more n) (mark : Kind → Option (Expr → Expr → Expr))
    (hnode : ∀ k, match node? k with
      | none => mark k = none
      | some f => ∃ g, mark k = some g ∧ ∀ l r, (f l r).bare = g l.bare r.bare)
    (hapart : ∀ k, (mark k).isSome = true → more k = false) :
    (Parse.chain operand node?).Parses Expr.bare (Chained L mark) (fun k => (mark k).isSome || more k) n where
  sound {all room ks} hlt := by
    unfold Parse.chain
    refine (h.sound hlt).bind fun first ks₁ hfirst => ?_
    obtain ⟨w, hks, hw⟩ := hfirst
    refine .loop (R := fun acc ks' => ∃ w, ks = w ++ ks' ∧ Chained L mark room w acc.bare) ⟨w, hks, .one hw⟩ ?_
    rintro acc ks' ⟨w, rfl, hacc⟩
    refine Reads.acceptKind.bind fun o ks₂ ho => ?_
    rcases ho with ⟨k, f, rfl, hf, rfl⟩ | ⟨rfl, rfl, -⟩
    · have hk := hnode k
      rw [hf] at hk
      obtain ⟨g, hg, hbare⟩ := hk
      have hlt₂ : ks₂.length < n := by simp at hlt; omega
      refine (h.sound hlt₂).bind fun r ks₃ hr => ?_
      obtain ⟨v, rfl, hv⟩ := hr
      refine .pure ⟨⟨w ++ k :: v, by simp, ?_⟩, by simp only [List.length_append, List.length_cons]; omega⟩
      rw [hbare]
      exact hacc.snoc hg hv
    · exact .pure ⟨w, rfl, hacc⟩
  complete {all room depth w rest e} hlt hw hstop := by
    obtain ⟨w₀, e₀, links, rfl, rfl, h₀, hops, hls⟩ := hw
    unfold Parse.chain
    rw [List.append_assoc] at hlt ⊢
    refine (h.complete hlt h₀ (stops_links hops hapart hstop)).bind fun first ks₁ hfirst => ?_
    obtain ⟨rfl, rfl⟩ := hfirst
    refine .loop (R := fun acc ks' => ks'.length < n ∧ ∃ ls, (∀ l ∈ ls, l ∈ links) ∧
        ks' = ls.flatMap Link.allWords ++ rest ∧ grouped acc.bare ls = grouped first.bare links)
      ⟨by simp at hlt ⊢; omega, links, fun _ h => h, rfl, rfl⟩ ?_
    rintro acc ks' ⟨hlt', ls, hsub, rfl, hacc⟩
    refine Reads.acceptKind.bind fun o ks₂ ho => ?_
    cases ls with
    | nil =>
      rcases ho with ⟨k, f, hk, hf, -⟩ | ⟨rfl, rfl, -⟩
      · exfalso
        have hm := hnode k
        rw [hf] at hm
        obtain ⟨g, hg, -⟩ := hm
        have := hstop k (by rw [List.flatMap_nil, List.nil_append] at hk; rw [hk]; rfl)
        simp [hg] at this
      · exact .pure ⟨rfl, hacc⟩
    | cons l ls =>
      have hl := hsub l (List.mem_cons_self ..)
      have hm := hnode l.op
      rcases ho with ⟨k, f, hk, hf, rfl⟩ | ⟨-, -, hnone⟩
      · obtain ⟨rfl, rfl⟩ : l.op = k ∧ l.words ++ (ls.flatMap Link.allWords ++ rest) = ks₂ := by
          simpa [Link.allWords] using hk
        rw [hf] at hm
        obtain ⟨g, hg, hbare⟩ := hm
        obtain rfl : g = l.node := Option.some.inj (hg.symm.trans (hops l hl))
        have hlt₂ : (l.words ++ (ls.flatMap Link.allWords ++ rest)).length < n := by
          simp [Link.allWords] at hlt' ⊢
          omega
        have hsub' : ∀ m ∈ ls, m ∈ links := fun m hm => hsub m (List.mem_cons_of_mem _ hm)
        have hstop' := stops_links (fun m hm => hops m (hsub' m hm)) hapart hstop
        refine (h.complete hlt₂ (hls l hl) hstop').bind fun r ks₃ hr => ?_
        obtain ⟨rfl, hr⟩ := hr
        refine .pure ⟨⟨by simp at hlt₂ ⊢; omega, ls, hsub', rfl, ?_⟩,
          by simp only [Link.allWords, List.flatMap_cons, List.length_append, List.length_cons]; omega⟩
        rw [← hacc, hbare, hr]
        rfl
      · exfalso
        rw [hnone l.op rfl] at hm
        rw [hops l hl] at hm
        cases hm

theorem Parses.boolChain {operand : Parse Expr} {word : Keyword} {op : BoolOp}
    (h : operand.Parses Expr.bare L more n) (hmore : more (.keyword word) = false) :
    (Parse.chain operand fun k => if k = .keyword word then some (boolNode op) else none).Parses Expr.bare
      (Chained L (boolNode? word op)) (fun k => (boolNode? word op k).isSome || more k) n := by
  refine h.chain (boolNode? word op) (fun k => ?_) fun k hk => ?_
  · by_cases hw : k = .keyword word
    · simp [hw, boolNode?, boolNode, Expr.bare]
    · simp [hw, boolNode?]
  · by_cases hw : k = .keyword word
    · rw [hw]
      exact hmore
    · simp [hw, boolNode?] at hk

end

/-! ### Separators -/

theorem followed_true (sep : Symbol) (ws : List (List Kind)) :
    followed sep true ws = followed sep false ws ++ [.symbol sep] := by
  induction ws with
  | nil => rfl
  | cons w ws ih => simp [followed, ih]

theorem followed_concat (sep : Symbol) (ws : List (List Kind)) (w : List Kind) :
    followed sep false (ws ++ [w]) = followed sep true ws ++ w := by
  induction ws with
  | nil => simp [followed]
  | cons u ws ih => simp [followed, ih]

theorem separated_concat (sep : Symbol) (ws : List (List Kind)) (w : List Kind) :
    separated sep false (ws ++ [w]) = separated sep true ws ++ w := by
  cases ws with
  | nil => simp [separated, followed]
  | cons u ws => simp [separated, followed_concat]

theorem separated_true_concat (sep : Symbol) (ws : List (List Kind)) (w : List Kind) :
    separated sep true (ws ++ [w]) = separated sep true ws ++ (w ++ [.symbol sep]) := by
  cases ws with
  | nil => simp [separated, followed]
  | cons u ws => simp [separated, followed_true sep (ws ++ [w]), followed_concat]

theorem separated_cons (sep : Symbol) (trailing : Bool) (w : List Kind) (ws : List (List Kind)) :
    (trailing = false ∧ ws = [] ∧ separated sep trailing (w :: ws) = w) ∨
      separated sep trailing (w :: ws) = w ++ .symbol sep :: separated sep trailing ws := by
  cases ws with
  | nil =>
    cases trailing with
    | false => exact .inl ⟨rfl, rfl, by simp [separated, followed]⟩
    | true => exact .inr rfl
  | cons v ws => exact .inr rfl

theorem forall_mem_concat {P : γ → Prop} {gs : List γ} {g : γ} (h : ∀ x ∈ gs, P x) (hg : P g) : ∀ x ∈ gs ++ [g], P x := by
  intro x hx
  rcases List.mem_append.mp hx with hx | hx
  · exact h x hx
  · rw [List.mem_singleton.mp hx]
    exact hg

/-- Further items behind some, each behind a separator; whether one comes behind a separator, `go` says. -/
def moreItems (sep : Symbol) (go : Parse Bool) (item : Parse α) (items : List α) : Parse (List α) := do
  let step := fun (items : List α) => do
    match ← accept (.symbol sep) with
    | none => return .done items
    | some _ =>
      if ← go then return .yield (items ++ [← item])
      else return .done items
  loop step items

section
variable {item : Parse α} {view : α → β} {L : Nat → List Kind → β → Prop} {more : Kind → Bool} {sep : Symbol}
  {go : Parse Bool} {goes : List Kind → Prop}
  (h : item.Parses view L more n)
  (hgo : ∀ {all room ks err}, go.Reads all room ks err fun b rest => rest = ks ∧ (b = true ↔ goes ks))
include h hgo

theorem sound_moreItems {acc : List α} (hlt : ks.length < n) :
    (moreItems sep go item acc).Reads all room ks (fun _ => True) fun items rest =>
      ∃ (trailing : Bool) (pieces : List (List Kind × β)), ks = followed sep trailing (pieces.map (·.1)) ++ rest ∧
        items.map view = acc.map view ++ pieces.map (·.2) ∧ (∀ p ∈ pieces, L room p.1 p.2) ∧
        (trailing = false → pieces = [] → ks.head? ≠ some (.symbol sep)) ∧ (trailing = true → ¬goes rest) := by
  unfold moreItems
  refine .loop (R := fun acc' ks' => ∃ pieces : List (List Kind × β), ks = followed sep false (pieces.map (·.1)) ++ ks' ∧
    acc'.map view = acc.map view ++ pieces.map (·.2) ∧ ∀ p ∈ pieces, L room p.1 p.2) ⟨[], rfl, by simp, by simp⟩ ?_
  rintro acc' ks' ⟨pieces, rfl, hacc, hp⟩
  refine (Reads.accept).bind fun o ks₁ ho => ?_
  rcases ho with ⟨t, rfl, rfl⟩ | ⟨rfl, rfl, ho⟩
  · refine hgo.bind fun b ks₂ hb => ?_
    obtain ⟨rfl, hb⟩ := hb
    refine .ite (fun _ => ?_) fun hstop => ?_
    · have hlt₂ : ks₂.length < n := by simp at hlt; omega
      refine (h.sound hlt₂).bind fun a ks₃ ha => ?_
      obtain ⟨v, rfl, hv⟩ := ha
      refine .pure ⟨⟨pieces ++ [(v, view a)], ?_, by simp [hacc], forall_mem_concat hp hv⟩,
        by simp only [List.length_append, List.length_cons]; omega⟩
      simp [followed_concat, followed_true]
    · exact .pure ⟨true, pieces, by simp [followed_true], hacc, hp, by simp, fun _ hgoes => hstop (hb.mpr hgoes)⟩
  · refine .pure ⟨false, pieces, rfl, hacc, hp, fun _ hnil => ?_, by simp⟩
    rw [hnil]
    exact ho

theorem complete_moreItems {acc : List α} {trailing : Bool} {depth : Nat} {pieces : List (List Kind × β)}
    (hsep : more (.symbol sep) = false) (hbegin : ∀ p ∈ pieces, ∀ v, goes (p.1 ++ v)) (hp : ∀ p ∈ pieces, L depth p.1 p.2)
    (hlt : (followed sep trailing (pieces.map (·.1)) ++ rest).length < n) (hstop : Stops more rest)
    (hnosep : rest.head? ≠ some (.symbol sep)) (hend : trailing = true → ¬goes rest) :
    (moreItems sep go item acc).Reads all room (followed sep trailing (pieces.map (·.1)) ++ rest) (TooDeep room depth)
      fun items left => left = rest ∧ items.map view = acc.map view ++ pieces.map (·.2) := by
  unfold moreItems
  refine .loop (R := fun acc' ks' => ks'.length < n ∧ ∃ ps, (∀ p ∈ ps, p ∈ pieces) ∧
      ks' = followed sep trailing (ps.map (·.1)) ++ rest ∧
      acc'.map view ++ ps.map (·.2) = acc.map view ++ pieces.map (·.2)) ⟨hlt, pieces, fun _ h => h, rfl, rfl⟩ ?_
  rintro acc' ks' ⟨hlt', ps, hsub, rfl, hacc⟩
  cases ps with
  | nil =>
    cases trailing with
    | false =>
      refine (Reads.accept_other hnosep).bind fun o ks₁ ho => ?_
      obtain ⟨rfl, rfl⟩ := ho
      exact .pure ⟨rfl, by simpa using hacc⟩
    | true =>
      refine (Reads.accept_next).bind fun o ks₁ ho => ?_
      obtain ⟨⟨t, rfl⟩, rfl⟩ := ho
      refine hgo.bind fun b ks₂ hb => ?_
      obtain ⟨rfl, hb⟩ := hb
      obtain rfl : b = false := by simpa using fun hbt => hend rfl (hb.mp hbt)
      exact .pure ⟨rfl, by simpa using hacc⟩
  | cons p ps =>
    have hmem := hsub p (List.mem_cons_self ..)
    rw [List.map_cons, followed, List.cons_append, List.append_assoc] at hlt' ⊢
    refine (Reads.accept_next).bind fun o ks₁ ho => ?_
    obtain ⟨⟨t, rfl⟩, rfl⟩ := ho
    refine hgo.bind fun b ks₂ hb => ?_
    obtain ⟨rfl, hb⟩ := hb
    obtain rfl : b = true := hb.mpr (hbegin p hmem _)
    have hnext : Stops more (followed sep trailing (ps.map (·.1)) ++ rest) := by
      cases ps with
      | nil =>
        cases trailing with
        | false => exact hstop
        | true => exact stops_cons hsep
      | cons q ps => exact stops_cons hsep
    refine (h.complete (Nat.lt_of_succ_lt hlt') (hp p hmem) hnext).bind fun a ks₃ ha => ?_
    obtain ⟨rfl, ha⟩ := ha
    refine .pure ⟨⟨by simp at hlt' ⊢; omega, ps, fun q hq => hsub q (List.mem_cons_of_mem _ hq), rfl, ?_⟩,
      by simp only [List.length_append, List.length_cons]; omega⟩
    simpa [ha] using hacc

end

/-! ### Lists in brackets -/

/-- A language whose words are the words of pieces. -/
def Piecewise (P : Nat → γ → Prop) (words : γ → List Kind) (value : γ → β) (k : Nat) (w : List Kind) (b : β) : Prop :=
  ∃ g, w = words g ∧ b = value g ∧ P k g

/-- Pieces with commas between them, and perhaps one more comma, up to a closing bracket. -/
def Listed (P : Nat → γ → Prop) (words : γ → List Kind) (value : γ → β) (close : Symbol) (k : Nat) (w : List Kind)
    (bs : List β) : Prop :=
  ∃ (trailing : Bool) (pieces : List γ), w = separated .comma trailing (pieces.map words) ++ [.symbol close] ∧ bs = pieces.map value ∧
    ∀ g ∈ pieces, P k g

theorem Parses.commaList {item : Parse α} {view : α → β} {P : Nat → γ → Prop} {words : γ → List Kind} {value : γ → β}
    {more : Kind → Bool} {close : Symbol} {description : String}
    (h : item.Parses view (Piecewise P words value) more n) (hmore : more (.symbol .comma) = false)
    (hclose : more (.symbol close) = false) (hne : close ≠ .comma) (hopen : startsExpr (.symbol close) = false)
    (hbegin : ∀ k g, P k g → Begins startsExpr (words g)) :
    (Parse.commaList item close description).Parses (List.map view) (Listed P words value close) (fun _ => false) n where
  sound {all room ks} hlt := by
    unfold Parse.commaList
    refine Reads.bind (Q := fun items rest => ∃ (trailing : Bool) (pieces : List γ), ks = separated .comma trailing (pieces.map words) ++ rest ∧
      items.map view = pieces.map value ∧ ∀ g ∈ pieces, P room g) ?_ fun items ks₁ hitems => ?_
    · -- every item but perhaps the last was taken with the comma behind it
      refine .loop (R := fun acc ks' => ∃ pieces : List γ, ks = separated .comma true (pieces.map words) ++ ks' ∧
        acc.map view = pieces.map value ∧ ∀ g ∈ pieces, P room g) ⟨[], rfl, rfl, by simp⟩ ?_
      rintro acc ks' ⟨pieces, rfl, hacc, hp⟩
      refine (Reads.sees).bind fun b ks₁ hb => ?_
      obtain ⟨rfl, -⟩ := hb
      refine .ite (fun _ => .pure ⟨true, pieces, rfl, hacc, hp⟩) fun _ => ?_
      have hlt₁ : ks₁.length < n := by simp at hlt; omega
      refine (h.sound hlt₁).bind fun a ks₂ ha => ?_
      obtain ⟨-, rfl, g, rfl, hg, hpg⟩ := ha
      have hacc' : (acc ++ [a]).map view = (pieces ++ [g]).map value := by simp [hacc, hg]
      refine (Reads.accept).bind fun o ks₃ ho => ?_
      rcases ho with ⟨t, rfl, rfl⟩ | ⟨rfl, rfl, -⟩
      · refine .pure ⟨⟨pieces ++ [g], ?_, hacc', forall_mem_concat hp hpg⟩, by simp; omega⟩
        simp [separated_true_concat]
      · refine .pure ⟨false, pieces ++ [g], ?_, hacc', forall_mem_concat hp hpg⟩
        simp [separated_concat]
    · obtain ⟨trailing, pieces, rfl, hitems, hp⟩ := hitems
      refine (Reads.require fun _ _ => trivial).bind fun _ ks₂ hks => ?_
      subst hks
      exact .pure ⟨_, by simp, trailing, pieces, rfl, hitems, hp⟩
  complete {all room depth w rest bs} hlt hw _ := by
    obtain ⟨trailing, pieces, rfl, rfl, hp⟩ := hw
    unfold Parse.commaList
    rw [List.append_assoc, List.singleton_append] at hlt ⊢
    refine Reads.bind (Q := fun items left => left = .symbol close :: rest ∧ items.map view = pieces.map value) ?_
      fun items ks₁ hitems => ?_
    · refine .loop (R := fun acc ks' => ks'.length < n ∧ ∃ gs, (∀ g ∈ gs, g ∈ pieces) ∧
          ks' = separated .comma trailing (gs.map words) ++ .symbol close :: rest ∧
          acc.map view ++ gs.map value = pieces.map value)
        ⟨hlt, pieces, fun _ h => h, rfl, by simp⟩ ?_
      rintro acc ks' ⟨hlt', gs, hsub, rfl, hacc⟩
      refine (Reads.sees).bind fun b ks₁ hb => ?_
      obtain ⟨rfl, hb⟩ := hb
      cases gs with
      | nil =>
        obtain rfl : b = true := hb.mpr rfl
        exact .pure ⟨rfl, by simpa using hacc⟩
      | cons g gs =>
        have hg := hp g (hsub g (List.mem_cons_self ..))
        have hsub' : ∀ x ∈ gs, x ∈ pieces := fun x hx => hsub x (List.mem_cons_of_mem _ hx)
        have hhead : (separated .comma trailing ((g :: gs).map words) ++ .symbol close :: rest).head? ≠ some (.symbol close) := by
          rw [List.map_cons, separated, List.append_assoc]
          exact ((hbegin _ g hg).append _).head?_ne hopen
        obtain rfl : b = false := by simpa using fun hbt => hhead (hb.mp hbt)
        rw [List.map_cons] at hlt' ⊢
        rcases separated_cons .comma trailing (words g) (gs.map words) with ⟨rfl, hnil, hw⟩ | hw
        · obtain rfl : gs = [] := List.map_eq_nil_iff.mp hnil
          rw [hw] at hlt' ⊢
          refine (h.complete hlt' ⟨g, rfl, rfl, hg⟩ (stops_cons hclose)).bind fun a ks₂ ha => ?_
          obtain ⟨rfl, ha⟩ := ha
          refine (Reads.accept_other (by simpa using hne)).bind fun o ks₃ ho => ?_
          obtain ⟨rfl, rfl⟩ := ho
          exact .pure ⟨rfl, by simpa [ha] using hacc⟩
        · rw [hw, List.append_assoc] at hlt' ⊢
          refine (h.complete hlt' ⟨g, rfl, rfl, hg⟩ (stops_cons hmore)).bind fun a ks₂ ha => ?_
          obtain ⟨rfl, ha⟩ := ha
          refine (Reads.accept_next).bind fun o ks₃ ho => ?_
          obtain ⟨⟨t, rfl⟩, rfl⟩ := ho
          refine .pure ⟨⟨?_, gs, hsub', rfl, by simpa [ha] using hacc⟩, ?_⟩
          · simp at hlt' ⊢
            omega
          · simp
            omega
    · obtain ⟨rfl, hitems⟩ := hitems
      refine (Reads.require_next).bind fun _ ks₂ hks => ?_
      subst hks
      exact .pure ⟨rfl, hitems⟩

/-- One phrase, or a tuple of several or with a comma behind the last. -/
def OneOrTuple (L : Nat → List Kind → Expr → Prop) (k : Nat) (w : List Kind) (e : Expr) : Prop :=
  L k w e ∨ ∃ (trailing : Bool) (pieces : List (List Kind × Expr)), (2 ≤ pieces.length ∨ trailing ∧ pieces ≠ []) ∧
    w = separated .comma trailing (pieces.map (·.1)) ∧ e = .tuple {} (pieces.map (·.2)) ∧ ∀ p ∈ pieces, L k p.1 p.2

/-- What goes on with a list of phrases: what goes on with the last, a comma, or a phrase behind the last comma. -/
def listMore (more : Kind → Bool) (k : Kind) : Bool := k == .symbol .comma || startsExpr k || more k

section
variable {L : Nat → List Kind → Expr → Prop} {more : Kind → Bool} {item : Parse Expr}

/-- The body of a list of tests, over any reader of the tests. -/
def tupleOf (item : Parse Expr) : Parse Expr := do
  let first ← item
  if !(← sees (.symbol .comma)) then return first
  let items ← moreItems .comma Parse.seesExpr item [first]
  return .tuple (← Parse.spanFrom first.span) items

theorem testlistOf_eq (test : Parse Expr) :
    testlistOf test = Parse.within "testlist" (tupleOf (Parse.within "test" test)) := rfl

theorem sound_tupleOf (h : item.Parses Expr.bare L more n) (hlt : ks.length < n) :
    (tupleOf item).Reads all room ks (fun _ => True) fun e rest => ∃ w, ks = w ++ rest ∧ OneOrTuple L room w e.bare := by
  unfold tupleOf
  refine (h.sound hlt).bind fun first ks₁ hfirst => ?_
  obtain ⟨w, rfl, hw⟩ := hfirst
  refine (Reads.sees).bind fun b ks₂ hb => ?_
  obtain ⟨rfl, hb⟩ := hb
  refine .ite (fun _ => .pure ⟨w, rfl, .inl hw⟩) fun hcomma => ?_
  have hlt₂ : ks₂.length < n := by simp at hlt; omega
  refine (sound_moreItems h Reads.seesExpr hlt₂).bind fun items ks₃ hitems => ?_
  obtain ⟨trailing, pieces, rfl, hitems, hp, hone, -⟩ := hitems
  refine Reads.spanFrom.bind fun s ks₄ hs => ?_
  subst hs
  refine .pure ⟨w ++ followed .comma trailing (pieces.map (·.1)), by simp,
    .inr ⟨trailing, (w, first.bare) :: pieces, ?_, rfl, ?_, ?_⟩⟩
  · cases trailing with
    | true => exact .inr ⟨rfl, nofun⟩
    | false =>
      cases pieces with
      | nil => exact absurd (hb.mp (by simpa using hcomma)) (hone rfl rfl)
      | cons p ps => exact .inl (by simp)
  · rw [Expr.bare, Expr.bareList_eq_map, hitems]
    rfl
  · intro p hmem
    rcases List.mem_cons.mp hmem with rfl | hmem
    · exact hw
    · exact hp p hmem

theorem complete_tupleOf {depth : Nat} {w : List Kind} {e : Expr} (h : item.Parses Expr.bare L more n)
    (hmore : more (.symbol .comma) = false) (hbegin : ∀ k w e, L k w e → Begins startsExpr w)
    (hlt : (w ++ rest).length < n) (hw : OneOrTuple L depth w e) (hstop : Stops (listMore more) rest) :
    (tupleOf item).Reads all room (w ++ rest) (TooDeep room depth) fun a left => left = rest ∧ a.bare = e := by
  unfold tupleOf
  have hitem : Stops more rest := hstop.imp fun k hk => by simp [listMore, hk]
  have hnocomma : rest.head? ≠ some (.symbol .comma) := hstop.head?_ne rfl
  rcases hw with hw | ⟨trailing, pieces, hlen, rfl, rfl, hp⟩
  · refine (h.complete hlt hw hitem).bind fun first ks₁ hfirst => ?_
    obtain ⟨rfl, rfl⟩ := hfirst
    refine (Reads.sees).bind fun b ks₂ hb => ?_
    obtain ⟨rfl, hb⟩ := hb
    obtain rfl : b = false := by simpa using fun hbt => hnocomma (hb.mp hbt)
    exact .pure ⟨rfl, rfl⟩
  · obtain ⟨p, ps, rfl⟩ : ∃ p ps, pieces = p :: ps := by
      cases pieces with
      | nil => simp at hlen
      | cons p ps => exact ⟨p, ps, rfl⟩
    rw [List.map_cons, separated, List.append_assoc] at hlt ⊢
    -- several pieces or a comma behind the only one: either way a comma follows the first
    obtain ⟨v, hv⟩ : ∃ v, followed .comma trailing (ps.map (·.1)) ++ rest = .symbol .comma :: v := by
      cases ps with
      | nil =>
        obtain rfl : trailing = true := by simpa using hlen
        exact ⟨rest, rfl⟩
      | cons q ps => exact ⟨_, rfl⟩
    refine (h.complete hlt (hp p (List.mem_cons_self ..)) (by rw [hv]; exact stops_cons hmore)).bind
      fun first ks₁ hfirst => ?_
    obtain ⟨rfl, hfirst⟩ := hfirst
    refine (Reads.sees).bind fun b ks₂ hb => ?_
    obtain ⟨rfl, hb⟩ := hb
    obtain rfl : b = true := hb.mpr (by rw [hv]; rfl)
    have hps : ∀ q ∈ ps, L depth q.1 q.2 := fun q hq => hp q (List.mem_cons_of_mem _ hq)
    have hgoes : ∀ q ∈ ps, ∀ v, ∃ k ∈ (q.1 ++ v).head?, startsExpr k = true := by
      intro q hq v
      obtain ⟨k, u, hku, hk⟩ := hbegin _ _ _ (hps q hq)
      exact ⟨k, by rw [hku]; rfl, hk⟩
    have hend : ¬∃ k ∈ rest.head?, startsExpr k = true := by
      rintro ⟨k, hk, hstart⟩
      exact absurd hk (hstop.head?_ne (by simp [listMore, hstart]))
    have hlt₂ : (followed .comma trailing (ps.map (·.1)) ++ rest).length < n := by simp at hlt ⊢; omega
    refine (complete_moreItems h Reads.seesExpr hmore hgoes hps hlt₂ hitem hnocomma fun _ => hend).bind fun items ks₃ hitems => ?_
    obtain ⟨rfl, hitems⟩ := hitems
    refine Reads.spanFrom.bind fun s ks₄ hs => ?_
    subst hs
    refine .pure ⟨rfl, ?_⟩
    rw [Expr.bare, Expr.bareList_eq_map, hitems, List.map_singleton, hfirst]
    rfl

theorem Parses.testlistOf {test : Parse Expr} (h : test.Parses Expr.bare (Derives .test) more n)
    (hmore : more (.symbol .comma) = false) :
    (Parse.testlistOf test).Parses Expr.bare (Derives .testlist) (listMore more) n := by
  have htest : (Parse.within "test" test).Parses Expr.bare (Opened (Derives .test)) more n := h.within
  have hbegin : ∀ k w e, Opened (Derives .test) k w e → Begins startsExpr w := by
    intro k w e hw
    cases k with
    | zero => exact hw.elim
    | succ k => exact Derives.begins hw nofun
  have hbody : (tupleOf (Parse.within "test" test)).Parses Expr.bare (OneOrTuple (Opened (Derives .test)))
      (listMore more) n :=
    ⟨fun hlt => sound_tupleOf htest hlt, fun hlt hw hstop => complete_tupleOf htest hmore hbegin hlt hw hstop⟩
  rw [testlistOf_eq]
  refine hbody.within.congr fun k w e => ⟨fun hw => ?_, fun hw => ?_⟩
  · cases k with
    | zero => exact hw.elim
    | succ k =>
      rcases hw with hw | ⟨trailing, pieces, hlen, rfl, rfl, hp⟩
      · cases k with
        | zero => exact hw.elim
        | succ k => exact .only hw
      · cases k with
        | zero =>
          cases pieces with
          | nil => simp at hlen
          | cons p ps => exact (hp p (List.mem_cons_self ..)).elim
        | succ k => exact .tuple hlen hp
  · cases hw with
    | only hw => exact .inl hw
    | tuple hlen hp => exact .inr ⟨_, _, hlen, rfl, rfl, hp⟩

end

end Offside.Parse

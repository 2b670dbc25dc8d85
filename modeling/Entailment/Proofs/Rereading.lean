import Entailment.Proofs.RoundTrip

/-!
# Reading accepted text again

Whatever a reader answers is made of names that stand in its text, and these are words. So all that
it answers can be printed and read back, with one exception: empty brackets tell a predicate from a
variable of the same name, and they are not printed. `Gives` says what holds of the answers of a
reader on tokens of a text, and the grammar is gone through once, reader by reader.
-/
namespace Entailment

open Token

section Names

namespace Token
open Scanner LexRule

/-- Repeating a scanner takes only characters that it accepts. -/
theorem forall_mem_take_repeated {accept : List Char → Nat} {isPart : Char → Bool}
    (haccept : ∀ c more, accept (c :: more) = if isPart c then 1 else 0) (n : Nat)
    (text : List Char) : ∀ c ∈ text.take (repeated accept n text), isPart c = true := by
  induction n generalizing text with
  | zero => simp [repeated]
  | succ n ih =>
      cases text with
      | nil => simp
      | cons c rest =>
          by_cases hc : isPart c = true
          · have hone : repeated accept (n + 1) (c :: rest) = repeated accept n rest + 1 := by
              simp only [repeated, haccept, if_pos hc, List.drop_succ_cons, List.drop_zero]
              exact Nat.add_comm _ _
            rw [hone, List.take_succ_cons]
            intro d hd
            cases List.mem_cons.mp hd with
            | inl hsame => rw [hsame]; exact hc
            | inr hrest => exact ih rest d hrest
          · have hzero : repeated accept (n + 1) (c :: rest) = 0 := by
              simp only [repeated, haccept, if_neg hc]
            rw [hzero]
            simp

/-- What the rule for names takes off the front of a text is a name. -/
theorem isName_take {c : Char} {rest : List Char} {n : Nat}
    (h : identifier.accept (c :: rest) = n) (hn : n ≠ 0) :
    isName (String.ofList ((c :: rest).take n)) = true := by
  have hidentifier : identifier = .andThen nameStart (.many namePart) := rfl
  rw [hidentifier, accept_andThen] at h
  have hstart : nameStart.accept (c :: rest) ≠ 0 := by
    intro hzero
    rw [if_pos hzero] at h
    exact hn h.symm
  have hone : nameStart.accept (c :: rest) = 1 := by
    have hle := nameStart_accept_le (c :: rest)
    omega
  rw [if_neg hstart, hone, List.drop_succ_cons, List.drop_zero, accept] at h
  have hparts := forall_mem_take_repeated namePart_accept rest.length rest
  rw [← h, Nat.add_comm, List.take_succ_cons]
  generalize rest.take (repeated namePart.accept rest.length rest) = piece at hparts
  have hmany : repeated namePart.accept piece.length piece = piece.length := by
    have hrepeated : repeated namePart.accept piece.length (piece ++ []) = piece.length :=
      repeated_append (fun d hd more => by rw [namePart_accept, hparts d hd]; rfl) (by simp)
        (Nat.le_refl _)
    rwa [List.append_nil] at hrepeated
  have hletter : nameStart.accept (c :: piece) = 1 := by
    rw [nameStart_accept, if_pos (letter_of_nameStart hstart)]
  rw [isName, String.toList_ofList, hidentifier, accept_andThen, hletter, if_neg Nat.one_ne_zero,
    List.drop_succ_cons, List.drop_zero, accept, hmany, List.length_cons, Nat.add_comm,
    Bool.and_eq_true]
  constructor
  · simp [← String.toList_inj]
  · simp

theorem isName_of_first? {c : Char} {rest : List Char} {n : Nat}
    (h : first? rules (c :: rest) = some (.name, n)) :
    isName (String.ofList ((c :: rest).take n)) = true := by
  obtain ⟨hn, r, hr, hkind, haccept⟩ := exists_of_first? h
  have honly : ∀ r ∈ rules, r.kind = .name → r.scanner = identifier := by simp [rules]
  rw [honly r hr hkind] at haccept
  exact isName_take haccept hn

/-- A name among tokens is a word. -/
def IsNamed (t : Token) : Prop := t.kind = .name → isWord (String.ofList t.text) = true

theorem isNamed_of_ofLexeme? {text : List Char} {l : Lexeme TokenKind} {t : Token}
    (hname : l.kind = .name →
      isName (String.ofList ((text.drop l.start).take (l.stop - l.start))) = true)
    (h : ofLexeme? text l = some t) : t.IsNamed := by
  intro hkind
  unfold ofLexeme? at h
  dsimp only at h
  split at h
  next => cases h
  next => cases h
  next hl =>
    rw [Option.some.injEq] at h
    subst h
    rw [isWord, hname hl, Bool.true_and, Option.isNone_iff_eq_none]
    cases hkeyword : keyword? (String.ofList ((text.drop l.start).take (l.stop - l.start))) with
    | none => rfl
    | some kind =>
        rw [hkeyword] at hkind
        obtain rfl : kind = .name := hkind
        unfold keyword? at hkeyword
        split at hkeyword <;> cases hkeyword
  next hl =>
    rw [Option.some.injEq] at h
    subst h
    exact absurd hkind hl

/-- Lexing finds names only, wherever in a longer text it starts. -/
theorem isNamed_of_mem_lexFrom (before text : List Char) :
    ∀ l ∈ (lexFrom rules before.length text).lexemes, ∀ t ∈ ofLexeme? (before ++ text) l,
      t.IsNamed := by
  refine lexFrom_induction ?_ ?_ ?_ before text
    (P := fun before text lexing => ∀ l ∈ lexing.lexemes, ∀ t ∈ ofLexeme? (before ++ text) l,
      t.IsNamed)
  · intro before text _ l hl
    cases hl
  · intro before kind n hfirst l hl t ht
    cases hfirst
    obtain rfl := List.mem_singleton.mp hl
    cases ht
  · intro before piece after kind n tail hpiece hfirst htake ih
    rw [List.append_assoc] at ih
    refine List.forall_mem_cons.mpr ⟨fun t ht => isNamed_of_ofLexeme? ?_ ht, ih⟩
    rintro rfl
    have hchars : ((before ++ (piece ++ after)).drop before.length).take
        ((before ++ piece).length - before.length) = (piece ++ after).take n := by
      rw [List.drop_left, List.length_append, Nat.add_sub_cancel_left, List.take_left, ← htake]
    obtain ⟨c, rest, hcons⟩ : ∃ c rest, piece ++ after = c :: rest :=
      List.exists_cons_of_ne_nil (List.append_ne_nil_of_left_ne_nil hpiece after)
    dsimp only
    rw [hchars, hcons]
    rw [hcons] at hfirst
    exact isName_of_first? hfirst

theorem isNamed_of_ofText {text : List Char} {tokens : List Token}
    (h : Token.ofText text = .ok tokens) : ∀ t ∈ tokens, t.IsNamed := by
  unfold Token.ofText at h
  dsimp only at h
  split at h
  next =>
    cases h
    intro t ht
    obtain ⟨l, hl, hlexeme⟩ := List.mem_filterMap.mp ht
    exact isNamed_of_mem_lexFrom [] text l hl t hlexeme
  next => cases h

end Token

end Names

namespace Reader

/-- Whatever the reader answers on tokens whose names are words has the property, and leaves such
tokens. -/
def Gives {α : Type} (r : Reader α) (s : State) (ok : α → Prop) : Prop :=
  ∀ x t, (∀ token ∈ s.tokens, token.IsNamed) → r s = .ok x t →
    ok x ∧ ∀ token ∈ t.tokens, token.IsNamed

section Rules
variable {α β : Type} {s : State} {ctx : Context} {ok : α → Prop}

theorem Gives.pure {x : α} (h : ok x) : Gives (Pure.pure x) s ok := by
  intro y t hnamed hrun
  cases hrun
  exact ⟨h, hnamed⟩

theorem Gives.bind {r : Reader β} {k : β → Reader α} {mid : β → Prop} (hr : Gives r s mid)
    (hk : ∀ x t, mid x → Gives (k x) t ok) : Gives (r >>= k) s ok := by
  intro y u hnamed hrun
  change EStateM.bind r k s = .ok y u at hrun
  unfold EStateM.bind at hrun
  cases hfirst : r s with
  | error e t =>
      rw [hfirst] at hrun
      cases hrun
  | ok x t =>
      rw [hfirst] at hrun
      have hmid := hr x t hnamed hfirst
      exact hk x t hmid.1 y u hmid.2 hrun

/-- Looking at the next token changes nothing, and tells something about the state. -/
theorem Gives.peek_bind {k : TokenKind → Reader α} (h : Gives (k (next s.tokens)) s ok) :
    Gives (peek >>= k) s ok := by
  intro x t hnamed hrun
  rw [bind_eq_ok (peek_run s)] at hrun
  exact h x t hnamed hrun

theorem Gives.remaining_bind {k : Nat → Reader α} (h : Gives (k s.tokens.length) s ok) :
    Gives (remaining >>= k) s ok :=
  h

theorem Gives.position_bind {k : Span → Reader α} (h : ∀ span, Gives (k span) s ok) :
    Gives (position ctx >>= k) s ok := by
  intro x t hnamed hrun
  obtain ⟨span, hspan⟩ := position_run ctx s
  rw [bind_eq_ok hspan] at hrun
  exact h span x t hnamed hrun

theorem complainAt_gives (span : Span) (c : Complaint) :
    Gives (complainAt span c : Reader α) s ok := by
  intro x t _ hrun
  cases hrun

theorem complain_gives (c : Complaint) : Gives (complain ctx c : Reader α) s ok :=
  .position_bind fun span => complainAt_gives span c

/-- Nothing is answered after a complaint. -/
theorem Gives.complain_bind {c : Complaint} {k : β → Reader α} :
    Gives (complain ctx c >>= k) s ok :=
  have hcomplain : Gives (complain ctx c : Reader β) s fun _ => False := complain_gives c
  hcomplain.bind fun _ _ hnot => hnot.elim

theorem Gives.complainAt_bind {span : Span} {c : Complaint} {k : β → Reader α} :
    Gives (complainAt span c >>= k) s ok :=
  have hcomplain : Gives (complainAt span c : Reader β) s fun _ => False := complainAt_gives span c
  hcomplain.bind fun _ _ hnot => hnot.elim

theorem advance_gives : Gives advance s fun _ => True := by
  intro x t hnamed hrun
  cases hrun
  exact ⟨trivial, fun token htoken => hnamed token (List.mem_of_mem_tail htoken)⟩

theorem accept_gives (kind : TokenKind) : Gives (accept kind) s fun _ => True := by
  apply Gives.peek_bind
  split_ifs
  · exact advance_gives.bind fun _ _ _ => .pure trivial
  · exact .pure trivial

theorem expect_gives (kind : TokenKind) (c : Complaint) :
    Gives (expect ctx kind c) s fun _ => True := by
  apply (accept_gives kind).bind
  intro found t _
  split_ifs
  · exact .pure trivial
  · exact complain_gives c

theorem takeText_run (s : State) : ∃ x, takeText s = .ok x { s with tokens := s.tokens.tail } ∧
    (next s.tokens = .name → ∃ token ∈ s.tokens, token.kind = .name ∧ token.text = x) := by
  obtain ⟨tokens, fresh⟩ := s
  cases tokens with
  | nil => exact ⟨[], rfl, nofun⟩
  | cons token rest => exact ⟨token.text, rfl, fun hkind => ⟨token, List.mem_cons_self, hkind, rfl⟩⟩

/-- The text of a name is a word. -/
theorem takeText_gives :
    Gives takeText s fun text => next s.tokens = .name → isWord (String.ofList text) = true := by
  intro x t hnamed hrun
  obtain ⟨text, htext, hname⟩ := takeText_run s
  rw [htext] at hrun
  cases hrun
  refine ⟨?_, fun token htoken => hnamed token (List.mem_of_mem_tail htoken)⟩
  intro hkind
  obtain ⟨token, htoken, hkind, rfl⟩ := hname hkind
  exact hnamed token htoken hkind

theorem orElse_gives {first second : Reader α} (hfirst : Gives first s ok)
    (hsecond : ∀ t, Gives second t ok) : Gives (orElse first second) s ok := by
  intro x u hnamed hrun
  rw [orElse_run] at hrun
  split at hrun
  next y t hy =>
    cases hrun
    exact hfirst x u hnamed hy
  next => cases hrun
  next span c t _ =>
    split at hrun
    next y v hy =>
      cases hrun
      exact hsecond { t with tokens := s.tokens } x u hnamed hy
    next => cases hrun
    next => cases hrun

end Rules

section Terms
variable {s : State} {ctx : Context} {part : Reader Term}

/-- A term that means to a reader what it says, with variables whose names can be written. -/
structure Context.Reads (ctx : Context) (t : Term) : Prop where
  printable : t.isPrintable ctx.environment ctx.bound = true
  words : ∀ v, (Term.var v).occursIn t = true → isWord v.name = true

theorem Context.Reads.app {head : String} {args : List Term}
    (hhead : isWord head = true ∨ Term.isOperator head = true ∧ 2 ≤ args.length)
    (h : ∀ t ∈ args, ctx.Reads t) : ctx.Reads (.app head args) where
  printable := by
    rw [Term.isPrintable, Term.arePrintable_eq_all, Bool.and_eq_true, List.all_eq_true]
    refine ⟨?_, fun t ht => (h t ht).printable⟩
    simpa using hhead
  words := by
    intro v hv
    rw [Term.occursIn, Term.occursInAny_eq_any] at hv
    simp only [reduceCtorEq, decide_false, Bool.false_or, List.any_eq_true] at hv
    obtain ⟨t, ht, hoccurs⟩ := hv
    exact (h t ht).words v hoccurs

theorem Context.Reads.args {head : String} {args : List Term} (h : ctx.Reads (.app head args)) :
    (isWord head = true ∨ Term.isOperator head = true) ∧ ∀ t ∈ args, ctx.Reads t := by
  have hprintable := h.printable
  rw [Term.isPrintable, Term.arePrintable_eq_all, Bool.and_eq_true, List.all_eq_true]
    at hprintable
  constructor
  · have hhead := hprintable.1
    rw [Bool.or_eq_true, Bool.and_eq_true] at hhead
    exact hhead.imp_right fun hoperator => hoperator.1
  · intro t ht
    refine ⟨hprintable.2 t ht, fun v hv => h.words v ?_⟩
    rw [Term.occursIn, Term.occursInAny_eq_any, Bool.or_eq_true, List.any_eq_true]
    exact .inr ⟨t, ht, hv⟩

/-- A name on its own is a variable that it refers to, or else a constant. -/
theorem Context.Reads.var {name : String} {v : Variable} (hname : isWord name = true)
    (h : ctx.resolve name = some v) : ctx.Reads (.var v) := by
  have hsame : v.name = name := by
    unfold Context.resolve at h
    rcases Option.or_eq_some_iff.mp h with hbound | ⟨-, hdeclared⟩
    · exact name_of_find? hbound
    · exact name_of_find? hdeclared
  constructor
  · rw [Term.isPrintable, hsame]
    exact beq_iff_eq.mpr h
  · intro w hw
    have hw : v = w := by simpa [Term.occursIn] using hw
    rw [← hw, hsame]
    exact hname

theorem Context.Reads.const {name : String} (hname : isWord name = true)
    (h : ctx.resolve name = none) : ctx.Reads (.const name) := by
  constructor
  · rw [Term.isPrintable, hname, Bool.true_and, Option.isNone_iff_eq_none]
    exact h
  · simp [Term.occursIn]

theorem Context.Reads.num (n : Nat) : ctx.Reads (.num n) := by
  constructor
  · simp [Term.isPrintable]
  · simp [Term.occursIn]

theorem operands_gives (op : Operator) (h : ∀ s, Gives part s ctx.Reads) (n : Nat) :
    Gives (operands ctx part op n) s fun ts =>
      (∀ t ∈ ts, ctx.Reads t) ∧ (next s.tokens = .operator op → n ≠ 0 → ts ≠ []) := by
  induction n generalizing s with
  | zero => exact .pure ⟨nofun, fun _ hn => absurd rfl hn⟩
  | succ n ih =>
      apply Gives.peek_bind
      split
      next op' hkind =>
        split_ifs
        · exact .complain_bind
        · refine advance_gives.bind fun _ t _ => (h t).bind fun x u hx => ih.bind fun xs v hxs => ?_
          apply Gives.pure
          exact ⟨List.forall_mem_cons.mpr ⟨hx, hxs.1⟩, fun _ _ => List.cons_ne_nil x xs⟩
      next hkind => exact .pure ⟨nofun, fun hop _ => absurd hop (hkind op)⟩

theorem termOver_gives (h : ∀ s, Gives part s ctx.Reads) :
    Gives (termOver ctx part) s ctx.Reads := by
  refine (h s).bind fun first t hfirst => .peek_bind ?_
  split
  next op hkind =>
    refine .remaining_bind ((operands_gives op h _).bind fun ts _ hts => .pure ?_)
    apply Context.Reads.app
    · right
      have hne : ts ≠ [] := by
        apply hts.2 hkind
        intro hnone
        rw [List.eq_nil_of_length_eq_zero hnone] at hkind
        cases hkind
      constructor
      · cases op <;> rfl
      · have hlength := List.length_pos_iff.mpr hne
        rw [List.length_cons]
        omega
    · exact List.forall_mem_cons.mpr ⟨hfirst, hts.1⟩
  next => exact .pure hfirst

theorem arguments_gives {argument : Reader Term} (h : ∀ s, Gives argument s ctx.Reads) (n : Nat)
    (first : Bool) : Gives (arguments ctx argument n first) s fun ts => ∀ t ∈ ts, ctx.Reads t := by
  induction n generalizing s first with
  | zero => exact complain_gives _
  | succ n ih =>
      have hrest : ∀ u, Gives (do
          let x ← argument
          return x :: (← arguments ctx argument n false)) u fun ts => ∀ t ∈ ts, ctx.Reads t := by
        intro u
        refine (h u).bind fun x v hx => (ih false).bind fun xs w hxs => .pure ?_
        exact List.forall_mem_cons.mpr ⟨hx, hxs⟩
      refine (accept_gives _).bind fun found t _ => ?_
      split_ifs
      · exact .pure nofun
      · exact hrest t
      · exact (expect_gives _ _).bind fun _ u _ => hrest u

theorem operand_gives (depth : Nat) : Gives (operand ctx depth) s ctx.Reads := by
  induction depth generalizing s with
  | zero => exact complain_gives _
  | succ depth ih =>
      apply Gives.peek_bind
      split
      next =>
        refine advance_gives.bind fun _ t _ => (termOver_gives fun _ => ih).bind fun x u hx => ?_
        exact (expect_gives _ _).bind fun _ _ _ => .pure hx
      next hkind =>
        refine takeText_gives.bind fun text t hname => ?_
        have hname := hname hkind
        refine (accept_gives _).bind fun found u _ => ?_
        split_ifs
        · apply Gives.remaining_bind
          refine (arguments_gives (fun _ => termOver_gives fun _ => ih) _ _).bind ?_
          intro args v hargs
          exact .pure (.app (.inl hname) hargs)
        · split
          next w hw => exact .pure (.var hname hw)
          next hnone => exact .pure (.const hname hnone)
      next => exact takeText_gives.bind fun text t _ => .pure (.num _)
      next => exact complain_gives _

theorem term_gives (depth : Nat) : Gives (term ctx depth) s ctx.Reads :=
  termOver_gives fun _ => operand_gives depth

end Terms

end Reader

namespace Proposition

mutual

/-- Whether no predicate without arguments has the name of a variable that is declared or bound
around it. -/
def isUnambiguous (env : Environment) (bound : List Variable) : Proposition → Bool
  | .relation name args _ => !args.isEmpty || (env.resolve bound name).isNone
  | .not p _ => isUnambiguous env bound p
  | .junction _ ps _ => areUnambiguous env bound ps
  | .implies a b _ | .iff a b _ => isUnambiguous env bound a && isUnambiguous env bound b
  | .quantified _ v _ p _ => isUnambiguous env (v :: bound) p
  | .contradiction _ => true

def areUnambiguous (env : Environment) (bound : List Variable) : List Proposition → Bool
  | [] => true
  | p :: ps => isUnambiguous env bound p && areUnambiguous env bound ps

end

@[simp] theorem areUnambiguous_eq_all (env : Environment) (bound : List Variable)
    (ps : List Proposition) : areUnambiguous env bound ps = ps.all (isUnambiguous env bound) := by
  induction ps with
  | nil => rfl
  | cons p ps ih => simp [areUnambiguous, ih]

end Proposition

namespace Reader
open Proposition

/-- A proposition that means to a reader what it says, once its text is unambiguous. -/
structure Context.Accepts (ctx : Context) (p : Proposition) : Prop where
  printable : p.isUnambiguous ctx.environment ctx.bound = true →
    p.isPrintable ctx.environment ctx.bound = true
  wellMade : p.isWellMade = true
  words : ∀ v, p.contains (.var v) = true → isWord v.name = true

section Propositions
variable {s : State} {ctx : Context} {a b p : Proposition} {part : Reader Proposition}

theorem Context.Accepts.relation {name : String} {args : List Term}
    (hname : (Relation.ofName? name).isSome ∧ args.length = 2 ∨ isWord name = true)
    (h : ∀ t ∈ args, ctx.Reads t) : ctx.Accepts (.relation name args) where
  printable := by
    intro hclear
    rw [isUnambiguous] at hclear
    rw [isPrintable, Bool.and_eq_true, List.all_eq_true, hclear, Bool.and_true]
    refine ⟨?_, fun t ht => (h t ht).printable⟩
    simpa using hname
  wellMade := rfl
  words := by
    intro v hv
    rw [contains, List.any_eq_true] at hv
    obtain ⟨t, ht, hoccurs⟩ := hv
    exact (h t ht).words v hoccurs

theorem Context.Accepts.not (h : ctx.Accepts p) : ctx.Accepts (.not p) :=
  ⟨h.printable, h.wellMade, h.words⟩

theorem Context.Accepts.implies (ha : ctx.Accepts a) (hb : ctx.Accepts b) :
    ctx.Accepts (.implies a b) where
  printable := by
    intro hclear
    rw [isUnambiguous, Bool.and_eq_true] at hclear
    rw [isPrintable, ha.printable hclear.1, hb.printable hclear.2]
    rfl
  wellMade := by
    rw [isWellMade, ha.wellMade, hb.wellMade]
    rfl
  words := by
    intro v hv
    rw [contains, Bool.or_eq_true] at hv
    exact hv.elim (ha.words v) (hb.words v)

/-- A biconditional has the parts of an implication. -/
theorem Context.Accepts.iff (ha : ctx.Accepts a) (hb : ctx.Accepts b) : ctx.Accepts (.iff a b) :=
  have h := ha.implies hb
  ⟨h.printable, h.wellMade, h.words⟩

theorem Context.Accepts.junction (c : Connective) {ps : List Proposition} (hlength : 2 ≤ ps.length)
    (h : ∀ p ∈ ps, ctx.Accepts p) : ctx.Accepts (.junction c ps) where
  printable := by
    intro hclear
    rw [isUnambiguous, areUnambiguous_eq_all, List.all_eq_true] at hclear
    rw [isPrintable, arePrintable_eq_all, List.all_eq_true]
    exact fun p hp => (h p hp).printable (hclear p hp)
  wellMade := by
    rw [isWellMade, areWellMade_eq_all, Bool.and_eq_true, decide_eq_true_eq, List.all_eq_true]
    exact ⟨hlength, fun p hp => (h p hp).wellMade⟩
  words := by
    intro v hv
    rw [contains, containsAny_eq_any, List.any_eq_true] at hv
    obtain ⟨p, hp, hcontains⟩ := hv
    exact (h p hp).words v hcontains

theorem quantified?_eq_ok {q : Quantifier} {v : Variable} {domain : Option Term}
    (h : quantified? q (some v) domain b = .ok p) : p = .quantified q v domain b ∧
      b.binds v = false ∧ domain.any (Term.var v).occursIn = false := by
  unfold quantified? at h
  dsimp only at h
  split_ifs at h with hbinds
  rw [Bool.not_eq_true] at hbinds
  cases domain with
  | none =>
      cases h
      exact ⟨rfl, hbinds, rfl⟩
  | some set =>
      dsimp only at h
      split_ifs at h with hmentions
      cases h
      exact ⟨rfl, hbinds, by simpa using hmentions⟩

theorem Context.Accepts.quantified {q : Quantifier} {v : Variable} {domain : Option Term}
    (hname : isWord v.name = true) (hfree : Environment.find? ctx.bound v.name = none)
    (hdeclared : (ctx.environment.find? v.name).all (· == v) = true)
    (hdomain : ∀ set ∈ domain, ctx.Reads set)
    (hbody : Context.Accepts { ctx with bound := v :: ctx.bound } b)
    (h : quantified? q (some v) domain b = .ok p) : ctx.Accepts p := by
  obtain ⟨hp, hbinds, hmentions⟩ := quantified?_eq_ok h
  subst hp
  constructor
  · intro hclear
    rw [isPrintable, hname, hfree, hdeclared, hbody.printable hclear]
    cases domain with
    | none => rfl
    | some set => simpa using (hdomain set rfl).printable
  · rw [isWellMade, hbinds, hmentions, hbody.wellMade]
    rfl
  · intro w hw
    rw [contains, Bool.or_eq_true, Bool.and_eq_true] at hw
    cases hw with
    | inl hset =>
        cases domain with
        | none => cases hset
        | some set => exact (hdomain set rfl).words w hset
    | inr hinner => exact hbody.words w hinner.2

theorem members_gives (c : Connective) (h : ∀ s, Gives part s ctx.Accepts) (n : Nat) :
    Gives (members ctx part c n) s fun ps =>
      (∀ p ∈ ps, ctx.Accepts p) ∧ (next s.tokens = .connective c → n ≠ 0 → ps ≠ []) := by
  induction n generalizing s with
  | zero => exact .pure ⟨nofun, fun _ hn => absurd rfl hn⟩
  | succ n ih =>
      apply Gives.peek_bind
      split
      next c' hkind =>
        split_ifs
        · exact .complain_bind
        · refine advance_gives.bind fun _ t _ => (h t).bind fun x u hx => ih.bind fun xs v hxs => ?_
          apply Gives.pure
          exact ⟨List.forall_mem_cons.mpr ⟨hx, hxs.1⟩, fun _ _ => List.cons_ne_nil x xs⟩
      next hkind => exact .pure ⟨nofun, fun hc _ => absurd hc (hkind c)⟩

theorem junction_gives (h : ∀ s, Gives part s ctx.Accepts) :
    Gives (junction ctx part) s ctx.Accepts := by
  refine (h s).bind fun first t hfirst => .peek_bind ?_
  split
  next c hkind =>
    refine .remaining_bind ((members_gives c h _).bind fun ps _ hps => .pure ?_)
    have hne : ps ≠ [] := by
      apply hps.2 hkind
      intro hnone
      rw [List.eq_nil_of_length_eq_zero hnone] at hkind
      cases hkind
    apply Context.Accepts.junction
    · have hlength := List.length_pos_iff.mpr hne
      rw [List.length_cons]
      omega
    · exact List.forall_mem_cons.mpr ⟨hfirst, hps.1⟩
  next => exact .pure hfirst

theorem implication_gives (h : ∀ s, Gives part s ctx.Accepts) (n : Nat) :
    Gives (implication ctx part n) s ctx.Accepts := by
  induction n generalizing s with
  | zero => exact junction_gives h
  | succ n ih =>
      refine (junction_gives h).bind fun a t ha => (accept_gives _).bind fun found u _ => ?_
      split_ifs
      · exact ih.bind fun b v hb => .pure (ha.implies hb)
      · exact .pure ha

theorem formulaOver_gives (h : ∀ s, Gives part s ctx.Accepts) :
    Gives (formulaOver ctx part) s ctx.Accepts := by
  refine .remaining_bind ((implication_gives h _).bind fun a t ha => ?_)
  refine (accept_gives _).bind fun found u _ => ?_
  split_ifs
  · refine .remaining_bind ((implication_gives h _).bind fun b v hb => .peek_bind ?_)
    split_ifs
    · exact .complain_bind
    · exact .pure (ha.iff hb)
  · exact .pure ha

theorem atom_gives (depth : Nat) : Gives (atom ctx depth) s ctx.Accepts := by
  refine .position_bind fun span => (term_gives depth).bind fun lhs t hlhs => .peek_bind ?_
  split
  next r _ =>
    refine advance_gives.bind fun _ u _ => (term_gives depth).bind fun rhs v hrhs => .pure ?_
    apply Context.Accepts.relation
    · left
      cases r <;> exact ⟨rfl, rfl⟩
    · exact List.forall_mem_cons.mpr ⟨hlhs, List.forall_mem_singleton.mpr hrhs⟩
  next name _ =>
    have hname := hlhs.printable
    rw [Term.isPrintable, Bool.and_eq_true] at hname
    exact .pure (.relation (.inr hname.1) (by simp))
  next head args _ =>
    split_ifs with hoperator
    · exact .complainAt_bind
    · have hparts := hlhs.args
      exact .pure (.relation (.inr (hparts.1.resolve_right hoperator)) hparts.2)
  next => exact complainAt_gives _ _

theorem closeFormula_gives (h : ctx.Accepts p) : Gives (closeFormula ctx p) s ctx.Accepts := by
  refine (expect_gives _ _).bind fun _ t _ => .peek_bind ?_
  split
  next => exact complain_gives _
  next => exact complain_gives _
  next => exact .pure h

/-- The variable of a quantifier has a name that is not bound around it, and is the declared
variable of that name if there is one. -/
theorem quantifiedVariable_gives : Gives (quantifiedVariable ctx) s fun v =>
    isWord v.name = true ∧ Environment.find? ctx.bound v.name = none ∧
      (ctx.environment.find? v.name).all (· == v) = true := by
  refine .position_bind fun span => .peek_bind ?_
  split_ifs with hkind
  · exact .complainAt_bind
  · refine takeText_gives.bind fun text t hname => ?_
    have hname := hname (not_not.mp hkind)
    dsimp only
    split_ifs with hbound
    · exact .complainAt_bind
    · rw [Bool.not_eq_true, Option.isSome_eq_false_iff, Option.isNone_iff_eq_none] at hbound
      split
      next v hv =>
        have hsame := name_of_find? hv
        apply Gives.pure
        rw [hsame]
        exact ⟨hname, hbound, by simp [hv]⟩
      next hnone =>
        intro v u hnamed hrun
        cases hrun
        exact ⟨⟨hname, hbound, by simp [hnone]⟩, hnamed⟩

/-- The domain of a quantifier is read where its variable is not bound yet. -/
theorem domain_bind_gives {depth : Nat} {k : Option Term → Reader Proposition}
    (h : ∀ domain t, (∀ set ∈ domain, ctx.Reads set) → Gives (k domain) t ctx.Accepts) :
    Gives (do
      let domain ← if ← accept (.relation .element) then some <$> term ctx depth else pure none
      k domain) s ctx.Accepts := by
  refine (accept_gives _).bind fun found t _ => ?_
  split_ifs
  · have hsome : Gives (some <$> term ctx depth) t fun domain => ∀ set ∈ domain, ctx.Reads set := by
      rw [map_eq_pure_bind]
      refine (term_gives depth).bind fun set u hset => .pure ?_
      intro x hx
      cases hx
      exact hset
    exact hsome.bind h
  · exact h none t nofun

theorem member_gives (depth : Nat) : Gives (member depth ctx) s ctx.Accepts := by
  induction depth generalizing s ctx with
  | zero => exact complain_gives _
  | succ depth ih =>
      unfold member
      apply Gives.peek_bind
      split
      next => exact advance_gives.bind fun _ t _ => ih.bind fun p u hp => .pure hp.not
      next q _ =>
        refine advance_gives.bind fun _ t _ => quantifiedVariable_gives.bind fun v u hv => ?_
        apply domain_bind_gives
        intro domain w hdomain
        refine (expect_gives _ _).bind fun _ x _ => (formulaOver_gives fun _ => ih).bind ?_
        intro body y hbody
        split
        next p hp => exact .pure (.quantified hv.1 hv.2.1 hv.2.2 hdomain hbody hp)
        next =>
          intro x z _ hrun
          cases hrun
      next =>
        apply orElse_gives
        · refine advance_gives.bind fun _ t _ => (formulaOver_gives fun _ => ih).bind ?_
          exact fun p u hp => closeFormula_gives hp
        · exact fun t => atom_gives _
      next => exact atom_gives _

end Propositions

/-- What is read from a text has all properties that the grammar gives. -/
theorem of_readAll_eq_ok {α : Type} {grammar : Context → Nat → Reader α} {source : Source}
    {env : Environment} {fresh : Nat} {ok : α → Prop} {x : α}
    (hgrammar : ∀ s depth, Gives (grammar ⟨source.text.length, env, []⟩ depth) s ok)
    (h : (readAll grammar source env fresh).1 = .ok x) : ok x := by
  unfold readAll at h
  split at h
  next => cases h
  next tokens htokens =>
    dsimp only at h
    split at h
    next y t hrun =>
      cases h
      have hwhole : Gives (whole ⟨source.text.length, env, []⟩
          (grammar ⟨source.text.length, env, []⟩ (tokens.length + 1))) ⟨tokens, fresh⟩ ok := by
        refine (hgrammar _ _).bind fun y u hy => .peek_bind ?_
        split_ifs
        · exact .pure hy
        · exact .complain_bind
      exact (hwhole x t (isNamed_of_ofText htokens) hrun).1
    next => cases h

end Reader

section Texts
open Reader Proposition

/-- Whatever a text is read as can be read again from its own text, if no predicate without
arguments in it has the name of a variable. -/
theorem reread_of_isUnambiguous (source : Source) (env : Environment) (fresh : Nat)
    (p : Proposition) (hread : (source.proposition env fresh).1 = .ok p)
    (hclear : p.isUnambiguous env [] = true) (name : String) (fresh' : Nat) :
    ∃ q, (Source.proposition (.ofString name p.render) env fresh').1 = .ok q ∧
      q.equivalent p = true := by
  have haccepts : Context.Accepts ⟨source.text.length, env, []⟩ p :=
    of_readAll_eq_ok (fun _ depth => formulaOver_gives fun _ => member_gives depth) hread
  have hprintable := haccepts.printable hclear
  have hlexes := (Proposition.spells hprintable haccepts.wellMade haccepts.words).lexes
  have hmirrors := mirrors_nil p.render.toList.length env
  have hformula := (readable hmirrors hprintable haccepts.wellMade).formula _
    (Nat.le_succ p.signs.length)
  obtain ⟨q, hq, hcopies⟩ := readAll_eq_ok formula (.ofString name p.render) hlexes
    (hformula.mono fun _ hkind => .inr hkind) fresh'
  have hunify : Unify.proposition .nothing .empty [] q p = some [] := hcopies.unify []
  refine ⟨q, hq, ?_⟩
  rw [equivalent, hunify]
  rfl

/-- Words for connectives, signs for keyboards and needless brackets all are read, and give way to
the usual signs when printed. -/
theorem reread_of_isUnambiguous_spelledOut :
    let text := "forall y in S. (P((x)) and ((Q || x+2 <= f()))) implies exists z. !R(y, z)"
    ∃ p, (Source.proposition (.ofString "" text) [⟨1, "x"⟩] 7).1 = .ok p ∧
      p.isUnambiguous [⟨1, "x"⟩] [] = true ∧
      ∃ q, (Source.proposition (.ofString "" p.render) [⟨1, "x"⟩] 9).1 = .ok q ∧
        q.equivalent p = true := by
  intro text
  have hclear : (Source.proposition (.ofString "" text) [⟨1, "x"⟩] 7).1.toOption.any
      (isUnambiguous [⟨1, "x"⟩] []) = true := by decide +kernel
  cases hread : (Source.proposition (.ofString "" text) [⟨1, "x"⟩] 7).1 with
  | error e =>
      rw [hread] at hclear
      cases hclear
  | ok p =>
      rw [hread] at hclear
      exact ⟨p, rfl, hclear, reread_of_isUnambiguous _ _ 7 p hread hclear "" 9⟩

/-- Empty brackets make a predicate of the name of a variable. They are not printed, and without
them the name is that of the variable again, whether declared or bound. -/
theorem reread_predicate_like_variable :
    (∃ p, (Source.proposition (.ofString "" "x()") [⟨1, "x"⟩] 2).1 = .ok p ∧
      ¬ ∃ q, (Source.proposition (.ofString "" p.render) [⟨1, "x"⟩] 2).1 = .ok q) ∧
    ∃ p, (Source.proposition (.ofString "" "∀x. x()") [] 2).1 = .ok p ∧
      ¬ ∃ q, (Source.proposition (.ofString "" p.render) [] 2).1 = .ok q := by
  have hfails : ∀ (text : String) (env : Environment),
      (Source.proposition (.ofString "" text) env 2).1.toOption.any (fun p =>
        (Source.proposition (.ofString "" p.render) env 2).1.toOption.isNone) = true →
      ∃ p, (Source.proposition (.ofString "" text) env 2).1 = .ok p ∧
        ¬ ∃ q, (Source.proposition (.ofString "" p.render) env 2).1 = .ok q := by
    intro text env h
    cases hread : (Source.proposition (.ofString "" text) env 2).1 with
    | error e =>
        rw [hread] at h
        cases h
    | ok p =>
        rw [hread] at h
        refine ⟨p, rfl, ?_⟩
        intro hagain
        obtain ⟨q, hq⟩ := hagain
        simp [Except.toOption, hq] at h
  exact ⟨hfails _ _ (by decide +kernel), hfails _ _ (by decide +kernel)⟩

end Texts

end Entailment

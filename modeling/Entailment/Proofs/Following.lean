import Entailment.Proofs.LexicalScope
import Entailment.Proofs.Walking

/-!
# Keeping up with a reader

A reader by position keeps up with a reader that takes tokens off a list as long as its position is
where the other one is. `Stands` says what that means, `Matches` compares what the two come to, and
`Follows` says of two readers that they match wherever one stands where the other is. There is one
rule for each way to go on, so that readers can be compared step by step.

Looking ahead is safe as there is always a lexeme for the end of the text, and no step passes over
that. What is on the stack of variables is what is bound, also after a complaint.
-/
namespace Entailment

/-- The span is within a text of the given length. -/
def Span.Within (span : Span) (length : Nat) : Prop :=
  0 ≤ span.start ∧ span.start ≤ span.stop ∧ span.stop ≤ length

namespace Walker

section Rows
open Token LexRule

/-- The lexeme is where the token was found, inside of the text. -/
structure IsToken (text : List Char) (l : Lexeme TokenKind) (t : Token) : Prop where
  kind : t.kind = l.kind
  inner : l.kind ≠ .ending
  span : t.span = ⟨l.start, l.stop⟩
  chars : t.text = (text.drop l.start).take (l.stop - l.start)
  ordered : l.start ≤ l.stop
  inside : l.stop ≤ text.length

/-- The lexemes are those of the tokens, and one for the end of the text. -/
def Aligned (text : List Char) : List (Lexeme TokenKind) → List Token → Prop
  | [l], [] => l = ⟨.ending, text.length, text.length⟩
  | l :: ls, t :: ts => IsToken text l t ∧ Aligned text ls ts
  | _, _ => False

variable {text : List Char} {l : Lexeme TokenKind} {ls : List (Lexeme TokenKind)} {t : Token}
  {ts : List Token}

theorem aligned_cons_cons : Aligned text (l :: ls) (t :: ts) ↔
    IsToken text l t ∧ Aligned text ls ts := by
  cases ls <;> exact Iff.rfl

theorem Aligned.length (h : Aligned text ls ts) : ls.length = ts.length + 1 := by
  induction ls generalizing ts with
  | nil => cases ts <;> exact h.elim
  | cons l ls ih =>
      cases ts with
      | nil =>
          cases ls with
          | nil => rfl
          | cons _ _ => exact h.elim
      | cons t ts => rw [List.length_cons, List.length_cons, ih (aligned_cons_cons.mp h).2]

theorem slice_eq_ok (hordered : l.start ≤ l.stop) (hinside : l.stop ≤ text.length) :
    slice text l = .ok ((text.drop l.start).take (l.stop - l.start)) := by
  rw [slice, if_pos ⟨hordered, hinside⟩]
  rfl

theorem kindOf_ne_ending {word : String} {kind : TokenKind} (h : kind ≠ .ending) :
    kindOf word kind ≠ .ending := by
  unfold kindOf
  split
  next =>
    unfold keyword?
    split <;> simp
  next => exact h

/-- What is neither blank nor the end is a token, also if it is a reserved word. -/
theorem exists_isToken (hspace : l.kind ≠ .space) (hending : l.kind ≠ .ending)
    (hordered : l.start ≤ l.stop) (hinside : l.stop ≤ text.length) :
    ∃ l' t, reclassify text l = .ok l' ∧ ofLexeme? text l = some t ∧ IsToken text l' t := by
  obtain ⟨kind, start, stop⟩ := l
  let chars := (text.drop start).take (stop - start)
  refine ⟨⟨kindOf (String.ofList chars) kind, start, stop⟩,
    ⟨kindOf (String.ofList chars) kind, ⟨start, stop⟩, chars⟩, ?_, ?_,
    rfl, kindOf_ne_ending hending, rfl, rfl, hordered, hinside⟩
  · rw [reclassify, slice_eq_ok hordered hinside]
    rfl
  · cases kind with
    | space => exact absurd rfl hspace
    | ending => exact absurd rfl hending
    | _ => rfl

theorem rowOf_of_space (h : l.kind = .space) : rowOf text (l :: ls) = rowOf text ls := by
  rw [rowOf, List.filter_cons_of_neg (by simpa using h), rowOf]

theorem rowOf_of_ne_space {l' : Lexeme TokenKind} {row : List (Lexeme TokenKind)}
    (h : l.kind ≠ .space) (hl : reclassify text l = .ok l') (hls : rowOf text ls = .ok row) :
    rowOf text (l :: ls) = .ok (l' :: row) := by
  rw [rowOf] at hls
  rw [rowOf, List.filter_cons_of_pos (by simpa using h), List.mapM_cons, hl, hls]
  rfl

/-- If all of a text can be cut into lexemes, those that it is read from are those of its tokens. -/
theorem aligned_lexFrom (before text : List Char) :
    (lexFrom rules before.length text).remaining = 0 →
      ∃ row, rowOf (before ++ text) (lexFrom rules before.length text).lexemes = .ok row ∧
        Aligned (before ++ text) row ((lexFrom rules before.length text).lexemes.filterMap
          (ofLexeme? (before ++ text))) := by
  refine lexFrom_induction ?_ ?_ ?_ before text
    (P := fun before text lexing => lexing.remaining = 0 →
      ∃ row, rowOf (before ++ text) lexing.lexemes = .ok row ∧
        Aligned (before ++ text) row (lexing.lexemes.filterMap (ofLexeme? (before ++ text))))
  · intro before text hnone hremaining
    obtain rfl : text = [] := List.eq_nil_of_length_eq_zero hremaining
    cases hnone
  · intro before kind n hsome _
    cases hsome
    rw [List.append_nil]
    refine ⟨[⟨.ending, before.length, before.length⟩], ?_, rfl⟩
    apply rowOf_of_ne_space
    · nofun
    · rw [reclassify, slice_eq_ok (Nat.le_refl _) (Nat.le_refl _)]
      rfl
    · rfl
  · intro before piece after kind n tail hpiece hsome _ ih hremaining
    obtain ⟨row, hrow, haligned⟩ := ih hremaining
    rw [List.append_assoc] at hrow haligned
    by_cases hspace : kind = .space
    · subst hspace
      exact ⟨row, (rowOf_of_space rfl).trans hrow, haligned⟩
    · have hordered : before.length ≤ (before ++ piece).length := by
        exact (List.prefix_append before piece).length_le
      have hinside : (before ++ piece).length ≤ (before ++ (piece ++ after)).length := by
        rw [← List.append_assoc]
        exact (List.prefix_append _ after).length_le
      obtain ⟨l, t, hl, ht, htoken⟩ := exists_isToken
        (l := ⟨kind, before.length, (before ++ piece).length⟩) hspace
        (ne_ending_of_first? hpiece hsome) hordered hinside
      refine ⟨l :: row, rowOf_of_ne_space hspace hl hrow, ?_⟩
      rw [List.filterMap_cons_some ht]
      exact aligned_cons_cons.mpr ⟨htoken, haligned⟩

end Rows

open Reader (State Context next peek advance accept takeText remaining position complain complainAt
  peek_run bind_eq_ok orElse_run)

/-- A position in a row is where a reader is in its tokens, with the same variables in scope. -/
structure Stands (w : Row) (ctx : Context) (k : Cursor) (s : State) : Prop where
  length : ctx.length = w.text.length
  environment : ctx.environment = w.environment
  aligned : Aligned w.text (w.lexemes.drop k.index) s.tokens
  scope : k.scope.reverse = ctx.bound
  fresh : k.fresh = s.fresh

/-- By position there is the same answer, or one complaint, which is the same and within the text.
Then the position is still in the row and the scope is as it was. What is malformed is a crash, and
there is no other crash. -/
inductive Matches {α : Type} (w : Row) (ctx : Context) (s : State) :
    EStateM.Result Stop Cursor α → EStateM.Result Unreadable State α → Prop
  | answer {x : α} {k : Cursor} {t : State} (hstands : Stands w ctx k t)
      (hle : t.tokens.length ≤ s.tokens.length) : Matches w ctx s (.ok x k) (.ok x t)
  | complaint {span : Span} {c : Complaint} {k : Cursor} {t : State}
      (hspan : span.Within w.text.length) (hindex : k.index < w.lexemes.length)
      (hscope : k.scope.reverse = ctx.bound) (hfresh : k.fresh = t.fresh) :
      Matches w ctx s (.error (.errors [(span, c)]) k) (.error (.complaint span c) t)
  | malformed {cause : Malformed} {k : Cursor} {t : State} :
      Matches w ctx s (.error (.crash (.malformed cause)) k) (.error (.malformed cause) t)

/-- Reading by position comes to what the reader comes to. -/
def Follows {α : Type} (w : Row) (ctx : Context) (c : Walker α) (r : Reader α) (k : Cursor)
    (s : State) : Prop :=
  Stands w ctx k s → Matches w ctx s (c k) (r s)

/-- The lexeme at a position is that of the next token, or the end. -/
structure Ahead (w : Row) (ctx : Context) (s : State) (l : Lexeme TokenKind) : Prop where
  kind : l.kind = next s.tokens
  position : Reader.position ctx s = .ok ⟨l.start, l.stop⟩ s
  chars : ∃ chars, slice w.text l = .ok chars ∧ takeText s = .ok chars s.skip
  within : Span.Within ⟨l.start, l.stop⟩ w.text.length

section Rules
variable {α β γ : Type} {w : Row} {ctx : Context} {k : Cursor} {s : State} {kind : TokenKind}
  {l : Lexeme TokenKind} {c : Complaint}

theorem walker_bind_eq_ok {a : Walker β} {f : β → Walker α} {k' : Cursor} {x : β}
    (h : a k = .ok x k') : (a >>= f) k = f x k' := by
  change EStateM.bind a f k = f x k'
  rw [EStateM.bind, h]

theorem walker_bind_eq_error {a : Walker β} {f : β → Walker α} {k' : Cursor} {e : Stop}
    (h : a k = .error e k') : (a >>= f) k = .error e k' := by
  change EStateM.bind a f k = .error e k'
  rw [EStateM.bind, h]

theorem reader_bind_eq_error {r : Reader β} {g : β → Reader α} {t : State} {e : Unreadable}
    (h : r s = .error e t) : (r >>= g) s = .error e t := by
  change EStateM.bind r g s = .error e t
  rw [EStateM.bind, h]

theorem lookahead_run (h : w.lexemes[k.index]? = some l) : lookahead w k = .ok l k := by
  have hget : (get : Walker Cursor) k = .ok k k := rfl
  rw [lookahead, walker_bind_eq_ok hget, h]
  rfl

theorem Stands.ahead (h : Stands w ctx k s) :
    ∃ l, w.lexemes[k.index]? = some l ∧ Ahead w ctx s l := by
  obtain ⟨tokens, fresh⟩ := s
  have haligned := h.aligned
  rw [← List.head?_drop]
  cases hlexemes : w.lexemes.drop k.index with
  | nil =>
      rw [hlexemes] at haligned
      cases tokens <;> exact haligned.elim
  | cons l ls =>
      rw [hlexemes] at haligned
      refine ⟨l, rfl, ?_⟩
      cases tokens with
      | nil =>
          cases ls with
          | cons _ _ => exact haligned.elim
          | nil =>
              obtain rfl : l = ⟨.ending, w.text.length, w.text.length⟩ := haligned
              refine ⟨rfl, ?_, ⟨[], ?_, rfl⟩, Int.natCast_nonneg _, Int.le_refl _, Int.le_refl _⟩
              · rw [← h.length]
                rfl
              · rw [slice_eq_ok (Nat.le_refl _) (Nat.le_refl _), List.drop_length, List.take_nil]
      | cons t tokens =>
          obtain ⟨htoken, -⟩ := aligned_cons_cons.mp haligned
          refine ⟨htoken.kind.symm, ?_, ⟨t.text, ?_, rfl⟩, Int.natCast_nonneg _,
            Int.ofNat_le.mpr htoken.ordered, Int.ofNat_le.mpr htoken.inside⟩
          · rw [← htoken.span]
            rfl
          · rw [slice_eq_ok htoken.ordered htoken.inside, htoken.chars]

theorem Stands.index_lt (h : Stands w ctx k s) : k.index < w.lexemes.length := by
  obtain ⟨l, hl, -⟩ := h.ahead
  exact (List.getElem?_eq_some_iff.mp hl).1

theorem Stands.lookahead_run (h : Stands w ctx k s) :
    ∃ l, lookahead w k = .ok l k ∧ Ahead w ctx s l := by
  obtain ⟨l, hl, hahead⟩ := h.ahead
  exact ⟨l, Walker.lookahead_run hl, hahead⟩

theorem length_skip_lt (h : next s.tokens ≠ .ending) :
    s.skip.tokens.length < s.tokens.length := by
  obtain ⟨tokens, fresh⟩ := s
  cases tokens with
  | nil => exact absurd rfl h
  | cons t tokens => exact Nat.lt_succ_self _

/-- One step on, from a token that is not the end. -/
theorem Stands.skip (h : Stands w ctx k s) (hnext : next s.tokens ≠ .ending) :
    Stands w ctx { k with index := k.index + 1 } s.skip := by
  refine ⟨h.length, h.environment, ?_, h.scope, h.fresh⟩
  obtain ⟨tokens, fresh⟩ := s
  have haligned := h.aligned
  cases tokens with
  | nil => exact absurd rfl hnext
  | cons t tokens =>
      dsimp only
      rw [← List.drop_drop]
      cases hlexemes : w.lexemes.drop k.index with
      | nil =>
          rw [hlexemes] at haligned
          exact haligned.elim
      | cons l ls =>
          rw [hlexemes] at haligned
          exact (aligned_cons_cons.mp haligned).2

theorem Follows.assuming {a : Walker α} {r : Reader α}
    (h : Stands w ctx k s → Follows w ctx a r k s) : Follows w ctx a r k s :=
  fun hs => h hs hs

theorem Follows.pure (x : α) : Follows w ctx (Pure.pure x) (Pure.pure x) k s :=
  fun hs => .answer hs (Nat.le_refl _)

theorem Matches.after {t : State} {result : EStateM.Result Stop Cursor α}
    {result' : EStateM.Result Unreadable State α}
    (hle : t.tokens.length ≤ s.tokens.length) (h : Matches w ctx t result result') :
    Matches w ctx s result result' := by
  cases h with
  | answer hstands hle' => exact .answer hstands (Nat.le_trans hle' hle)
  | complaint hspan hindex hscope hfresh => exact .complaint hspan hindex hscope hfresh
  | malformed => exact .malformed

theorem Follows.bind {a : Walker β} {f : β → Walker α} {r : Reader β} {g : β → Reader α}
    (h : Follows w ctx a r k s)
    (hk : ∀ x k' t, r s = .ok x t → t.tokens.length ≤ s.tokens.length →
      Follows w ctx (f x) (g x) k' t) : Follows w ctx (a >>= f) (r >>= g) k s := by
  intro hs
  have hfirst := h hs
  generalize ha : a k = result, hr : r s = result' at hfirst
  cases hfirst with
  | answer ht hle =>
      rw [walker_bind_eq_ok ha, bind_eq_ok hr]
      exact (hk _ _ _ hr hle ht).after hle
  | complaint hspan hindex hscope hfresh =>
      rw [walker_bind_eq_error ha, reader_bind_eq_error hr]
      exact .complaint hspan hindex hscope hfresh
  | malformed =>
      rw [walker_bind_eq_error ha, reader_bind_eq_error hr]
      exact .malformed

theorem Follows.lookahead {f : Lexeme TokenKind → Walker α} {r : Reader α}
    (h : ∀ l, Ahead w ctx s l → Follows w ctx (f l) r k s) :
    Follows w ctx (Walker.lookahead w >>= f) r k s := by
  intro hs
  obtain ⟨l, hl, hahead⟩ := hs.lookahead_run
  rw [walker_bind_eq_ok hl]
  exact h l hahead hs

/-- A step of the reader that takes no token and never gives up. -/
theorem Follows.reader {a : Walker α} {r : Reader β} {g : β → Reader α} {x : β}
    (hr : r s = .ok x s) (h : Follows w ctx a (g x) k s) : Follows w ctx a (r >>= g) k s := by
  intro hs
  rw [bind_eq_ok hr]
  exact h hs

theorem Follows.peek {a : Walker α} {g : TokenKind → Reader α}
    (h : Follows w ctx a (g (next s.tokens)) k s) : Follows w ctx a (Reader.peek >>= g) k s :=
  h.reader (peek_run s)

/-- Both look at the next token. -/
theorem Follows.look {f : Lexeme TokenKind → Walker α} {g : TokenKind → Reader α}
    (h : ∀ l, Ahead w ctx s l → Follows w ctx (f l) (g l.kind) k s) :
    Follows w ctx (Walker.lookahead w >>= f) (Reader.peek >>= g) k s :=
  .lookahead fun l hl => .peek (hl.kind ▸ h l hl)

theorem fail_follows (hl : Span.Within ⟨l.start, l.stop⟩ w.text.length) :
    Follows w ctx (fail l c : Walker α) (complainAt ⟨l.start, l.stop⟩ c) k s :=
  fun hs => .complaint hl hs.index_lt hs.scope hs.fresh

theorem fail_follows_complain (hl : Ahead w ctx s l) :
    Follows w ctx (fail l c : Walker α) (complain ctx c) k s :=
  (fail_follows hl.within).reader hl.position

theorem Follows.fail_bind {f : β → Walker α} {g : β → Reader α}
    (hl : Span.Within ⟨l.start, l.stop⟩ w.text.length) :
    Follows w ctx (fail l c >>= f) (complainAt ⟨l.start, l.stop⟩ c >>= g) k s :=
  fun hs => .complaint hl hs.index_lt hs.scope hs.fresh

theorem Follows.complain_bind {f : β → Walker α} {g : β → Reader α} (hl : Ahead w ctx s l) :
    Follows w ctx (fail l c >>= f) (complain ctx c >>= g) k s := by
  intro hs
  have hcomplain : (complain ctx c : Reader β) s = .error (.complaint ⟨l.start, l.stop⟩ c) s := by
    rw [complain, bind_eq_ok hl.position]
    rfl
  rw [reader_bind_eq_error hcomplain]
  exact .complaint hl.within hs.index_lt hs.scope hs.fresh

theorem expect_run (hs : Stands w ctx k s) (hkind : next s.tokens = kind) :
    ∃ l, expect w kind k = .ok l { k with index := k.index + 1 } ∧ Ahead w ctx s l := by
  obtain ⟨l, hl, hahead⟩ := hs.lookahead_run
  refine ⟨l, ?_, hahead⟩
  rw [expect, walker_bind_eq_ok hl, if_neg (not_not.mpr (hahead.kind.trans hkind))]
  rfl

/-- Passing over a token that is known to be there. -/
theorem Follows.advance {f : Lexeme TokenKind → Walker α} {g : Unit → Reader α}
    (hkind : next s.tokens = kind) (hending : kind ≠ .ending)
    (h : ∀ l k', s.skip.tokens.length < s.tokens.length → Follows w ctx (f l) (g ()) k' s.skip) :
    Follows w ctx (expect w kind >>= f) (Reader.advance >>= g) k s := by
  intro hs
  obtain ⟨l, hl, -⟩ := expect_run hs hkind
  have hnext : next s.tokens ≠ .ending := hkind ▸ hending
  have hlt := length_skip_lt hnext
  rw [walker_bind_eq_ok hl]
  exact (h l _ hlt (hs.skip hnext)).after (Nat.le_of_lt hlt)

theorem textOf_run {chars : List Char} (h : slice w.text l = .ok chars) (k : Cursor) :
    textOf w l k = .ok chars k := by
  change (MonadLift.monadLift (slice w.text l) : Walker (List Char)) k = _
  rw [h]
  rfl

theorem Follows.textOf {chars : List Char} {f : List Char → Walker α} {r : Reader α}
    (hl : slice w.text l = .ok chars) (h : Follows w ctx (f chars) r k s) :
    Follows w ctx (Walker.textOf w l >>= f) r k s := by
  intro hs
  rw [walker_bind_eq_ok (textOf_run hl k)]
  exact h hs

theorem Follows.takeText {f : List Char → Walker α} {g : List Char → Reader α}
    (hkind : next s.tokens = kind) (hending : kind ≠ .ending)
    (h : ∀ chars k', s.skip.tokens.length < s.tokens.length →
      Follows w ctx (f chars) (g chars) k' s.skip) :
    Follows w ctx (expect w kind >>= fun l => Walker.textOf w l >>= f) (Reader.takeText >>= g) k
      s := by
  intro hs
  obtain ⟨l, hl, hahead⟩ := expect_run hs hkind
  obtain ⟨chars, hslice, htake⟩ := hahead.chars
  have hnext : next s.tokens ≠ .ending := hkind ▸ hending
  have hlt := length_skip_lt hnext
  rw [walker_bind_eq_ok hl, walker_bind_eq_ok (textOf_run hslice _), bind_eq_ok htake]
  exact (h chars _ hlt (hs.skip hnext)).after (Nat.le_of_lt hlt)

theorem pass_run (hs : Stands w ctx k s) (kind : TokenKind) : pass w kind k =
    if next s.tokens = kind then .ok true { k with index := k.index + 1 } else .ok false k := by
  obtain ⟨l, hl, hahead⟩ := hs.lookahead_run
  rw [pass, walker_bind_eq_ok hl, hahead.kind]
  split_ifs <;> rfl

/-- Both pass over the next token. -/
theorem Follows.passed {f : Bool → Walker α} {r : Reader β} {g : β → Reader α} {x : β}
    (hkind : next s.tokens = kind) (hending : kind ≠ .ending) (hr : r s = .ok x s.skip)
    (h : ∀ k', Follows w ctx (f true) (g x) k' s.skip) :
    Follows w ctx (pass w kind >>= f) (r >>= g) k s := by
  intro hs
  have hnext : next s.tokens ≠ .ending := hkind ▸ hending
  have hpass := pass_run hs kind
  rw [if_pos hkind] at hpass
  rw [walker_bind_eq_ok hpass, bind_eq_ok hr]
  exact (h _ (hs.skip hnext)).after (Nat.le_of_lt (length_skip_lt hnext))

/-- Where the reader does not ask, as the next token is of another kind. -/
theorem Follows.pass_false {f : Bool → Walker α} {r : Reader α} (hkind : next s.tokens ≠ kind)
    (h : Follows w ctx (f false) r k s) : Follows w ctx (pass w kind >>= f) r k s := by
  intro hs
  have hpass := pass_run hs kind
  rw [if_neg hkind] at hpass
  rw [walker_bind_eq_ok hpass]
  exact h hs

theorem Follows.accept {f : Bool → Walker α} {g : Bool → Reader α} (hending : kind ≠ .ending)
    (htrue : next s.tokens = kind → s.skip.tokens.length < s.tokens.length →
      ∀ k', Follows w ctx (f true) (g true) k' s.skip)
    (hfalse : next s.tokens ≠ kind → Follows w ctx (f false) (g false) k s) :
    Follows w ctx (pass w kind >>= f) (Reader.accept kind >>= g) k s := by
  have haccept : Reader.accept kind s =
      if next s.tokens = kind then .ok true s.skip else .ok false s := by
    rw [Reader.accept, bind_eq_ok (peek_run s)]
    split_ifs <;> rfl
  by_cases hkind : next s.tokens = kind
  · rw [if_pos hkind] at haccept
    have hlt := length_skip_lt (s := s) (hkind ▸ hending)
    exact .passed hkind hending haccept (htrue hkind hlt)
  · rw [if_neg hkind] at haccept
    exact .pass_false hkind (.reader haccept (hfalse hkind))

theorem Follows.require {f : Unit → Walker α} {g : Unit → Reader α} (hending : kind ≠ .ending)
    (h : next s.tokens = kind → s.skip.tokens.length < s.tokens.length →
      ∀ k', Follows w ctx (f ()) (g ()) k' s.skip) :
    Follows w ctx (require w kind c >>= f) (Reader.expect ctx kind c >>= g) k s := by
  rw [Walker.require, Reader.expect, bind_assoc, bind_assoc]
  refine .accept hending (fun hkind hlt k' => ?_) fun _ => ?_
  · exact h hkind hlt k'
  · rw [if_neg Bool.false_ne_true, if_neg Bool.false_ne_true, bind_assoc]
    exact .lookahead fun l hl => .complain_bind hl

theorem tryCatch_of_ok {a : Walker α} {handle : Stop → Walker α} {k' : Cursor} {x : α}
    (h : a k = .ok x k') : tryCatch a handle k = .ok x k' := by
  change EStateM.tryCatch a handle k = _
  rw [EStateM.tryCatch, h]

theorem tryCatch_of_error {a : Walker α} {handle : Stop → Walker α} {k' : Cursor} {e : Stop}
    (h : a k = .error e k') : tryCatch a handle k = handle e k' := by
  change EStateM.tryCatch a handle k = _
  rw [EStateM.tryCatch, h]
  rfl

theorem withNext_of_ok {a : Walker α} {k' : Cursor} {x : α} (ha : a k = .ok x k')
    (hl : lookahead w k' = .ok l k') : withNext w a k = .ok (x, l.kind) k' := by
  rw [withNext, walker_bind_eq_ok (tryCatch_of_ok ha), walker_bind_eq_ok hl]
  rfl

/-- Looking at the next token after errors is safe if the position is still in the row. -/
theorem withNext_of_errors {a : Walker α} {k' : Cursor} {errs : List (Span × Complaint)}
    (ha : a k = .error (.errors errs) k') (hindex : k'.index < w.lexemes.length) :
    withNext w a k = .error (.errors errs) k' := by
  have hl := lookahead_run (List.getElem?_eq_getElem hindex)
  refine walker_bind_eq_error ((tryCatch_of_error ha).trans ?_)
  dsimp only
  rw [walker_bind_eq_ok hl]
  rfl

theorem withNext_of_crash {a : Walker α} {k' : Cursor} {cause : Crash}
    (ha : a k = .error (.crash cause) k') : withNext w a k = .error (.crash cause) k' :=
  walker_bind_eq_error (tryCatch_of_error ha)

theorem Follows.withNext {a : Walker β} {f : β × TokenKind → Walker α} {r : Reader β}
    {g : β → Reader α} (h : Follows w ctx a r k s)
    (hk : ∀ x k' t, r s = .ok x t → t.tokens.length ≤ s.tokens.length →
      Follows w ctx (f (x, next t.tokens)) (g x) k' t) :
    Follows w ctx (withNext w a >>= f) (r >>= g) k s := by
  intro hs
  have hfirst := h hs
  generalize ha : a k = result, hr : r s = result' at hfirst
  cases hfirst with
  | answer ht hle =>
      obtain ⟨l, hl, hahead⟩ := ht.lookahead_run
      rw [walker_bind_eq_ok (withNext_of_ok ha hl), bind_eq_ok hr, hahead.kind]
      exact (hk _ _ _ hr hle ht).after hle
  | complaint hspan hindex hscope hfresh =>
      rw [walker_bind_eq_error (withNext_of_errors ha hindex), reader_bind_eq_error hr]
      exact .complaint hspan hindex hscope hfresh
  | malformed =>
      rw [walker_bind_eq_error (withNext_of_crash ha), reader_bind_eq_error hr]
      exact .malformed

section Within
variable {v : Variable} {a : Walker α} {k' : Cursor}

/-- The cursor with one more variable in scope. -/
def Cursor.enter (k : Cursor) (v : Variable) : Cursor := { k with scope := k.scope ++ [v] }

def Cursor.leave (k : Cursor) : Cursor := { k with scope := k.scope.dropLast }

theorem leave_run (h : k.scope ≠ []) : within.leave k = .ok () k.leave := by
  have hempty : ¬k.scope.isEmpty = true := mt List.isEmpty_iff.mp h
  change (if k.scope.isEmpty = true then _ else _ : Walker Unit) k = _
  rw [if_neg hempty]
  rfl

theorem within_of_ok {x : α} (ha : a (k.enter v) = .ok x k') (hscope : k'.scope ≠ []) :
    within v a k = .ok x k'.leave := by
  have henter : (modify fun k => { k with scope := k.scope ++ [v] } : Walker Unit) k =
      .ok () (k.enter v) := rfl
  rw [within, walker_bind_eq_ok henter, walker_bind_eq_ok (tryCatch_of_ok ha),
    walker_bind_eq_ok (leave_run hscope)]
  rfl

theorem within_of_errors {errs : List (Span × Complaint)}
    (ha : a (k.enter v) = .error (.errors errs) k') (hscope : k'.scope ≠ []) :
    within v a k = .error (.errors errs) k'.leave := by
  have henter : (modify fun k => { k with scope := k.scope ++ [v] } : Walker Unit) k =
      .ok () (k.enter v) := rfl
  rw [within, walker_bind_eq_ok henter]
  refine walker_bind_eq_error ((tryCatch_of_error ha).trans ?_)
  dsimp only
  rw [walker_bind_eq_ok (leave_run hscope)]
  rfl

theorem within_of_crash {cause : Crash} (ha : a (k.enter v) = .error (.crash cause) k') :
    within v a k = .error (.crash cause) k' := by
  have henter : (modify fun k => { k with scope := k.scope ++ [v] } : Walker Unit) k =
      .ok () (k.enter v) := rfl
  rw [within, walker_bind_eq_ok henter]
  exact walker_bind_eq_error (tryCatch_of_error ha)

theorem scope_ne_nil (h : k.scope.reverse = v :: ctx.bound) : k.scope ≠ [] := by
  intro hnil
  rw [hnil] at h
  cases h

theorem scope_leave (h : k.scope.reverse = v :: ctx.bound) : k.leave.scope.reverse = ctx.bound := by
  rw [Cursor.leave, ← List.tail_reverse, h, List.tail_cons]

/-- Reads where one more variable is in scope. -/
theorem within_follows {r : Reader α}
    (h : ∀ k', Follows w { ctx with bound := v :: ctx.bound } a r k' s) :
    Follows w ctx (within v a) r k s := by
  intro hs
  have henter : Stands w { ctx with bound := v :: ctx.bound } (k.enter v) s := by
    refine ⟨hs.length, hs.environment, hs.aligned, ?_, hs.fresh⟩
    rw [Cursor.enter, List.reverse_append, hs.scope]
    rfl
  have hrun := h _ henter
  generalize ha : a (k.enter v) = result, hr : r s = result' at hrun
  cases hrun with
  | answer ht hle =>
      rw [within_of_ok ha (scope_ne_nil ht.scope)]
      exact .answer ⟨hs.length, hs.environment, ht.aligned, scope_leave ht.scope, ht.fresh⟩ hle
  | complaint hspan hindex hscope hfresh =>
      rw [within_of_errors ha (scope_ne_nil hscope)]
      exact .complaint hspan hindex (scope_leave hscope) hfresh
  | malformed =>
      rw [within_of_crash ha]
      exact .malformed

end Within

/-- Both try the second reader from where they were before, with the same variables in scope. -/
theorem orElse_follows {a a' : Walker α} {r r' : Reader α} (h : Follows w ctx a r k s)
    (h' : ∀ k' fresh, Follows w ctx a' r' k' { s with fresh }) :
    Follows w ctx (orElse a a') (Reader.orElse r r') k s := by
  intro hs
  have hfirst := h hs
  have hget : (get : Walker Cursor) k = .ok k k := rfl
  rw [orElse_run, Walker.orElse, walker_bind_eq_ok hget]
  generalize ha : a k = result, hr : r s = result' at hfirst
  cases hfirst with
  | answer ht hle =>
      rw [tryCatch_of_ok ha]
      exact .answer ht hle
  | malformed =>
      rw [tryCatch_of_error ha]
      exact .malformed
  | @complaint span c k' t hspan hindex hscope hfresh =>
      have hback : Stands w ctx { k' with index := k.index } { s with fresh := t.fresh } :=
        ⟨hs.length, hs.environment, hs.aligned, hscope, hfresh⟩
      have hmodify : (modify fun u => { u with index := k.index } : Walker Unit) k' =
          .ok () { k' with index := k.index } := rfl
      have hsecond := h' { k' with index := k.index } t.fresh hback
      rw [tryCatch_of_error ha]
      dsimp only
      rw [walker_bind_eq_ok hmodify]
      generalize ha' : a' { k' with index := k.index } = result,
        hr' : r' { s with fresh := t.fresh } = result' at hsecond
      cases hsecond with
      | answer ht hle =>
          rw [tryCatch_of_ok ha']
          exact .answer ht hle
      | malformed =>
          rw [tryCatch_of_error ha']
          exact .malformed
      | @complaint span' c' u t' hspan' hindex' hscope' hfresh' =>
          rw [tryCatch_of_error ha']
          change Matches w ctx s
            ((if span'.start > span.start then _ else _ : Walker α) u) _
          dsimp only
          split_ifs
          · exact .complaint hspan' hindex' hscope' hfresh'
          · exact .complaint hspan hindex' hscope' hfresh'

end Rules

end Walker
end Entailment

import Entailment.Proofs.Checked
import Entailment.Proofs.Following

/-!
# Reading does not crash

Every part of the grammar, read by position, keeps up with the reader of that part. The steps
allowed for brackets are enough where fewer tokens are left, and so are those allowed for loops,
since each round takes at least one token.

So for every text there is a value or one complaint about a part of the text, unless something is
malformed. The only thing that can be is the domain of a quantifier over a declared variable, if it
mentions this variable.
-/
namespace Entailment

namespace Walker
open Reader (State Context next peek advance complain complainAt bind_eq_ok peek_run)

section Terms
variable {w : Row} {ctx : Context} {k : Cursor} {s : State} {B : Nat}

/-- Reading by position follows the reader wherever fewer than so many tokens are left. -/
def FollowsBelow {α : Type} (w : Row) (ctx : Context) (B : Nat) (a : Walker α) (r : Reader α) :
    Prop :=
  ∀ k s, s.tokens.length < B → Follows w ctx a r k s

theorem next_of_length_eq_zero (h : s.tokens.length ≤ 0) : next s.tokens = .ending := by
  rw [List.eq_nil_of_length_eq_zero (Nat.le_zero.mp h)]
  rfl

theorem Stands.length_lt (h : Stands w ctx k s) : s.tokens.length < w.lexemes.length := by
  have hlength := h.aligned.length
  rw [List.length_drop] at hlength
  omega

/-- The parts after the first one, as a reader takes them, with signs of one kind between them. -/
def furtherTokens {α : Type} (ctx : Context) (joins : TokenKind → Bool) (part : Reader α)
    (kind : TokenKind) : Nat → Reader (List α)
  | 0 => return []
  | n + 1 => do
    let found ← peek
    if joins found then
      if found ≠ kind then complain ctx .bracesRequired
      advance
      let x ← part
      return x :: (← furtherTokens ctx joins part kind n)
    return []

theorem operands_eq (part : Reader Term) (op : Operator) (n : Nat) :
    Reader.operands ctx part op n = furtherTokens ctx joinsTerms part (.operator op) n := by
  induction n with
  | zero => rfl
  | succ n ih =>
      rw [Reader.operands, furtherTokens, ih]
      congr 1
      funext found
      cases found with
      | operator op' => simp [joinsTerms]
      | _ => rfl

theorem members_eq (part : Reader Proposition) (c : Connective) (n : Nat) :
    Reader.members ctx part c n = furtherTokens ctx joinsPropositions part (.connective c) n := by
  induction n with
  | zero => rfl
  | succ n ih =>
      rw [Reader.members, furtherTokens, ih]
      congr 1
      funext found
      cases found with
      | connective c' => simp [joinsPropositions]
      | _ => rfl

variable {α β : Type} {joins : TokenKind → Bool} {kind : TokenKind} {part : Walker α}
  {part' : Reader α}

theorem further_follows (hpart : FollowsBelow w ctx B part part') (hjoins : joins .ending = false)
    {n m : Nat} (hB : s.tokens.length ≤ B) (hn : s.tokens.length ≤ n) (hm : s.tokens.length < m) :
    Follows w ctx (further w joins part kind m) (furtherTokens ctx joins part' kind n) k s := by
  induction n generalizing m k s with
  | zero =>
      obtain ⟨m, rfl⟩ := Nat.exists_eq_add_of_lt hm
      refine .lookahead fun l hl => ?_
      rw [hl.kind, next_of_length_eq_zero hn, hjoins]
      exact .pure []
  | succ n ih =>
      obtain ⟨m, rfl⟩ := Nat.exists_eq_add_of_lt hm
      refine .look fun l hl => ?_
      cases hjoin : joins l.kind with
      | false => exact .pure []
      | true =>
          have hending : l.kind ≠ .ending := by
            intro hkind
            rw [hkind, hjoins] at hjoin
            cases hjoin
          rw [if_pos rfl, if_pos rfl]
          by_cases hsame : l.kind = kind
          · subst hsame
            rw [if_neg (not_not.mpr rfl), if_neg (not_not.mpr rfl)]
            refine .advance hl.kind.symm hending fun _ k' hlt => ?_
            refine (hpart k' _ (by omega)).bind fun x k'' t _ hle => ?_
            exact (ih (by omega) (by omega) (by omega)).bind fun xs _ _ _ _ => .pure (x :: xs)
          · rw [if_pos hsame, if_pos hsame]
            exact .complain_bind hl

/-- There are no further parts if what comes next does not join any. -/
theorem Follows.further_nil {f : List α → Walker β} {r : Reader β} {m : Nat}
    (hjoins : joins (next s.tokens) = false) (h : Follows w ctx (f []) r k s) :
    Follows w ctx (further w joins part kind (m + 1) >>= f) r k s := by
  rw [further, bind_assoc]
  refine .lookahead fun l hl => ?_
  rw [hl.kind, hjoins, if_neg Bool.false_ne_true, pure_bind]
  exact h

theorem of_bind_eq_ok {r : Reader β} {g : β → Reader α} {t : State} {y : α}
    (h : (r >>= g) s = .ok y t) : ∃ x u, r s = .ok x u ∧ g x u = .ok y t := by
  cases hr : r s with
  | ok x u => exact ⟨x, u, rfl, (bind_eq_ok hr).symm.trans h⟩
  | error e u =>
      rw [reader_bind_eq_error hr] at h
      cases h

/-- Something follows a sign that joins. -/
theorem further_ne_nil {xs : List α} {t : State} {n : Nat} (hjoins : joins kind = true)
    (hnext : next s.tokens = kind)
    (hrun : furtherTokens ctx joins part' kind (n + 1) s = .ok xs t) : xs ≠ [] := by
  rw [furtherTokens, bind_eq_ok (peek_run s), hnext, if_pos hjoins, if_neg (not_not.mpr rfl)]
    at hrun
  obtain ⟨_, _, -, hrun⟩ := of_bind_eq_ok hrun
  obtain ⟨x, _, -, hrun⟩ := of_bind_eq_ok hrun
  obtain ⟨ys, _, -, hrun⟩ := of_bind_eq_ok hrun
  cases hrun
  exact List.cons_ne_nil x ys

/-- There is more than one part if the sign that comes next joins them. -/
theorem Follows.further_cons {f : List α → Walker β} {g : List α → Reader β} {m : Nat}
    (hpart : FollowsBelow w ctx B part part') (hending : joins .ending = false)
    (hjoins : joins kind = true) (hnext : next s.tokens = kind) (hB : s.tokens.length ≤ B)
    (hm : s.tokens.length < m)
    (h : ∀ x xs k' t, Follows w ctx (f (x :: xs)) (g (x :: xs)) k' t) :
    Follows w ctx (further w joins part kind m >>= f)
      (furtherTokens ctx joins part' kind s.tokens.length >>= g) k s := by
  refine (further_follows hpart hending hB (Nat.le_refl _) hm).bind fun xs k' t hrun _ => ?_
  have hsome : s.tokens.length ≠ 0 := by
    intro hnone
    rw [← hnext, next_of_length_eq_zero (Nat.le_of_eq hnone), hending] at hjoins
    cases hjoins
  obtain ⟨n, hn⟩ := Nat.exists_eq_succ_of_ne_zero hsome
  rw [hn] at hrun
  obtain ⟨x, xs, rfl⟩ := List.exists_cons_of_ne_nil (further_ne_nil hjoins hnext hrun)
  exact h x xs k' t

theorem termOver_follows {part : Walker Term} {part' : Reader Term}
    (hpart : FollowsBelow w ctx B part part') :
    FollowsBelow w ctx B (termOver w part) (Reader.termOver ctx part') := by
  intro k s hB
  refine .assuming fun hs => ?_
  have hrow := hs.length_lt
  obtain ⟨m, hm⟩ := Nat.exists_eq_add_of_lt hrow
  refine (hpart k s hB).withNext fun first k' t _ hle => .peek ?_
  dsimp only
  cases hnext : next t.tokens with
  | operator op =>
      refine .reader rfl ?_
      rw [operands_eq]
      exact .further_cons hpart rfl rfl hnext (by omega) (by omega) fun t ts _ _ => .pure _
  | _ =>
      rw [hm]
      exact .further_nil (by rw [hnext]; rfl) (.pure first)

/-- After the first argument each one takes a comma, so arguments come to an end with the tokens. -/
theorem arguments_follows {argument : Walker Term} {argument' : Reader Term}
    (hargument : FollowsBelow w ctx B argument argument') {first : Bool} {n m : Nat}
    (hB : s.tokens.length < B) (hn : s.tokens.length + first.toNat ≤ n)
    (hm : s.tokens.length + first.toNat < m) :
    Follows w ctx (arguments w argument m first) (Reader.arguments ctx argument' n first) k s := by
  induction n generalizing m k s first with
  | zero =>
      obtain ⟨m, rfl⟩ := Nat.exists_eq_add_of_lt hm
      have hending := next_of_length_eq_zero (s := s) (by omega)
      obtain rfl : first = false := by
        cases first with
        | false => rfl
        | true => cases hn
      refine .pass_false (by rw [hending]; decide) ?_
      rw [if_neg Bool.false_ne_true, if_neg Bool.false_ne_true, require, bind_assoc]
      refine .pass_false (by rw [hending]; decide) ?_
      rw [if_neg Bool.false_ne_true, bind_assoc]
      exact .lookahead fun l hl => fail_follows_complain hl
  | succ n ih =>
      obtain ⟨m, rfl⟩ := Nat.exists_eq_add_of_lt hm
      have hrest : ∀ (m : Nat) k u, u.tokens.length ≤ s.tokens.length → u.tokens.length ≤ n →
          u.tokens.length < m → Follows w ctx
            (do
              let t ← argument
              return t :: (← arguments w argument m false))
            (do
              let t ← argument'
              return t :: (← Reader.arguments ctx argument' n false)) k u := by
        intro m k u hB hn hm
        refine (hargument k u (by omega)).bind fun x k' t _ hle => ?_
        refine (ih (by omega) ?_ ?_).bind fun xs _ _ _ _ => .pure (x :: xs)
        · exact Nat.le_trans hle hn
        · exact Nat.lt_of_le_of_lt hle hm
      refine .accept (by decide) (fun _ _ k' => .pure []) fun _ => ?_
      cases first with
      | true =>
          rw [Bool.toNat_true] at hn ⊢
          exact hrest _ k s (Nat.le_refl _) (by omega) (by omega)
      | false =>
          rw [if_neg Bool.false_ne_true, if_neg Bool.false_ne_true]
          refine .require (by decide) fun _ hlt k' => ?_
          refine hrest _ k' _ (by omega) ?_ ?_
          · rw [Bool.toNat_false] at hn
            omega
          · omega

/-- Looking where the position is, and at the variables in scope. -/
theorem Follows.cursor {f : Cursor → Walker α} {r : Reader α}
    (h : ∀ k', Stands w ctx k' s → Follows w ctx (f k') r k' s) :
    Follows w ctx (get >>= f) r k s :=
  fun hs => h k hs hs

theorem operand_follows (depth : Nat) :
    FollowsBelow w ctx depth (operand w depth) (Reader.operand ctx depth) := by
  induction depth with
  | zero => exact fun k s hB => absurd hB (Nat.not_lt_zero _)
  | succ depth ih =>
      intro k s hB
      refine .assuming fun hs => .look fun l hl => ?_
      have hrow := hs.length_lt
      cases hkind : l.kind with
      | opening =>
          refine .advance (hl.kind.symm.trans hkind) (by decide) fun _ k' hlt => ?_
          refine (termOver_follows ih k' _ (by omega)).bind fun t k'' u _ hle => ?_
          exact .require (by decide) fun _ _ k' => .pure t
      | name =>
          refine .takeText (hl.kind.symm.trans hkind) (by decide) fun chars k' hlt => ?_
          refine .accept (by decide) (fun _ hlt' k'' => ?_) fun _ => ?_
          · refine .reader rfl ((arguments_follows (termOver_follows ih) ?_ ?_ ?_).bind ?_)
            · omega
            · rw [Bool.toNat_true]
            · rw [Bool.toNat_true]
              omega
            · exact fun args _ _ _ _ => .pure _
          · rw [if_neg Bool.false_ne_true, if_neg Bool.false_ne_true]
            refine .cursor fun k'' hs' => ?_
            rw [hs'.scope, ← hs'.environment, ← Context.resolve]
            cases ctx.resolve (String.ofList chars) with
            | some v => exact .pure _
            | none => exact .pure _
      | number => exact .takeText (hl.kind.symm.trans hkind) (by decide) fun chars k' _ => .pure _
      | _ => exact fail_follows_complain hl

theorem term_follows (depth : Nat) :
    FollowsBelow w ctx depth (term w depth) (Reader.term ctx depth) :=
  termOver_follows (operand_follows depth)

end Terms

section Propositions
variable {w : Row} {ctx : Context} {k : Cursor} {s : State} {B : Nat} {part : Walker Proposition}
  {part' : Reader Proposition}

theorem junction_follows (hpart : FollowsBelow w ctx B part part') :
    FollowsBelow w ctx B (junction w part) (Reader.junction ctx part') := by
  intro k s hB
  refine .assuming fun hs => ?_
  have hrow := hs.length_lt
  obtain ⟨m, hm⟩ := Nat.exists_eq_add_of_lt hrow
  refine (hpart k s hB).withNext fun first k' t _ hle => .peek ?_
  dsimp only
  cases hnext : next t.tokens with
  | connective c =>
      refine .reader rfl ?_
      rw [members_eq]
      refine .further_cons hpart rfl rfl hnext (by omega) (by omega) fun p ps k₂ u => ?_
      dsimp only
      rw [Checked.junction?_map_some c (by simp)]
      exact .pure _
  | _ =>
      rw [hm]
      exact .further_nil (by rw [hnext]; rfl) (.pure first)

theorem implication_follows (hpart : FollowsBelow w ctx B part part') {n m : Nat}
    (hB : s.tokens.length < B) (hn : s.tokens.length ≤ n) (hm : s.tokens.length < m) :
    Follows w ctx (implication w part m) (Reader.implication ctx part' n) k s := by
  induction n generalizing m k s with
  | zero =>
      obtain ⟨m, rfl⟩ := Nat.exists_eq_add_of_lt hm
      rw [Reader.implication, ← bind_pure (Reader.junction ctx part')]
      refine (junction_follows hpart k s hB).bind fun a k' t _ hle => ?_
      refine .pass_false ?_ (.pure a)
      rw [next_of_length_eq_zero (Nat.le_trans hle hn)]
      decide
  | succ n ih =>
      obtain ⟨m, rfl⟩ := Nat.exists_eq_add_of_lt hm
      refine (junction_follows hpart k s hB).bind fun a k' t _ hle => ?_
      refine .accept (by decide) (fun _ hlt k'' => ?_) fun _ => .pure a
      exact (ih (by omega) (by omega) (by omega)).bind fun b _ _ _ _ => .pure _

theorem formulaOver_follows (hpart : FollowsBelow w ctx B part part') :
    FollowsBelow w ctx B (formulaOver w part) (Reader.formulaOver ctx part') := by
  intro k s hB
  refine .assuming fun hs => .reader rfl ?_
  have hrow := hs.length_lt
  refine (implication_follows hpart hB (Nat.le_refl _) hrow).bind fun a k' t _ hle => ?_
  refine .accept (by decide) (fun _ hlt k'' => ?_) fun _ => .pure a
  refine .reader rfl ?_
  refine (implication_follows hpart (by omega) (Nat.le_refl _) (by omega)).bind ?_
  intro b k₃ u _ _
  refine .look fun l hl => ?_
  by_cases hiff : l.kind = .iff
  · rw [if_pos hiff, if_pos hiff]
    exact .complain_bind hl
  · rw [if_neg hiff, if_neg hiff]
    exact .pure _

theorem atom_follows (depth : Nat) :
    FollowsBelow w ctx depth (atom w depth) (Reader.atom ctx depth) := by
  intro k s hB
  refine .lookahead fun start hstart => .reader hstart.position ?_
  refine (term_follows depth k s hB).bind fun lhs k' t _ hle => .look fun l hl => ?_
  cases hkind : l.kind with
  | relation r =>
      refine .advance (hl.kind.symm.trans hkind) (by simp) fun _ k'' hlt => ?_
      exact (term_follows depth k'' _ (by omega)).bind fun rhs _ _ _ _ => .pure _
  | _ =>
      cases lhs with
      | const name => exact .pure _
      | app head args =>
          dsimp only
          split_ifs
          · exact .fail_bind hstart.within
          · exact .pure _
      | _ => exact fail_follows hstart.within

theorem closeFormula_follows (p : Proposition) :
    Follows w ctx (closeFormula w p) (Reader.closeFormula ctx p) k s := by
  refine .require (by decide) fun _ _ k' => .look fun l hl => ?_
  cases hkind : l.kind with
  | relation r => exact fail_follows_complain hl
  | operator op => exact fail_follows_complain hl
  | _ => exact .pure p

/-- New variables have the same numbers. -/
theorem newVariable_follows (name : String) : Follows w ctx
    (modifyGet fun k => (Variable.mk k.fresh name, { k with fresh := k.fresh + 1 }))
    (modifyGet fun s => (Variable.mk s.fresh name, { s with fresh := s.fresh + 1 })) k s := by
  intro hs
  have hnext : Stands w ctx { k with fresh := k.fresh + 1 } { s with fresh := s.fresh + 1 } :=
    ⟨hs.length, hs.environment, hs.aligned, hs.scope, congrArg Nat.succ hs.fresh⟩
  change Matches w ctx s (.ok (Variable.mk k.fresh name) _) (.ok (Variable.mk s.fresh name) _)
  rw [hs.fresh] at hnext ⊢
  exact .answer hnext (Nat.le_refl _)

theorem quantifiedVariable_follows :
    Follows w ctx (quantifiedVariable w) (Reader.quantifiedVariable ctx) k s := by
  refine .lookahead fun l hl => .reader hl.position (.peek ?_)
  by_cases hname : next s.tokens = .name
  · obtain ⟨chars, hslice, htake⟩ := hl.chars
    rw [if_neg (not_not.mpr hname)]
    refine .passed hname (by decide) htake fun k' => ?_
    refine .textOf hslice (.cursor fun k'' hs => ?_)
    rw [hs.scope, ← hs.environment]
    dsimp only
    split_ifs
    · exact .fail_bind hl.within
    · cases ctx.environment.find? (String.ofList chars) with
      | some v => exact .pure v
      | none => exact newVariable_follows _
  · rw [if_pos hname]
    exact .pass_false hname (.fail_bind hl.within)

/-- The domain of a quantifier is read where its variable is not in scope yet. -/
theorem domain_bind_follows {depth : Nat} {f : Option Term → Walker Proposition}
    {g : Option Term → Reader Proposition} (hB : s.tokens.length < depth)
    (h : ∀ domain k' t, t.tokens.length ≤ s.tokens.length →
      Follows w ctx (f domain) (g domain) k' t) :
    Follows w ctx
      (do
        let domain ← if ← pass w (.relation .element) then some <$> term w depth else pure none
        f domain)
      (do
        let domain ←
          if ← Reader.accept (.relation .element) then some <$> Reader.term ctx depth
          else pure none
        g domain) k s := by
  refine .accept (by decide) (fun _ hlt k' => ?_) fun _ => h none k s (Nat.le_refl _)
  rw [if_pos rfl, if_pos rfl, map_eq_pure_bind, map_eq_pure_bind, bind_assoc, bind_assoc]
  refine (term_follows depth k' _ (by omega)).bind fun set k'' t _ ht => ?_
  rw [pure_bind, pure_bind]
  exact h (some set) k'' t (by omega)

theorem build_follows (result : Except Malformed Proposition) : Follows w ctx (build result)
    (match result with
      | .ok p => return p
      | .error cause => throw (.malformed cause)) k s := by
  cases result with
  | ok p => exact .pure p
  | error cause => exact fun _ => .malformed

theorem member_follows (depth : Nat) :
    FollowsBelow w ctx depth (member w depth) (Reader.member depth ctx) := by
  induction depth generalizing ctx with
  | zero => exact fun k s hB => absurd hB (Nat.not_lt_zero _)
  | succ depth ih =>
      intro k s hB
      unfold Reader.member
      refine .look fun l hl => ?_
      cases hkind : l.kind with
      | not =>
          refine .advance (hl.kind.symm.trans hkind) (by decide) fun _ k' hlt => ?_
          exact (ih k' _ (by omega)).bind fun p _ _ _ _ => .pure _
      | quantifier q =>
          refine .advance (hl.kind.symm.trans hkind) (by simp) fun _ k' hlt => ?_
          refine quantifiedVariable_follows.bind fun v k₂ t _ ht => ?_
          refine domain_bind_follows (by omega) fun domain k₃ u hu => ?_
          refine .require (by decide) fun _ hlt' k₄ => ?_
          refine (within_follows fun k₅ => formulaOver_follows ih k₅ _ (by omega)).bind ?_
          exact fun body k₆ _ _ _ => build_follows _
      | opening =>
          refine orElse_follows ?_ fun k' fresh => atom_follows _ k' _ hB
          refine .advance (hl.kind.symm.trans hkind) (by decide) fun _ k' hlt => ?_
          refine (formulaOver_follows ih k' _ (by omega)).bind fun p _ _ _ _ => ?_
          exact closeFormula_follows p
      | _ => exact atom_follows _ k s hB

theorem formula_follows (depth : Nat) :
    FollowsBelow w ctx depth (formula w depth) (Reader.formula ctx depth) :=
  formulaOver_follows (member_follows depth)

end Propositions

section Texts
variable {α : Type} {w : Row} {ctx : Context} {k : Cursor} {s : State} {part : Walker α}
  {part' : Reader α}

/-- The end is next if and only if there is one lexeme left. -/
theorem Stands.next_eq_ending (h : Stands w ctx k s) :
    next s.tokens = .ending ↔ ¬k.index + 1 < w.lexemes.length := by
  have hlength := h.aligned.length
  rw [List.length_drop] at hlength
  obtain ⟨tokens, fresh⟩ := s
  cases tokens with
  | nil =>
      rw [List.length_nil] at hlength
      exact iff_of_true rfl (by omega)
  | cons t tokens =>
      rw [List.length_cons] at hlength
      refine iff_of_false (fun hending : t.kind = .ending => ?_) (not_not.mpr (by omega))
      have haligned := h.aligned
      cases hlexemes : w.lexemes.drop k.index with
      | nil =>
          rw [hlexemes] at haligned
          exact haligned.elim
      | cons l ls =>
          rw [hlexemes] at haligned
          obtain ⟨htoken, -⟩ := aligned_cons_cons.mp haligned
          exact htoken.inner (htoken.kind.symm.trans hending)

theorem whole_follows (h : Follows w ctx part part' k s) :
    Follows w ctx (whole w part) (Reader.whole ctx part') k s := by
  refine h.bind fun x k' t _ _ => .cursor fun k'' ht => .peek ?_
  by_cases hending : next t.tokens = .ending
  · rw [if_neg (ht.next_eq_ending.mp hending), if_pos hending]
    exact .pure x
  · rw [if_pos (not_not.mp (mt ht.next_eq_ending.mpr hending)), if_neg hending]
    exact .lookahead fun l hl => .complain_bind hl

end Texts

/-- For a text of the given length there is a value, or exactly one complaint, about a part of the
text. Either is what the reader comes to. -/
def ReadsOrComplains {α : Type} (length : Nat) (walked : Except Stop α × Nat)
    (read : Except Unreadable α × Nat) : Prop :=
  (∃ x fresh, walked = (.ok x, fresh) ∧ read = (.ok x, fresh)) ∨
    ∃ span c fresh, walked = (.error (.errors [(span, c)]), fresh) ∧
      read = (.error (.complaint span c), fresh) ∧ span.Within length

theorem ofText_eq {text : List Char} {lexing : Lexing TokenKind}
    (h : LexRule.lexFrom Token.rules 0 text = lexing) : Token.ofText text =
      if lexing.remaining = 0 then .ok (lexing.lexemes.filterMap (Token.ofLexeme? text))
      else .error ⟨lexing.index, lexing.index + lexing.remaining⟩ := by
  subst h
  rfl

/-- Reading by position comes to what the reader comes to. There is no crash other than what is
malformed. -/
theorem readAll_follows {α : Type} {grammar : Row → Nat → Walker α}
    {grammar' : Context → Nat → Reader α}
    (hgrammar : ∀ w ctx depth, FollowsBelow w ctx depth (grammar w depth) (grammar' ctx depth))
    (source : Source) (env : Environment) (fresh : Nat) :
    ReadsOrComplains source.text.length (readAll grammar source env fresh)
        (Reader.readAll grammar' source env fresh) ∨
      ∃ cause, (readAll grammar source env fresh).1 = .error (.crash (.malformed cause)) ∧
        (Reader.readAll grammar' source env fresh).1 = .error (.malformed cause) := by
  obtain ⟨hcollect, hremaining⟩ := LexRule.collect_eq_ok Token.isSimple_of_mem_rules [] source.text _
    (Nat.le_refl _)
  have haligned := aligned_lexFrom [] source.text
  rw [List.nil_append, List.length_nil] at hcollect hremaining haligned
  generalize hlexing : LexRule.lexFrom Token.rules 0 source.text = lexing
    at hcollect hremaining haligned
  rw [readAll, Reader.readAll, hcollect, ofText_eq hlexing]
  dsimp only
  by_cases hall : lexing.remaining = 0
  · rw [if_pos hall, if_neg (by omega)]
    obtain ⟨row, hrow, haligned⟩ := haligned hall
    rw [hrow]
    dsimp only
    generalize List.filterMap _ _ = tokens at haligned ⊢
    have hstands : Stands ⟨source.text, env, row⟩ ⟨source.text.length, env, []⟩ ⟨0, [], fresh⟩
        ⟨tokens, fresh⟩ := ⟨rfl, rfl, haligned, rfl, rfl⟩
    have hgrammar := hgrammar ⟨source.text, env, row⟩ ⟨source.text.length, env, []⟩
      (tokens.length + 1) ⟨0, [], fresh⟩ ⟨tokens, fresh⟩ (Nat.lt_succ_self _)
    have hrun := whole_follows hgrammar hstands
    rw [haligned.length]
    unfold EStateM.run
    generalize whole _ _ _ = result, Reader.whole _ _ _ = result' at hrun ⊢
    cases hrun with
    | @answer x _ t ht _ => exact .inl (.inl ⟨x, t.fresh, Prod.ext rfl ht.fresh, rfl⟩)
    | @complaint span c _ t hspan _ _ hfresh =>
        exact .inl (.inr ⟨span, c, t.fresh, Prod.ext rfl hfresh, rfl, hspan⟩)
    | @malformed cause => exact .inr ⟨cause, rfl, rfl⟩
  · have hindex : lexing.index < source.text.length := by omega
    rw [if_neg hall, if_pos hindex, hremaining, ← Int.natCast_add, Nat.add_sub_cancel' hindex.le]
    exact .inl (.inr ⟨_, _, fresh, rfl, rfl, Int.natCast_nonneg _, Int.ofNat_le.mpr hindex.le,
      Int.le_refl _⟩)

end Walker

section Texts
open Reader Walker

theorem walkTerm_eq (source : Source) (env : Environment) (fresh : Nat) :
    ReadsOrComplains source.text.length (source.walkTerm env fresh) (source.term env fresh) := by
  obtain hread | ⟨cause, -, hmalformed⟩ :=
    readAll_follows (fun _ _ => term_follows) source env fresh
  · exact hread
  · have hreads := term_readAs source env fresh
    rw [← Prod.eta (source.term env fresh), Source.term, hmalformed] at hreads
    obtain ⟨_, -, hnot⟩ := hreads
    exact hnot.elim

/-- Nothing but a domain that mentions its own declared variable is a crash. -/
theorem walkProposition_eq (source : Source) (env : Environment) (fresh : Nat) :
    ReadsOrComplains source.text.length (source.walkProposition env fresh)
        (source.proposition env fresh) ∨
      ∃ tokens cause, Token.ofText source.text = .ok tokens ∧ BlamesDomain env tokens cause ∧
        (source.walkProposition env fresh).1 = .error (.crash (.malformed cause)) := by
  obtain hread | ⟨cause, hcrash, hmalformed⟩ :=
    readAll_follows (fun _ _ => formula_follows) source env fresh
  · exact .inl hread
  · have hreads := proposition_readAs source env fresh
    rw [← Prod.eta (source.proposition env fresh), Source.proposition, hmalformed] at hreads
    obtain ⟨tokens, htokens, hblame⟩ := hreads
    exact .inr ⟨tokens, cause, htokens, hblame, hcrash⟩

/-- A text is read as a term without a crash, whatever it is. It is read as a proposition without a
crash if no quantifier over a declared variable has a domain that mentions this variable, and then
nothing else can go wrong. In each case there is a value, or one complaint about a part of the
text. -/
theorem reading_never_crashes (source : Source) (env : Environment) (fresh : Nat) :
    ReadsOrComplains source.text.length (source.walkTerm env fresh) (source.term env fresh) ∧
      ((∀ tokens, Token.ofText source.text = .ok tokens → namesOwnDomain env tokens = false) →
        ReadsOrComplains source.text.length (source.walkProposition env fresh)
          (source.proposition env fresh)) ∧
      (ReadsOrComplains source.text.length (source.walkProposition env fresh)
          (source.proposition env fresh) ∨
        ∃ tokens cause, Token.ofText source.text = .ok tokens ∧ BlamesDomain env tokens cause ∧
          (source.walkProposition env fresh).1 = .error (.crash (.malformed cause))) := by
  refine ⟨walkTerm_eq source env fresh, fun hapart => ?_, walkProposition_eq source env fresh⟩
  obtain hread | ⟨tokens, cause, htokens, hblame, -⟩ := walkProposition_eq source env fresh
  · exact hread
  · obtain ⟨_, _, _, -, -, -, hown⟩ := hblame
    rw [hapart tokens htokens] at hown
    cases hown

/-- The domain applies `x` to something and mentions `y`, and the last bracket is not closed. -/
theorem reading_never_crashes_unclosed :
    let env : Environment := [⟨1, "x"⟩, ⟨2, "y"⟩]
    let source := Source.ofString "" "∀x∈x(y). (x + 1) ∈ y ∧ (R(x) ∨ P"
    (∀ tokens, Token.ofText source.text = .ok tokens → namesOwnDomain env tokens = false) ∧
      (source.walkProposition env 3).1.toOption.isNone = true ∧
      ReadsOrComplains source.text.length (source.walkProposition env 3)
        (source.proposition env 3) := by
  intro env source
  have hapart : ∀ tokens, Token.ofText source.text = .ok tokens →
      namesOwnDomain env tokens = false := by
    intro tokens htokens
    have hnone : (Token.ofText source.text).toOption.map (namesOwnDomain env) = some false := by
      decide +kernel
    rw [htokens] at hnone
    exact Option.some.inj hnone
  exact ⟨hapart, by decide +kernel, (reading_never_crashes source env 3).2.1 hapart⟩

/-- The domain mentions its own declared variable. -/
theorem reading_crashes_ownDomain :
    let source := Source.ofString "expr" "∀x∈f(x). P(x)"
    (∃ cause fresh, source.walkProposition [⟨1, "x"⟩] 2 =
        (.error (.crash (.malformed cause)), fresh) ∧
      cause.message = "malformed forall-in-set: domain f(x) mentions bound variable x") ∧
      ¬ReadsOrComplains source.text.length (source.walkProposition [⟨1, "x"⟩] 2)
        (source.proposition [⟨1, "x"⟩] 2) := by
  intro source
  have hmessage : (match source.walkProposition [⟨1, "x"⟩] 2 with
      | (.error (.crash (.malformed cause)), _) => some cause.message
      | _ => none) = some "malformed forall-in-set: domain f(x) mentions bound variable x" := by
    decide +kernel
  split at hmessage
  next cause fresh hcrash =>
    refine ⟨⟨cause, fresh, hcrash, Option.some.inj hmessage⟩, ?_⟩
    rw [hcrash]
    rintro (⟨_, _, hvalue, -⟩ | ⟨_, _, _, hcomplaint, -, -⟩)
    · cases hvalue
    · cases hcomplaint
  next => cases hmessage

end Texts

end Entailment

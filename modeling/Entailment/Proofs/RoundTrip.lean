import Entailment.Proofs.Copying
import Entailment.Text.Formula

/-!
# Reading propositions back

The grammar of propositions on the signs of a printable one. A part is read as a member of a
connective, and what a whole proposition is read as follows from its parts. Where a bracket opens a
term, it is first tried as a proposition: inside, operands that an operator joins are read as one
term, no relation follows, and the attempt ends with a complaint. So the second attempt is the one
that counts.

Together with the lexing of the text, this gives back what was printed, up to the variables that
quantifiers bind.
-/
namespace Entailment

open Token Reader Proposition

namespace Reader

section Alternatives
variable {α : Type} {first second : Reader α} {signs : List Sign} {follow : TokenKind → Prop}
  {ok : α → Prop}

/-- What both readers do decides what the alternative does. -/
theorem orElse_run (first second : Reader α) (s : State) :
    orElse first second s =
      match first s with
      | .ok x t => .ok x t
      | .error (.malformed cause) t => .error (.malformed cause) t
      | .error (.complaint span c) t =>
        match second { t with tokens := s.tokens } with
        | .ok x u => .ok x u
        | .error (.malformed cause) u => .error (.malformed cause) u
        | .error (.complaint span' c') u =>
          .error (if span'.start > span.start then .complaint span' c' else .complaint span c)
            u := by
  unfold orElse
  have hget : (get : Reader State) s = .ok s s := rfl
  rw [bind_eq_ok hget]
  change EStateM.tryCatch first _ s = _
  unfold EStateM.tryCatch
  cases first s with
  | ok x t => rfl
  | error e t =>
      cases e with
      | malformed cause => rfl
      | complaint span c =>
          have hrestore : (modify fun u => { u with tokens := s.tokens } : Reader Unit) t =
              .ok () { t with tokens := s.tokens } := rfl
          dsimp only
          refine (bind_eq_ok hrestore).trans ?_
          change EStateM.tryCatch second _ _ = _
          unfold EStateM.tryCatch
          cases second { t with tokens := s.tokens } with
          | ok x u => rfl
          | error e u =>
              cases e with
              | malformed cause => rfl
              | complaint span' c' =>
                  dsimp only
                  split
                  next => rfl
                  next => rfl

theorem Consumes.orElse_left (h : Consumes first signs follow ok) :
    Consumes (orElse first second) signs follow ok := by
  intro tokens rest fresh hsigns hrest
  obtain ⟨x, fresh', hrun, hx⟩ := h tokens rest fresh hsigns hrest
  exact ⟨x, fresh', by rw [orElse_run, hrun], hx⟩

/-- If the first reader complains, the second one starts at the same place. -/
theorem Consumes.orElse_right (hfirst : Complains first signs follow)
    (hsecond : Consumes second signs follow ok) :
    Consumes (orElse first second) signs follow ok := by
  intro tokens rest fresh hsigns hrest
  obtain ⟨span, c, t, hcomplaint⟩ := hfirst tokens rest fresh hsigns hrest
  obtain ⟨x, fresh', hrun, hx⟩ := hsecond tokens rest t.fresh hsigns hrest
  exact ⟨x, fresh', by simp only [orElse_run, hcomplaint, hrun], hx⟩

theorem Complains.orElse (hfirst : Complains first signs follow)
    (hsecond : Complains second signs follow) : Complains (orElse first second) signs follow := by
  intro tokens rest fresh hsigns hrest
  obtain ⟨span, c, t, hrun⟩ := hfirst tokens rest fresh hsigns hrest
  obtain ⟨span', c', u, hrun'⟩ := hsecond tokens rest t.fresh hsigns hrest
  rw [orElse_run, hrun]
  dsimp only
  rw [hrun']
  dsimp only
  split
  next => exact ⟨span', c', u, rfl⟩
  next => exact ⟨span, c, u, rfl⟩

end Alternatives

/-- A part is over if what follows belongs to what it is a part of. -/
structure EndsPart (k : TokenKind) : Prop where
  endsTerm : EndsTerm k
  relation : ∀ r, k ≠ .relation r

/-- A whole proposition goes on to a closing bracket or the end. -/
def EndsFormula (k : TokenKind) : Prop := k = .closing ∨ k = .ending

theorem EndsFormula.endsPart {k : TokenKind} (h : EndsFormula k) : EndsPart k := by
  rcases h with rfl | rfl
  · exact ⟨endsTerm_closing, by simp⟩
  · exact ⟨by simp [EndsTerm], by simp⟩

theorem EndsFormula.ne_connective {k : TokenKind} (h : EndsFormula k) (c : Connective) :
    k ≠ .connective c := by
  rcases h with rfl | rfl <;> simp

theorem EndsFormula.ne_implies {k : TokenKind} (h : EndsFormula k) : k ≠ .implies := by
  rcases h with rfl | rfl <;> simp

theorem EndsFormula.ne_iff {k : TokenKind} (h : EndsFormula k) : k ≠ .iff := by
  rcases h with rfl | rfl <;> simp

theorem endsPart_implies : EndsPart .implies := ⟨by simp [EndsTerm], by simp⟩

theorem endsPart_iff : EndsPart .iff := ⟨by simp [EndsTerm], by simp⟩

theorem endsPart_connective (c : Connective) : EndsPart (.connective c) :=
  ⟨by simp [EndsTerm], by simp⟩

section Joining
variable {ctx : Context} {part : Reader Proposition} {follow : TokenKind → Prop}
  {signs signs' : List Sign} {ok ok' : Proposition → Prop} {R : Proposition → Proposition → Prop}

theorem junction_consumes_part (h : Consumes part signs follow ok)
    (hfollow : ∀ k, follow k → ∀ c, k ≠ .connective c) :
    Consumes (junction ctx part) signs follow ok := by
  refine h.andThen fun p hp => .peek_bind fun kind hkind => ?_
  split
  next c heq => exact absurd heq (hfollow kind hkind c)
  next => exact .pure hp

/-- If the first part cannot be read, nothing can. -/
theorem formulaOver_complains (h : Complains part signs follow) :
    Complains (formulaOver ctx part) signs follow := by
  intro tokens rest fresh hsigns hrest
  have himplication : ∀ n, Complains (implication ctx part n) signs follow := by
    intro n
    cases n with
    | zero => exact h.bind
    | succ n => exact h.bind.bind
  exact (himplication (tokens ++ rest).length).bind tokens rest fresh hsigns hrest

theorem implication_consumes (h : Consumes (junction ctx part) signs follow ok)
    (hfollow : ∀ k, follow k → k ≠ .implies) (n : Nat) :
    Consumes (implication ctx part n) signs follow ok := by
  cases n with
  | zero => exact h
  | succ n =>
      refine h.andThen fun p hp => .skip_bind accept_skips ?_ hfollow
      rintro found rfl
      exact .pure hp

/-- The last part of a proposition. -/
theorem implication_consumes_part (h : Consumes part signs EndsFormula ok) (n : Nat) :
    Consumes (implication ctx part n) signs EndsFormula ok :=
  implication_consumes (junction_consumes_part h fun _ hkind => hkind.ne_connective)
    (fun _ hkind => hkind.ne_implies) n

theorem formulaOver_consumes
    (h : ∀ n, signs.length ≤ n → Consumes (implication ctx part n) signs EndsFormula ok) :
    Consumes (formulaOver ctx part) signs EndsFormula ok := by
  refine .remaining_bind fun n hn => (h n hn).andThen fun p hp => ?_
  refine .skip_bind accept_skips ?_ fun kind hkind => hkind.ne_iff
  rintro found rfl
  exact .pure hp

/-- A proposition that is a single part. -/
theorem formulaOver_consumes_part (h : Consumes part signs EndsFormula ok) :
    Consumes (formulaOver ctx part) signs EndsFormula ok :=
  formulaOver_consumes fun n _ => implication_consumes_part h n

theorem members_consumes {c : Connective} {ps : List Proposition}
    (h : ∀ p ∈ ps, Consumes part p.partSigns EndsPart (R p)) {n : Nat} (hn : ps.length ≤ n) :
    Consumes (members ctx part c n) (ps.flatMap fun p => c.sign :: p.partSigns) EndsFormula
      (List.Forall₂ R ps) := by
  induction ps generalizing n with
  | nil =>
      cases n with
      | zero => exact .pure .nil
      | succ n =>
          refine .peek_bind fun kind hkind => ?_
          rcases hkind with rfl | rfl
          · exact .pure .nil
          · exact .pure .nil
  | cons p ps ih =>
      cases n with
      | zero => cases hn
      | succ n =>
          have hrest := ih (fun q hq => h q (List.mem_cons_of_mem _ hq)) (Nat.le_of_succ_le_succ hn)
          rw [List.flatMap_cons]
          refine .peek_sign_bind ?_
          simp only [Connective.sign_fst, ne_eq, not_true_eq_false, ↓reduceIte]
          refine .sign_bind (advance_consumes _) fun _ _ => ?_
          refine (h p List.mem_cons_self).bind (fun x hx => ?_) fun kind hfollow =>
            firstKind_flatMap (P := EndsPart) (c.sign_fst ▸ endsPart_connective c) hfollow.endsPart
          exact hrest.andThen fun xs hxs => .pure (.cons hx hxs)

/-- Two or more parts with the same connective between them. -/
theorem formulaOver_consumes_junction {c : Connective} {p q : Proposition} {ps : List Proposition}
    (h : ∀ x ∈ p :: q :: ps, Consumes part x.partSigns EndsPart (R x)) :
    Consumes (formulaOver ctx part) (joined c.sign partSigns (p :: q :: ps)) EndsFormula
      (fun x => ∃ xs, x = .junction c xs ∧ List.Forall₂ R (p :: q :: ps) xs) := by
  refine formulaOver_consumes fun n _ => implication_consumes ?_ (fun _ hk => hk.ne_implies) n
  refine (h p List.mem_cons_self).bind (fun x hx => ?_) fun kind hfollow =>
    firstKind_flatMap (P := EndsPart) (c.sign_fst ▸ endsPart_connective c) hfollow.endsPart
  refine .peek_sign_bind ?_
  rw [Connective.sign_fst]
  refine .remaining_bind fun n hn => ?_
  have hlength : (q :: ps).length ≤ n := Nat.le_trans (length_le_flatMap (q :: ps)) hn
  exact (members_consumes (fun y hy => h y (List.mem_cons_of_mem _ hy)) hlength).andThen
    fun xs hxs => .pure ⟨x :: xs, rfl, .cons hx hxs⟩

theorem formulaOver_consumes_implies (h : Consumes part signs EndsPart ok)
    (h' : Consumes part signs' EndsPart ok') :
    Consumes (formulaOver ctx part) (signs ++ .implies :: signs') EndsFormula
      (fun x => ∃ a b, x = .implies a b ∧ ok a ∧ ok' b) := by
  refine formulaOver_consumes fun n hn => ?_
  cases n with
  | zero => simp at hn
  | succ n =>
      have hleft : Consumes part signs (· = .implies) ok :=
        h.mono fun _ heq => heq ▸ endsPart_implies
      have hright : Consumes part signs' EndsFormula ok' :=
        h'.mono fun _ hkind => hkind.endsPart
      refine (junction_consumes_part hleft ?_).bind (fun a ha => ?_) fun kind _ => rfl
      · rintro k rfl
        simp
      refine .sign_bind (accept_consumes Sign.implies) ?_
      rintro found rfl
      exact (implication_consumes_part hright n).andThen fun b hb => .pure ⟨a, b, rfl, ha, hb⟩

theorem formulaOver_consumes_iff (h : Consumes part signs EndsPart ok)
    (h' : Consumes part signs' EndsPart ok') :
    Consumes (formulaOver ctx part) (signs ++ .iff :: signs') EndsFormula
      (fun x => ∃ a b, x = .iff a b ∧ ok a ∧ ok' b) := by
  have hleft : Consumes part signs (· = .iff) ok :=
    h.mono fun _ heq => heq ▸ endsPart_iff
  have hright : Consumes part signs' EndsFormula ok' :=
    h'.mono fun _ hkind => hkind.endsPart
  refine .remaining_bind fun n _ => ?_
  refine (implication_consumes (junction_consumes_part hleft ?_) ?_ n).bind (fun a ha => ?_)
    fun kind _ => rfl
  · rintro k rfl
    simp
  · rintro k rfl
    simp
  refine .sign_bind (accept_consumes Sign.iff) ?_
  rintro found rfl
  refine .remaining_bind fun m _ => ?_
  refine (implication_consumes_part hright m).andThen fun b hb => ?_
  refine .peek_bind fun kind hkind => ?_
  rcases hkind with rfl | rfl
  · exact .pure ⟨a, b, rfl, ha, hb⟩
  · exact .pure ⟨a, b, rfl, ha, hb⟩

end Joining

section Parts
variable {ctx : Context} {env : Environment} {bound : List Variable} {signs : List Sign}
  {follow : TokenKind → Prop} {ok : Proposition → Prop} {depth : Nat}

theorem member_consumes_not (h : Consumes (member depth ctx) signs follow ok) :
    Consumes (member (depth + 1) ctx) (.not :: signs) follow
      (fun x => ∃ p, x = .not p ∧ ok p) := by
  refine .peek_sign_bind (.sign_bind (advance_consumes _) fun _ _ => ?_)
  exact h.andThen fun p hp => .pure ⟨p, rfl, hp⟩

/-- A bracket that is closed where no term can go on. -/
theorem closeFormula_consumes {p : Proposition} (hp : ok p) :
    Consumes (closeFormula ctx p) [.closing] EndsPart ok := by
  refine .sign_bind (expect_consumes Sign.closing _ _) fun _ _ => ?_
  refine .peek_bind fun kind hkind => ?_
  split
  next r heq => exact absurd heq (hkind.relation r)
  next op heq => exact absurd heq (hkind.endsTerm.2 op)
  next => exact .pure hp

theorem member_consumes_bracketed
    (h : Consumes (formulaOver ctx (member depth ctx)) signs EndsFormula ok) :
    Consumes (member (depth + 1) ctx) (.opening :: (signs ++ [.closing])) EndsPart ok := by
  refine .peek_sign_bind (.orElse_left ?_)
  refine .sign_bind (advance_consumes _) fun _ _ => ?_
  exact h.bind (fun p hp => closeFormula_consumes hp) fun kind _ => .inl rfl

theorem atom_consumes_symbol {lhs rhs : List Sign} {t u : Term}
    (hlhs : Consumes (term ctx depth) lhs EndsTerm (· = t))
    (hrhs : Consumes (term ctx depth) rhs EndsTerm (· = u)) (r : Relation) :
    Consumes (atom ctx depth) (lhs ++ r.sign :: rhs) EndsTerm (· = .rel r t u) := by
  refine .position_bind fun start => ?_
  refine hlhs.bind ?_ fun kind _ => by simp [EndsTerm, firstKind, Relation.sign]
  rintro x rfl
  refine .peek_sign_bind ?_
  simp only [Relation.sign]
  refine .sign_bind (advance_consumes _) fun _ _ => ?_
  refine hrhs.andThen ?_
  rintro y rfl
  exact .pure rfl

/-- A name that no variable has is a predicate without arguments. -/
theorem atom_consumes_name {name : String} (hname : ctx.resolve name = none) :
    Consumes (atom ctx (depth + 1)) [.name name] EndsPart (· = .relation name []) := by
  refine .position_bind fun start => ?_
  have hterm : Consumes (term ctx (depth + 1)) [.name name] EndsTerm (· = .const name) :=
    termOver_consumes (operand_consumes_name (by rw [hname]))
  refine (hterm.mono fun _ hkind => hkind.endsTerm).andThen ?_
  rintro x rfl
  refine .peek_bind fun kind hkind => ?_
  cases kind with
  | relation r => exact absurd rfl (hkind.relation r)
  | _ => exact .pure rfl

/-- A predicate with arguments. -/
theorem atom_consumes_applied {name : String} {args : List Term} {f : Term → Term}
    (hname : Term.isOperator name = false)
    (h : ∀ t ∈ args, Consumes (term ctx depth) t.signs EndsTerm (· = f t)) :
    Consumes (atom ctx (depth + 1))
      (.name name :: .opening :: (joined .comma Term.signs args ++ [.closing])) EndsPart
      (· = .relation name (args.map f)) := by
  refine .position_bind fun start => ?_
  have hterm : Consumes (term ctx (depth + 1))
      (.name name :: .opening :: (joined .comma Term.signs args ++ [.closing])) EndsTerm
      (· = .app name (args.map f)) :=
    termOver_consumes ((operand_consumes_applied h).mono fun _ _ => trivial)
  refine (hterm.mono fun _ hkind => hkind.endsTerm).andThen ?_
  rintro x rfl
  refine .peek_bind fun kind hkind => ?_
  cases kind with
  | relation r => exact absurd rfl (hkind.relation r)
  | _ =>
      simp only [firstKind, hname, Bool.false_eq_true, ↓reduceIte]
      exact .pure rfl

/-- Operands in brackets are not an atom, since no relation follows inside. -/
theorem atom_complains {op : Operator} {t u : Term} {ts : List Term} {f : Term → Term}
    (h : ∀ x ∈ t :: u :: ts, Consumes (operand ctx depth) x.signs (· ≠ .opening) (· = f x)) :
    Complains (atom ctx depth) (joined op.sign Term.signs (t :: u :: ts) ++ [.closing]) follow := by
  refine .position_bind fun start => ?_
  refine (termOver_consumes_joined h).bind_complains ?_ fun kind _ => endsTerm_closing
  rintro x rfl
  refine .peek_sign_bind ?_
  simp only [Sign.closing, Operator.isOperator_head, ↓reduceIte]
  exact (complainAt_complains _ _).bind

/-- A printable term begins with a name or a number, or it is a bracket around operands. -/
theorem signs_cases {t : Term} (h : t.isPrintable env bound = true) :
    (∃ s rest, t.signs = s :: rest ∧ (s.1 = .name ∨ s.1 = .number)) ∨
      ∃ (op : Operator) (u v : Term) (ts : List Term),
        t.signs = .opening :: (joined op.sign Term.signs (u :: v :: ts) ++ [.closing]) ∧
        ∀ x ∈ u :: v :: ts, x.isPrintable env bound = true ∧ x.signs.length < t.signs.length := by
  cases t with
  | var v => exact .inl ⟨_, _, rfl, .inl rfl⟩
  | const name => exact .inl ⟨_, _, rfl, .inl rfl⟩
  | num n => exact .inl ⟨_, _, rfl, .inr rfl⟩
  | app head args =>
      rw [Term.isPrintable, Term.arePrintable_eq_all, Bool.and_eq_true, List.all_eq_true] at h
      rcases Bool.or_eq_true _ _ ▸ h.1 with hword | hjoined
      · rw [Term.signs, ofHead?_of_isWord hword]
        exact .inl ⟨_, _, rfl, .inl rfl⟩
      · rw [Bool.and_eq_true, decide_eq_true_eq] at hjoined
        obtain ⟨op, rfl⟩ := Operator.exists_head_of_isOperator hjoined.1
        obtain ⟨u, v, ts, rfl⟩ := exists_cons_cons_of_length hjoined.2
        have hsigns : (Term.app op.head (u :: v :: ts)).signs =
            .opening :: (joined op.sign Term.signs (u :: v :: ts) ++ [.closing]) := by
          rw [Term.signs, Operator.ofHead?_head]
          simp only [Term.signsOver_eq_joined]
        refine .inr ⟨op, u, v, ts, hsigns, fun x hx => ⟨h.2 x hx, ?_⟩⟩
        have hpart := length_le_joined (s := op.sign) (f := Term.signs) hx
        rw [hsigns, List.length_cons, List.length_append]
        omega

/-- A member that begins with a name or a number is an atom. -/
theorem member_consumes_atom {s : Sign} (hkind : s.1 = .name ∨ s.1 = .number)
    (h : Consumes (atom ctx (depth + 1)) (s :: signs) follow ok) :
    Consumes (member (depth + 1) ctx) (s :: signs) follow ok := by
  refine .peek_sign_bind ?_
  rcases hkind with hkind | hkind
  · simp only [hkind]
    exact h
  · simp only [hkind]
    exact h

theorem bracket_complains {rest : List Sign}
    (h : Complains (member depth ctx) signs fun _ => True) :
    Complains (do
      advance
      let p ← formulaOver ctx (member depth ctx)
      closeFormula ctx p) (.opening :: (signs ++ rest)) follow := by
  refine (advance_consumes Sign.opening).sign_bind_complains fun _ _ => .bind ?_
  exact (formulaOver_complains h).append fun _ _ => trivial

/-- Operands in a bracket cannot be read as a proposition. If the first one is a bracket itself,
that cannot be read as a proposition for the same reason. -/
theorem member_complains {op : Operator} {t u : Term} {ts : List Term}
    (hmirrors : ctx.Mirrors env bound)
    (hprintable : ∀ x ∈ t :: u :: ts, x.isPrintable env bound = true)
    (hdepth : ∀ x ∈ t :: u :: ts, x.signs.length ≤ depth) :
    Complains (member depth ctx) (joined op.sign Term.signs (t :: u :: ts) ++ [.closing])
      follow := by
  -- A bracket inside is tried one level deeper, so the induction is on the depth and not on `t`.
  induction depth generalizing op t u ts follow with
  | zero => exact complain_complains _ _
  | succ depth ih =>
      have hatom : Complains (atom ctx (depth + 1))
          (joined op.sign Term.signs (t :: u :: ts) ++ [.closing]) follow :=
        atom_complains fun x hx => operand_consumes hmirrors (hprintable x hx) (hdepth x hx)
      have hfirst := hdepth t List.mem_cons_self
      rw [joined, List.append_assoc] at hatom ⊢
      rcases signs_cases (hprintable t List.mem_cons_self) with
        ⟨s, rest, hsigns, hkind⟩ | ⟨op', u', v', ts', hsigns, hparts⟩
      · rw [hsigns] at hatom ⊢
        refine .peek_sign_bind ?_
        rcases hkind with hkind | hkind
        · simp only [hkind]
          exact hatom
        · simp only [hkind]
          exact hatom
      · rw [hsigns] at hatom ⊢
        refine .peek_sign_bind (.orElse (bracket_complains ?_) hatom)
        refine ih (fun x hx => (hparts x hx).1) fun x hx => ?_
        have hsmaller := (hparts x hx).2
        omega

theorem member_consumes_relation {name : String} {args : List Term} {mark : Option FactId}
    (hmirrors : ctx.Mirrors env bound)
    (hprintable : isPrintable env bound (.relation name args mark) = true)
    (hdepth : (relationSigns name args).length ≤ depth) :
    Consumes (member depth ctx) (relationSigns name args) EndsPart
      (· = .relation name (args.map (Term.mapVariables ctx.target))) := by
  rw [isPrintable, Bool.and_eq_true, Bool.or_eq_true, List.all_eq_true] at hprintable
  obtain ⟨hform, hargs⟩ := hprintable
  rcases hform with hsymbol | hword
  · rw [Bool.and_eq_true, decide_eq_true_eq, Option.isSome_iff_exists] at hsymbol
    obtain ⟨⟨r, hr⟩, hlength⟩ := hsymbol
    obtain ⟨lhs, rhs, rfl⟩ := List.length_eq_two.mp hlength
    have hname : r.name = name := by simpa using List.find?_some hr
    rw [relationSigns_of_ofName? hr, List.length_append, List.length_cons] at hdepth
    rw [relationSigns_of_ofName? hr, ← hname]
    obtain ⟨depth, rfl⟩ := Nat.exists_eq_add_of_le' (Nat.le_trans (Nat.le_add_left 1 _) hdepth)
    have hlhs := hargs lhs List.mem_cons_self
    have hrhs := hargs rhs (List.mem_cons_of_mem _ List.mem_cons_self)
    have hleft : Consumes (term ctx (depth + 1)) lhs.signs EndsTerm
        (· = lhs.mapVariables ctx.target) := term_consumes hmirrors hlhs (by omega)
    have hright : Consumes (term ctx (depth + 1)) rhs.signs EndsTerm
        (· = rhs.mapVariables ctx.target) := term_consumes hmirrors hrhs (by omega)
    have hatom : Consumes (atom ctx (depth + 1)) (lhs.signs ++ r.sign :: rhs.signs) EndsPart
        (· = .rel r (lhs.mapVariables ctx.target) (rhs.mapVariables ctx.target)) :=
      (atom_consumes_symbol hleft hright r).mono fun _ hkind => hkind.endsTerm
    rcases signs_cases hlhs with ⟨s, rest, hsigns, hkind⟩ | ⟨op, u, v, ts, hsigns, hparts⟩
    · rw [hsigns] at hatom ⊢
      exact member_consumes_atom hkind hatom
    · rw [hsigns] at hatom ⊢
      refine .peek_sign_bind (.orElse_right (bracket_complains ?_) hatom)
      refine member_complains hmirrors (fun x hx => (hparts x hx).1) fun x hx => ?_
      have hsmaller := (hparts x hx).2
      omega
  · rw [Bool.and_eq_true] at hword
    cases args with
    | nil =>
        rw [relationSigns_nil] at hdepth ⊢
        obtain ⟨depth, rfl⟩ := Nat.exists_eq_add_of_le' hdepth
        have hname : env.resolve bound name = none := by simpa using hword.2
        exact member_consumes_atom (.inl rfl) (atom_consumes_name (hmirrors.resolve_eq_none hname))
    | cons t ts =>
        rw [relationSigns_cons (ofName?_of_isWord hword.1)] at hdepth ⊢
        simp only [List.length_cons, List.length_append] at hdepth
        obtain ⟨depth, rfl⟩ := Nat.exists_eq_add_of_le' (Nat.le_trans (Nat.le_add_left 1 _) hdepth)
        refine member_consumes_atom (.inl rfl)
          (atom_consumes_applied (isOperator_of_isWord hword.1) fun u hu => ?_)
        have hpart := length_le_joined (s := .comma) (f := Term.signs) hu
        exact term_consumes hmirrors (hargs u hu) (by omega)

theorem quantifiedVariable_consumes {name : String}
    (hname : Environment.find? ctx.bound name = none) :
    Consumes (quantifiedVariable ctx) [.name name] follow (·.name = name) := by
  refine .position_bind fun span => .peek_sign_bind ?_
  simp only [Sign.name, ne_eq, not_true_eq_false, ↓reduceIte]
  refine .sign_bind (takeText_consumes _) ?_
  rintro text rfl
  simp only [String.ofList_toList, hname, Option.isSome_none, Bool.false_eq_true, ↓reduceIte]
  cases hdeclared : ctx.environment.find? name with
  | some v => exact .pure (name_of_find? hdeclared)
  | none =>
      intro tokens rest fresh hsigns _
      obtain rfl := List.map_eq_nil_iff.mp hsigns
      exact ⟨⟨fresh, name⟩, fresh + 1, rfl, rfl⟩

/-- The domain of a quantifier is read up to the dot. -/
theorem domain_bind_consumes {domain : Option Term} {k : Option Term → Reader Proposition}
    (hmirrors : ctx.Mirrors env bound)
    (hprintable : domain.all (Term.isPrintable env bound) = true)
    (hdepth : ∀ set ∈ domain, set.signs.length ≤ depth)
    (h : Consumes (k (domain.map (Term.mapVariables ctx.target))) (.dot :: signs) follow ok) :
    Consumes (do
      let set ← if ← accept (.relation .element) then some <$> term ctx depth else pure none
      k set)
      (domain.elim [] (fun set => Relation.element.sign :: set.signs) ++ .dot :: signs) follow
      ok := by
  cases domain with
  | none =>
      refine .skip_bind accept_skips ?_ fun kind _ => by simp [firstKind, Sign.dot]
      rintro found rfl
      exact h
  | some set =>
      refine .sign_bind (accept_consumes Relation.element.sign) ?_
      rintro found rfl
      have hset : Consumes (some <$> term ctx depth) set.signs EndsTerm
          (· = some (set.mapVariables ctx.target)) := by
        rw [map_eq_pure_bind]
        refine (term_consumes hmirrors hprintable (hdepth set rfl)).andThen ?_
        rintro x rfl
        exact .pure rfl
      refine hset.bind ?_ fun kind _ => by simp [EndsTerm, firstKind, Sign.dot]
      rintro x rfl
      exact h

theorem member_consumes_quantified {q : Quantifier} {v : Variable} {domain : Option Term}
    {p : Proposition} {mark : Option FactId} (hmirrors : ctx.Mirrors env bound)
    (hprintable : isPrintable env bound (.quantified q v domain p mark) = true)
    (hmade : isWellMade (.quantified q v domain p mark) = true)
    (hdepth : ∀ set ∈ domain, set.signs.length ≤ depth)
    (h : ∀ inner : Context, inner.Mirrors env (v :: bound) →
      Consumes (formulaOver inner (member depth inner)) p.signs EndsFormula
        (Copies inner (v :: bound) p)) :
    Consumes (member (depth + 1) ctx) (Proposition.signs (.quantified q v domain p mark))
      EndsFormula (Copies ctx bound (.quantified q v domain p mark)) := by
  have hparts := hprintable
  simp only [isPrintable, Bool.and_eq_true, Option.isNone_iff_eq_none] at hparts
  obtain ⟨⟨⟨⟨-, hfree⟩, -⟩, hdomain⟩, -⟩ := hparts
  refine .peek_sign_bind (.sign_bind (advance_consumes _) fun _ _ => ?_)
  refine .sign_bind (quantifiedVariable_consumes ((hmirrors.find?_eq_none_iff _).mpr hfree)) ?_
  intro v' hname
  refine domain_bind_consumes hmirrors hdomain hdepth ?_
  refine .sign_bind (expect_consumes Sign.dot _ _) fun _ _ => ?_
  have hinner : Context.Mirrors { ctx with bound := v' :: ctx.bound } env (v :: bound) :=
    ⟨hmirrors.environment, by rw [List.map_cons, List.map_cons, hname, hmirrors.names]⟩
  refine (h _ hinner).andThen fun body hbody => ?_
  obtain ⟨copy, hcopy, hcopies⟩ := quantified?_copies mark hmirrors hprintable hmade hname hbody
  rw [hcopy]
  exact .pure hcopies

end Parts

end Reader

namespace Proposition

/-- Readers get a copy of the proposition from its signs, as a whole and as a part of another
one. -/
structure Readable (ctx : Context) (bound : List Variable) (p : Proposition) : Prop where
  formula : ∀ depth, p.signs.length ≤ depth →
    Consumes (formulaOver ctx (member depth ctx)) p.signs EndsFormula (Copies ctx bound p)
  part : ∀ depth, p.partSigns.length ≤ depth →
    Consumes (member depth ctx) p.partSigns EndsPart (Copies ctx bound p)

section Readable
variable {ctx : Context} {env : Environment} {bound : List Variable} {a b p : Proposition}
  {mark : Option FactId}

theorem Readable.of_part (htight : p.isTight = true)
    (h : ∀ depth, p.signs.length ≤ depth →
      Consumes (member depth ctx) p.signs EndsPart (Copies ctx bound p)) :
    Readable ctx bound p where
  formula := fun depth hdepth => formulaOver_consumes_part
    ((h depth hdepth).mono fun _ hkind => hkind.endsPart)
  part := by
    rw [partSigns, bracketSigns, if_pos htight]
    exact h

theorem Readable.of_formula (htight : p.isTight = false)
    (h : ∀ depth, p.signs.length ≤ depth →
      Consumes (formulaOver ctx (member depth ctx)) p.signs EndsFormula (Copies ctx bound p)) :
    Readable ctx bound p where
  formula := h
  part := by
    intro depth hdepth
    rw [partSigns, bracketSigns, htight] at hdepth ⊢
    simp only [Bool.false_eq_true, ↓reduceIte, List.length_cons, List.length_append] at hdepth ⊢
    obtain ⟨depth, rfl⟩ := Nat.exists_eq_add_of_le' (Nat.le_trans (Nat.le_add_left 1 _) hdepth)
    exact member_consumes_bracketed (h depth (by omega))

theorem Readable.relation {name : String} {args : List Term} (hmirrors : ctx.Mirrors env bound)
    (hprintable : isPrintable env bound (.relation name args mark) = true) :
    Readable ctx bound (.relation name args mark) := by
  refine .of_part rfl fun depth hdepth => ?_
  refine (member_consumes_relation hmirrors hprintable hdepth).imp ?_
  rintro x rfl
  rw [isPrintable, Bool.and_eq_true, List.all_eq_true] at hprintable
  exact .relation mark hmirrors hprintable.2 name

theorem Readable.not (h : Readable ctx bound p) : Readable ctx bound (.not p mark) := by
  refine .of_part rfl fun depth hdepth => ?_
  obtain ⟨depth, rfl⟩ := Nat.exists_eq_add_of_le' (Nat.le_trans (Nat.le_add_left 1 _) hdepth)
  refine (member_consumes_not (h.part depth (Nat.le_of_succ_le_succ hdepth))).imp ?_
  rintro x ⟨p', rfl, hp'⟩
  exact .not mark hp'

theorem Readable.junction {c : Connective} {ps : List Proposition} (hlength : 2 ≤ ps.length)
    (h : ∀ p ∈ ps, Readable ctx bound p) : Readable ctx bound (.junction c ps mark) := by
  refine .of_formula rfl fun depth hdepth => ?_
  rw [signs, memberSigns_eq_joined] at hdepth ⊢
  obtain ⟨p, q, ps, rfl⟩ := exists_cons_cons_of_length hlength
  refine (formulaOver_consumes_junction fun x hx => (h x hx).part depth ?_).imp ?_
  · exact Nat.le_trans (length_le_joined hx) hdepth
  · rintro x ⟨xs, rfl, hxs⟩
    exact .junction mark hxs

theorem Readable.implies (ha : Readable ctx bound a) (hb : Readable ctx bound b) :
    Readable ctx bound (.implies a b mark) := by
  refine .of_formula rfl fun depth hdepth => ?_
  have hsigns : signs (.implies a b mark) = a.partSigns ++ .implies :: b.partSigns := rfl
  rw [hsigns] at hdepth ⊢
  rw [List.length_append, List.length_cons] at hdepth
  refine (formulaOver_consumes_implies (ha.part depth (by omega)) (hb.part depth (by omega))).imp ?_
  rintro x ⟨a', b', rfl, ha', hb'⟩
  exact ha'.implies mark hb'

theorem Readable.iff (ha : Readable ctx bound a) (hb : Readable ctx bound b) :
    Readable ctx bound (.iff a b mark) := by
  refine .of_formula rfl fun depth hdepth => ?_
  have hsigns : signs (.iff a b mark) = a.partSigns ++ .iff :: b.partSigns := rfl
  rw [hsigns] at hdepth ⊢
  rw [List.length_append, List.length_cons] at hdepth
  refine (formulaOver_consumes_iff (ha.part depth (by omega)) (hb.part depth (by omega))).imp ?_
  rintro x ⟨a', b', rfl, ha', hb'⟩
  exact ha'.iff mark hb'

theorem Readable.quantified {q : Quantifier} {v : Variable} {domain : Option Term}
    (hmirrors : ctx.Mirrors env bound)
    (hprintable : isPrintable env bound (.quantified q v domain p mark) = true)
    (hmade : isWellMade (.quantified q v domain p mark) = true)
    (h : ∀ inner : Context, inner.Mirrors env (v :: bound) → Readable inner (v :: bound) p) :
    Readable ctx bound (.quantified q v domain p mark) := by
  refine .of_formula rfl fun depth hdepth => formulaOver_consumes_part ?_
  rw [signs, List.length_cons, List.length_cons, List.length_append, List.length_cons] at hdepth
  obtain ⟨depth, rfl⟩ := Nat.exists_eq_add_of_le' (Nat.le_trans (Nat.le_add_left 1 _) hdepth)
  refine member_consumes_quantified hmirrors hprintable hmade ?_ fun inner hinner =>
    (h inner hinner).formula depth (by omega)
  rintro set rfl
  rw [Option.elim_some, List.length_cons] at hdepth
  omega

/-- Every printable proposition is readable, by its construction. -/
theorem readable {p : Proposition} (hmirrors : ctx.Mirrors env bound)
    (hprintable : p.isPrintable env bound = true) (hmade : p.isWellMade = true) :
    Readable ctx bound p := by
  induction p using Proposition.inductionOn generalizing ctx bound with
  | relation name args mark => exact .relation hmirrors hprintable
  | not p mark ih => exact .not (ih hmirrors hprintable hmade)
  | junction c ps mark ih =>
      rw [isPrintable, arePrintable_eq_all, List.all_eq_true] at hprintable
      rw [isWellMade, areWellMade_eq_all, Bool.and_eq_true, decide_eq_true_eq, List.all_eq_true]
        at hmade
      exact .junction hmade.1 fun p hp => ih p hp hmirrors (hprintable p hp) (hmade.2 p hp)
  | implies a b mark iha ihb =>
      rw [isPrintable, Bool.and_eq_true] at hprintable
      rw [isWellMade, Bool.and_eq_true] at hmade
      exact .implies (iha hmirrors hprintable.1 hmade.1) (ihb hmirrors hprintable.2 hmade.2)
  | iff a b mark iha ihb =>
      rw [isPrintable, Bool.and_eq_true] at hprintable
      rw [isWellMade, Bool.and_eq_true] at hmade
      exact .iff (iha hmirrors hprintable.1 hmade.1) (ihb hmirrors hprintable.2 hmade.2)
  | quantified q v domain p mark ih =>
      refine .quantified hmirrors hprintable hmade fun inner hinner => ?_
      rw [isPrintable, Bool.and_eq_true] at hprintable
      rw [isWellMade, Bool.and_eq_true] at hmade
      exact ih hinner hprintable.2 hmade.2
  | contradiction mark => cases hprintable

end Readable

end Proposition

section Texts
variable {env : Environment}

/-- A text is read if its signs are consumed up to the end. -/
theorem readAll_eq_ok {α : Type} (grammar : Context → Nat → Reader α) (source : Source)
    {signs : List Sign} {ok : α → Prop} (hlexes : Lexes source.text signs)
    (h : Consumes (grammar ⟨source.text.length, env, []⟩ (signs.length + 1)) signs (· = .ending) ok)
    (fresh : Nat) : ∃ x, (readAll grammar source env fresh).1 = .ok x ∧ ok x := by
  obtain ⟨tokens, htokens, rfl⟩ := hlexes.ofText
  rw [List.length_map] at h
  have hwhole : Consumes (whole ⟨source.text.length, env, []⟩
      (grammar ⟨source.text.length, env, []⟩ (tokens.length + 1))) (tokens.map sign)
      (· = .ending) ok := by
    refine h.andThen fun x hx => .peek_bind ?_
    rintro kind rfl
    exact .pure hx
  obtain ⟨x, fresh', hrun, hx⟩ := hwhole tokens [] fresh rfl rfl
  rw [List.append_nil] at hrun
  refine ⟨x, ?_, hx⟩
  simp only [readAll, htokens, EStateM.run, hrun]

theorem mirrors_nil (length : Nat) (env : Environment) :
    Context.Mirrors ⟨length, env, []⟩ env [] := ⟨rfl, rfl⟩

/-- Reading the text of what is printable gives it back: a proposition up to the renaming of bound
variables, and a term as it is. Printability says what names mean where they stand, but not that
the names of declared variables can be written at all. -/
theorem read_render (name : String) (env : Environment) (fresh : Nat) :
    (∀ p : Proposition, Built p → p.isPrintable env [] = true →
      (∀ v, p.contains (.var v) = true → isWord v.name = true) →
      ∃ q, (Source.proposition (.ofString name p.render) env fresh).1 = .ok q ∧
        q.equivalent p = true) ∧
    ∀ t : Term, t.isPrintable env [] = true →
      (∀ v, (Term.var v).occursIn t = true → isWord v.name = true) →
      (Source.term (.ofString name t.render) env fresh).1 = .ok t := by
  constructor
  · intro p hbuilt hprintable hwords
    have hmade := hbuilt.isWellMade
    have hlexes := (Proposition.spells hprintable hmade hwords).lexes
    have hmirrors := mirrors_nil p.render.toList.length env
    have hread := (readable hmirrors hprintable hmade).formula _ (Nat.le_succ p.signs.length)
    obtain ⟨q, hq, hcopies⟩ := readAll_eq_ok formula (.ofString name p.render) hlexes
      (hread.mono fun _ hkind => .inr hkind) fresh
    have hunify : Unify.proposition .nothing .empty [] q p = some [] := hcopies.unify []
    refine ⟨q, hq, ?_⟩
    rw [equivalent, hunify]
    rfl
  · intro t hprintable hwords
    have hlexes := (Term.spells hprintable hwords).lexes
    have hmirrors := mirrors_nil t.render.toList.length env
    have hend : ∀ k, k = TokenKind.ending → EndsTerm k := by simp [EndsTerm]
    have hread := term_consumes hmirrors hprintable (Nat.le_succ t.signs.length)
    obtain ⟨u, hu, hcopy⟩ := readAll_eq_ok term (.ofString name t.render) hlexes
      (hread.mono hend) fresh
    rw [Source.term, hu, hcopy, Term.mapVariables_eq_self hmirrors hprintable]

theorem read_render_bounded_sum :
    let sum : Term := .app "+" [.var ⟨1, "x"⟩, .var ⟨7, "y"⟩]
    let body : Proposition :=
      .implies (.relation "<=" [sum, .num 2]) (.not (.relation "P" [.var ⟨7, "y"⟩]))
    let p : Proposition := .quantified .all ⟨7, "y"⟩ (some (.const "S")) body
    (∃ q, (Source.proposition (.ofString "" p.render) [⟨1, "x"⟩] 9).1 = .ok q ∧
      q.equivalent p = true) ∧
    (Source.term (.ofString "" sum.render) [⟨1, "x"⟩, ⟨7, "y"⟩] 9).1 = .ok sum := by
  intro sum body p
  have hbody : Built body := .implies (.relation _ _) (.not (.relation _ _))
  have hbuilt : quantified? .all (some ⟨7, "y"⟩) (some (.const "S")) body = .ok p := rfl
  have hwords : ∀ v, p.contains (.var v) = true → isWord v.name = true := by
    intro v hv
    have hx : ⟨1, "x"⟩ = v := by
      have hoccurs : ¬ v = ⟨7, "y"⟩ ∧ (⟨1, "x"⟩ = v ∨ ⟨7, "y"⟩ = v) := by
        simpa [p, body, sum, contains, Term.occursIn] using hv
      exact hoccurs.2.resolve_right fun hy => hoccurs.1 hy.symm
    rw [← hx]
    decide
  have hsum : ∀ v, (Term.var v).occursIn sum = true → isWord v.name = true := by
    intro v hv
    have hv' : ⟨1, "x"⟩ = v ∨ ⟨7, "y"⟩ = v := by simpa [sum, Term.occursIn] using hv
    rcases hv' with rfl | rfl <;> decide
  exact ⟨(read_render "" [⟨1, "x"⟩] 9).1 p (.quantified hbody hbuilt) (by decide +kernel) hwords,
    (read_render "" [⟨1, "x"⟩, ⟨7, "y"⟩] 9).2 sum (by decide +kernel) hsum⟩

/-- A declared variable with a reserved name is printed by that name, which is not read as a
variable again. -/
theorem read_render_reserved :
    Built (.relation "P" [.var ⟨1, "in"⟩]) ∧
      isPrintable [⟨1, "in"⟩] [] (.relation "P" [.var ⟨1, "in"⟩]) = true ∧
      ¬ ∃ q, (Source.proposition (.ofString "" (render (.relation "P" [.var ⟨1, "in"⟩])))
        [⟨1, "in"⟩] 2).1 = .ok q := by
  refine ⟨.relation _ _, by decide +kernel, ?_⟩
  rintro ⟨q, hq⟩
  have hfails : (Source.proposition (.ofString "" (render (.relation "P" [.var ⟨1, "in"⟩])))
      [⟨1, "in"⟩] 2).1.toOption.isNone = true := by decide +kernel
  rw [hq] at hfails
  cases hfails

end Texts

end Entailment

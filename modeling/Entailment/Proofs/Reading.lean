import Entailment.Proofs.Spelling

/-!
# Reading terms back

What a reader does with the signs of a text. `Consumes` says that it takes exactly these signs off
the front and what it answers, as long as the kind of the next token allows it; `Complains` that it
gives up. The rules below follow the steps of readers, so the grammar of terms is gone through once,
from operands to applications, by induction over the term whose signs are read.
-/
namespace Entailment

open Token

namespace Reader

/-- The kind of the next token. -/
def next : List Token → TokenKind
  | [] => .ending
  | t :: _ => t.kind

/-- The kind of the first sign, or of what comes after if there is none. -/
def firstKind (signs : List Sign) (after : TokenKind) : TokenKind :=
  match signs with
  | [] => after
  | s :: _ => s.1

/-- The reader takes these signs, if what follows is as required. -/
def Consumes {α : Type} (r : Reader α) (signs : List Sign) (follow : TokenKind → Prop)
    (ok : α → Prop) : Prop :=
  ∀ (tokens rest : List Token) (fresh : Nat), tokens.map sign = signs → follow (next rest) →
    ∃ x fresh', r ⟨tokens ++ rest, fresh⟩ = .ok x ⟨rest, fresh'⟩ ∧ ok x

/-- The reader complains about what begins with these signs. -/
def Complains {α : Type} (r : Reader α) (signs : List Sign) (follow : TokenKind → Prop) : Prop :=
  ∀ (tokens rest : List Token) (fresh : Nat), tokens.map sign = signs → follow (next rest) →
    ∃ span c s, r ⟨tokens ++ rest, fresh⟩ = .error (.complaint span c) s

section Rules
variable {α β : Type} {signs signs' : List Sign} {follow follow' : TokenKind → Prop}
  {ok : α → Prop} {kind : TokenKind} {text : List Char}

theorem next_append {tokens rest : List Token} (h : tokens.map sign = signs) :
    next (tokens ++ rest) = firstKind signs (next rest) := by
  subst h
  cases tokens with
  | nil => rfl
  | cons t tokens => rfl

theorem Consumes.mono {r : Reader α} (h : Consumes r signs follow ok)
    (hfollow : ∀ k, follow' k → follow k) : Consumes r signs follow' ok :=
  fun tokens rest fresh hsigns hrest => h tokens rest fresh hsigns (hfollow _ hrest)

theorem Consumes.imp {r : Reader α} {ok' : α → Prop} (h : Consumes r signs follow ok)
    (hok : ∀ x, ok x → ok' x) : Consumes r signs follow ok' := by
  intro tokens rest fresh hsigns hrest
  obtain ⟨x, fresh', hrun, hx⟩ := h tokens rest fresh hsigns hrest
  exact ⟨x, fresh', hrun, hok x hx⟩

theorem Consumes.pure {x : α} (h : ok x) : Consumes (Pure.pure x) [] follow ok := by
  intro tokens rest fresh hsigns _
  obtain rfl := List.map_eq_nil_iff.mp hsigns
  exact ⟨x, fresh, rfl, h⟩

theorem bind_eq_ok {r : Reader β} {k : β → Reader α} {s t : State} {x : β}
    (h : r s = .ok x t) : (r >>= k) s = k x t := by
  change EStateM.bind r k s = k x t
  rw [EStateM.bind, h]

theorem Consumes.bind {r : Reader β} {k : β → Reader α} {mid : β → Prop}
    (hr : Consumes r signs follow' mid) (hk : ∀ x, mid x → Consumes (k x) signs' follow ok)
    (hnext : ∀ kind, follow kind → follow' (firstKind signs' kind)) :
    Consumes (r >>= k) (signs ++ signs') follow ok := by
  intro tokens rest fresh hsigns hrest
  obtain ⟨tokens, tokens', rfl, hfirst, hsecond⟩ := List.map_eq_append_iff.mp hsigns
  have hfollow : follow' (next (tokens' ++ rest)) := by
    rw [next_append hsecond]
    exact hnext _ hrest
  obtain ⟨x, fresh', hrun, hx⟩ := hr tokens (tokens' ++ rest) fresh hfirst hfollow
  obtain ⟨y, fresh'', hrun', hy⟩ := hk x hx tokens' rest fresh' hsecond hrest
  refine ⟨y, fresh'', ?_, hy⟩
  rw [List.append_assoc, bind_eq_ok hrun, hrun']

theorem Consumes.andThen {r : Reader β} {k : β → Reader α} {mid : β → Prop}
    (hr : Consumes r signs follow mid) (hk : ∀ x, mid x → Consumes (k x) [] follow ok) :
    Consumes (r >>= k) signs follow ok := by
  rw [← List.append_nil signs]
  exact hr.bind hk fun _ h => h

/-- After a step that takes nothing. -/
theorem Consumes.skip_bind {r : Reader β} {k : β → Reader α} {mid : β → Prop}
    (hr : Consumes r [] follow' mid) (hk : ∀ x, mid x → Consumes (k x) signs follow ok)
    (hnext : ∀ kind, follow kind → follow' (firstKind signs kind)) :
    Consumes (r >>= k) signs follow ok :=
  hr.bind hk hnext

/-- After a step that takes one sign, whatever follows. -/
theorem Consumes.sign_bind {r : Reader β} {k : β → Reader α} {mid : β → Prop} {s : Sign}
    (hr : Consumes r [s] (fun _ => True) mid) (hk : ∀ x, mid x → Consumes (k x) signs follow ok) :
    Consumes (r >>= k) (s :: signs) follow ok :=
  hr.bind hk fun _ _ => trivial

theorem Complains.bind {r : Reader β} {k : β → Reader α} (h : Complains r signs follow) :
    Complains (r >>= k) signs follow := by
  intro tokens rest fresh hsigns hrest
  obtain ⟨span, c, s, hrun⟩ := h tokens rest fresh hsigns hrest
  refine ⟨span, c, s, ?_⟩
  change EStateM.bind r k _ = _
  rw [EStateM.bind, hrun]

/-- A reader that has taken some signs may complain about the next ones. -/
theorem Consumes.bind_complains {r : Reader β} {k : β → Reader α} {mid : β → Prop}
    (hr : Consumes r signs follow' mid) (hk : ∀ x, mid x → Complains (k x) signs' follow)
    (hnext : ∀ kind, follow kind → follow' (firstKind signs' kind)) :
    Complains (r >>= k) (signs ++ signs') follow := by
  intro tokens rest fresh hsigns hrest
  obtain ⟨tokens, tokens', rfl, hfirst, hsecond⟩ := List.map_eq_append_iff.mp hsigns
  have hfollow : follow' (next (tokens' ++ rest)) := by
    rw [next_append hsecond]
    exact hnext _ hrest
  obtain ⟨x, fresh', hrun, hx⟩ := hr tokens (tokens' ++ rest) fresh hfirst hfollow
  obtain ⟨span, c, s, hrun'⟩ := hk x hx tokens' rest fresh' hsecond hrest
  exact ⟨span, c, s, by rw [List.append_assoc, bind_eq_ok hrun, hrun']⟩

theorem Consumes.sign_bind_complains {r : Reader β} {k : β → Reader α} {mid : β → Prop} {s : Sign}
    (hr : Consumes r [s] (fun _ => True) mid) (hk : ∀ x, mid x → Complains (k x) signs follow) :
    Complains (r >>= k) (s :: signs) follow :=
  hr.bind_complains hk fun _ _ => trivial

theorem Complains.append {r : Reader α} (h : Complains r signs follow')
    (hnext : ∀ kind, follow kind → follow' (firstKind signs' kind)) :
    Complains r (signs ++ signs') follow := by
  intro tokens rest fresh hsigns hrest
  obtain ⟨tokens, tokens', rfl, hfirst, hsecond⟩ := List.map_eq_append_iff.mp hsigns
  have hfollow : follow' (next (tokens' ++ rest)) := by
    rw [next_append hsecond]
    exact hnext _ hrest
  rw [List.append_assoc]
  exact h tokens (tokens' ++ rest) fresh hfirst hfollow

theorem peek_run (s : State) : peek s = .ok (next s.tokens) s := by
  obtain ⟨tokens, fresh⟩ := s
  cases tokens <;> rfl

/-- Looking at the next token takes nothing. -/
theorem Consumes.peek_bind {k : TokenKind → Reader α}
    (h : ∀ kind, follow kind → Consumes (k (firstKind signs kind)) signs (· = kind) ok) :
    Consumes (peek >>= k) signs follow ok := by
  intro tokens rest fresh hsigns hrest
  obtain ⟨x, fresh', hrun, hx⟩ := h _ hrest tokens rest fresh hsigns rfl
  refine ⟨x, fresh', ?_, hx⟩
  rw [bind_eq_ok (peek_run _), ← hrun]
  dsimp only
  rw [next_append hsigns]

theorem Consumes.peek_sign_bind {k : TokenKind → Reader α} {s : Sign}
    (h : Consumes (k s.1) (s :: signs) follow ok) : Consumes (peek >>= k) (s :: signs) follow ok :=
  .peek_bind fun _ hkind => h.mono fun _ heq => heq ▸ hkind

theorem Complains.peek_sign_bind {k : TokenKind → Reader α} {s : Sign}
    (h : Complains (k s.1) (s :: signs) follow) : Complains (peek >>= k) (s :: signs) follow := by
  intro tokens rest fresh hsigns hrest
  obtain ⟨span, c, t, hrun⟩ := h tokens rest fresh hsigns hrest
  refine ⟨span, c, t, ?_⟩
  rw [bind_eq_ok (peek_run _), ← hrun]
  dsimp only
  rw [next_append hsigns]
  rfl

theorem firstKind_flatMap {P : TokenKind → Prop} {s : Sign} {xs : List β} {f : β → List Sign}
    (hs : P s.1) (hkind : P kind) : P (firstKind (xs.flatMap fun x => s :: f x) kind) := by
  cases xs with
  | nil => exact hkind
  | cons x xs => exact hs

theorem length_le_flatMap {s : Sign} {f : β → List Sign} (xs : List β) :
    xs.length ≤ (xs.flatMap fun x => s :: f x).length := by
  induction xs with
  | nil => exact Nat.le_refl _
  | cons x xs ih =>
      rw [List.flatMap_cons, List.length_append, List.length_cons, List.length_cons]
      omega

theorem Consumes.remaining_bind {k : Nat → Reader α}
    (h : ∀ n, signs.length ≤ n → Consumes (k n) signs follow ok) :
    Consumes (remaining >>= k) signs follow ok := by
  intro tokens rest fresh hsigns hrest
  refine h (tokens ++ rest).length ?_ tokens rest fresh hsigns hrest
  rw [← hsigns, List.length_map, List.length_append]
  exact Nat.le_add_right _ _

theorem position_run (ctx : Context) (s : State) : ∃ span, position ctx s = .ok span s := by
  obtain ⟨tokens, fresh⟩ := s
  cases tokens with
  | nil => exact ⟨_, rfl⟩
  | cons t tokens => exact ⟨_, rfl⟩

theorem Consumes.position_bind {ctx : Context} {k : Span → Reader α}
    (h : ∀ span, Consumes (k span) signs follow ok) :
    Consumes (position ctx >>= k) signs follow ok := by
  intro tokens rest fresh hsigns hrest
  obtain ⟨span, hspan⟩ := position_run ctx ⟨tokens ++ rest, fresh⟩
  rw [bind_eq_ok hspan]
  exact h span tokens rest fresh hsigns hrest

theorem Complains.position_bind {ctx : Context} {k : Span → Reader α}
    (h : ∀ span, Complains (k span) signs follow) :
    Complains (position ctx >>= k) signs follow := by
  intro tokens rest fresh hsigns hrest
  obtain ⟨span, hspan⟩ := position_run ctx ⟨tokens ++ rest, fresh⟩
  rw [bind_eq_ok hspan]
  exact h span tokens rest fresh hsigns hrest

theorem complainAt_complains (span : Span) (c : Complaint) :
    Complains (complainAt span c : Reader α) signs follow :=
  fun _ _ _ _ _ => ⟨span, c, _, rfl⟩

theorem complain_complains (ctx : Context) (c : Complaint) :
    Complains (complain ctx c : Reader α) signs follow :=
  .position_bind fun span => complainAt_complains span c

theorem advance_consumes (s : Sign) : Consumes advance [s] follow fun _ => True := by
  intro tokens rest fresh hsigns _
  obtain ⟨t, rfl, -⟩ := List.map_eq_singleton_iff.mp hsigns
  exact ⟨(), fresh, rfl, trivial⟩

theorem takeText_consumes (s : Sign) : Consumes takeText [s] follow (· = s.2) := by
  intro tokens rest fresh hsigns _
  obtain ⟨t, rfl, rfl⟩ := List.map_eq_singleton_iff.mp hsigns
  exact ⟨t.text, fresh, rfl, rfl⟩

theorem accept_consumes (s : Sign) : Consumes (accept s.1) [s] follow (· = true) := by
  intro tokens rest fresh hsigns _
  obtain ⟨t, rfl, rfl⟩ := List.map_eq_singleton_iff.mp hsigns
  refine ⟨true, fresh, ?_, rfl⟩
  unfold accept
  rw [bind_eq_ok (peek_run _)]
  exact congrFun (if_pos rfl) _

/-- A token of another kind is left where it is. -/
theorem accept_skips : Consumes (accept kind) [] (· ≠ kind) (· = false) := by
  intro tokens rest fresh hsigns hrest
  obtain rfl := List.map_eq_nil_iff.mp hsigns
  refine ⟨false, fresh, ?_, rfl⟩
  unfold accept
  rw [bind_eq_ok (peek_run _)]
  exact congrFun (if_neg hrest) _

theorem expect_consumes (s : Sign) (ctx : Context) (c : Complaint) :
    Consumes (expect ctx s.1 c) [s] follow fun _ => True := by
  unfold expect
  refine (accept_consumes s).andThen ?_
  rintro found rfl
  exact .pure trivial

end Rules

end Reader

namespace Term

mutual

def mapVariables (f : Variable → Variable) : Term → Term
  | .var v => .var (f v)
  | .const name => .const name
  | .num n => .num n
  | .app head args => .app head (mapVariablesList f args)

def mapVariablesList (f : Variable → Variable) : List Term → List Term
  | [] => []
  | t :: ts => mapVariables f t :: mapVariablesList f ts

end

@[simp] theorem mapVariablesList_eq_map (f : Variable → Variable) (ts : List Term) :
    mapVariablesList f ts = ts.map (mapVariables f) := by
  induction ts with
  | nil => rfl
  | cons t ts ih => simp [mapVariablesList, ih]

end Term

namespace Reader

/-- The names mean the same to a reader as in an environment under quantifiers, up to variables that
it has made for bound ones. -/
structure Context.Mirrors (ctx : Context) (env : Environment) (bound : List Variable) : Prop where
  environment : ctx.environment = env
  names : ctx.bound.map Variable.name = bound.map Variable.name

/-- The variable that is read for a variable. -/
def Context.target (ctx : Context) (v : Variable) : Variable := (ctx.resolve v.name).getD v

section Terms
variable {ctx : Context} {env : Environment} {bound : List Variable}

theorem find?_eq_none {vs : List Variable} {name : String} :
    Environment.find? vs name = none ↔ name ∉ vs.map Variable.name := by
  simp [Environment.find?]

theorem Context.Mirrors.find?_eq_none_iff (h : ctx.Mirrors env bound) (name : String) :
    Environment.find? ctx.bound name = none ↔ Environment.find? bound name = none := by
  rw [find?_eq_none, find?_eq_none, h.names]

theorem Context.Mirrors.resolve_eq_none (h : ctx.Mirrors env bound) {name : String}
    (hname : env.resolve bound name = none) : ctx.resolve name = none := by
  rw [Environment.resolve, Option.or_eq_none_iff] at hname
  rw [Context.resolve, Option.or_eq_none_iff, h.environment, h.find?_eq_none_iff]
  exact hname

theorem Context.Mirrors.resolve_eq_target (h : ctx.Mirrors env bound) {v : Variable}
    (hv : env.resolve bound v.name = some v) : ctx.resolve v.name = some (ctx.target v) := by
  rw [Context.target]
  cases hresolve : ctx.resolve v.name with
  | some w => rfl
  | none =>
      rw [Context.resolve, Option.or_eq_none_iff, h.environment, h.find?_eq_none_iff] at hresolve
      rw [Environment.resolve, hresolve.1, hresolve.2] at hv
      cases hv

theorem firstKind_append (signs signs' : List Sign) (kind : TokenKind) :
    firstKind (signs ++ signs') kind = firstKind signs (firstKind signs' kind) := by
  cases signs <;> rfl

/-- Terms begin with a name, a number or a bracket. -/
theorem firstKind_term (t : Term) (kind : TokenKind) : firstKind t.signs kind = .name ∨
    firstKind t.signs kind = .number ∨ firstKind t.signs kind = .opening := by
  cases t with
  | var v => exact .inl rfl
  | const name => exact .inl rfl
  | num n => exact .inr (.inl rfl)
  | app head args =>
      rw [Term.signs]
      split
      next => exact .inr (.inr rfl)
      next => exact .inl rfl

/-- A term is over unless an operator or a bracket follows. -/
def EndsTerm (k : TokenKind) : Prop := k ≠ .opening ∧ ∀ op, k ≠ .operator op

theorem endsTerm_closing : EndsTerm .closing := by simp [EndsTerm]

theorem endsTerm_comma : EndsTerm .comma := by simp [EndsTerm]

theorem comma_ne_closing : Sign.comma.1 ≠ .closing := by simp [Sign.comma]

theorem operator_ne_opening (op : Operator) : op.sign.1 ≠ .opening := by simp [Operator.sign]

theorem operands_consumes {op : Operator} {operand : Reader Term} {f : Term → Term}
    {ts : List Term} (h : ∀ t ∈ ts, Consumes operand t.signs (· ≠ .opening) (· = f t)) {n : Nat}
    (hn : ts.length ≤ n) :
    Consumes (operands ctx operand op n) (ts.flatMap fun t => op.sign :: t.signs) EndsTerm
      (· = ts.map f) := by
  induction ts generalizing n with
  | nil =>
      cases n with
      | zero => exact .pure rfl
      | succ n =>
          refine .peek_bind fun kind hkind => ?_
          split
          next op' heq => exact absurd heq (hkind.2 op')
          next => exact .pure rfl
  | cons t ts ih =>
      cases n with
      | zero => cases hn
      | succ n =>
          have hrest := ih (fun u hu => h u (List.mem_cons_of_mem _ hu)) (Nat.le_of_succ_le_succ hn)
          rw [List.flatMap_cons]
          refine .peek_sign_bind ?_
          simp only [Operator.sign, ne_eq, not_true_eq_false, ↓reduceIte]
          refine .sign_bind (advance_consumes _) fun _ _ => ?_
          refine (h t List.mem_cons_self).bind (fun x hx => ?_) fun kind hkind =>
            firstKind_flatMap (P := (· ≠ .opening)) (operator_ne_opening op) hkind.1
          refine hrest.andThen fun xs hxs => .pure ?_
          rw [hx, hxs, List.map_cons]

/-- A term that is read as one operand. -/
theorem termOver_consumes {operand : Reader Term} {signs : List Sign} {t : Term}
    (h : Consumes operand signs (· ≠ .opening) (· = t)) :
    Consumes (termOver ctx operand) signs EndsTerm (· = t) := by
  refine (h.mono fun _ hkind => hkind.1).andThen fun x hx => ?_
  refine .peek_bind fun kind hkind => ?_
  split
  next op heq => exact absurd heq (hkind.2 op)
  next => exact .pure hx

/-- Several operands with the same operator between them. -/
theorem termOver_consumes_joined {op : Operator} {operand : Reader Term} {f : Term → Term}
    {t u : Term} {ts : List Term}
    (h : ∀ x ∈ t :: u :: ts, Consumes operand x.signs (· ≠ .opening) (· = f x)) :
    Consumes (termOver ctx operand) (joined op.sign Term.signs (t :: u :: ts)) EndsTerm
      (· = .app op.head ((t :: u :: ts).map f)) := by
  refine (h t List.mem_cons_self).bind (fun x hx => ?_) fun kind _ =>
    operator_ne_opening op
  refine .peek_sign_bind (.remaining_bind fun n hn => ?_)
  have hlength : (u :: ts).length ≤ n := Nat.le_trans (length_le_flatMap (u :: ts)) hn
  refine (operands_consumes (fun y hy => h y (List.mem_cons_of_mem _ hy)) hlength).andThen
    fun xs hxs => .pure ?_
  rw [hx, hxs]
  rfl

/-- After an argument comes a comma or the closing bracket. -/
theorem endsTerm_further (ts : List Term) (kind : TokenKind) :
    EndsTerm (firstKind ((ts.flatMap fun t => .comma :: t.signs) ++ [.closing]) kind) := by
  cases ts with
  | nil => exact endsTerm_closing
  | cons t ts => exact endsTerm_comma

/-- Arguments after the first one, up to the closing bracket. -/
theorem arguments_consumes {argument : Reader Term} {f : Term → Term} {ts : List Term}
    (h : ∀ t ∈ ts, Consumes argument t.signs EndsTerm (· = f t)) {n : Nat} (hn : ts.length < n) :
    Consumes (arguments ctx argument n false)
      ((ts.flatMap fun t => .comma :: t.signs) ++ [.closing]) (fun _ => True) (· = ts.map f) := by
  induction ts generalizing n with
  | nil =>
      cases n with
      | zero => cases hn
      | succ n =>
          refine .sign_bind (accept_consumes Sign.closing) ?_
          rintro found rfl
          exact .pure rfl
  | cons t ts ih =>
      cases n with
      | zero => cases hn
      | succ n =>
          have hrest := ih (fun u hu => h u (List.mem_cons_of_mem _ hu)) (Nat.lt_of_succ_lt_succ hn)
          rw [List.flatMap_cons, List.append_assoc]
          refine .skip_bind accept_skips ?_ fun kind _ => comma_ne_closing
          rintro found rfl
          simp only [Bool.false_eq_true, ↓reduceIte]
          refine .sign_bind (expect_consumes Sign.comma _ _) fun _ _ => ?_
          refine (h t List.mem_cons_self).bind (fun x hx => ?_) fun kind _ => endsTerm_further ts kind
          refine hrest.andThen fun xs hxs => .pure ?_
          rw [hx, hxs, List.map_cons]

theorem arguments_consumes_all {argument : Reader Term} {f : Term → Term} {ts : List Term}
    (h : ∀ t ∈ ts, Consumes argument t.signs EndsTerm (· = f t)) {n : Nat}
    (hn : ts.length < n) :
    Consumes (arguments ctx argument n true) (joined .comma Term.signs ts ++ [.closing])
      (fun _ => True) (· = ts.map f) := by
  obtain ⟨n, rfl⟩ := Nat.exists_eq_add_one_of_ne_zero (Nat.ne_of_gt (Nat.zero_lt_of_lt hn))
  cases ts with
  | nil =>
      refine .sign_bind (accept_consumes Sign.closing) ?_
      rintro found rfl
      exact .pure rfl
  | cons t ts =>
      rw [joined, List.append_assoc]
      refine .skip_bind accept_skips ?_ fun kind _ => ?_
      · rintro found rfl
        simp only [Bool.false_eq_true, ↓reduceIte]
        refine (h t List.mem_cons_self).bind (fun x hx => ?_) fun kind _ => endsTerm_further ts kind
        refine (arguments_consumes (fun u hu => h u (List.mem_cons_of_mem _ hu))
          (Nat.lt_of_succ_lt_succ hn)).andThen fun xs hxs => .pure ?_
        rw [hx, hxs, List.map_cons]
      · rw [firstKind_append]
        rcases firstKind_term t (firstKind _ kind) with hfirst | hfirst | hfirst <;>
          rw [hfirst] <;> simp

/-- A part has no more signs than the parts together. -/
theorem length_le_joined {α : Type} {s : Sign} {f : α → List Sign} {xs : List α} {x : α}
    (hx : x ∈ xs) : (f x).length ≤ (joined s f xs).length := by
  cases xs with
  | nil => cases hx
  | cons y ys =>
      rw [joined, List.length_append]
      rcases List.mem_cons.mp hx with rfl | hx
      · exact Nat.le_add_right _ _
      · have hpart : (s :: f x).length ≤ (ys.flatMap fun z => s :: f z).length := by
          rw [List.flatMap_def]
          have hmem := List.mem_map_of_mem (f := fun z => s :: f z) hx
          exact (List.sublist_flatten_of_mem hmem).length_le
        rw [List.length_cons] at hpart
        omega

/-- Between each two parts there is a sign. -/
theorem length_le_joined_add_one {α : Type} {s : Sign} {f : α → List Sign} (xs : List α) :
    xs.length ≤ (joined s f xs).length + 1 := by
  cases xs with
  | nil => exact Nat.zero_le _
  | cons y ys =>
      rw [joined, List.length_append, List.length_cons]
      have hfurther := length_le_flatMap (s := s) (f := f) ys
      omega

/-- Reading the digits of a number gives the number. -/
theorem readNumber_toDigits (n : Nat) : readNumber (Nat.toDigits 10 n) = n :=
  (Nat.ofDigitChars_eq_foldl ..).symm.trans Nat.ofDigitChars_ten_toDigits

/-- A name that stands for itself, since no bracket follows. -/
theorem operand_consumes_name {name : String} {t : Term} {depth : Nat}
    (h : (match ctx.resolve name with
      | some v => Term.var v
      | none => .const name) = t) :
    Consumes (operand ctx (depth + 1)) [.name name] (· ≠ .opening) (· = t) := by
  refine .peek_sign_bind (.sign_bind (takeText_consumes _) ?_)
  rintro text rfl
  refine .skip_bind accept_skips ?_ fun kind hkind => hkind
  rintro found rfl
  simp only [Sign.name, String.ofList_toList, Bool.false_eq_true, ↓reduceIte]
  subst h
  cases ctx.resolve name with
  | some v => exact .pure rfl
  | none => exact .pure rfl

/-- A name with arguments in brackets. -/
theorem operand_consumes_applied {head : String} {args : List Term} {f : Term → Term} {depth : Nat}
    (h : ∀ t ∈ args, Consumes (termOver ctx (operand ctx depth)) t.signs EndsTerm (· = f t)) :
    Consumes (operand ctx (depth + 1))
      (.name head :: .opening :: (joined .comma Term.signs args ++ [.closing])) (fun _ => True)
      (· = .app head (args.map f)) := by
  refine .peek_sign_bind (.sign_bind (takeText_consumes _) ?_)
  rintro text rfl
  refine .sign_bind (accept_consumes Sign.opening) ?_
  rintro found rfl
  simp only [Sign.name, String.ofList_toList, ↓reduceIte]
  refine .remaining_bind fun n hn => ?_
  have hlength : args.length < n + 1 := by
    have hseparated := length_le_joined_add_one (s := .comma) (f := Term.signs) args
    rw [List.length_append, List.length_singleton] at hn
    omega
  refine (arguments_consumes_all h hlength).andThen fun xs hxs => .pure ?_
  rw [hxs]

/-- Operands in brackets. -/
theorem operand_consumes_bracketed {op : Operator} {t u : Term} {ts : List Term} {f : Term → Term}
    {depth : Nat}
    (h : ∀ x ∈ t :: u :: ts, Consumes (operand ctx depth) x.signs (· ≠ .opening) (· = f x)) :
    Consumes (operand ctx (depth + 1))
      (.opening :: (joined op.sign Term.signs (t :: u :: ts) ++ [.closing])) (fun _ => True)
      (· = .app op.head ((t :: u :: ts).map f)) := by
  refine .peek_sign_bind (.sign_bind (advance_consumes _) fun _ _ => ?_)
  refine (termOver_consumes_joined h).bind (fun x hx => ?_) fun kind _ => endsTerm_closing
  exact (expect_consumes Sign.closing _ _).andThen fun _ _ => .pure hx

theorem exists_cons_cons_of_length {α : Type} {xs : List α} (h : 2 ≤ xs.length) :
    ∃ x y ys, xs = x :: y :: ys := by
  match xs, h with
  | x :: y :: ys, _ => exact ⟨x, y, ys, rfl⟩

theorem operand_consumes {t : Term} (hmirrors : ctx.Mirrors env bound)
    (hprintable : t.isPrintable env bound = true) {depth : Nat} (hdepth : t.signs.length ≤ depth) :
    Consumes (operand ctx depth) t.signs (· ≠ .opening) (· = t.mapVariables ctx.target) := by
  induction t using Term.inductionOn generalizing depth with
  | var v =>
      obtain ⟨depth, rfl⟩ := Nat.exists_eq_add_of_le' hdepth
      rw [Term.isPrintable, beq_iff_eq] at hprintable
      apply operand_consumes_name
      rw [hmirrors.resolve_eq_target hprintable, Term.mapVariables]
  | const name =>
      obtain ⟨depth, rfl⟩ := Nat.exists_eq_add_of_le' hdepth
      rw [Term.isPrintable, Bool.and_eq_true, Option.isNone_iff_eq_none] at hprintable
      apply operand_consumes_name
      rw [hmirrors.resolve_eq_none hprintable.2, Term.mapVariables]
  | num n =>
      obtain ⟨depth, rfl⟩ := Nat.exists_eq_add_of_le' hdepth
      rw [Term.isPrintable, decide_eq_true_eq] at hprintable
      refine .peek_sign_bind (.sign_bind (takeText_consumes _) ?_)
      rintro text rfl
      refine .pure ?_
      rw [readNumber_toDigits, Int.toNat_of_nonneg hprintable, Term.mapVariables]
  | app head args ih =>
      rw [Term.isPrintable, Term.arePrintable_eq_all, Bool.and_eq_true, List.all_eq_true]
        at hprintable
      -- An argument has fewer signs than the whole, so one level less is deep enough for it.
      have hargs : ∀ u ∈ args, ∀ {depth : Nat}, u.signs.length ≤ depth →
          Consumes (operand ctx depth) u.signs (· ≠ .opening) (· = u.mapVariables ctx.target) :=
        fun u hu => ih u hu (hprintable.2 u hu)
      rw [Term.mapVariables, Term.mapVariablesList_eq_map]
      rw [Term.signs] at hdepth ⊢
      rcases Bool.or_eq_true _ _ ▸ hprintable.1 with hword | hjoined
      · rw [ofHead?_of_isWord hword] at hdepth ⊢
        simp only [Term.signsOver_eq_joined] at hdepth ⊢
        obtain ⟨depth, rfl⟩ := Nat.exists_eq_add_of_le' (Nat.le_trans (Nat.succ_pos _) hdepth)
        refine (operand_consumes_applied fun u hu => termOver_consumes (hargs u hu ?_)).mono
          fun _ _ => trivial
        have hpart := length_le_joined (s := .comma) (f := Term.signs) hu
        simp only [List.length_cons, List.length_append] at hdepth
        omega
      · rw [Bool.and_eq_true, decide_eq_true_eq] at hjoined
        obtain ⟨op, rfl⟩ := Operator.exists_head_of_isOperator hjoined.1
        rw [Operator.ofHead?_head] at hdepth ⊢
        simp only [Term.signsOver_eq_joined] at hdepth ⊢
        obtain ⟨depth, rfl⟩ := Nat.exists_eq_add_of_le' (Nat.le_trans (Nat.succ_pos _) hdepth)
        obtain ⟨t, u, ts, rfl⟩ := exists_cons_cons_of_length hjoined.2
        refine (operand_consumes_bracketed fun x hx => hargs x hx ?_).mono
          fun _ _ => trivial
        have hpart := length_le_joined (s := op.sign) (f := Term.signs) hx
        simp only [List.length_cons, List.length_append] at hdepth
        omega

/-- A printable term is read as it is, up to its bound variables. -/
theorem term_consumes {t : Term} (hmirrors : ctx.Mirrors env bound)
    (hprintable : t.isPrintable env bound = true) {depth : Nat} (hdepth : t.signs.length ≤ depth) :
    Consumes (term ctx depth) t.signs EndsTerm (· = t.mapVariables ctx.target) :=
  termOver_consumes (operand_consumes hmirrors hprintable hdepth)

end Terms

end Reader

end Entailment

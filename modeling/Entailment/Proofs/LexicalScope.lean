import Entailment.Proofs.FreeVariables
import Entailment.Proofs.Rereading
import Mathlib.Data.List.Infix

/-!
# What names refer to

A quantifier is read in three steps: its variable is looked up or made, its domain is read where the
variable is not in scope yet, and its body where it is. `Delivers` follows a reader through its steps
and says what becomes of the tokens and of the number for the next variable, also when the reader
gives up and another one is tried on the same tokens.

From what a reader delivers it follows that names refer to variables as their place in the text says,
and that nothing but a domain that mentions its own declared variable can be malformed.
-/
namespace Entailment

namespace Proposition

mutual

/-- The variables that quantifiers bind, one for each quantifier, in the order of the text. -/
def boundVariables : Proposition → List Variable
  | .relation _ _ _ | .contradiction _ => []
  | .not p _ => boundVariables p
  | .junction _ ps _ => boundVariablesList ps
  | .implies a b _ | .iff a b _ => boundVariables a ++ boundVariables b
  | .quantified _ v _ p _ => v :: boundVariables p

def boundVariablesList : List Proposition → List Variable
  | [] => []
  | p :: ps => boundVariables p ++ boundVariablesList ps

end

mutual

/-- Whether no quantifier binds a name, or indeed a variable, that a quantifier around it binds. -/
def nestsApart : Proposition → Bool
  | .relation _ _ _ | .contradiction _ => true
  | .not p _ => nestsApart p
  | .junction _ ps _ => nestApart ps
  | .implies a b _ | .iff a b _ => nestsApart a && nestsApart b
  | .quantified _ v _ p _ => (boundVariables p).all (·.name ≠ v.name) && nestsApart p

def nestApart : List Proposition → Bool
  | [] => true
  | p :: ps => nestsApart p && nestApart ps

end

mutual

theorem mem_boundVariables {v : Variable} : ∀ p : Proposition,
    v ∈ p.boundVariables ↔ p.binds v = true
  | .relation _ _ _ | .contradiction _ => by simp [boundVariables, binds]
  | .not p _ => mem_boundVariables p
  | .junction _ ps _ => by
      rw [boundVariables, binds]
      exact mem_boundVariablesList ps
  | .implies a b _ | .iff a b _ => by
      rw [boundVariables, binds, List.mem_append, Bool.or_eq_true, mem_boundVariables a,
        mem_boundVariables b]
  | .quantified _ w _ p _ => by
      rw [boundVariables, binds, List.mem_cons, Bool.or_eq_true, mem_boundVariables p, beq_iff_eq,
        eq_comm]

theorem mem_boundVariablesList {v : Variable} : ∀ ps : List Proposition,
    v ∈ boundVariablesList ps ↔ bindsAny v ps = true
  | [] => by simp [boundVariablesList, bindsAny]
  | p :: ps => by
      rw [boundVariablesList, bindsAny, List.mem_append, Bool.or_eq_true, mem_boundVariables p,
        mem_boundVariablesList ps]

end

/-- A quantifier that does not bind its variable again is malformed only by what its domain
mentions. -/
theorem quantified?_eq_error {q : Quantifier} {v : Variable} {domain : Option Term}
    {body : Proposition} {cause : Malformed} (hbinds : body.binds v = false)
    (h : quantified? q (some v) domain body = .error cause) :
    ∃ set, domain = some set ∧ cause = .domainMentions (q.kind domain) set v ∧
      (Term.var v).occursIn set = true := by
  cases domain with
  | none => simp [quantified?, hbinds] at h
  | some set =>
      by_cases hmentions : (Term.var v).occursIn set = true
      · simp only [quantified?, hbinds, hmentions, Bool.false_eq_true, if_false, if_true] at h
        cases h
        exact ⟨set, rfl, rfl, hmentions⟩
      · simp [quantified?, hbinds, hmentions] at h

end Proposition

/-- The variable is the declared one of its name. Or else there is no such variable, and this one is
new: it has one of the numbers from `f` up to `g`. -/
def Environment.Provides (env : Environment) (f g : Nat) (v : Variable) : Prop :=
  env.find? v.name = some v ∨ env.find? v.name = none ∧ f ≤ v.id ∧ v.id < g

theorem Environment.Provides.mono {env : Environment} {f g f' g' : Nat} {v : Variable}
    (hv : env.Provides f g v) (hf : f' ≤ f) (hg : g ≤ g') : env.Provides f' g' v :=
  hv.imp_right fun hnew => ⟨hnew.1, Nat.le_trans hf hnew.2.1, Nat.lt_of_lt_of_le hnew.2.2 hg⟩

namespace Reader

/-- Whether a name stands among tokens by itself, and not before a bracket with arguments. -/
def mentions (name : String) : List Token → Bool
  | [] => false
  | t :: rest =>
    (t.kind = .name ∧ String.ofList t.text = name ∧ next rest ≠ .opening) || mentions name rest

/-- Whether a quantifier over a declared variable comes first, and its domain mentions the name of
that variable. Domains extend to a dot. -/
def quantifiesOverOwn (env : Environment) : List Token → Bool
  | q :: v :: e :: rest =>
    match q.kind, v.kind, e.kind with
    | .quantifier _, .name, .relation .element =>
      let name := String.ofList v.text
      (env.find? name).isSome && mentions name (rest.takeWhile (·.kind ≠ .dot))
    | _, _, _ => false
  | _ => false

/-- Whether the domain of a quantifier over a declared variable mentions the name of that variable,
somewhere among the tokens. -/
def namesOwnDomain (env : Environment) (tokens : List Token) : Bool :=
  tokens.tails.any (quantifiesOverOwn env)

/-- The domain of a quantifier over a declared variable mentions that variable. -/
def BlamesDomain (env : Environment) (all : List Token) (cause : Malformed) : Prop :=
  ∃ kind set v, cause = .domainMentions kind set v ∧ env.find? v.name = some v ∧
    (Term.var v).occursIn set = true ∧ namesOwnDomain env all = true

/-- What a reader may come to from a state: an answer with the property and an end of the tokens, or
a complaint, or something malformed for one of the given causes. No number for a variable is used
again, not even after a complaint. -/
def Delivered {α : Type} (all : List Token) (blame : Malformed → Prop) (s : State)
    (ok : α → State → Prop) : EStateM.Result Unreadable State α → Prop
  | .ok x t => t.tokens <:+ all ∧ s.fresh ≤ t.fresh ∧ ok x t
  | .error (.complaint _ _) t => s.fresh ≤ t.fresh
  | .error (.malformed cause) _ => blame cause

/-- What the reader makes of an end of the tokens. -/
def Delivers {α : Type} (all : List Token) (blame : Malformed → Prop) (r : Reader α) (s : State)
    (ok : α → State → Prop) : Prop :=
  s.tokens <:+ all → Delivered all blame s ok (r s)

/-- The state after the next token. -/
def State.skip (s : State) : State := { s with tokens := s.tokens.tail }

section Rules
variable {α β : Type} {all : List Token} {blame : Malformed → Prop} {s : State} {ctx : Context}
  {ok : α → State → Prop}

@[simp] theorem State.skip_tokens : s.skip.tokens = s.tokens.tail := rfl

theorem Delivers.assuming {r : Reader α} (h : s.tokens <:+ all → Delivers all blame r s ok) :
    Delivers all blame r s ok :=
  fun hs => h hs hs

theorem Delivered.imp {ok' : α → State → Prop} {result : EStateM.Result Unreadable State α}
    (h : Delivered all blame s ok result) (hok : ∀ x t, ok x t → ok' x t) :
    Delivered all blame s ok' result := by
  cases result with
  | ok x t => exact ⟨h.1, h.2.1, hok x t h.2.2⟩
  | error e t => cases e <;> exact h

theorem Delivers.imp {r : Reader α} {ok' : α → State → Prop} (h : Delivers all blame r s ok)
    (hok : ∀ x t, ok x t → ok' x t) : Delivers all blame r s ok' :=
  fun hs => (h hs).imp hok

theorem Delivered.after {t : State} {result : EStateM.Result Unreadable State α}
    (hfresh : s.fresh ≤ t.fresh) (h : Delivered all blame t ok result) :
    Delivered all blame s ok result := by
  cases result with
  | ok x u => exact ⟨h.1, Nat.le_trans hfresh h.2.1, h.2.2⟩
  | error e u =>
      cases e with
      | complaint span c => exact Nat.le_trans hfresh h
      | malformed cause => exact h

theorem Delivers.pure {x : α} (h : ok x s) : Delivers all blame (Pure.pure x) s ok :=
  fun hs => ⟨hs, Nat.le_refl _, h⟩

theorem Delivers.bind {r : Reader β} {k : β → Reader α} {mid : β → State → Prop}
    (hr : Delivers all blame r s mid)
    (hk : ∀ x t, s.fresh ≤ t.fresh → mid x t → Delivers all blame (k x) t ok) :
    Delivers all blame (r >>= k) s ok := by
  intro hs
  have hfirst := hr hs
  change Delivered all blame s ok (EStateM.bind r k s)
  unfold EStateM.bind
  cases hrun : r s with
  | ok x t =>
      rw [hrun] at hfirst
      obtain ⟨ht, hfresh, hx⟩ := hfirst
      exact (hk x t hfresh hx ht).after hfresh
  | error e t =>
      rw [hrun] at hfirst
      cases e with
      | complaint span c => exact hfirst
      | malformed cause => exact hfirst

/-- A step that takes no token and never gives up. -/
theorem Delivers.after {r : Reader β} {k : β → Reader α} {x : β} (hrun : r s = .ok x s)
    (h : Delivers all blame (k x) s ok) : Delivers all blame (r >>= k) s ok := by
  intro hs
  rw [bind_eq_ok hrun]
  exact h hs

theorem Delivers.peek_bind {k : TokenKind → Reader α}
    (h : Delivers all blame (k (next s.tokens)) s ok) : Delivers all blame (peek >>= k) s ok :=
  h.after (peek_run s)

theorem Delivers.position_bind {k : Span → Reader α} (h : ∀ span, Delivers all blame (k span) s ok) :
    Delivers all blame (position ctx >>= k) s ok := by
  obtain ⟨span, hspan⟩ := position_run ctx s
  exact (h span).after hspan

theorem complainAt_delivers (span : Span) (c : Complaint) :
    Delivers all blame (complainAt span c : Reader α) s ok :=
  fun _ => Nat.le_refl _

theorem complain_delivers (c : Complaint) :
    Delivers all blame (complain ctx c : Reader α) s ok :=
  .position_bind fun span => complainAt_delivers span c

/-- Nothing comes after a complaint. -/
theorem Delivers.complain_bind {c : Complaint} {k : β → Reader α} :
    Delivers all blame (complain ctx c >>= k) s ok :=
  have hcomplain : Delivers all blame (complain ctx c : Reader β) s fun _ _ => False :=
    complain_delivers c
  hcomplain.bind fun _ _ _ hnot => hnot.elim

theorem Delivers.complainAt_bind {span : Span} {c : Complaint} {k : β → Reader α} :
    Delivers all blame (complainAt span c >>= k) s ok :=
  have hcomplain : Delivers all blame (complainAt span c : Reader β) s fun _ _ => False :=
    complainAt_delivers span c
  hcomplain.bind fun _ _ _ hnot => hnot.elim

theorem advance_delivers : Delivers all blame advance s fun _ t => t = s.skip :=
  fun hs => ⟨(List.tail_suffix _).trans hs, Nat.le_refl _, rfl⟩

theorem accept_delivers (kind : TokenKind) : Delivers all blame (accept kind) s fun found t =>
    if found then next s.tokens = kind ∧ t = s.skip else next s.tokens ≠ kind ∧ t = s := by
  apply Delivers.peek_bind
  split_ifs with hkind
  · exact advance_delivers.bind fun _ t _ ht => .pure ⟨hkind, ht⟩
  · exact .pure ⟨hkind, rfl⟩

theorem expect_delivers (kind : TokenKind) (c : Complaint) :
    Delivers all blame (expect ctx kind c) s fun _ t => next s.tokens = kind ∧ t = s.skip := by
  apply (accept_delivers kind).bind
  intro found t _ hfound
  cases found with
  | true => exact .pure hfound
  | false => exact complain_delivers c

theorem takeText_delivers : Delivers all blame takeText s fun text t => t = s.skip ∧
    (next s.tokens = .name → ∃ token rest, s.tokens = token :: rest ∧ token.kind = .name ∧
      token.text = text) := by
  intro hs
  obtain ⟨tokens, fresh⟩ := s
  cases tokens with
  | nil => exact ⟨hs, Nat.le_refl _, rfl, nofun⟩
  | cons token rest =>
      refine ⟨(List.suffix_cons _ _).trans hs, Nat.le_refl _, rfl, fun hkind => ?_⟩
      exact ⟨token, rest, rfl, hkind, rfl⟩

/-- The second reader starts on the same tokens, with whatever numbers the first one has left. -/
theorem orElse_delivers {first second : Reader α} (hfirst : Delivers all blame first s ok)
    (hsecond : ∀ fresh, s.fresh ≤ fresh → Delivers all blame second { s with fresh } ok) :
    Delivers all blame (orElse first second) s ok := by
  intro hs
  have hrun := hfirst hs
  rw [orElse_run]
  cases hone : first s with
  | ok x t =>
      rw [hone] at hrun
      exact hrun
  | error e t =>
      rw [hone] at hrun
      cases e with
      | malformed cause => exact hrun
      | complaint span c =>
          have htry := (hsecond t.fresh hrun hs).after hrun
          dsimp only
          cases htwo : second { t with tokens := s.tokens } with
          | ok x u =>
              rw [htwo] at htry
              exact htry
          | error e u =>
              rw [htwo] at htry
              cases e with
              | malformed cause => exact htry
              | complaint span' c' =>
                  dsimp only
                  split_ifs
                  · exact htry
                  · exact htry

end Rules

section Terms
variable {all : List Token} {blame : Malformed → Prop} {s t : State} {ctx : Context}
  {tokens middle rest : List Token} {occurs occurs' : Variable → Prop} {part : Reader Term}

/-- The name stands by itself among the tokens, somewhere before the rest of them. -/
def MentionedIn (name : String) (tokens rest : List Token) : Prop :=
  ∃ t after, t :: after <:+ tokens ∧ rest <:+ after ∧ t.kind = .name ∧
    String.ofList t.text = name ∧ next after ≠ .opening

/-- There is no dot among the tokens before the rest of them, and the variables that occur there are
what the names that are mentioned refer to. -/
structure Context.Names (ctx : Context) (tokens rest : List Token) (occurs : Variable → Prop) :
    Prop where
  undotted : ∃ used, tokens = used ++ rest ∧ ∀ t ∈ used, t.kind ≠ .dot
  resolved : ∀ v, occurs v → ctx.resolve v.name = some v ∧ MentionedIn v.name tokens rest

theorem MentionedIn.mono {name : String} {tokens' rest' : List Token}
    (h : MentionedIn name tokens rest) (htokens : tokens <:+ tokens') (hrest : rest' <:+ rest) :
    MentionedIn name tokens' rest' := by
  obtain ⟨t, after, hbefore, hafter, hname⟩ := h
  exact ⟨t, after, hbefore.trans htokens, hrest.trans hafter, hname⟩

theorem Context.Names.suffix (h : ctx.Names tokens rest occurs) : rest <:+ tokens :=
  h.undotted.elim fun used hused => ⟨used, hused.1.symm⟩

theorem Context.Names.refl (h : ∀ v, ¬occurs v) : ctx.Names tokens tokens occurs :=
  ⟨⟨[], rfl, nofun⟩, fun v hv => absurd hv (h v)⟩

/-- A single token that is not a dot. -/
theorem Context.Names.skip (hdot : next s.tokens ≠ .dot) :
    ctx.Names s.tokens s.skip.tokens fun _ => False := by
  refine ⟨?_, fun _ => False.elim⟩
  obtain ⟨tokens, fresh⟩ := s
  cases tokens with
  | nil => exact ⟨[], rfl, nofun⟩
  | cons t tokens => exact ⟨[t], rfl, List.forall_mem_singleton.mpr hdot⟩

theorem Context.Names.trans (h : ctx.Names tokens middle occurs)
    (h' : ctx.Names middle rest occurs') : ctx.Names tokens rest fun v => occurs v ∨ occurs' v := by
  constructor
  · obtain ⟨used, rfl, hused⟩ := h.undotted
    obtain ⟨used', rfl, hused'⟩ := h'.undotted
    exact ⟨used ++ used', (List.append_assoc _ _ _).symm,
      List.forall_mem_append.mpr ⟨hused, hused'⟩⟩
  · rintro v (hv | hv)
    · exact (h.resolved v hv).imp_right fun hname => hname.mono (List.suffix_refl _) h'.suffix
    · exact (h'.resolved v hv).imp_right fun hname => hname.mono h.suffix (List.suffix_refl _)

theorem Context.Names.imp (h : ctx.Names tokens rest occurs) (hoccurs : ∀ v, occurs' v → occurs v) :
    ctx.Names tokens rest occurs' :=
  ⟨h.undotted, fun v hv => h.resolved v (hoccurs v hv)⟩

/-- What has been read between two states is a term with these names. -/
def Context.NamesTerm (ctx : Context) (s : State) (x : Term) (t : State) : Prop :=
  ctx.Names s.tokens t.tokens fun v => (Term.var v).occursIn x = true

def Context.NamesTerms (ctx : Context) (s : State) (xs : List Term) (t : State) : Prop :=
  ctx.Names s.tokens t.tokens fun v => (Term.var v).occursInAny xs = true

theorem Context.NamesTerms.nil : ctx.NamesTerms s [] s :=
  .refl fun _ => Bool.false_ne_true

theorem Context.NamesTerm.cons {u : State} {x : Term} {xs : List Term} (hx : ctx.NamesTerm s x t)
    (hxs : ctx.NamesTerms t xs u) : ctx.NamesTerms s (x :: xs) u :=
  (hx.trans hxs).imp fun v hv => by rwa [Term.occursInAny, Bool.or_eq_true] at hv

theorem Context.NamesTerms.app {head : String} {xs : List Term} (h : ctx.NamesTerms s xs t) :
    ctx.NamesTerm s (.app head xs) t :=
  h.imp fun v hv => by simpa [Term.occursIn] using hv

/-- After a token that is not a dot. -/
theorem Context.NamesTerms.skip {xs : List Term} (hdot : next s.tokens ≠ .dot)
    (h : ctx.NamesTerms s.skip xs t) : ctx.NamesTerms s xs t :=
  ((Context.Names.skip hdot).trans h).imp fun _ => .inr

theorem Context.NamesTerm.skip {x : Term} (hdot : next s.tokens ≠ .dot)
    (h : ctx.NamesTerm s.skip x t) : ctx.NamesTerm s x t :=
  ((Context.Names.skip hdot).trans h).imp fun _ => .inr

theorem Context.NamesTerm.closed {x : Term} (hdot : next t.tokens ≠ .dot)
    (h : ctx.NamesTerm s x t) : ctx.NamesTerm s x t.skip :=
  (h.trans (Context.Names.skip hdot)).imp fun _ => .inl

/-- A name refers to a variable of that name, if to any. -/
theorem Context.name_of_resolve {name : String} {v : Variable} (h : ctx.resolve name = some v) :
    v.name = name := by
  rcases Option.or_eq_some_iff.mp h with hbound | ⟨-, hdeclared⟩
  · exact name_of_find? hbound
  · exact name_of_find? hdeclared

theorem Context.NamesTerm.var {token : Token} {after : List Token} {v : Variable}
    (htokens : s.tokens = token :: after) (hkind : token.kind = .name)
    (hopening : next after ≠ .opening) (h : ctx.resolve (String.ofList token.text) = some v) :
    ctx.NamesTerm s (.var v) s.skip := by
  have hafter : s.skip.tokens = after := by rw [State.skip_tokens, htokens, List.tail_cons]
  have hname := ctx.name_of_resolve h
  refine ⟨⟨[token], ?_, ?_⟩, fun w hw => ?_⟩
  · rw [hafter, htokens, List.singleton_append]
  · exact List.forall_mem_singleton.mpr (by rw [hkind]; nofun)
  · obtain rfl : v = w := by simpa [Term.occursIn] using hw
    exact ⟨hname.symm ▸ h, token, after, htokens ▸ List.suffix_refl _,
      hafter ▸ List.suffix_refl _, hkind, hname.symm, hopening⟩

theorem operands_delivers (op : Operator)
    (h : ∀ s, Delivers all blame part s (ctx.NamesTerm s)) (n : Nat) :
    Delivers all blame (operands ctx part op n) s (ctx.NamesTerms s) := by
  induction n generalizing s with
  | zero => exact .pure .nil
  | succ n ih =>
      apply Delivers.peek_bind
      split
      next op' hkind =>
        split_ifs
        · exact .complain_bind
        · refine advance_delivers.bind ?_
          rintro _ _ - rfl
          refine (h _).bind fun x t _ hx => ih.bind fun xs u _ hxs => .pure ?_
          exact (hx.cons hxs).skip (by rw [hkind]; nofun)
      next => exact .pure .nil

theorem termOver_delivers (h : ∀ s, Delivers all blame part s (ctx.NamesTerm s)) :
    Delivers all blame (termOver ctx part) s (ctx.NamesTerm s) := by
  refine (h s).bind fun first t _ hfirst => .peek_bind ?_
  split
  next op _ =>
    refine .after rfl ((operands_delivers op h _).bind fun xs u _ hxs => .pure ?_)
    exact (hfirst.cons hxs).app
  next => exact .pure hfirst

theorem arguments_delivers {argument : Reader Term}
    (h : ∀ s, Delivers all blame argument s (ctx.NamesTerm s)) (n : Nat) (first : Bool) :
    Delivers all blame (arguments ctx argument n first) s fun xs t =>
      ctx.NamesTerms s xs t := by
  induction n generalizing s first with
  | zero => exact complain_delivers _
  | succ n ih =>
      have hrest : ∀ u, Delivers all blame (do
          let x ← argument
          return x :: (← arguments ctx argument n false)) u (ctx.NamesTerms u) :=
        fun u => (h u).bind fun x v _ hx => (ih false).bind fun xs w _ hxs => .pure (hx.cons hxs)
      refine (accept_delivers _).bind fun found t _ hfound => ?_
      cases found with
      | true =>
          obtain ⟨hkind, rfl⟩ := hfound
          exact .pure (Context.NamesTerms.nil.skip (by rw [hkind]; nofun))
      | false =>
          obtain ⟨-, rfl⟩ := hfound
          rw [if_neg Bool.false_ne_true]
          split_ifs
          · exact hrest _
          · refine (expect_delivers _ _).bind fun _ u _ hu => ?_
            obtain ⟨hkind, rfl⟩ := hu
            exact (hrest _).imp fun xs u hxs => hxs.skip (by rw [hkind]; nofun)

theorem operand_delivers (depth : Nat) :
    Delivers all blame (operand ctx depth) s (ctx.NamesTerm s) := by
  induction depth generalizing s with
  | zero => exact complain_delivers _
  | succ depth ih =>
      apply Delivers.peek_bind
      split
      next hopening =>
        refine advance_delivers.bind ?_
        rintro _ _ - rfl
        refine (termOver_delivers fun _ => ih).bind fun x t _ hx => ?_
        refine (expect_delivers _ _).bind fun _ u _ hu => .pure ?_
        obtain ⟨hclosing, rfl⟩ := hu
        exact (hx.closed (by rw [hclosing]; nofun)).skip (by rw [hopening]; nofun)
      next hkind =>
        refine takeText_delivers.bind fun text t _ ht => ?_
        obtain ⟨rfl, hname⟩ := ht
        obtain ⟨token, after, htokens, htoken, rfl⟩ := hname hkind
        refine (accept_delivers _).bind fun found u _ hfound => ?_
        cases found with
        | true =>
            obtain ⟨hopening, rfl⟩ := hfound
            refine .after rfl ?_
            refine (arguments_delivers (fun _ => termOver_delivers fun _ => ih) _ _).bind ?_
            intro xs v _ hxs
            refine .pure (Context.NamesTerms.app ?_)
            exact (hxs.skip (by rw [hopening]; nofun)).skip (by rw [hkind]; nofun)
        | false =>
            obtain ⟨hopening, rfl⟩ := hfound
            rw [if_neg Bool.false_ne_true]
            split
            next v hv =>
              refine .pure (.var htokens htoken ?_ hv)
              rwa [State.skip_tokens, htokens, List.tail_cons] at hopening
            next =>
              refine .pure (.skip (by rw [hkind]; nofun) (.refl fun v => ?_))
              simp [Term.occursIn]
      next hkind =>
        refine takeText_delivers.bind fun text t _ ht => .pure ?_
        obtain ⟨rfl, -⟩ := ht
        refine .skip (by rw [hkind]; nofun) (.refl fun v => ?_)
        simp [Term.occursIn]
      next => exact complain_delivers _

theorem term_delivers (depth : Nat) : Delivers all blame (term ctx depth) s (ctx.NamesTerm s) :=
  termOver_delivers fun _ => operand_delivers depth

end Terms

/-- What is read in a context while new variables get the numbers from `f` up to `g`. Free variables
are what their names refer to. The bound ones are provided and have names that were not bound
before, and none of the new ones is bound twice. -/
structure Context.Binds (ctx : Context) (f g : Nat) (free : Variable → Prop)
    (bound : List Variable) : Prop where
  le : f ≤ g
  resolved : ∀ v, free v → ctx.resolve v.name = some v
  unbound : ∀ v ∈ bound, Environment.find? ctx.bound v.name = none
  provided : ∀ v ∈ bound, ctx.environment.Provides f g v
  apart : bound.Pairwise fun v w => v = w → ctx.environment.find? v.name = some v

structure Context.Scopes (ctx : Context) (f g : Nat) (p : Proposition) : Prop where
  binds : ctx.Binds f g (fun v => p.contains (.var v) = true) p.boundVariables
  nested : p.nestsApart = true

structure Context.ScopesAll (ctx : Context) (f g : Nat) (ps : List Proposition) : Prop where
  binds : ctx.Binds f g (fun v => Proposition.containsAny (.var v) ps = true)
    (Proposition.boundVariablesList ps)
  nested : Proposition.nestApart ps = true

section Scopes
variable {ctx : Context} {f g h : Nat} {free free' : Variable → Prop} {bound bound' : List Variable}
  {a b p : Proposition} {ps : List Proposition} {v : Variable}

theorem Context.Binds.nil (hle : f ≤ g) (hfree : ∀ v, free v → ctx.resolve v.name = some v) :
    ctx.Binds f g free [] :=
  ⟨hle, hfree, nofun, nofun, .nil⟩

theorem Context.Binds.mono (hbinds : ctx.Binds f g free bound) {f' : Nat} (hf : f' ≤ f) :
    ctx.Binds f' g free bound where
  le := Nat.le_trans hf hbinds.le
  resolved := hbinds.resolved
  unbound := hbinds.unbound
  provided v hv := (hbinds.provided v hv).mono hf (Nat.le_refl g)
  apart := hbinds.apart

/-- New variables of two parts have different numbers. -/
theorem Context.Binds.append (ha : ctx.Binds f g free bound) (hb : ctx.Binds g h free' bound') :
    ctx.Binds f h (fun v => free v ∨ free' v) (bound ++ bound') where
  le := Nat.le_trans ha.le hb.le
  resolved v hv := hv.elim (ha.resolved v) (hb.resolved v)
  unbound := List.forall_mem_append.mpr ⟨ha.unbound, hb.unbound⟩
  provided := List.forall_mem_append.mpr
    ⟨fun v hv => (ha.provided v hv).mono (Nat.le_refl f) hb.le,
      fun v hv => (hb.provided v hv).mono ha.le (Nat.le_refl h)⟩
  apart := by
    refine List.pairwise_append.mpr ⟨ha.apart, hb.apart, ?_⟩
    rintro v hv w hw rfl
    rcases ha.provided v hv with hdeclared | ⟨-, -, hbefore⟩
    · exact hdeclared
    · rcases hb.provided v hw with hdeclared | ⟨-, hafter, -⟩
      · exact hdeclared
      · omega

theorem Context.Binds.imp (hbinds : ctx.Binds f g free bound) (hfree : ∀ v, free' v → free v) :
    ctx.Binds f g free' bound :=
  { hbinds with resolved := fun v hv => hbinds.resolved v (hfree v hv) }

theorem Context.Scopes.mono (hp : ctx.Scopes f g p) {f' : Nat} (hf : f' ≤ f) :
    ctx.Scopes f' g p :=
  ⟨hp.binds.mono hf, hp.nested⟩

theorem Context.Scopes.relation {name : String} {args : List Term} (hle : f ≤ g)
    (hargs : ∀ v, (Term.var v).occursInAny args = true → ctx.resolve v.name = some v) :
    ctx.Scopes f g (.relation name args) where
  binds := .nil hle fun v hv => hargs v (by rwa [Term.occursInAny_eq_any])
  nested := rfl

theorem Context.Scopes.not (hp : ctx.Scopes f g p) : ctx.Scopes f g (.not p) :=
  ⟨hp.binds, hp.nested⟩

theorem Context.Scopes.implies (ha : ctx.Scopes f g a) (hb : ctx.Scopes g h b) :
    ctx.Scopes f h (.implies a b) where
  binds := (ha.binds.append hb.binds).imp fun v hv => by
    rwa [Proposition.contains, Bool.or_eq_true] at hv
  nested := by rw [Proposition.nestsApart, ha.nested, hb.nested]; rfl

/-- A biconditional has the parts of an implication. -/
theorem Context.Scopes.iff (ha : ctx.Scopes f g a) (hb : ctx.Scopes g h b) :
    ctx.Scopes f h (.iff a b) :=
  have hparts := ha.implies hb
  ⟨hparts.binds, hparts.nested⟩

theorem Context.ScopesAll.nil : ctx.ScopesAll f f [] :=
  ⟨.nil (Nat.le_refl f) fun _ => nofun, rfl⟩

theorem Context.Scopes.cons (hp : ctx.Scopes f g p) (hps : ctx.ScopesAll g h ps) :
    ctx.ScopesAll f h (p :: ps) where
  binds := (hp.binds.append hps.binds).imp fun v hv => by
    rwa [Proposition.containsAny, Bool.or_eq_true] at hv
  nested := by rw [Proposition.nestApart, hp.nested, hps.nested]; rfl

theorem Context.ScopesAll.junction (c : Connective) (hps : ctx.ScopesAll f g ps) :
    ctx.Scopes f g (.junction c ps) :=
  ⟨hps.binds, hps.nested⟩

/-- Names mean the same inside of a quantifier, except for the one of its variable. -/
theorem find?_cons_of_ne {vs : List Variable} {name : String} (hne : v.name ≠ name) :
    Environment.find? (v :: vs) name = Environment.find? vs name :=
  List.find?_cons_of_neg (by simpa using hne)

theorem find?_cons_eq_none {vs : List Variable} {name : String} :
    Environment.find? (v :: vs) name = none ↔
      v.name ≠ name ∧ Environment.find? vs name = none := by
  rw [find?_eq_none, find?_eq_none, List.map_cons, List.mem_cons, not_or, ne_comm, ne_eq]

theorem Context.Scopes.quantified {q : Quantifier} {domain : Option Term} {g' k : Nat}
    (hunbound : Environment.find? ctx.bound v.name = none)
    (hv : ctx.environment.Provides f g' v) (hf : f ≤ g') (hg : g' ≤ g)
    (hdomain : ∀ set ∈ domain, ∀ w, (Term.var w).occursIn set = true →
      ctx.resolve w.name = some w)
    (hbody : Context.Scopes { ctx with bound := v :: ctx.bound } g k b) :
    ctx.Scopes f k (.quantified q v domain b) := by
  have hinner : ∀ w ∈ b.boundVariables,
      v.name ≠ w.name ∧ Environment.find? ctx.bound w.name = none :=
    fun w hw => find?_cons_eq_none.mp (hbody.binds.unbound w hw)
  refine ⟨⟨?_, ?_, ?_, ?_, ?_⟩, ?_⟩
  · exact Nat.le_trans (Nat.le_trans hf hg) hbody.binds.le
  · intro w hw
    rw [Proposition.contains, Bool.or_eq_true, Bool.and_eq_true, Bool.not_eq_true'] at hw
    rcases hw with hset | ⟨hother, hfree⟩
    · cases domain with
      | none => cases hset
      | some set => exact hdomain set rfl w hset
    · have hresolve := hbody.binds.resolved w hfree
      have hne : v.name ≠ w.name := by
        intro hname
        rw [Context.resolve] at hresolve
        dsimp only at hresolve
        rw [Environment.find?, List.find?_cons_of_pos (by simpa using hname), Option.some_or,
          Option.some.injEq] at hresolve
        rw [hresolve] at hother
        simp [Term.occursIn] at hother
      rw [Context.resolve, ← find?_cons_of_ne hne]
      exact hresolve
  · exact List.forall_mem_cons.mpr ⟨hunbound, fun w hw => (hinner w hw).2⟩
  · refine List.forall_mem_cons.mpr ⟨hv.mono (Nat.le_refl f) (Nat.le_trans hg hbody.binds.le), ?_⟩
    exact fun w hw => (hbody.binds.provided w hw).mono (Nat.le_trans hf hg) (Nat.le_refl k)
  · refine List.pairwise_cons.mpr ⟨fun w hw hsame => ?_, hbody.binds.apart⟩
    exact absurd (congrArg Variable.name hsame) (hinner w hw).1
  · rw [Proposition.nestsApart, hbody.nested, Bool.and_true, List.all_eq_true]
    exact fun w hw => decide_eq_true (hinner w hw).1.symm

end Scopes

section Domains
variable {env : Environment} {name : String} {all tokens rest : List Token}

theorem mentions_of_suffix {tokens' : List Token} (h : mentions name tokens = true)
    (hsuffix : tokens <:+ tokens') : mentions name tokens' = true := by
  obtain ⟨before, rfl⟩ := hsuffix
  induction before with
  | nil => exact h
  | cons t before ih =>
      rw [List.cons_append, mentions, ih, Bool.or_true]

/-- A name that is mentioned before the rest of the tokens is mentioned without them. -/
theorem mentions_of_mentionedIn {used : List Token} (h : MentionedIn name (used ++ rest) rest) :
    mentions name used = true := by
  obtain ⟨t, after, hbefore, ⟨between, rfl⟩, hkind, hname, hopening⟩ := h
  have hused : t :: between <:+ used := by
    rw [← List.cons_append] at hbefore
    exact (List.suffix_append_inj_of_length_eq rfl).mp hbefore |>.1
  refine mentions_of_suffix ?_ hused
  have hnext : next between ≠ .opening := by
    cases between with
    | nil => nofun
    | cons u between => exact hopening
  rw [mentions, decide_eq_true ⟨hkind, hname, hnext⟩, Bool.true_or]

theorem takeWhile_undotted {used : List Token} (hused : ∀ t ∈ used, t.kind ≠ .dot)
    (hrest : next rest = .dot) : (used ++ rest).takeWhile (·.kind ≠ .dot) = used := by
  rw [List.takeWhile_append_of_pos fun t ht => decide_eq_true (hused t ht)]
  cases rest with
  | nil => cases hrest
  | cons d rest =>
      have hdot : d.kind = .dot := hrest
      rw [List.takeWhile_cons_of_neg (by simpa using hdot), List.append_nil]

/-- The domain between a quantifier and the next dot mentions the declared variable. -/
theorem namesOwnDomain_of_domain {q : Quantifier} {s : State} {token : Token} {after : List Token}
    {ctx : Context} {occurs : Variable → Prop} {v : Variable} (hs : s.tokens <:+ all)
    (hq : next s.tokens = .quantifier q) (hskip : s.skip.tokens = token :: after)
    (hname : token.kind = .name) (htext : String.ofList token.text = v.name)
    (helement : next after = .relation .element) (hnames : ctx.Names after.tail rest occurs)
    (hv : occurs v) (hdot : next rest = .dot) (hdeclared : env.find? v.name = some v) :
    namesOwnDomain env all = true := by
  obtain ⟨used, hused, hundotted⟩ := hnames.undotted
  refine List.any_eq_true.mpr ⟨s.tokens, (List.mem_tails _ _).mpr hs, ?_⟩
  obtain ⟨tokens, fresh⟩ := s
  cases tokens with
  | nil => cases hq
  | cons first tokens =>
      cases after with
      | nil => cases helement
      | cons e inner =>
          obtain rfl : tokens = token :: e :: inner := hskip
          have hfirst : first.kind = .quantifier q := hq
          have he : e.kind = .relation .element := helement
          obtain rfl : inner = used ++ rest := hused
          dsimp only [quantifiesOverOwn]
          rw [hfirst, hname, he]
          dsimp only
          rw [takeWhile_undotted hundotted hdot, htext, hdeclared, Option.isSome_some,
            Bool.true_and]
          exact mentions_of_mentionedIn (hnames.resolved v hv).2

end Domains

section Propositions
variable {all : List Token} {s : State} {ctx : Context} {p : Proposition} {part : Reader Proposition}

/-- The causes for which something read in a context may be malformed. -/
abbrev Context.Blames (ctx : Context) (all : List Token) : Malformed → Prop :=
  BlamesDomain ctx.environment all

theorem members_delivers (c : Connective)
    (h : ∀ s, Delivers all (ctx.Blames all) part s fun p t => ctx.Scopes s.fresh t.fresh p)
    (n : Nat) : Delivers all (ctx.Blames all) (members ctx part c n) s fun ps t =>
      ctx.ScopesAll s.fresh t.fresh ps := by
  induction n generalizing s with
  | zero => exact .pure .nil
  | succ n ih =>
      apply Delivers.peek_bind
      split
      next =>
        split_ifs
        · exact .complain_bind
        · refine advance_delivers.bind ?_
          rintro _ _ - rfl
          exact (h _).bind fun p t _ hp => ih.bind fun ps u _ hps => .pure (hp.cons hps)
      next => exact .pure .nil

theorem junction_delivers
    (h : ∀ s, Delivers all (ctx.Blames all) part s fun p t => ctx.Scopes s.fresh t.fresh p) :
    Delivers all (ctx.Blames all) (junction ctx part) s fun p t =>
      ctx.Scopes s.fresh t.fresh p := by
  refine (h s).bind fun first t _ hfirst => .peek_bind ?_
  split
  next c _ =>
    refine .after rfl ((members_delivers c h _).bind fun ps u _ hps => .pure ?_)
    exact (hfirst.cons hps).junction c
  next => exact .pure hfirst

theorem implication_delivers
    (h : ∀ s, Delivers all (ctx.Blames all) part s fun p t => ctx.Scopes s.fresh t.fresh p)
    (n : Nat) : Delivers all (ctx.Blames all) (implication ctx part n) s fun p t =>
      ctx.Scopes s.fresh t.fresh p := by
  induction n generalizing s with
  | zero => exact junction_delivers h
  | succ n ih =>
      refine (junction_delivers h).bind fun a t _ ha => (accept_delivers _).bind ?_
      intro found u _ hfound
      cases found with
      | true =>
          obtain ⟨-, rfl⟩ := hfound
          exact ih.bind fun b w _ hb => .pure (ha.implies hb)
      | false =>
          obtain ⟨-, rfl⟩ := hfound
          exact .pure ha

theorem formulaOver_delivers
    (h : ∀ s, Delivers all (ctx.Blames all) part s fun p t => ctx.Scopes s.fresh t.fresh p) :
    Delivers all (ctx.Blames all) (formulaOver ctx part) s fun p t =>
      ctx.Scopes s.fresh t.fresh p := by
  refine .after rfl ((implication_delivers h _).bind fun a t _ ha => (accept_delivers _).bind ?_)
  intro found u _ hfound
  cases found with
  | true =>
      obtain ⟨-, rfl⟩ := hfound
      refine .after rfl ((implication_delivers h _).bind fun b w _ hb => .peek_bind ?_)
      split_ifs
      · exact .complain_bind
      · exact .pure (ha.iff hb)
  | false =>
      obtain ⟨-, rfl⟩ := hfound
      exact .pure ha

theorem atom_delivers (depth : Nat) : Delivers all (ctx.Blames all) (atom ctx depth) s fun p t =>
    ctx.Scopes s.fresh t.fresh p := by
  refine .position_bind fun span => (term_delivers depth).bind fun lhs t ht hlhs => .peek_bind ?_
  split
  next r _ =>
    refine advance_delivers.bind ?_
    rintro _ _ - rfl
    refine (term_delivers depth).bind fun rhs u hu hrhs => .pure (.relation ?_ fun v hv => ?_)
    · exact Nat.le_trans ht hu
    · rw [Term.occursInAny, Term.occursInAny, Term.occursInAny, Bool.or_false, Bool.or_eq_true]
        at hv
      exact hv.elim (fun hv => (hlhs.resolved v hv).1) fun hv => (hrhs.resolved v hv).1
  next => exact .pure (.relation ht fun _ hv => absurd hv Bool.false_ne_true)
  next head args _ =>
    split_ifs
    · exact .complainAt_bind
    · refine .pure (.relation ht fun v hv => (hlhs.resolved v ?_).1)
      simpa [Term.occursIn] using hv
  next => exact complainAt_delivers _ _

theorem closeFormula_delivers {f : Nat} (hp : ctx.Scopes f s.fresh p) :
    Delivers all (ctx.Blames all) (closeFormula ctx p) s fun q t => ctx.Scopes f t.fresh q := by
  refine (expect_delivers _ _).bind fun _ t _ ht => .peek_bind ?_
  obtain ⟨-, rfl⟩ := ht
  split
  next => exact complain_delivers _
  next => exact complain_delivers _
  next => exact .pure hp

/-- The variable of a quantifier has a name that is not bound around it. -/
theorem quantifiedVariable_delivers :
    Delivers all (ctx.Blames all) (quantifiedVariable ctx) s fun v t =>
      Environment.find? ctx.bound v.name = none ∧ ctx.environment.Provides s.fresh t.fresh v ∧
        ∃ token rest, s.tokens = token :: rest ∧ t.tokens = rest ∧ token.kind = .name ∧
          String.ofList token.text = v.name := by
  refine .position_bind fun span => .peek_bind ?_
  split_ifs with hkind
  · exact .complainAt_bind
  · refine takeText_delivers.bind fun text t _ ht => ?_
    obtain ⟨rfl, hname⟩ := ht
    obtain ⟨token, rest, htokens, htoken, rfl⟩ := hname (not_not.mp hkind)
    have hrest : s.skip.tokens = rest := by rw [State.skip_tokens, htokens, List.tail_cons]
    dsimp only
    split_ifs with hbound
    · exact .complainAt_bind
    · rw [Bool.not_eq_true, Option.isSome_eq_false_iff, Option.isNone_iff_eq_none] at hbound
      split
      next v hv =>
        have hsame := name_of_find? hv
        rw [← hsame] at hbound hv
        exact .pure ⟨hbound, .inl hv, token, rest, htokens, hrest, htoken, hsame.symm⟩
      next hnone =>
        intro hs
        refine ⟨hs, Nat.le_succ _, hbound, .inr ⟨hnone, Nat.le_refl _, Nat.lt_succ_self _⟩, ?_⟩
        exact ⟨token, rest, htokens, hrest, htoken, rfl⟩

/-- The domain of a quantifier is read where its variable is not bound yet. -/
theorem domain_bind_delivers {depth : Nat} {k : Option Term → Reader Proposition}
    {ok : Proposition → State → Prop}
    (h : ∀ domain t, s.fresh ≤ t.fresh →
      (∀ set ∈ domain, next s.tokens = .relation .element ∧ ctx.NamesTerm s.skip set t) →
      Delivers all (ctx.Blames all) (k domain) t ok) :
    Delivers all (ctx.Blames all) (do
      let domain ← if ← accept (.relation .element) then some <$> term ctx depth else pure none
      k domain) s ok := by
  refine (accept_delivers _).bind fun found t ht hfound => ?_
  cases found with
  | true =>
      obtain ⟨helement, rfl⟩ := hfound
      rw [if_pos rfl, map_eq_pure_bind, bind_assoc]
      refine (term_delivers depth).bind fun set u hu hset => ?_
      rw [pure_bind]
      exact h (some set) u (Nat.le_trans ht hu) fun _ hsome => by
        cases hsome
        exact ⟨helement, hset⟩
  | false =>
      obtain ⟨-, rfl⟩ := hfound
      exact h none _ ht nofun

theorem member_delivers (depth : Nat) :
    Delivers all (ctx.Blames all) (member depth ctx) s fun p t =>
      ctx.Scopes s.fresh t.fresh p := by
  induction depth generalizing s ctx with
  | zero => exact complain_delivers _
  | succ depth ih =>
      unfold member
      apply Delivers.peek_bind
      split
      next =>
        refine advance_delivers.bind ?_
        rintro _ _ - rfl
        exact ih.bind fun p t _ hp => .pure hp.not
      next q hq =>
        refine .assuming fun hs => advance_delivers.bind ?_
        rintro _ _ - rfl
        refine quantifiedVariable_delivers.bind fun v t ht hv => ?_
        obtain ⟨hunbound, hprovided, token, rest, htokens, hrest, hname, htext⟩ := hv
        apply domain_bind_delivers
        intro domain u hu hdomain
        refine (expect_delivers _ _).bind fun _ w _ hw => ?_
        obtain ⟨hdot, rfl⟩ := hw
        refine (formulaOver_delivers fun _ => ih).bind fun body x _ hbody => ?_
        split
        next p hp =>
          obtain ⟨rfl, -⟩ := quantified?_eq_ok hp
          refine .pure (.quantified hunbound hprovided ht hu (fun set hset w hw => ?_) hbody)
          exact ((hdomain set hset).2.resolved w hw).1
        next cause hcause =>
          intro _
          have hbinds : body.binds v = false := by
            rw [Bool.eq_false_iff]
            intro hbinds
            rw [← Proposition.mem_boundVariables] at hbinds
            exact (find?_cons_eq_none.mp (hbody.binds.unbound v hbinds)).1 rfl
          obtain ⟨set, rfl, rfl, hoccurs⟩ := Proposition.quantified?_eq_error hbinds hcause
          obtain ⟨helement, hset⟩ := hdomain set rfl
          have hresolve := (hset.resolved v hoccurs).1
          rw [Context.resolve, hunbound, Option.none_or] at hresolve
          subst hrest
          exact ⟨_, set, v, rfl, hresolve, hoccurs, namesOwnDomain_of_domain hs hq htokens hname
            htext helement hset hoccurs hdot hresolve⟩
      next =>
        apply orElse_delivers
        · refine advance_delivers.bind ?_
          rintro _ _ - rfl
          exact (formulaOver_delivers fun _ => ih).bind fun p t _ hp => closeFormula_delivers hp
        · exact fun fresh hfresh => (atom_delivers _).imp fun p t hp => hp.mono hfresh
      next => exact atom_delivers _

end Propositions

/-- What a text is read as: something with the property, or nothing, and nothing malformed for other
causes than the given ones. -/
def ReadAs {α : Type} (text : List Char) (blame : List Token → Malformed → Prop)
    (ok : α → Nat → Prop) : Except Unreadable α × Nat → Prop
  | (.ok x, fresh) => ok x fresh
  | (.error (.complaint _ _), _) => True
  | (.error (.malformed cause), _) =>
    ∃ tokens, Token.ofText text = .ok tokens ∧ blame tokens cause

theorem readAll_delivers {α : Type} {grammar : Context → Nat → Reader α} {source : Source}
    {env : Environment} {fresh : Nat} {blame : List Token → Malformed → Prop}
    {ok : α → Nat → Prop}
    (hgrammar : ∀ tokens depth, Delivers tokens (blame tokens)
      (grammar ⟨source.text.length, env, []⟩ depth) ⟨tokens, fresh⟩ fun x t => ok x t.fresh) :
    ReadAs source.text blame ok (readAll grammar source env fresh) := by
  unfold readAll
  cases htokens : Token.ofText source.text with
  | error span => exact trivial
  | ok tokens =>
      dsimp only
      have hwhole : Delivers tokens (blame tokens) (whole ⟨source.text.length, env, []⟩
          (grammar ⟨source.text.length, env, []⟩ (tokens.length + 1))) ⟨tokens, fresh⟩
          fun x t => ok x t.fresh := by
        refine (hgrammar _ _).bind fun x t _ hx => .peek_bind ?_
        split_ifs
        · exact .pure hx
        · exact .complain_bind
      have hrun := hwhole (List.suffix_refl tokens)
      unfold EStateM.run
      cases hresult : whole _ _ _ with
      | ok x t =>
          rw [hresult] at hrun
          exact hrun.2.2
      | error e t =>
          rw [hresult] at hrun
          cases e with
          | complaint span c => exact trivial
          | malformed cause => exact ⟨tokens, htokens, hrun⟩

theorem proposition_readAs (source : Source) (env : Environment) (fresh : Nat) :
    ReadAs source.text (BlamesDomain env)
      (fun p fresh' => Context.Scopes ⟨source.text.length, env, []⟩ fresh fresh' p)
      (source.proposition env fresh) :=
  readAll_delivers fun _ depth => formulaOver_delivers fun _ => member_delivers depth

/-- Terms are never malformed. -/
theorem term_readAs (source : Source) (env : Environment) (fresh : Nat) :
    ReadAs source.text (fun _ _ => False) (fun _ _ => True) (source.term env fresh) :=
  readAll_delivers fun _ depth => (term_delivers depth).imp fun _ _ _ => trivial

end Reader

section Texts
open Reader

/-- Names refer to variables as their place in the text says. The free variables of what is read are
declared ones. Quantifiers bind the declared variable of the name, or a new variable if there is
none, and each of these is bound by one quantifier only. Within a quantifier its name is not bound
again. -/
theorem proposition_lexical (source : Source) (env : Environment) (fresh fresh' : Nat)
    (p : Proposition) (hread : source.proposition env fresh = (.ok p, fresh')) :
    (∀ v ∈ p.freeVariables, env.find? v.name = some v) ∧
      (env = [] → p.freeVariables = []) ∧
      (∀ v ∈ p.boundVariables, env.Provides fresh fresh' v) ∧
      (p.boundVariables.Pairwise fun v w => v = w → env.find? v.name = some v) ∧
      p.nestsApart = true := by
  have hreads := proposition_readAs source env fresh
  rw [hread] at hreads
  obtain ⟨hbinds, hnested⟩ := hreads
  have hfree : ∀ v ∈ p.freeVariables, env.find? v.name = some v := fun v hv =>
    hbinds.resolved v (Proposition.mem_freeVariables.mp hv)
  refine ⟨hfree, ?_, hbinds.provided, hbinds.apart, hnested⟩
  rintro rfl
  exact List.eq_nil_iff_forall_not_mem.mpr fun v hv => Option.some_ne_none v (hfree v hv).symm

/-- The declared variable is bound twice, and the name `z` makes a new variable each time. Where the
new variable stands in brackets, they are tried as a proposition first. -/
theorem proposition_lexical_boundTwice :
    let env : Environment := [⟨1, "x"⟩, ⟨2, "y"⟩]
    let text := "(∀y. R(x, y)) ∧ (∃y∈f(x). ∃z. R(y, z)) ∧ ∃z. (z) = x"
    ∃ p fresh', Source.proposition (.ofString "" text) env 3 = (.ok p, fresh') ∧
      p.boundVariables = [⟨2, "y"⟩, ⟨2, "y"⟩, ⟨3, "z"⟩, ⟨4, "z"⟩] ∧
      (∀ v ∈ p.freeVariables, env.find? v.name = some v) ∧
      (p.boundVariables.Pairwise fun v w => v = w → env.find? v.name = some v) ∧
      p.nestsApart = true := by
  intro env text
  have hbound : (Source.proposition (.ofString "" text) env 3).1.toOption.map
      Proposition.boundVariables = some [⟨2, "y"⟩, ⟨2, "y"⟩, ⟨3, "z"⟩, ⟨4, "z"⟩] := by
    decide +kernel
  cases hread : Source.proposition (.ofString "" text) env 3 with
  | mk result fresh' =>
      rw [hread] at hbound
      cases result with
      | error e => cases hbound
      | ok p =>
          obtain ⟨hfree, -, -, hapart, hnested⟩ := proposition_lexical _ env 3 fresh' p hread
          exact ⟨p, fresh', rfl, Option.some.inj hbound, hfree, hapart, hnested⟩

end Texts

end Entailment

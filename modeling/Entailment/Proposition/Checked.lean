import Entailment.Proposition.Build
import Entailment.Proposition.Replace
import Entailment.Proposition.Unify

/-!
# Operations that check what they touch

A connective needs two members, a side needs a binary relation, and a part, an argument or a step of
a path needs a position that is there. The operations on propositions take all this for granted:
they are written so that the question never comes up. Here they are written a second time so that it
does. What is at a position is looked up by its number, and what is not there is a breakdown.
-/
namespace Entailment

/-- What stops an operation short of an answer. -/
inductive Breakdown where
  | malformed (cause : Malformed)
  | notBinary
  | outOfRange
deriving Repr

/-- Operations that may break down. -/
abbrev Checked := Except Breakdown

namespace Checked

section Lists
variable {α : Type}

/-- What is at a position of a list. -/
def item (xs : List α) (i : Nat) : Checked α :=
  match xs[i]? with
  | some x => pure x
  | none => throw .outOfRange

/-- A list without what is at a position. -/
def without (xs : List α) (i : Nat) : Checked (List α) := do
  let _ ← item xs i
  return xs.eraseIdx i

/-- The position of the first item that passes a test. -/
def position (test : α → Checked Bool) : List α → Checked (Option Nat)
  | [] => return none
  | x :: xs => do
    if ← test x then return some 0
    return (← position test xs).map (· + 1)

end Lists

section Parts

/-- A part of a proposition. -/
def part (p : Proposition) (i : Nat) : Checked Proposition := item p.children i

/-- The left side of a binary relation. -/
def lhs (p : Proposition) : Checked Term :=
  match p.sides? with
  | some (lhs, _) => pure lhs
  | none => throw .notBinary

/-- The right side of a binary relation. -/
def rhs (p : Proposition) : Checked Term :=
  match p.sides? with
  | some (_, rhs) => pure rhs
  | none => throw .notBinary

/-- The connective of the given members. -/
def junction (c : Connective) (members : List (Option Proposition)) : Checked Proposition :=
  (Proposition.junction? c members).mapError .malformed

def quantified (q : Quantifier) (v : Option Variable) (domain : Option Term) (body : Proposition) :
    Checked Proposition :=
  (Proposition.quantified? q v domain body).mapError .malformed

/-- A single proposition stands for itself, and others are joined. -/
def join (c : Connective) : List Proposition → Checked Proposition
  | [p] => return p
  | ps => junction c (ps.map some)

end Parts

section Equality

/-- Whether two propositions have the same form and as many parts. -/
def sameForm (p q : Proposition) : Bool :=
  p.kind == q.kind && p.children.length == q.children.length

/-- The domain of a quantifier. -/
def domainOf : Proposition → Option Term
  | .quantified _ _ domain _ _ => domain
  | _ => none

mutual

/-- Structural equality. The parts on the left are compared one after another with those in the
same places on the right. -/
def equal : Proposition → Proposition → Checked Bool
  | .relation n as _, .relation m bs _ => return n == m && as == bs
  | .not p m, q => do
    if sameForm (.not p m) q then equal p (← part q 0) else return false
  | .junction c ps m, q =>
    if sameForm (.junction c ps m) q then equalFrom q.children 0 ps else return false
  | .implies a b m, q => do
    if sameForm (.implies a b m) q then
      if ← equal a (← part q 0) then equal b (← part q 1) else return false
    else return false
  | .iff a b m, q => do
    if sameForm (.iff a b m) q then
      if ← equal a (← part q 0) then equal b (← part q 1) else return false
    else return false
  | .quantified k v domain p m, q => do
    if sameForm (.quantified k v domain p m) q then
      if domain == domainOf q then equal p (← part q 0) else return false
    else return false
  | p, q => return sameForm p q

def equalFrom (qs : List Proposition) : Nat → List Proposition → Checked Bool
  | _, [] => return true
  | i, p :: ps => do
    if ← equal p (← item qs i) then equalFrom qs (i + 1) ps else return false

end

end Equality

section Unification

mutual

/-- Unifies two terms, where arguments are matched by their positions. -/
def unifyTerm (allowed : Bindable) (binders : Binders) (σ : Substitution) :
    Term → Term → Checked (Option Substitution)
  | .app f as, .app g bs =>
    if f = g ∧ as.length = bs.length then unifyTerms allowed binders bs 0 σ as else return none
  | lhs, rhs => return Unify.leaf allowed binders σ lhs rhs

def unifyTerms (allowed : Bindable) (binders : Binders) (bs : List Term) (i : Nat)
    (σ : Substitution) : List Term → Checked (Option Substitution)
  | [] => return some σ
  | a :: as => do
    match ← unifyTerm allowed binders σ a (← item bs i) with
    | some τ => unifyTerms allowed binders bs (i + 1) τ as
    | none => return none

end

def unifyDomain (allowed : Bindable) (binders : Binders) (σ : Substitution) :
    Option Term → Option Term → Checked (Option Substitution)
  | none, none => return some σ
  | some s, some t => unifyTerm allowed binders σ s t
  | _, _ => return none

mutual

/-- Unifies two propositions, where parts are matched by their positions. -/
def unify (allowed : Bindable) (binders : Binders) (σ : Substitution) :
    Proposition → Proposition → Checked (Option Substitution)
  | .relation n as _, .relation m bs _ =>
    if n = m ∧ as.length = bs.length then unifyTerms allowed binders bs 0 σ as else return none
  | .not p m, q => do
    if sameForm (.not p m) q then unify allowed binders σ p (← part q 0) else return none
  | .junction c ps m, q =>
    if sameForm (.junction c ps m) q then unifyFrom allowed binders q.children 0 σ ps
    else return none
  | .implies a b m, q => do
    if sameForm (.implies a b m) q then
      match ← unify allowed binders σ a (← part q 0) with
      | some τ => unify allowed binders τ b (← part q 1)
      | none => return none
    else return none
  | .iff a b m, q => do
    if sameForm (.iff a b m) q then
      match ← unify allowed binders σ a (← part q 0) with
      | some τ => unify allowed binders τ b (← part q 1)
      | none => return none
    else return none
  | .quantified k v domain p _, .quantified k' w domain' q _ => do
    if k = k' then
      match ← unifyDomain allowed binders σ domain domain' with
      | some τ => unify allowed (binders.push v w) τ p q
      | none => return none
    else return none
  | p, q => return if sameForm p q then some σ else none

def unifyFrom (allowed : Bindable) (binders : Binders) (qs : List Proposition) (i : Nat)
    (σ : Substitution) : List Proposition → Checked (Option Substitution)
  | [] => return some σ
  | p :: ps => do
    match ← unify allowed binders σ p (← item qs i) with
    | some τ => unifyFrom allowed binders qs (i + 1) τ ps
    | none => return none

end

end Unification

section Replacement

/-- What is left of a path after its first step. -/
def tail : Path → Checked Path
  | [] => throw .outOfRange
  | _ :: rest => pure rest

/-- The paths that lead into a part, without their first step. -/
def below (i : Nat) (paths : List Path) : Checked (List Path) :=
  paths.filterMapM fun (path : Path) => do
    if (← item path 0) = i then return some (← tail path) else return none

def into (i : Nat) (paths : List Path) : Checked (Option (List Path)) := do
  if Path.everywhere paths then return some []
  match ← below i paths with
  | [] => return none
  | inner => return some inner

/-- Changes the argument at a position, if there is one. -/
def modifyArg (i : Int) (f : Term → Checked Term) (args : List Term) : Checked (List Term) := do
  if 0 ≤ i ∧ i < args.length then return args.set i.toNat (← f (← item args i.toNat))
  else return args

def replaceAt (old new : Term) : Path → Term → Checked Term
  | [], t => return Term.replace old new t
  | i :: path, .app head args => return .app head (← modifyArg i (replaceAt old new path) args)
  | _ :: _, t => return t

def replaceArgs (old new : Term) (paths : List Path) (args : List Term) : Checked (List Term) :=
  if Path.everywhere paths then return args.map (Term.replace old new)
  else
    paths.foldlM (fun acc path => do
      modifyArg (← item path 0) (replaceAt old new (← tail path)) acc) args

/-- Works on a part with the paths that lead into it, or keeps the part if none does. -/
def follow (paths : List Path) (i : Nat) (p : Proposition)
    (f : List Path → Checked Proposition) : Checked Proposition := do
  match ← into i paths with
  | some inner => f inner
  | none => return p

mutual

/-- Replaces a term at the given positions. -/
def replace (old new : Term) (paths : List Path) : Proposition → Checked Proposition
  | .relation name args _ => return .relation name (← replaceArgs old new paths args)
  | .not p _ => return .not (← follow paths 0 p fun inner => replace old new inner p)
  | .junction c ps _ => return .junction c (← replaceFrom old new paths 0 ps)
  | .implies a b _ =>
    return .implies (← follow paths 0 a fun inner => replace old new inner a)
      (← follow paths 1 b fun inner => replace old new inner b)
  | .iff a b _ =>
    return .iff (← follow paths 0 a fun inner => replace old new inner a)
      (← follow paths 1 b fun inner => replace old new inner b)
  | .quantified q v domain p _ => do
    if old = .var v then return .quantified q v domain p
    return .quantified q v
      (if Path.everywhere paths then domain.map (Term.replace old new) else domain)
      (← replace old new paths p)
  | .contradiction _ => return .contradiction

def replaceFrom (old new : Term) (paths : List Path) (i : Nat) :
    List Proposition → Checked (List Proposition)
  | [] => return []
  | p :: ps =>
    return (← follow paths i p fun inner => replace old new inner p) ::
      (← replaceFrom old new paths (i + 1) ps)

end

end Replacement

section Clauses

/-- Whether the first proposition is the negation of the second. -/
def negates (p q : Proposition) : Checked Bool := do
  if p.kind = .not then equal (← part p 0) q else return false

/-- Whether one of two propositions is the negation of the other. -/
def complementary (p q : Proposition) : Checked Bool := do
  if ← negates p q then return true else negates q p

/-- The positions of the first pair of complementary literals. -/
def clash (ls rs : List Proposition) : Checked (Option (Nat × Nat)) :=
  ls.zipIdx.findSomeM? fun (l, i) => return (← position (complementary l) rs).map (i, ·)

/-- Without repetitions, up to structural equality. -/
def distinct (ps : List Proposition) : Checked (List Proposition) :=
  ps.foldlM (fun acc p => do if ← acc.anyM (equal p) then return acc else return acc ++ [p]) []

/-- Leaves out whatever equals the given proposition. -/
def discard (n : Proposition) (ps : List Proposition) : Checked (List Proposition) :=
  ps.filterMapM fun d => do if ← equal d n then return none else return some d

end Clauses

end Checked

end Entailment

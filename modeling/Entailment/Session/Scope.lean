import Entailment.Session.Basic

/-!
# Scopes

A scope collects suppositions, that is variables introduced and propositions assumed, in the order
in which they are made.  Scopes nest.  Closing one restates each of its conclusions so that it holds
outside: the suppositions are read from the last to the first, a variable becomes a universal
quantifier, a membership right after its variable becomes the domain of that quantifier, and a run
of other assumptions becomes the antecedent of an implication.  The assumptions are retracted then,
along with everything that was derived from them.
-/

namespace Entailment

/-- Suppositions as they appear around a generalised conclusion. -/
inductive Layer where
  | each (v : Variable)
  | eachIn (v : Variable) (domain : Term)
  | given (first : Proposition) (rest : List Proposition)
deriving Repr

/-- The set that a proposition asserts `v` to be in. -/
def Proposition.domainFor? (v : Variable) : Proposition → Option Term
  | .relation name [.var w, set] _ =>
    if name = Relation.element.name ∧ w = v then some set else none
  | _ => none

namespace Layer

/-- Groups suppositions: a membership that directly follows its variable is a domain, and
consecutive other assumptions belong together. -/
def ofLog : List Supposition → List Layer
  | [] => []
  | [.introduced v] => [.each v]
  | .introduced v :: .introduced w :: rest => .each v :: ofLog (.introduced w :: rest)
  | .introduced v :: .assumed f :: rest =>
    match f.statement.domainFor? v with
    | some set => .eachIn v set :: ofLog rest
    | none => .each v :: ofLog (.assumed f :: rest)
  | .assumed f :: rest =>
    match ofLog rest with
    | .given p ps :: layers => .given f.statement (p :: ps) :: layers
    | layers => .given f.statement [] :: layers

/-- Puts one layer around a conclusion.  A variable that does not occur is left out, and what leads
to a contradiction is negated. -/
def wrap : Layer → Proposition → Except Breach Proposition
  | .each v, p =>
    if p.binds v then .error (.bindsIntroduced v)
    else if p.contains (.var v) then .ok (.quantified .all v none p)
    else .ok p
  | .eachIn v set, p =>
    if p.binds v || (Term.var v).occursIn set then .error (.unquantifiable v set)
    else .ok (.quantified .all v (some set) p)
  | .given first rest, p =>
    let hypothesis := Proposition.conjunction first rest
    match p with
    | .contradiction _ => .ok (.not hypothesis)
    | p => .ok (.implies hypothesis p)

end Layer

namespace Scope

def introduced (c : Scope) : List Variable :=
  c.log.filterMap fun
    | .introduced v => some v
    | .assumed _ => none

def assumptions (c : Scope) : List Fact :=
  c.log.filterMap fun
    | .introduced _ => none
    | .assumed f => some f

/-- The variable of this scope that a proposition places in a set. -/
def memberOf? (c : Scope) (p : Proposition) : Option Variable :=
  c.introduced.find? fun v => (p.domainFor? v).isSome

/-- Whether a variable of this scope already has a domain. -/
def hasDomain (c : Scope) (v : Variable) : Bool :=
  (Layer.ofLog c.log).any fun
    | .eachIn w _ => w == v
    | _ => false

/-- The statement that holds outside this scope because `target` holds inside. -/
def generalise (c : Scope) (target : Proposition) : Except Breach Proposition :=
  (Layer.ofLog c.log).foldrM Layer.wrap target.strip

end Scope

namespace Session

def openScope (name : String) : Action ScopeId :=
  modifyGet fun s =>
    let c : ScopeId := ⟨s.scopes.size⟩
    (c, { s with scopes := s.scopes.push { name }, stack := c :: s.stack })

/-- The scope behind an identifier.  Identifiers that were never given out count as closed. -/
def getScope (c : ScopeId) : Action Scope := do
  return ((← get).scope? c).getD { name := "", closed := true }

def breach {α : Type} (scope : Scope) (b : Breach) : Action α := throw (.scope scope.name b)

/-- Only the innermost open scope can be added to. -/
def requireInnermost (c : ScopeId) : Action Scope := do
  let scope ← getScope c
  if scope.closed then breach scope .closed
  if (← get).stack.head? ≠ some c then breach scope .notInnermost
  return scope

def note (c : ScopeId) (entry : Supposition) : Action Unit :=
  modify fun s => s.modifyScope c fun scope => { scope with log := scope.log ++ [entry] }

/-- Introduces a variable, over which the results of the scope are generalised. -/
def introduce (c : ScopeId) (v : Variable) : Action Unit := do
  let scope ← requireInnermost c
  let s ← get
  if s.isRetired v then breach scope (.outOfScope v)
  match (s.stack.reverse.filterMap s.scope?).find? (·.introduced.contains v) with
  | some other => breach scope (.introducedTwice v other.name)
  | none => note c (.introduced v)

/-- Introduces a new variable. -/
def letVariable (c : ScopeId) (name : String) : Action Variable := do
  let v ← newVariable name
  introduce c v
  return v

/-- Assumes a proposition within a scope.  The first membership of one of the scope's variables is
its domain, and has to follow the introduction of that variable directly. -/
def assumeIn (c : ScopeId) (p : Proposition) : Action Fact := do
  let scope ← requireInnermost c
  let s ← get
  match p.freeVariables.find? s.isRetired with
  | some v => breach scope (.outOfScope v)
  | none => pure ()
  match scope.memberOf? p with
  | some v =>
    let follows := match scope.log.getLast? with
      | some (.introduced w) => w == v
      | _ => false
    if !scope.hasDomain v && !follows then breach scope (.lateMembership p v)
  | none => pure ()
  let fact ← suppose p
  note c (.assumed fact)
  return fact

/-- Assumes a proposition within the innermost scope, or outright if none is open. -/
def assume (p : Proposition) : Action Fact := do
  match (← get).stack with
  | top :: _ => assumeIn top p
  | [] => suppose p

/-- Marks a proven proposition for export. -/
def conclude (c : ScopeId) (p : Option Proposition) : Action Unit := do
  let _ ← requireInnermost c
  let fact ← require .closeScope p
  modify fun s => s.modifyScope c fun scope =>
    { scope with conclusions := scope.conclusions ++ [fact] }

/-- The scope that directly encloses `c` on a stack. -/
def enclosing? (c : ScopeId) : List ScopeId → Option ScopeId
  | [] => none
  | top :: rest => if top = c then rest.head? else enclosing? c rest

/-- Takes a scope off the stack.  Its assumptions no longer hold, nor does anything derived from
them; the rest of what it derived is handed to the enclosing scope, and its variables are retired.
-/
def retract (s : Session) (c : ScopeId) : Session :=
  match s.scope? c with
  | none => s
  | some scope =>
    let assumptions := scope.assumptions.map Fact.id
    let (withdrawn, kept) :=
      scope.proven.partition fun id => (s.dependencies id).any (· ∈ assumptions)
    let parent := enclosing? c s.stack
    let s := { s with stack := s.stack.erase c }
    let s := assumptions.foldl (fun s id => s.modifyEntry id ({ · with assumed := false })) s
    let s := withdrawn.foldl (fun s id => s.modifyEntry id ({ · with proven := false })) s
    let s := match parent with
      | some outer => s.modifyScope outer fun o => { o with proven := o.proven ++ kept }
      | none => s
    (s.forget scope.introduced).modifyScope c ({ · with closed := true })

/-- What closing a scope would restate: its conclusions, or else the last thing derived in it. -/
def targets (s : Session) (scope : Scope) : List Fact :=
  match scope.conclusions with
  | [] =>
    (scope.proven.getLast?.bind fun id =>
      (s.entry? id).map fun e => (⟨id, e.statement⟩ : Fact)).toList
  | conclusions => conclusions

/-- Closes the innermost scope.  All statements are put together before anything changes; closing a
scope again does nothing. -/
def close (c : ScopeId) : Action Unit := do
  let scope ← getScope c
  unless scope.closed do
    let s ← get
    if s.stack.head? ≠ some c then breach scope .closedOutOfTurn
    let targets := s.targets scope
    let statements ← targets.mapM fun t =>
      match scope.generalise t.statement with
      | .ok p => pure (t, p)
      | .error b => breach scope b
    let assumptions := scope.assumptions.map Fact.id
    modify (·.retract c)
    let results ← statements.mapM fun (t, p) => do
      let dependencies := ((← get).dependencies t.id).filter (· ∉ assumptions)
      certify p { rule := .closeScope, first := some t.id, closed := [c] } dependencies
    modify fun s => s.modifyScope c ({ · with results })

/-- Gives a scope up without exporting anything. -/
def discard (c : ScopeId) : Action Unit := do
  unless (← getScope c).closed do
    modify (·.retract c)

/-- What a closed scope established. -/
def results (c : ScopeId) : Action (List Fact) := do
  let scope ← getScope c
  if scope.closed then return scope.results
  breach scope .stillOpen

/-- Closes a scope for its results, and gives it up if it cannot be closed. -/
def finish (c : ScopeId) : Action (List Fact) := do
  try close c
  catch e =>
    discard c
    throw e
  results c

/-- Runs a deduction inside a scope of its own. -/
def within (name : String) (body : ScopeId → Action Unit) : Action (List Fact) := do
  let c ← openScope name
  try body c
  catch e =>
    discard c
    throw e
  finish c

end Session

end Entailment

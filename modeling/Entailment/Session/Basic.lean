import Entailment.Order
import Entailment.Session.Inference

/-!
# Sessions

A session is the state of a proof under construction.  Its ledger lists every statement that was
ever assumed or derived, each with its justification, whether it currently counts as proven, and the
assumptions it depends on.  Beside the ledger stand the scopes, the stack of those still open, and
for every variable the atomic facts known about it.

Statements enter the ledger in two ways only, `Session.certify` and `Session.suppose`.  Premises are
always entries that stand earlier in the ledger than what they justify.
-/

namespace Entailment

/-- A statement together with the ledger entry that holds it. -/
structure Fact where
  id : FactId
  statement : Proposition
deriving Repr

/-- The statement as the very node that the ledger knows. -/
def Fact.proposition (f : Fact) : Proposition := f.statement.withMark (some f.id)

structure Entry where
  statement : Proposition
  inference : Inference FactId
  /-- Derived, and not withdrawn since. -/
  proven : Bool
  /-- Currently assumed to hold. -/
  assumed : Bool
  /-- The assumptions this statement depends on, without repetition. -/
  dependencies : List FactId
deriving Repr

/-- A statement can be relied on while it is derived or assumed. -/
def Entry.holds (e : Entry) : Bool := e.proven || e.assumed

/-- What a scope records, in the order in which it happened. -/
inductive Supposition where
  | introduced (v : Variable)
  | assumed (fact : Fact)
deriving Repr

structure Scope where
  name : String
  log : List Supposition := []
  /-- Derived while this scope was the innermost one. -/
  proven : List FactId := []
  /-- Marked for export. -/
  conclusions : List Fact := []
  /-- What closing the scope established outside. -/
  results : List Fact := []
  closed : Bool := false
deriving Repr

/-- A generalisation over a variable that an assumption still speaks about. -/
structure Warning where
  statement : Proposition
  generalised : Variable
  assumption : Proposition
deriving Repr

def Warning.text (w : Warning) : String :=
  s!"generalising {w.statement.render} over {w.generalised.name} "
    ++ s!"which assumption {w.assumption.render} depends on"

structure Session where
  ledger : Array Entry := #[]
  scopes : Array Scope := #[]
  /-- The open scopes, innermost first. -/
  stack : List ScopeId := []
  /-- Atomic facts by the variables they mention, in the order in which they were learnt. -/
  knowledge : List (Variable × FactId) := []
  /-- Variables that have left the scope they were introduced in. -/
  retired : List Variable := []
  order : Order := .numeric
  /-- While speculating, what was derived so far, newest first. -/
  speculation : Option (List FactId) := none
  /-- The number for the next variable. -/
  fresh : Nat := 1
  warnings : List Warning := []

/-- Steps of a deduction.  A step that fails still keeps what it did to the session. -/
abbrev Action := EStateM Failure Session

namespace Session

def entry? (s : Session) (id : FactId) : Option Entry := s.ledger[id.index]?

/-- Whether an entry currently counts as proven. -/
def holds (s : Session) (id : FactId) : Bool := (s.entry? id).any Entry.holds

/-- The ledger's own view of a proposition that is one of its entries. -/
def fact? (s : Session) (p : Proposition) : Option Fact :=
  p.mark?.bind fun id => (s.entry? id).map fun e => ⟨id, e.statement⟩

/-- The same, for entries that currently count as proven. -/
def provenFact? (s : Session) (p : Proposition) : Option Fact :=
  (s.fact? p).filter fun f => s.holds f.id

def isProven (s : Session) (p : Proposition) : Bool := p.mark?.any s.holds

def isAssumption (s : Session) (p : Proposition) : Bool :=
  (p.mark?.bind s.entry?).any Entry.assumed

def dependencies (s : Session) (id : FactId) : List FactId :=
  ((s.entry? id).map Entry.dependencies).getD []

/-- The assumptions that any of the given entries depends on, in the order in which they are met. -/
def union (s : Session) (ids : List FactId) : List FactId :=
  ids.foldl (fun acc id =>
    (s.dependencies id).foldl (fun acc a => if a ∈ acc then acc else acc ++ [a]) acc) []

def scope? (s : Session) (c : ScopeId) : Option Scope := s.scopes[c.index]?

def modifyScope (s : Session) (c : ScopeId) (f : Scope → Scope) : Session :=
  { s with scopes := s.scopes.modify c.index f }

def modifyEntry (s : Session) (id : FactId) (f : Entry → Entry) : Session :=
  { s with ledger := s.ledger.modify id.index f }

def isRetired (s : Session) (v : Variable) : Bool := s.retired.contains v

/-- The facts known about a variable. -/
def known (s : Session) (v : Variable) : List FactId :=
  s.knowledge.filterMap fun (w, id) => if w = v then some id else none

/-- Atomic facts become known for each of their free variables. -/
def learn (s : Session) (f : Fact) : Session :=
  match f.statement with
  | .relation _ _ _ =>
    { s with knowledge := s.knowledge ++ f.statement.freeVariables.map (·, f.id) }
  | _ => s

/-- Puts a derived fact on record: in the innermost scope, and in what is known. -/
def record (s : Session) (f : Fact) : Session :=
  let s := match s.stack with
    | top :: _ => s.modifyScope top fun c => { c with proven := c.proven ++ [f.id] }
    | [] => s
  s.learn f

/-- Retires variables, and drops from what is known whatever no longer holds. -/
def forget (s : Session) (vs : List Variable) : Session :=
  { s with
    retired := s.retired ++ vs
    knowledge := s.knowledge.filter fun (v, id) => !vs.contains v && s.holds id }

/-- A new variable, different from all others. -/
def newVariable (name : String) : Action Variable :=
  modifyGet fun s => (⟨s.fresh, name⟩, { s with fresh := s.fresh + 1 })

/-- Enters a statement as proven.  While speculating it is only noted, and put on record once the
speculation is settled. -/
def certify (p : Proposition) (inference : Inference FactId) (dependencies : List FactId) :
    Action Fact :=
  modifyGet fun s =>
    let fact : Fact := ⟨⟨s.ledger.size⟩, p.strip⟩
    let entry : Entry :=
      { statement := fact.statement, inference, proven := true, assumed := false, dependencies }
    let s := { s with ledger := s.ledger.push entry }
    match s.speculation with
    | some derived => (fact, { s with speculation := some (fact.id :: derived) })
    | none => (fact, s.record fact)

/-- Enters a statement as an assumption, which depends on itself. -/
def suppose (p : Proposition) : Action Fact :=
  modifyGet fun s =>
    let fact : Fact := ⟨⟨s.ledger.size⟩, p.strip⟩
    let entry : Entry :=
      { statement := fact.statement, inference := { rule := .assumption }, proven := false,
        assumed := true, dependencies := [fact.id] }
    (fact, { s with ledger := s.ledger.push entry }.learn fact)

/-- Enters a statement that holds unconditionally. -/
def postulate (p : Proposition) : Action Fact := certify p { rule := .postulate } []

/-- Enters a statement derived from premises, on whose assumptions it then depends. -/
def derive (p : Proposition) (inference : Inference FactId) (premises : List Fact) :
    Action Fact := do
  certify p inference ((← get).union (premises.map Fact.id))

def refuse {α : Type} (rule : Rule) (obstacle : Obstacle) (about : List Fact) : Action α :=
  throw (.tactic rule obstacle (about.map fun f => some f.statement))

/-- A premise has to be there and to be proven. -/
def require (rule : Rule) : Option Proposition → Action Fact
  | none => throw (.tactic rule .missingPremise [])
  | some p => do
    match (← get).provenFact? p with
    | some f => return f
    | none => throw (.tactic rule .notProven [some p])

def requireAll (rule : Rule) (ps : List (Option Proposition)) : Action (List Fact) :=
  ps.mapM (require rule)

def setOrder (order : Order) : Action Unit := modify fun s => { s with order }

end Session

end Entailment

import Entailment.Session.Basic

/-!
# Audit

Replays the justification of a proposition from the ledger.  Every statement on the way down has to
be proven and to come from somewhere: postulates and assumptions are leaves, and anything else needs
a premise or a term.  Below the closing of a scope statements need not be proven any more, since the
contents of a closed scope have been retracted.
-/

namespace Entailment.Session

/-- The entries seen so far, and whether each was audited as a live one. -/
abbrev Visited := List (FactId × Bool)

/-- What is wrong with a single entry, leaving its premises aside. -/
def flaw? (discharged : Bool) (e : Entry) : Option Failure :=
  if !discharged && !e.holds then some (.notProven e.statement)
  else
    match e.inference.rule with
    | .assumption | .postulate => none
    | rule =>
      if e.inference.premises.isEmpty && e.inference.terms.isEmpty then
        some (.baseless e.statement rule)
      else none

/-- The premises still to be audited.  Leaves have none. -/
def auditPremises (e : Entry) : List FactId :=
  match e.inference.rule with
  | .assumption | .postulate => []
  | _ => e.inference.premises

/-- Audits entries one after the other, each before its premises, to a given depth.  An entry need
not be audited again, unless it was seen only as a discharged one and now is a live one. -/
def auditFrom (s : Session) : Nat → Bool → List FactId → Visited → Except Failure Visited
  | 0, _, _, visited => .ok visited
  | depth + 1, discharged, ids, visited =>
    ids.foldlM (fun visited id =>
      match visited.lookup id with
      | some true => .ok visited
      | seen =>
        if seen.isSome && discharged then .ok visited
        else
          match s.entry? id with
          | none => .error (.unjustified default)
          | some e =>
            match flaw? discharged e with
            | some failure => .error failure
            | none =>
              auditFrom s depth (discharged || e.inference.rule == .closeScope) (auditPremises e)
                ((id, !discharged) :: visited)) visited

/-- Whether a proposition is proven and properly justified all the way down. -/
def audit (s : Session) (p : Proposition) : Except Failure Unit :=
  match s.provenFact? p with
  | none => .error (.notProven p)
  | some f => (s.auditFrom (s.ledger.size + 1) false [f.id] []).map fun _ => ()

end Entailment.Session

import Entailment.Proposition.Occurrence
import Entailment.Proposition.Render

/-!
# Checked construction

Connectives and quantifiers are put together from parts that may be missing or unfit.  The functions
here check what a well-formed proposition needs: a connective has at least two members, and a
quantifier has a variable that its body does not bind again and its domain does not mention.
-/

namespace Entailment

/-- Why parts do not make up a proposition. -/
inductive Malformed where
  | tooFewMembers (kind : Kind) (found : Nat)
  | missingMember (kind : Kind)
  | missingVariable (kind : Kind)
  | boundAgain (kind : Kind) (v : Variable) (body : Proposition)
  | domainMentions (kind : Kind) (domain : Term) (v : Variable)
deriving Repr

namespace Malformed

def kind : Malformed → Kind
  | .tooFewMembers kind _ | .missingMember kind | .missingVariable kind | .boundAgain kind _ _
  | .domainMentions kind _ _ => kind

def reason : Malformed → String
  | .tooFewMembers _ found => s!"requires at least two children (found {found})"
  | .missingMember _ => "nil child"
  | .missingVariable _ => "missing bound variable"
  | .boundAgain _ v body => s!"variable {v.name} already bound in {body.render}"
  | .domainMentions _ domain v => s!"domain {domain.render} mentions bound variable {v.name}"

def message (m : Malformed) : String := s!"malformed {m.kind.text}: {m.reason}"

end Malformed

namespace Proposition

def junction? (c : Connective) (members : List (Option Proposition)) :
    Except Malformed Proposition :=
  if members.length < 2 then .error (.tooFewMembers c.kind members.length)
  else if members.any Option.isNone then .error (.missingMember c.kind)
  else .ok (.junction c (members.filterMap id))

def quantified? (q : Quantifier) (v : Option Variable) (domain : Option Term) (body : Proposition) :
    Except Malformed Proposition :=
  match v with
  | none => .error (.missingVariable (q.kind domain))
  | some v =>
    if body.binds v then .error (.boundAgain (q.kind domain) v body)
    else
      match domain with
      | some set =>
        if (Term.var v).occursIn set then .error (.domainMentions (q.kind domain) set v)
        else .ok (.quantified q v (some set) body)
      | none => .ok (.quantified q v none body)

end Proposition

end Entailment

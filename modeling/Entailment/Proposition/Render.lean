import Entailment.Proposition.Basic

/-!
# Propositions as text

A proposition is written with one of two sets of symbols: the plain one, which can be read back, and
LaTeX markup.  Both share one layout.  Relations and negations stand as they are inside a
connective, and everything else is bracketed there.
-/

namespace Entailment

/-- How the parts of a proposition are spelled. -/
structure Symbols where
  not : String
  connective : Connective → String
  implies : String
  iff : String
  quantifier : Quantifier → String
  element : String
  dot : String
  bottom : String
  relation : Relation → String

def Symbols.plain : Symbols where
  not := "¬"
  connective
    | .and => " ∧ "
    | .or => " ∨ "
    | .exor => " ⊕ "
  implies := " → "
  iff := " ↔ "
  quantifier
    | .all => "∀"
    | .exist => "∃"
  element := "∈"
  dot := ". "
  bottom := "⊥"
  relation
    | .lessEqual => "≤"
    | .greaterEqual => "≥"
    | r => r.name

def Symbols.latex : Symbols where
  not := "\\neg "
  connective
    | .and => " \\land "
    | .or => " \\lor "
    | .exor => " \\oplus "
  implies := " \\rightarrow "
  iff := " \\leftrightarrow "
  quantifier
    | .all => "\\forall "
    | .exist => "\\exists "
  element := " \\in "
  dot := ".\\, "
  bottom := "\\bot"
  relation
    | .equal => "="
    | .notEqual => "\\neq"
    | .less => "<"
    | .lessEqual => "\\leq"
    | .greater => ">"
    | .greaterEqual => "\\geq"
    | .element => "\\in"
    | .properSubset => "\\subset"
    | .subset => "\\subseteq"
    | .properSuperset => "\\supset"
    | .superset => "\\supseteq"

namespace Proposition

/-- A relation as text.  A binary relation with a symbol stands between its sides; any other name
stands in front, without brackets if it has no arguments. -/
def writeRelation (sym : Symbols) (name : String) (args : List Term) : String :=
  match Relation.ofName? name, args with
  | some r, [lhs, rhs] => lhs.render ++ " " ++ sym.relation r ++ " " ++ rhs.render
  | _, [] => name
  | _, _ => name ++ "(" ++ ", ".intercalate (args.map Term.render) ++ ")"

/-- Whether a proposition needs no brackets inside a connective. -/
def isTight : Proposition → Bool
  | .relation _ _ _ | .not _ _ | .contradiction _ => true
  | _ => false

/-- The text of a part, bracketed unless that part is tight. -/
def bracket (p : Proposition) (text : String) : String :=
  if p.isTight then text else "(" ++ text ++ ")"

mutual

def write (sym : Symbols) : Proposition → String
  | .relation name args _ => writeRelation sym name args
  | .not p _ => sym.not ++ bracket p (write sym p)
  | .junction c ps _ => (sym.connective c).intercalate (writeMembers sym ps)
  | .implies a b _ => bracket a (write sym a) ++ sym.implies ++ bracket b (write sym b)
  | .iff a b _ => bracket a (write sym a) ++ sym.iff ++ bracket b (write sym b)
  | .quantified q v domain p _ =>
    sym.quantifier q ++ v.name ++ domain.elim "" (fun set => sym.element ++ set.render) ++ sym.dot
      ++ write sym p
  | .contradiction _ => sym.bottom

def writeMembers (sym : Symbols) : List Proposition → List String
  | [] => []
  | p :: ps => bracket p (write sym p) :: writeMembers sym ps

end

/-- The text of a proposition for people, which can also be read back. -/
def render (p : Proposition) : String := p.write .plain

/-- The proposition as LaTeX. -/
def markup (p : Proposition) : String := p.write .latex

@[simp] theorem writeMembers_eq_map (sym : Symbols) (ps : List Proposition) :
    writeMembers sym ps = ps.map fun p => bracket p (write sym p) := by
  induction ps with
  | nil => rfl
  | cons p ps ih => simp [writeMembers, ih]

end Proposition

end Entailment

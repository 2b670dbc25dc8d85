/-!
# Terms

A term denotes a mathematical object: a variable, a named constant, an integer of any size, or a
function symbol applied to arguments.  Terms are plain data, so replacing a part of a term gives a
new term.  Everything here looks at the structure of a term only; arithmetic is the business of
`Entailment.Term.Polynomial` and `Entailment.Term.Simplify`.
-/

namespace Entailment

/-- Variables are told apart by their number.  The name is what they are displayed as, and several
variables may share one. -/
structure Variable where
  id : Nat
  name : String
deriving DecidableEq, Repr, Inhabited

inductive Term where
  | var (v : Variable)
  | const (name : String)
  | num (value : Int)
  | app (head : String) (args : List Term)
deriving Repr, Inhabited

namespace Term

mutual

def decEq : (a b : Term) → Decidable (a = b)
  | .var v, .var w =>
    if h : v = w then .isTrue (by rw [h]) else .isFalse fun e => h (Term.var.inj e)
  | .const a, .const b =>
    if h : a = b then .isTrue (by rw [h]) else .isFalse fun e => h (Term.const.inj e)
  | .num m, .num n =>
    if h : m = n then .isTrue (by rw [h]) else .isFalse fun e => h (Term.num.inj e)
  | .app f as, .app g bs =>
    if h : f = g then
      match decEqList as bs with
      | .isTrue e => .isTrue (by rw [h, e])
      | .isFalse n => .isFalse fun e => n (Term.app.inj e).2
    else .isFalse fun e => h (Term.app.inj e).1
  | .var _, .const _ | .var _, .num _ | .var _, .app _ _
  | .const _, .var _ | .const _, .num _ | .const _, .app _ _
  | .num _, .var _ | .num _, .const _ | .num _, .app _ _
  | .app _ _, .var _ | .app _ _, .const _ | .app _ _, .num _ => .isFalse nofun

def decEqList : (as bs : List Term) → Decidable (as = bs)
  | [], [] => .isTrue rfl
  | [], _ :: _ | _ :: _, [] => .isFalse nofun
  | a :: as, b :: bs =>
    match decEq a b with
    | .isFalse n => .isFalse fun e => n (List.cons.inj e).1
    | .isTrue h =>
      match decEqList as bs with
      | .isTrue e => .isTrue (by rw [h, e])
      | .isFalse n => .isFalse fun e => n (List.cons.inj e).2

end

instance : DecidableEq Term := decEq

mutual

/-- Whether `part` occurs in a term; every term occurs in itself. -/
def occursIn (part : Term) : Term → Bool
  | .app head args => decide (Term.app head args = part) || occursInAny part args
  | .var v => decide (Term.var v = part)
  | .const name => decide (Term.const name = part)
  | .num n => decide (Term.num n = part)

def occursInAny (part : Term) : List Term → Bool
  | [] => false
  | t :: ts => occursIn part t || occursInAny part ts

end

mutual

/-- Replaces every occurrence of `old` by `new`, the outermost first; what has been put in is not
searched again. -/
def replace (old new : Term) : Term → Term
  | .app head args =>
    if Term.app head args = old then new else .app head (replaceList old new args)
  | .var v => if Term.var v = old then new else .var v
  | .const name => if Term.const name = old then new else .const name
  | .num n => if Term.num n = old then new else .num n

def replaceList (old new : Term) : List Term → List Term
  | [] => []
  | t :: ts => replace old new t :: replaceList old new ts

end

mutual

/-- Extends `seen` by the variables of a term that it lacks, in the order of their first
occurrence. -/
def addVariables (seen : List Variable) : Term → List Variable
  | .var v => if v ∈ seen then seen else seen ++ [v]
  | .app _ args => addVariablesList seen args
  | .const _ | .num _ => seen

def addVariablesList (seen : List Variable) : List Term → List Variable
  | [] => seen
  | t :: ts => addVariablesList (addVariables seen t) ts

end

/-- The distinct variables of a term, in the order of their first occurrence. -/
def vars (t : Term) : List Variable := addVariables [] t

/-- The symbols written between their arguments. -/
def isOperator (head : String) : Bool := ["+", "-", "*", "∪", "∩"].contains head

/-- An application as text, from the texts of its arguments.  An operator with several arguments
stands between them in brackets; any other head stands in front. -/
def renderApp (head : String) (args : List String) : String :=
  if isOperator head && args.length > 1 then "(" ++ head.intercalate args ++ ")"
  else head ++ "(" ++ ",".intercalate args ++ ")"

mutual

def render : Term → String
  | .var v => v.name
  | .const name => name
  | .num n => toString n
  | .app head args => renderApp head (renderList args)

def renderList : List Term → List String
  | [] => []
  | t :: ts => render t :: renderList ts

end

@[simp] theorem occursInAny_eq_any (part : Term) (ts : List Term) :
    occursInAny part ts = ts.any (occursIn part) := by
  induction ts with
  | nil => rfl
  | cons t ts ih => simp [occursInAny, ih]

@[simp] theorem replaceList_eq_map (old new : Term) (ts : List Term) :
    replaceList old new ts = ts.map (replace old new) := by
  induction ts with
  | nil => rfl
  | cons t ts ih => simp [replaceList, ih]

@[simp] theorem addVariablesList_eq_foldl (seen : List Variable) (ts : List Term) :
    addVariablesList seen ts = ts.foldl addVariables seen := by
  induction ts generalizing seen with
  | nil => rfl
  | cons t ts ih => simp [addVariablesList, ih]

@[simp] theorem renderList_eq_map (ts : List Term) : renderList ts = ts.map render := by
  induction ts with
  | nil => rfl
  | cons t ts ih => simp [renderList, ih]

end Term

end Entailment

import Entailment.Proposition.Basic

/-!
# Replacement at positions

Replaces occurrences of one term by another inside a proposition, everywhere or only at or below
given positions.  A position is a path of indices: connectives take an index for the part, relations
one for the argument, applications one for each argument below, and quantifiers none at all.  Bound
variables are never replaced.
-/

namespace Entailment

abbrev Path := List Int

namespace Path

/-- No path, or an empty one among them, stands for the whole proposition. -/
def everywhere (paths : List Path) : Bool := paths.isEmpty || paths.any List.isEmpty

/-- The paths that lead into the part with index `i`, without that index. -/
def below (i : Nat) (paths : List Path) : List Path :=
  paths.filterMap fun
    | j :: rest => if j = i then some rest else none
    | [] => none

/-- The paths to follow in the part with index `i`, or nothing if none leads there. -/
def into (i : Nat) (paths : List Path) : Option (List Path) :=
  if everywhere paths then some []
  else
    match below i paths with
    | [] => none
    | inner => some inner

end Path

/-- Applies `f` to the argument with the given index, if there is one. -/
def Term.modifyArg (i : Int) (f : Term → Term) (args : List Term) : List Term :=
  if i < 0 then args else args.modify i.toNat f

/-- Replaces the occurrences of `old` at or below one position of a term. -/
def Term.replaceAt (old new : Term) : Path → Term → Term
  | [], t => Term.replace old new t
  | i :: path, .app head args => .app head (modifyArg i (replaceAt old new path) args)
  | _ :: _, t => t

namespace Proposition

/-- Replaces in the arguments of a relation, path after path. -/
def replaceArgs (old new : Term) (paths : List Path) (args : List Term) : List Term :=
  if Path.everywhere paths then args.map (Term.replace old new)
  else
    paths.foldl (fun acc path =>
      match path with
      | i :: rest => Term.modifyArg i (Term.replaceAt old new rest) acc
      | [] => acc) args

mutual

/-- Replaces `old` by `new` at the given positions, or everywhere if there are none.  The result is
only a statement, and parts that no path leads to are kept as they are. -/
def replace (old new : Term) (paths : List Path) : Proposition → Proposition
  | .relation name args _ => .relation name (replaceArgs old new paths args)
  | .not p _ =>
    .not (match Path.into 0 paths with
      | some inner => replace old new inner p
      | none => p)
  | .junction c ps _ => .junction c (replaceMembers old new paths 0 ps)
  | .implies a b _ =>
    .implies
      (match Path.into 0 paths with
        | some inner => replace old new inner a
        | none => a)
      (match Path.into 1 paths with
        | some inner => replace old new inner b
        | none => b)
  | .iff a b _ =>
    .iff
      (match Path.into 0 paths with
        | some inner => replace old new inner a
        | none => a)
      (match Path.into 1 paths with
        | some inner => replace old new inner b
        | none => b)
  | .quantified q v domain p _ =>
    if old = .var v then .quantified q v domain p
    else
      .quantified q v
        (if Path.everywhere paths then domain.map (Term.replace old new) else domain)
        (replace old new paths p)
  | .contradiction _ => .contradiction

def replaceMembers (old new : Term) (paths : List Path) (i : Nat) :
    List Proposition → List Proposition
  | [] => []
  | p :: ps =>
    (match Path.into i paths with
      | some inner => replace old new inner p
      | none => p) :: replaceMembers old new paths (i + 1) ps

end

/-- Replaces every occurrence of `old` by `new`. -/
def replaceAll (old new : Term) (p : Proposition) : Proposition := p.replace old new []

end Proposition

end Entailment

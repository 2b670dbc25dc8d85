import Entailment.Session.Basic

/-!
# Speculation

A search derives far more than it needs.  While a session speculates, derived statements are only
noted.  Once the speculation is settled, those that the kept ones rest on are put on record, and all
others are withdrawn.  A speculation inside another one is part of the outer one.
-/

namespace Entailment.Session

/-- Starts to speculate, and tells whether this is the outermost speculation. -/
def speculateFrom : Action Bool :=
  modifyGet fun s =>
    match s.speculation with
    | some _ => (false, s)
    | none => (true, { s with speculation := some [] })

/-- Of entries listed from the newest to the oldest, those that `wanted` rests on.  Premises are
older than what they justify, so one sweep finds them all. -/
def supporting (s : Session) (wanted : List FactId) : List FactId → List FactId
  | [] => []
  | id :: older =>
    if id ∈ wanted then
      let premises := ((s.entry? id).map (·.inference.premises)).getD []
      id :: supporting s (premises ++ wanted) older
    else supporting s wanted older

/-- Keeps one speculative entry or withdraws it. -/
def settleEntry (needed : List FactId) (s : Session) (id : FactId) : Session :=
  match s.entry? id with
  | none => s
  | some e =>
    if id ∈ needed then s.record ⟨id, e.statement⟩
    else s.modifyEntry id ({ · with proven := false })

/-- Ends the outermost speculation, keeping the given entries and what they rest on. -/
def settle (keep : List FactId) : Action Unit :=
  modify fun s =>
    match s.speculation with
    | none => s
    | some derived =>
      let needed := s.supporting keep derived
      derived.reverse.foldl (settleEntry needed) { s with speculation := none }

/-- Runs a deduction speculatively; of what it derives, only what it asks to keep remains. -/
def speculate {α : Type} (body : Action (α × List FactId)) : Action α := do
  let outermost ← speculateFrom
  let (result, keep) ← body
  if outermost then settle keep
  return result

end Entailment.Session

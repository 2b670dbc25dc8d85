import Entailment.Proofs.Lexing
import Entailment.Text.Reader

/-!
# The signs of terms and propositions

What is printable in an environment, and the signs that its text consists of. A term or a
proposition is spelled by its text if, whatever may follow it, lexing finds its signs first
(`Spells`). What stands between two parts of a text, an operator, a comma or a connective,
separates them if it is found in the same way before whatever opens the next part (`Separates`).
-/
namespace Entailment

open Token

/-- What a name refers to: the innermost variable bound around it, or else a declared one. -/
def Environment.resolve (env : Environment) (bound : List Variable) (name : String) :
    Option Variable :=
  (Environment.find? bound name).or (env.find? name)

section Printability

mutual

/-- Whether a term can be read back from its text, under quantifiers that bind the given variables,
innermost first. -/
def Term.isPrintable (env : Environment) (bound : List Variable) : Term → Bool
  | .var v => env.resolve bound v.name == some v
  | .const name => isWord name && (env.resolve bound name).isNone
  | .num n => decide (0 ≤ n)
  | .app head args =>
    (isWord head || (isOperator head && decide (2 ≤ args.length))) && arePrintable env bound args

def Term.arePrintable (env : Environment) (bound : List Variable) : List Term → Bool
  | [] => true
  | t :: ts => t.isPrintable env bound && arePrintable env bound ts

end

@[simp] theorem Term.arePrintable_eq_all (env : Environment) (bound : List Variable)
    (ts : List Term) : arePrintable env bound ts = ts.all (isPrintable env bound) := by
  induction ts with
  | nil => rfl
  | cons t ts ih => simp [arePrintable, ih]

namespace Proposition

mutual

/-- Whether a proposition can be read back from its text. -/
def isPrintable (env : Environment) (bound : List Variable) : Proposition → Bool
  | .relation name args _ =>
    (((Relation.ofName? name).isSome && decide (args.length = 2)) ||
      (isWord name && (!args.isEmpty || (env.resolve bound name).isNone))) &&
      args.all (Term.isPrintable env bound)
  | .not p _ => isPrintable env bound p
  | .junction _ ps _ => arePrintable env bound ps
  | .implies a b _ | .iff a b _ => isPrintable env bound a && isPrintable env bound b
  | .quantified _ v domain p _ =>
    isWord v.name && (Environment.find? bound v.name).isNone &&
      (env.find? v.name).all (· == v) && domain.all (Term.isPrintable env bound) &&
      isPrintable env (v :: bound) p
  | .contradiction _ => false

def arePrintable (env : Environment) (bound : List Variable) : List Proposition → Bool
  | [] => true
  | p :: ps => isPrintable env bound p && arePrintable env bound ps

end

@[simp] theorem arePrintable_eq_all (env : Environment) (bound : List Variable)
    (ps : List Proposition) : arePrintable env bound ps = ps.all (isPrintable env bound) := by
  induction ps with
  | nil => rfl
  | cons p ps ih => simp [arePrintable, ih]

/-- What the checked constructions give, together with marks. -/
inductive Built : Proposition → Prop
  | relation (name : String) (args : List Term) : Built (.relation name args)
  | contradiction : Built .contradiction
  | not {p : Proposition} : Built p → Built (.not p)
  | junction {c : Connective} {ps : List Proposition} {p : Proposition} : (∀ q ∈ ps, Built q) →
      junction? c (ps.map some) = .ok p → Built p
  | implies {a b : Proposition} : Built a → Built b → Built (.implies a b)
  | iff {a b : Proposition} : Built a → Built b → Built (.iff a b)
  | quantified {q : Quantifier} {v : Variable} {domain : Option Term} {body p : Proposition} :
      Built body → quantified? q (some v) domain body = .ok p → Built p
  | marked {p : Proposition} (mark : Option FactId) : Built p → Built (p.withMark mark)

mutual

/-- Connectives have two members at least, and quantifiers bind variables that are not bound again
inside and do not occur in the domain. -/
def isWellMade : Proposition → Bool
  | .relation _ _ _ | .contradiction _ => true
  | .not p _ => isWellMade p
  | .junction _ ps _ => decide (2 ≤ ps.length) && areWellMade ps
  | .implies a b _ | .iff a b _ => isWellMade a && isWellMade b
  | .quantified _ v domain p _ =>
    !p.binds v && !domain.any (Term.var v).occursIn && isWellMade p

def areWellMade : List Proposition → Bool
  | [] => true
  | p :: ps => isWellMade p && areWellMade ps

end

@[simp] theorem areWellMade_eq_all (ps : List Proposition) :
    areWellMade ps = ps.all isWellMade := by
  induction ps with
  | nil => rfl
  | cons p ps ih => simp [areWellMade, ih]

theorem Built.isWellMade {p : Proposition} (h : Built p) : p.isWellMade = true := by
  induction h with
  | relation name args => rfl
  | contradiction => rfl
  | not _ ih => exact ih
  | @junction c ps p _ hp ih =>
      unfold junction? at hp
      split at hp
      next => cases hp
      next hlength =>
        split at hp
        next => cases hp
        next =>
          cases hp
          rw [List.length_map, Nat.not_lt] at hlength
          simp only [Proposition.isWellMade, areWellMade_eq_all, List.filterMap_map,
            Bool.and_eq_true, decide_eq_true_eq, List.all_eq_true]
          have hsame : ps.filterMap (id ∘ some) = ps := by simp
          rw [hsame]
          exact ⟨hlength, ih⟩
  | implies _ _ iha ihb => simp [Proposition.isWellMade, iha, ihb]
  | iff _ _ iha ihb => simp [Proposition.isWellMade, iha, ihb]
  | @quantified q v domain body p _ hp ih =>
      unfold quantified? at hp
      dsimp only at hp
      split at hp
      next => cases hp
      next hbinds =>
        split at hp
        next =>
          split at hp
          next => cases hp
          next hmentions =>
            cases hp
            simp [Proposition.isWellMade, hbinds, hmentions, ih]
        next =>
          cases hp
          simp [Proposition.isWellMade, hbinds, ih]
  | @marked p mark _ ih =>
      cases p <;> exact ih

end Proposition

end Printability

section Signs

def Sign.opening : Sign := (.opening, ['('])

def Sign.closing : Sign := (.closing, [')'])

def Sign.comma : Sign := (.comma, [','])

def Sign.dot : Sign := (.dot, ['.'])

def Sign.name (name : String) : Sign := (.name, name.toList)

def Sign.not : Sign := (.not, ['¬'])

def Sign.implies : Sign := (.implies, ['→'])

def Sign.iff : Sign := (.iff, ['↔'])

def Operator.sign (op : Operator) : Sign := (.operator op, op.head.toList)

def Relation.sign (r : Relation) : Sign := (.relation r, (Symbols.plain.relation r).toList)

def Quantifier.sign (q : Quantifier) : Sign := (.quantifier q, (Symbols.plain.quantifier q).toList)

def Connective.sign : Connective → Sign
  | .and => (.connective .and, ['∧'])
  | .or => (.connective .or, ['∨'])
  | .exor => (.connective .exor, ['⊕'])

theorem Connective.sign_fst (c : Connective) : c.sign.1 = .connective c := by
  cases c <;> rfl

/-- The operator with the given head. -/
def Operator.ofHead? (head : String) : Option Operator :=
  [Operator.add, .sub, .mul, .union, .intersection].find? (·.head == head)

mutual

def Term.signs : Term → List Sign
  | .var v => [.name v.name]
  | .const name => [.name name]
  | .num n => [(.number, Nat.toDigits 10 n.toNat)]
  | .app head args =>
    match Operator.ofHead? head with
    | some op => .opening :: (signsOver op.sign args ++ [.closing])
    | none => .name head :: .opening :: (signsOver .comma args ++ [.closing])

/-- The signs of several terms, with another sign between each two of them. -/
def Term.signsOver (separator : Sign) : List Term → List Sign
  | [] => []
  | t :: ts => signs t ++ signsAfter separator ts

def Term.signsAfter (separator : Sign) : List Term → List Sign
  | [] => []
  | t :: ts => separator :: (signs t ++ signsAfter separator ts)

end

/-- The signs of several parts, with another sign between each two of them. -/
def joined {α : Type} (separator : Sign) (signs : α → List Sign) : List α → List Sign
  | [] => []
  | x :: xs => signs x ++ xs.flatMap fun y => separator :: signs y

theorem Term.signsAfter_eq_flatMap (separator : Sign) (ts : List Term) :
    signsAfter separator ts = ts.flatMap fun t => separator :: t.signs := by
  induction ts with
  | nil => rfl
  | cons t ts ih => simp [signsAfter, ih]

@[simp] theorem Term.signsOver_eq_joined (separator : Sign) (ts : List Term) :
    signsOver separator ts = joined separator signs ts := by
  cases ts with
  | nil => rfl
  | cons t ts => rw [signsOver, signsAfter_eq_flatMap, joined]

namespace Proposition

def relationSigns (name : String) (args : List Term) : List Sign :=
  match Relation.ofName? name, args with
  | some r, [lhs, rhs] => lhs.signs ++ r.sign :: rhs.signs
  | _, [] => [.name name]
  | _, args => .name name :: .opening :: (joined .comma Term.signs args ++ [.closing])

theorem relationSigns_of_ofName? {name : String} {r : Relation}
    (h : Relation.ofName? name = some r) (lhs rhs : Term) :
    relationSigns name [lhs, rhs] = lhs.signs ++ r.sign :: rhs.signs := by
  simp only [relationSigns, h]

theorem relationSigns_nil (name : String) : relationSigns name [] = [.name name] := by
  simp only [relationSigns]

theorem relationSigns_cons {name : String} (h : Relation.ofName? name = none) (t : Term)
    (ts : List Term) : relationSigns name (t :: ts) =
      .name name :: .opening :: (joined .comma Term.signs (t :: ts) ++ [.closing]) := by
  simp only [relationSigns, h]

/-- The signs of a part, bracketed unless that part is tight. -/
def bracketSigns (p : Proposition) (signs : List Sign) : List Sign :=
  if p.isTight then signs else .opening :: (signs ++ [.closing])

mutual

def signs : Proposition → List Sign
  | .relation name args _ => relationSigns name args
  | .not p _ => .not :: bracketSigns p (signs p)
  | .junction c ps _ => memberSigns c.sign ps
  | .implies a b _ => bracketSigns a (signs a) ++ .implies :: bracketSigns b (signs b)
  | .iff a b _ => bracketSigns a (signs a) ++ .iff :: bracketSigns b (signs b)
  | .quantified q v domain p _ =>
    q.sign :: .name v.name ::
      (domain.elim [] (fun set => Relation.element.sign :: set.signs) ++ .dot :: signs p)
  | .contradiction _ => []

def memberSigns (separator : Sign) : List Proposition → List Sign
  | [] => []
  | p :: ps => bracketSigns p (signs p) ++ furtherSigns separator ps

def furtherSigns (separator : Sign) : List Proposition → List Sign
  | [] => []
  | p :: ps => separator :: (bracketSigns p (signs p) ++ furtherSigns separator ps)

end

/-- The signs of a proposition as a part of another one. -/
def partSigns (p : Proposition) : List Sign := bracketSigns p p.signs

theorem furtherSigns_eq_flatMap (separator : Sign) (ps : List Proposition) :
    furtherSigns separator ps = ps.flatMap fun p => separator :: p.partSigns := by
  induction ps with
  | nil => rfl
  | cons p ps ih => simp [furtherSigns, ih, partSigns]

@[simp] theorem memberSigns_eq_joined (separator : Sign) (ps : List Proposition) :
    memberSigns separator ps = joined separator partSigns ps := by
  cases ps with
  | nil => rfl
  | cons p ps => rw [memberSigns, furtherSigns_eq_flatMap, joined, partSigns]

end Proposition

end Signs

section Texts

/-- Whatever may follow the text, lexing finds these signs first. -/
def Spells (text : String) (signs : List Sign) : Prop :=
  Opens text.toList ∧ ∀ rest more, Delimited rest → Lexes rest more →
    Lexes (text.toList ++ rest) (signs ++ more)

theorem Spells.lexes {text : String} {signs : List Sign} (h : Spells text signs) :
    Lexes text.toList signs := by
  simpa using h.2 [] [] delimited_nil .nil

/-- The text ends whatever stands before it, and is found as a single sign before whatever opens the
next part. -/
def Separates (text : String) (s : Sign) : Prop :=
  (∀ rest, Delimited (text.toList ++ rest)) ∧
    ∀ rest more, Opens rest → Lexes rest more → Lexes (text.toList ++ rest) (s :: more)

theorem Spells.name {name : String} (h : isWord name = true) : Spells name [.name name] :=
  ⟨opens_name h, fun _ _ hrest hmore => hmore.name h hrest⟩

theorem Spells.number {n : Int} (h : 0 ≤ n) :
    Spells (toString n) [(.number, Nat.toDigits 10 n.toNat)] := by
  have htext : (toString n).toList = Nat.toDigits 10 n.toNat :=
    (Term.toList_repr_int n).trans (if_pos h)
  rw [Spells, htext]
  exact ⟨opens_digits _, fun _ _ hrest hmore => hmore.digits hrest⟩

theorem Spells.bracketed {text : String} {signs : List Sign} (h : Spells text signs) :
    Spells ("(" ++ text ++ ")") (.opening :: (signs ++ [.closing])) := by
  have htext : ∀ rest, ("(" ++ text ++ ")").toList ++ rest =
      '(' :: (text.toList ++ ')' :: rest) := by
    intro rest
    simp
  refine ⟨⟨'(', text.toList ++ [')'], by simp, rfl⟩, fun rest more hrest hmore => ?_⟩
  have hclosing : Lexes (')' :: rest) (.closing :: more) := hmore.symbol rfl rfl
  have hinner := h.2 (')' :: rest) _ (delimited_cons rfl) hclosing
  rw [htext, List.cons_append, List.append_assoc]
  exact hinner.symbol rfl rfl

theorem Spells.append {text text' sep : String} {signs signs' : List Sign} {s : Sign}
    (h : Spells text signs) (hsep : Separates sep s) (h' : Spells text' signs') :
    Spells (text ++ sep ++ text') (signs ++ s :: signs') := by
  refine ⟨?_, fun rest more hrest hmore => ?_⟩
  · rw [String.toList_append, String.toList_append, List.append_assoc]
    exact opens_append h.1
  · rw [String.toList_append, String.toList_append, List.append_assoc, List.append_assoc,
      List.append_assoc]
    apply h.2 _ _ (hsep.1 _)
    exact hsep.2 _ _ (opens_append h'.1) (h'.2 rest more hrest hmore)

theorem toList_intercalate_cons {α : Type} (sep : String) (text : α → String) (x : α)
    (xs : List α) : (sep.intercalate ((x :: xs).map text)).toList =
      (text x).toList ++ xs.flatMap fun y => sep.toList ++ (text y).toList := by
  rw [String.toList_intercalate, List.map_map]
  induction xs generalizing x with
  | nil => simp
  | cons y ys ih =>
      have hrest := ih y
      simp only [List.map_cons, List.intercalate_cons_cons] at hrest ⊢
      rw [hrest]
      simp

theorem Spells.joined {α : Type} {sep : String} {s : Sign} {text : α → String}
    {signs : α → List Sign} (hsep : Separates sep s) {xs : List α} (hne : xs ≠ [])
    (h : ∀ x ∈ xs, Spells (text x) (signs x)) :
    Spells (sep.intercalate (xs.map text)) (Entailment.joined s signs xs) := by
  obtain ⟨x, xs, rfl⟩ := List.exists_cons_of_ne_nil hne
  have hfurther : ∀ rest more, Delimited rest → Lexes rest more →
      Delimited ((xs.flatMap fun y => sep.toList ++ (text y).toList) ++ rest) ∧
        Lexes ((xs.flatMap fun y => sep.toList ++ (text y).toList) ++ rest)
          ((xs.flatMap fun y => s :: signs y) ++ more) := by
    intro rest more hrest hmore
    clear hne
    induction xs with
    | nil => exact ⟨hrest, hmore⟩
    | cons y ys ih =>
        have hrest' := ih fun z hz => h z (by
          rcases List.mem_cons.mp hz with rfl | hz
          · exact List.mem_cons_self
          · exact List.mem_cons_of_mem _ (List.mem_cons_of_mem _ hz))
        have hy := h y (List.mem_cons_of_mem _ List.mem_cons_self)
        have hlexes := hsep.2 _ _ (opens_append hy.1) (hy.2 _ _ hrest'.1 hrest'.2)
        simp only [List.flatMap_cons, List.append_assoc, List.cons_append]
        exact ⟨hsep.1 _, hlexes⟩
  refine ⟨?_, fun rest more hrest hmore => ?_⟩
  · rw [toList_intercalate_cons]
    exact opens_append (h x List.mem_cons_self).1
  · rw [toList_intercalate_cons, List.append_assoc, Entailment.joined, List.append_assoc]
    obtain ⟨hdelimited, hlexes⟩ := hfurther rest more hrest hmore
    exact (h x List.mem_cons_self).2 _ _ hdelimited hlexes

theorem Separates.symbol {c : Char} {kind : TokenKind} {text : String} {s : Sign}
    (htext : text.toList = [c]) (hc : isNamePart c = false)
    (hfirst : ∀ rest, Opens rest → LexRule.first? rules (c :: rest) = some (kind, 1))
    (hsign : signOf? kind [c] = some s) : Separates text s := by
  rw [Separates, htext]
  refine ⟨fun rest => delimited_cons hc, fun rest more hrest hmore => ?_⟩
  exact hmore.symbol (hfirst rest hrest) hsign

/-- A symbol with a blank on either side. -/
theorem Separates.spaced {c : Char} {kind : TokenKind} {text : String} {s : Sign}
    (htext : text.toList = [' ', c, ' ']) (hc : isBlankChar c = false)
    (hfirst : ∀ rest, LexRule.first? rules (c :: ' ' :: rest) = some (kind, 1))
    (hsign : signOf? kind [c] = some s) : Separates text s := by
  rw [Separates, htext]
  refine ⟨fun rest => delimited_cons rfl, fun rest more hrest hmore => ?_⟩
  exact .infixed hmore hrest hc (hfirst _) hsign

theorem separates_operator (op : Operator) : Separates op.head op.sign := by
  cases op with
  | add => exact .symbol rfl rfl (fun _ _ => rfl) rfl
  | sub => exact .symbol rfl rfl (fun _ => first?_minus) rfl
  | mul => exact .symbol rfl rfl (fun _ _ => rfl) rfl
  | union => exact .symbol rfl rfl (fun _ _ => rfl) rfl
  | intersection => exact .symbol rfl rfl (fun _ _ => rfl) rfl

theorem separates_comma : Separates "," .comma := .symbol rfl rfl (fun _ _ => rfl) rfl

theorem separates_commaBlank : Separates ", " .comma := by
  refine ⟨fun rest => delimited_cons rfl, fun rest more hrest hmore => ?_⟩
  have hblank : Lexes (' ' :: rest) more := .blank (first?_blank hrest) hmore
  exact hblank.symbol rfl rfl

theorem separates_relation (r : Relation) :
    Separates (" " ++ Symbols.plain.relation r ++ " ") r.sign := by
  cases r <;> exact .spaced rfl rfl (fun _ => rfl) rfl

theorem separates_connective (c : Connective) :
    Separates (Symbols.plain.connective c) c.sign := by
  cases c <;> exact .spaced rfl rfl (fun _ => rfl) rfl

theorem separates_implies : Separates Symbols.plain.implies .implies :=
  .spaced rfl rfl (fun _ => rfl) rfl

theorem separates_iff : Separates Symbols.plain.iff .iff :=
  .spaced rfl rfl (fun _ => rfl) rfl

/-- A name in front of a list in brackets, which may be empty. -/
theorem Spells.applied {α : Type} {name sep : String} {text : α → String}
    {signs : α → List Sign} (hname : isWord name = true) (hsep : Separates sep .comma)
    {xs : List α} (h : ∀ x ∈ xs, Spells (text x) (signs x)) :
    Spells (name ++ "(" ++ sep.intercalate (xs.map text) ++ ")")
      (.name name :: .opening :: (Entailment.joined .comma signs xs ++ [.closing])) := by
  have hinner : ∀ rest more, Lexes rest more →
      Lexes ((sep.intercalate (xs.map text)).toList ++ ')' :: rest)
        (Entailment.joined .comma signs xs ++ .closing :: more) := by
    intro rest more hmore
    have hclosing : Lexes (')' :: rest) (.closing :: more) := hmore.symbol rfl rfl
    by_cases hne : xs = []
    · subst hne
      exact hclosing
    · exact (Spells.joined hsep hne h).2 _ _ (delimited_cons rfl) hclosing
  have htext : ∀ rest, (name ++ "(" ++ sep.intercalate (xs.map text) ++ ")").toList ++ rest =
      name.toList ++ '(' :: ((sep.intercalate (xs.map text)).toList ++ ')' :: rest) := by
    intro rest
    simp
  refine ⟨?_, fun rest more hrest hmore => ?_⟩
  · rw [← List.append_nil (name ++ "(" ++ sep.intercalate (xs.map text) ++ ")").toList, htext]
    exact opens_append (opens_name hname)
  · rw [htext, List.cons_append, List.cons_append, List.append_assoc]
    have hopening : Lexes ('(' :: ((sep.intercalate (xs.map text)).toList ++ ')' :: rest))
        (.opening :: (Entailment.joined .comma signs xs ++ .closing :: more)) :=
      (hinner rest more hmore).symbol rfl rfl
    exact hopening.name hname (delimited_cons rfl)

end Texts

namespace Operator

theorem ofHead?_head (op : Operator) : ofHead? op.head = some op := by
  cases op <;> decide

theorem head_of_ofHead? {head : String} {op : Operator} (h : ofHead? head = some op) :
    op.head = head := by
  simpa using List.find?_some h

theorem exists_head_of_isOperator {head : String} (h : Term.isOperator head = true) :
    ∃ op : Operator, head = op.head := by
  have hcases : head = "+" ∨ head = "-" ∨ head = "*" ∨ head = "∪" ∨ head = "∩" := by
    simpa [Term.isOperator] using h
  rcases hcases with rfl | rfl | rfl | rfl | rfl
  · exact ⟨.add, rfl⟩
  · exact ⟨.sub, rfl⟩
  · exact ⟨.mul, rfl⟩
  · exact ⟨.union, rfl⟩
  · exact ⟨.intersection, rfl⟩

theorem isOperator_head (op : Operator) : Term.isOperator op.head = true := by
  cases op <;> decide

theorem isWord_head (op : Operator) : isWord op.head = false := by
  cases op <;> decide

end Operator

theorem isOperator_of_isWord {head : String} (h : isWord head = true) :
    Term.isOperator head = false := by
  by_contra hoperator
  rw [Bool.not_eq_false] at hoperator
  obtain ⟨op, rfl⟩ := Operator.exists_head_of_isOperator hoperator
  rw [Operator.isWord_head] at h
  cases h

theorem ofHead?_of_isWord {head : String} (h : isWord head = true) :
    Operator.ofHead? head = none := by
  cases hop : Operator.ofHead? head with
  | none => rfl
  | some op =>
      rw [← Operator.head_of_ofHead? hop, Operator.isWord_head] at h
      cases h

section Parts
variable {env : Environment} {bound : List Variable}

/-- Printable terms are spelled by their text, if the names of their variables can be. -/
theorem Term.spells {t : Term} (hprintable : t.isPrintable env bound = true)
    (hwords : ∀ v, (Term.var v).occursIn t = true → isWord v.name = true) :
    Spells t.render t.signs := by
  induction t using Term.inductionOn with
  | var v => exact .name (hwords v (by simp [Term.occursIn]))
  | const name =>
      rw [Term.isPrintable, Bool.and_eq_true] at hprintable
      exact .name hprintable.1
  | num n =>
      rw [Term.isPrintable, decide_eq_true_eq] at hprintable
      exact .number hprintable
  | app head args ih =>
      rw [Term.isPrintable, Term.arePrintable_eq_all, Bool.and_eq_true, List.all_eq_true]
        at hprintable
      have hargs : ∀ u ∈ args, Spells u.render u.signs := by
        intro u hu
        refine ih u hu (hprintable.2 u hu) fun v hv => hwords v ?_
        rw [Term.occursIn, Term.occursInAny_eq_any, Bool.or_eq_true, List.any_eq_true]
        exact .inr ⟨u, hu, hv⟩
      rw [Term.render, Term.renderList_eq_map, Term.renderApp, Term.signs, List.length_map]
      rcases Bool.or_eq_true _ _ ▸ hprintable.1 with hword | hjoined
      · rw [isOperator_of_isWord hword, ofHead?_of_isWord hword]
        simp only [Bool.false_and, Bool.false_eq_true, ↓reduceIte, Term.signsOver_eq_joined]
        exact .applied hword separates_comma hargs
      · rw [Bool.and_eq_true, decide_eq_true_eq] at hjoined
        obtain ⟨op, rfl⟩ := Operator.exists_head_of_isOperator hjoined.1
        have hmany : (Term.isOperator op.head && decide (args.length > 1)) = true := by
          rw [hjoined.1, Bool.true_and]
          exact decide_eq_true hjoined.2
        have hne : args ≠ [] := by
          rintro rfl
          cases hjoined.2
        rw [if_pos hmany, Operator.ofHead?_head]
        simp only [Term.signsOver_eq_joined]
        exact (Spells.joined (separates_operator op) hne hargs).bracketed

theorem ofName?_of_isWord {name : String} (h : isWord name = true) :
    Relation.ofName? name = none := by
  cases hr : Relation.ofName? name with
  | none => rfl
  | some r =>
      have hname : r.name = name := by simpa using List.find?_some hr
      have hsymbol : isWord r.name = false := by cases r <;> decide
      rw [← hname, hsymbol] at h
      cases h

namespace Proposition

theorem spells_relation {name : String} {args : List Term} {mark : Option FactId}
    (hprintable : isPrintable env bound (.relation name args mark) = true)
    (hargs : ∀ t ∈ args, Spells t.render t.signs) :
    Spells (writeRelation .plain name args) (relationSigns name args) := by
  rw [isPrintable, Bool.and_eq_true, Bool.or_eq_true] at hprintable
  rcases hprintable.1 with hsymbol | hword
  · rw [Bool.and_eq_true, decide_eq_true_eq, Option.isSome_iff_exists] at hsymbol
    obtain ⟨⟨r, hr⟩, hlength⟩ := hsymbol
    obtain ⟨lhs, rhs, rfl⟩ := List.length_eq_two.mp hlength
    have happend := (hargs lhs (by simp)).append (separates_relation r) (hargs rhs (by simp))
    have htext : writeRelation .plain name [lhs, rhs] =
        lhs.render ++ (" " ++ Symbols.plain.relation r ++ " ") ++ rhs.render := by
      simp only [writeRelation, hr, String.append_assoc]
    rw [htext, relationSigns_of_ofName? hr]
    exact happend
  · rw [Bool.and_eq_true] at hword
    have hname := ofName?_of_isWord hword.1
    cases args with
    | nil =>
        have htext : writeRelation .plain name [] = name := by simp only [writeRelation]
        rw [htext, relationSigns_nil]
        exact .name hword.1
    | cons t ts =>
        have htext : writeRelation .plain name (t :: ts) =
            name ++ "(" ++ ", ".intercalate ((t :: ts).map Term.render) ++ ")" := by
          simp only [writeRelation, hname]
        rw [htext, relationSigns_cons hname]
        exact .applied hword.1 separates_commaBlank hargs

theorem spells_not {text : String} {signs : List Sign} (h : Spells text signs) :
    Spells (Symbols.plain.not ++ text) (.not :: signs) := by
  have htext : ∀ rest, (Symbols.plain.not ++ text).toList ++ rest =
      '¬' :: (text.toList ++ rest) := by
    intro rest
    simp [Symbols.plain]
  refine ⟨?_, fun rest more hrest hmore => ?_⟩
  · rw [← List.append_nil (Symbols.plain.not ++ text).toList, htext]
    exact ⟨'¬', _, rfl, rfl⟩
  · rw [htext]
    exact (h.2 rest more hrest hmore).symbol rfl rfl

theorem spells_quantified {q : Quantifier} {v : Variable} {domain : Option Term} {text : String}
    {signs : List Sign} (hname : isWord v.name = true)
    (hdomain : ∀ set ∈ domain, Spells set.render set.signs) (h : Spells text signs) :
    Spells (Symbols.plain.quantifier q ++ v.name ++
        domain.elim "" (fun set => Symbols.plain.element ++ set.render) ++ Symbols.plain.dot ++
        text)
      (q.sign :: .name v.name ::
        (domain.elim [] (fun set => Relation.element.sign :: set.signs) ++ .dot :: signs)) := by
  have htext : ∀ rest, (Symbols.plain.quantifier q ++ v.name ++
      domain.elim "" (fun set => Symbols.plain.element ++ set.render) ++ Symbols.plain.dot ++
        text).toList ++ rest =
      (Symbols.plain.quantifier q).toList ++ (v.name.toList ++
        (domain.elim [] (fun set => '∈' :: set.render.toList) ++
          '.' :: ' ' :: (text.toList ++ rest))) := by
    intro rest
    cases domain <;> simp [Symbols.plain]
  have hlexes : ∀ rest more, Delimited rest → Lexes rest more →
      Lexes (v.name.toList ++ (domain.elim [] (fun set => '∈' :: set.render.toList) ++
          '.' :: ' ' :: (text.toList ++ rest)))
        (.name v.name :: (domain.elim [] (fun set => Relation.element.sign :: set.signs) ++
          .dot :: (signs ++ more))) := by
    intro rest more hrest hmore
    have hbody := h.2 rest more hrest hmore
    have hblank := Lexes.blank (first?_blank (opens_append h.1)) hbody
    have hdot : Lexes ('.' :: ' ' :: (text.toList ++ rest)) (.dot :: (signs ++ more)) :=
      hblank.symbol rfl rfl
    cases domain with
    | none => exact hdot.name hname (delimited_cons rfl)
    | some set =>
        have hset := (hdomain set rfl).2 _ _ (delimited_cons rfl) hdot
        have helement : Lexes ('∈' :: (set.render.toList ++ '.' :: ' ' :: (text.toList ++ rest)))
            (Relation.element.sign :: (set.signs ++ .dot :: (signs ++ more))) :=
          hset.symbol rfl rfl
        exact helement.name hname (delimited_cons rfl)
  refine ⟨?_, fun rest more hrest hmore => ?_⟩
  · rw [← List.append_nil (Symbols.plain.quantifier q ++ v.name ++
      domain.elim "" (fun set => Symbols.plain.element ++ set.render) ++ Symbols.plain.dot ++
        text).toList, htext]
    cases q <;> exact ⟨_, _, rfl, rfl⟩
  · rw [htext]
    have hname := hlexes rest more hrest hmore
    simp only [List.cons_append, List.append_assoc]
    cases q <;> exact hname.symbol rfl rfl

/-- Printable propositions are spelled by their text, if the names of their free variables can
be. -/
theorem spells {p : Proposition} (hprintable : p.isPrintable env bound = true)
    (hmade : p.isWellMade = true)
    (hwords : ∀ v, p.contains (.var v) = true → isWord v.name = true) :
    Spells p.render p.signs := by
  have hbracket : ∀ p : Proposition, Spells p.render p.signs →
      Spells (bracket p p.render) p.partSigns := by
    intro p hp
    unfold bracket partSigns bracketSigns
    split
    next => exact hp
    next => exact hp.bracketed
  induction p using Proposition.inductionOn generalizing bound with
  | relation name args mark =>
      refine spells_relation hprintable fun t ht => ?_
      rw [isPrintable, Bool.and_eq_true, List.all_eq_true] at hprintable
      refine Term.spells (hprintable.2 t ht) fun v hv => hwords v ?_
      rw [contains, List.any_eq_true]
      exact ⟨t, ht, hv⟩
  | not p mark ih => exact spells_not (hbracket p (ih hprintable hmade hwords))
  | junction c ps mark ih =>
      rw [isPrintable, arePrintable_eq_all, List.all_eq_true] at hprintable
      rw [isWellMade, areWellMade_eq_all, Bool.and_eq_true, decide_eq_true_eq, List.all_eq_true]
        at hmade
      have hne : ps ≠ [] := by
        rintro rfl
        cases hmade.1
      have hmembers : ∀ p ∈ ps, Spells (bracket p p.render) p.partSigns := by
        intro p hp
        refine hbracket p (ih p hp (hprintable p hp) (hmade.2 p hp) fun v hv => hwords v ?_)
        rw [contains, containsAny_eq_any, List.any_eq_true]
        exact ⟨p, hp, hv⟩
      rw [render, write, writeMembers_eq_map, signs, memberSigns_eq_joined]
      exact .joined (separates_connective c) hne hmembers
  | implies a b mark iha ihb =>
      rw [isPrintable, Bool.and_eq_true] at hprintable
      rw [isWellMade, Bool.and_eq_true] at hmade
      have hleft := iha hprintable.1 hmade.1 fun v hv => hwords v (by simp [contains, hv])
      have hright := ihb hprintable.2 hmade.2 fun v hv => hwords v (by simp [contains, hv])
      exact (hbracket a hleft).append separates_implies (hbracket b hright)
  | iff a b mark iha ihb =>
      rw [isPrintable, Bool.and_eq_true] at hprintable
      rw [isWellMade, Bool.and_eq_true] at hmade
      have hleft := iha hprintable.1 hmade.1 fun v hv => hwords v (by simp [contains, hv])
      have hright := ihb hprintable.2 hmade.2 fun v hv => hwords v (by simp [contains, hv])
      exact (hbracket a hleft).append separates_iff (hbracket b hright)
  | quantified q v domain p mark ih =>
      simp only [isPrintable, Bool.and_eq_true] at hprintable
      obtain ⟨⟨⟨⟨hname, -⟩, -⟩, hdomain⟩, hbody⟩ := hprintable
      rw [isWellMade, Bool.and_eq_true] at hmade
      have hbodyWords : ∀ w, p.contains (.var w) = true → isWord w.name = true := by
        intro w hw
        by_cases hsame : w = v
        · rw [hsame]
          exact hname
        · apply hwords
          have hother : (Term.var v).occursIn (.var w) = false := by
            simpa [Term.occursIn] using hsame
          simp [contains, hother, hw]
      refine spells_quantified hname (fun set hset => ?_) (ih hbody hmade.2 hbodyWords)
      subst hset
      refine Term.spells hdomain fun w hw => hwords w ?_
      simp [contains, hw]
  | contradiction mark => cases hprintable

end Proposition

end Parts

end Entailment

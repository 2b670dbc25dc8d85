import Entailment.Proofs.AtomKey

/-!
# Cutting text into signs

Lexing takes one piece after the other off a text, each with the first rule that fits, and
`lexFrom_induction` is the way to argue about that.

Readers look at the kind and the text of a token only, never at where it stands. `Lexes` says which
signs a text consists of, built up from the last sign to the first: each one is what the first
fitting rule takes off the front. A sign that could go on has to be followed by something that does
not continue it, so the lemmas about names, numbers and blanks ask what the rest begins with.
-/
namespace Entailment

namespace LexRule
variable {κ : Type} {rules : List (LexRule κ)} {kind : κ} {n : Nat} {text : List Char}

theorem first?_cons (r : LexRule κ) (rules : List (LexRule κ)) (text : List Char) :
    first? (r :: rules) text = if r.scanner.accept text = 0 then first? rules text
      else some (r.kind, r.scanner.accept text) := by
  rw [first?, List.findSome?_cons]
  cases r.scanner.accept text with
  | zero => rfl
  | succ n => rfl

/-- What the first rule takes is what some rule of that kind accepts. -/
theorem exists_of_first? (h : first? rules text = some (kind, n)) :
    n ≠ 0 ∧ ∃ r ∈ rules, r.kind = kind ∧ r.scanner.accept text = n := by
  obtain ⟨r, hr, haccept⟩ := List.exists_of_findSome?_eq_some h
  split at haccept
  next => cases haccept
  next hzero =>
    rw [Option.some.injEq, Prod.mk.injEq] at haccept
    obtain ⟨hkind, hn⟩ := haccept
    rw [hn] at hzero
    exact ⟨hzero, r, hr, hkind, hn⟩

theorem first?_ne_zero (h : first? rules text = some (kind, n)) : n ≠ 0 :=
  (exists_of_first? h).1

/-- Lexing takes one piece after the other off a text. What came before counts for positions. -/
theorem lexFrom_induction {P : List Char → List Char → Lexing κ → Prop}
    (hstop : ∀ before text, first? rules text = none →
      P before text ⟨[], before.length, text.length⟩)
    (hend : ∀ before kind n, first? rules [] = some (kind, n) →
      P before [] ⟨[⟨kind, before.length, before.length⟩], before.length + 1, 0⟩)
    (hstep : ∀ before piece after kind n tail, piece ≠ [] →
      first? rules (piece ++ after) = some (kind, n) → piece = (piece ++ after).take n →
      P (before ++ piece) after tail → P before (piece ++ after)
        { tail with
          lexemes := ⟨kind, before.length, (before ++ piece).length⟩ :: tail.lexemes })
    (before text : List Char) : P before text (lexFrom rules before.length text) := by
  induction hlength : text.length using Nat.strongRecOn generalizing before text with
  | ind length ih =>
      rw [lexFrom.eq_def]
      cases hfirst : first? rules text with
      | none => exact hstop before text hfirst
      | some found =>
          obtain ⟨kind, n⟩ := found
          cases text with
          | nil => exact hend before kind n hfirst
          | cons c rest =>
              have hn : n ≠ 0 := first?_ne_zero hfirst
              have hstop : before.length + min n (c :: rest).length =
                  (before ++ (c :: rest).take n).length := by
                rw [List.length_append, List.length_take]
              have hrest : rest.drop (n - 1) = (c :: rest).drop n := by
                obtain ⟨k, rfl⟩ := Nat.exists_eq_succ_of_ne_zero hn
                rfl
              have hshorter : ((c :: rest).drop n).length < length := by
                rw [List.length_drop, ← hlength, List.length_cons]
                omega
              have hpiece : (c :: rest).take n ≠ [] := by simpa using hn
              have hwhole : (c :: rest).take n ++ (c :: rest).drop n = c :: rest :=
                List.take_append_drop _ _
              have htail := hstep before _ _ kind n _ hpiece (by rw [hwhole, hfirst])
                (by rw [hwhole]) (ih _ hshorter (before ++ (c :: rest).take n) _ rfl)
              rw [hwhole] at htail
              dsimp only
              rw [hstop, hrest]
              exact htail

end LexRule

/-- What readers see of a token. -/
abbrev Sign := TokenKind × List Char

namespace Token
open Scanner LexRule

def sign (t : Token) : Sign := (t.kind, t.text)

/-- The sign that a piece of text is, unless it is blank or the end. -/
def signOf? (kind : TokenKind) (chars : List Char) : Option Sign :=
  match kind with
  | .space | .ending => none
  | .name => some ((keyword? (String.ofList chars)).getD .name, chars)
  | kind => some (kind, chars)

/-- The text consists of these signs, apart from blanks. -/
inductive Lexes : List Char → List Sign → Prop
  | nil : Lexes [] []
  | cons {kind : TokenKind} {c : Char} {piece rest : List Char} {signs : List Sign} :
      first? rules (c :: piece ++ rest) = some (kind, piece.length + 1) → Lexes rest signs →
      Lexes (c :: piece ++ rest) ((signOf? kind (c :: piece)).toList ++ signs)

theorem map_sign_ofLexeme? (before piece rest : List Char) (kind : TokenKind) :
    (ofLexeme? (before ++ (piece ++ rest))
      ⟨kind, before.length, before.length + piece.length⟩).map sign = signOf? kind piece := by
  have hchars : ((before ++ (piece ++ rest)).drop before.length).take
      (before.length + piece.length - before.length) = piece := by
    rw [List.drop_left, Nat.add_sub_cancel_left, List.take_left]
  unfold ofLexeme? signOf?
  dsimp only
  rw [hchars]
  cases kind <;> rfl

/-- Lexing finds the signs one after another, wherever in a longer text it starts. -/
theorem Lexes.lexFrom {text : List Char} {signs : List Sign} (h : Lexes text signs)
    (before : List Char) :
    (LexRule.lexFrom rules before.length text).remaining = 0 ∧
      ((LexRule.lexFrom rules before.length text).lexemes.filterMap
        (ofLexeme? (before ++ text))).map sign = signs := by
  induction h generalizing before with
  | nil =>
      have hend : first? rules [] = some (.ending, 1) := rfl
      have hstep : LexRule.lexFrom rules before.length [] =
          ⟨[⟨.ending, before.length, before.length⟩], before.length + 1, 0⟩ := by
        rw [LexRule.lexFrom.eq_def, hend]
      rw [hstep]
      exact ⟨rfl, rfl⟩
  | @cons kind c piece rest signs hfirst _ ih =>
      obtain ⟨hremaining, hlexemes⟩ := ih (before ++ (c :: piece))
      rw [List.append_assoc] at hlexemes
      have hstop : before.length + min (piece.length + 1) (c :: (piece ++ rest)).length =
          (before ++ (c :: piece)).length := by
        simp only [List.length_cons, List.length_append]
        omega
      have hdrop : (piece ++ rest).drop (piece.length + 1 - 1) = rest := by
        rw [Nat.add_sub_cancel, List.drop_left]
      have hstep : LexRule.lexFrom rules before.length (c :: piece ++ rest) =
          { LexRule.lexFrom rules (before ++ (c :: piece)).length rest with
            lexemes := ⟨kind, before.length, (before ++ (c :: piece)).length⟩ ::
              (LexRule.lexFrom rules (before ++ (c :: piece)).length rest).lexemes } := by
        rw [LexRule.lexFrom.eq_def, hfirst]
        simp only [List.cons_append]
        rw [hstop, hdrop]
      have hsign := map_sign_ofLexeme? before (c :: piece) rest kind
      rw [← List.length_append] at hsign
      rw [hstep]
      refine ⟨hremaining, ?_⟩
      rw [List.filterMap_cons, ← hsign, ← hlexemes]
      cases ofLexeme? (before ++ (c :: piece ++ rest))
          ⟨kind, before.length, (before ++ (c :: piece)).length⟩ with
      | none => rfl
      | some t => rfl

theorem Lexes.ofText {text : List Char} {signs : List Sign} (h : Lexes text signs) :
    ∃ tokens, Token.ofText text = .ok tokens ∧ tokens.map sign = signs := by
  obtain ⟨hremaining, hsigns⟩ := h.lexFrom []
  refine ⟨(LexRule.lex rules text).lexemes.filterMap (ofLexeme? text), ?_, hsigns⟩
  unfold Token.ofText
  exact if_pos hremaining

section Pieces
variable {rest : List Char} {signs : List Sign}

theorem Lexes.symbol {c : Char} {kind : TokenKind} {s : Sign} (h : Lexes rest signs)
    (hfirst : first? rules (c :: rest) = some (kind, 1)) (hsign : signOf? kind [c] = some s) :
    Lexes (c :: rest) (s :: signs) := by
  have hcons : Lexes (c :: [] ++ rest) ((signOf? kind [c]).toList ++ signs) := .cons hfirst h
  rw [hsign] at hcons
  exact hcons

/-- The characters that names and numbers consist of. -/
def isNamePart (c : Char) : Bool :=
  c == '_' || c == '\'' || (decide ('0' ≤ c) && decide (c ≤ '9')) ||
    (decide ('a' ≤ c) && decide (c ≤ 'z')) || (decide ('A' ≤ c) && decide (c ≤ 'Z'))

/-- The characters that the text of a term or a proposition may begin with. -/
def isOpener (c : Char) : Bool :=
  isNamePart c || c == '(' || c == '¬' || c == '∀' || c == '∃'

/-- The text does not go on with a character of a name or a number. -/
def Delimited (rest : List Char) : Prop := ∀ c ∈ rest.head?, isNamePart c = false

/-- The text goes on with the beginning of a term or a proposition. -/
def Opens (rest : List Char) : Prop := ∃ c more, rest = c :: more ∧ isOpener c = true

theorem delimited_nil : Delimited [] := by simp [Delimited]

theorem delimited_cons {c : Char} (h : isNamePart c = false) : Delimited (c :: rest) := by
  simpa [Delimited] using h

theorem opens_append {text : List Char} (h : Opens text) : Opens (text ++ rest) := by
  obtain ⟨c, more, rfl, hc⟩ := h
  exact ⟨c, more ++ rest, rfl, hc⟩

theorem namePart_accept (c : Char) (rest : List Char) :
    namePart.accept (c :: rest) = if isNamePart c then 1 else 0 := by
  simp only [namePart, accept, acceptFirst, word, digit, lower, upper, isNamePart]
  simp [eq_comm (a := c)]
  grind

theorem nameStart_accept (c : Char) (rest : List Char) :
    nameStart.accept (c :: rest) =
      if c = '_' ∨ ('a' ≤ c ∧ c ≤ 'z') ∨ ('A' ≤ c ∧ c ≤ 'Z') then 1 else 0 := by
  simp only [nameStart, accept, acceptFirst, word, lower, upper]
  simp [eq_comm (a := c)]
  grind

theorem digit_accept (c : Char) (rest : List Char) :
    digit.accept (c :: rest) = if '0' ≤ c ∧ c ≤ '9' then 1 else 0 := by
  rw [digit, accept]

/-- Repeating a scanner takes all characters that it accepts, and stops before the first that it
does not. -/
theorem repeated_append {accept : List Char → Nat} {n : Nat} {piece rest : List Char}
    (hpiece : ∀ c ∈ piece, ∀ more, accept (c :: more) = 1)
    (hrest : ∀ c more, rest = c :: more → accept rest = 0) (hn : piece.length ≤ n) :
    repeated accept n (piece ++ rest) = piece.length := by
  induction piece generalizing n with
  | nil =>
      cases n with
      | zero => rfl
      | succ n =>
          cases rest with
          | nil => rfl
          | cons c more => simp [repeated, hrest c more rfl]
  | cons c piece ih =>
      cases n with
      | zero => simp at hn
      | succ n =>
          have hc : accept (c :: (piece ++ rest)) = 1 := hpiece c List.mem_cons_self _
          have htail := ih (fun d hd => hpiece d (List.mem_cons_of_mem _ hd))
            (Nat.le_of_succ_le_succ hn)
          simp only [List.cons_append, repeated, hc, List.drop_succ_cons, List.drop_zero, htail,
            List.length_cons]
          omega

theorem first?_append_of_forall {κ : Type} {before after : List (LexRule κ)} {text : List Char}
    (h : ∀ r ∈ before, r.scanner.accept text = 0) :
    first? (before ++ after) text = first? after text := by
  have hnone : first? before text = none := by
    rw [first?, List.findSome?_eq_none_iff]
    intro r hr
    simp only [h r hr]
  unfold first? at hnone ⊢
  rw [List.findSome?_append, hnone, Option.none_or]

/-- No rule but those for numbers and names accepts a character of a name. -/
theorem first?_of_isNamePart {c : Char} {text : List Char} (h : isNamePart c = true) :
    first? rules (c :: text) =
      first? [⟨number, .number⟩, ⟨identifier, .name⟩, ⟨.ending, .ending⟩] (c :: text) := by
  have hne : ∀ d, isNamePart d = false → d ≠ c := by
    rintro d hd rfl
    rw [h] at hd
    cases hd
  have hrules : ∀ r ∈ rules.take 38, r.scanner.accept (c :: text) = 0 := by
    simp (disch := decide) [rules, accept, word, whitespace, repeated, acceptFirst, hne]
  exact first?_append_of_forall hrules

theorem Delimited.namePart (h : Delimited rest) :
    ∀ c more, rest = c :: more → namePart.accept rest = 0 := by
  rintro c more rfl
  rw [namePart_accept, h c rfl]
  rfl

theorem Delimited.digit (h : Delimited rest) :
    ∀ c more, rest = c :: more → digit.accept rest = 0 := by
  rintro c more rfl
  have hc : isNamePart c = false := h c rfl
  rw [digit_accept, if_neg]
  rintro ⟨hlow, hhigh⟩
  simp [isNamePart, hlow, hhigh] at hc

/-- Whether a text can stand for a name: it is spelled like one, and is not reserved. -/
def isWord (name : String) : Bool := isName name && (keyword? name).isNone

theorem isDigit_iff {c : Char} : c.isDigit = true ↔ '0' ≤ c ∧ c ≤ '9' := by
  simp [Char.isDigit, Char.le_def]

theorem isNamePart_of_isDigit {c : Char} (h : c.isDigit = true) : isNamePart c = true := by
  simp [isNamePart, isDigit_iff.mp h]

theorem isNamePart_of_letter {c : Char}
    (h : c = '_' ∨ ('a' ≤ c ∧ c ≤ 'z') ∨ ('A' ≤ c ∧ c ≤ 'Z')) : isNamePart c = true := by
  rcases h with rfl | hlower | hupper
  · rfl
  · simp [isNamePart, hlower]
  · simp [isNamePart, hupper]

theorem opens_of_isNamePart {c : Char} (h : isNamePart c = true) : Opens (c :: rest) :=
  ⟨c, rest, rfl, by rw [isOpener, h]; rfl⟩

theorem opens_name {name : String} (h : isWord name = true) : Opens name.toList := by
  rw [isWord, Bool.and_eq_true] at h
  obtain ⟨c, cs, htext, ⟨more, hstart⟩, -⟩ := accepted_of_isName h.1
  rw [htext]
  exact opens_of_isNamePart (isNamePart_of_letter (letter_of_nameStart hstart))

theorem opens_digits (n : Nat) : Opens (Nat.toDigits 10 n) := by
  obtain ⟨c, cs, htext⟩ := List.exists_cons_of_ne_nil (Nat.toDigits_ne_nil (b := 10) (n := n))
  have hdigit : c.isDigit = true := Term.isDigit_of_mem_toDigits (n := n) (by simp [htext])
  rw [htext]
  exact opens_of_isNamePart (isNamePart_of_isDigit hdigit)

theorem first?_name {c : Char} {cs : List Char} (hrest : Delimited rest)
    (hstart : c = '_' ∨ ('a' ≤ c ∧ c ≤ 'z') ∨ ('A' ≤ c ∧ c ≤ 'Z'))
    (hparts : ∀ d ∈ cs, isNamePart d = true) :
    first? rules (c :: cs ++ rest) = some (.name, cs.length + 1) := by
  have hdigit : digit.accept (c :: (cs ++ rest)) = 0 := by
    rw [digit_accept, if_neg]
    intro hdigit
    have hnot := Term.not_isDigit_of_letter hstart
    rw [isDigit_iff.mpr hdigit] at hnot
    cases hnot
  have hnumber : number.accept (c :: (cs ++ rest)) = 0 := by
    rw [number, accept_andThen, if_pos hdigit]
  have hmany : (many namePart).accept (cs ++ rest) = cs.length := by
    rw [accept]
    apply repeated_append
    · intro d hd more
      rw [namePart_accept, hparts d hd]
      rfl
    · exact hrest.namePart
    · simp
  have hidentifier : identifier.accept (c :: (cs ++ rest)) = cs.length + 1 := by
    have hone : nameStart.accept (c :: (cs ++ rest)) = 1 := by
      rw [nameStart_accept, if_pos hstart]
    change (andThen nameStart (many namePart)).accept _ = _
    rw [accept_andThen, hone, if_neg Nat.one_ne_zero, List.drop_succ_cons, List.drop_zero, hmany,
      Nat.add_comm]
  rw [List.cons_append, first?_of_isNamePart (isNamePart_of_letter hstart)]
  simp [first?, hnumber, hidentifier]

theorem Lexes.name {name : String} (hname : isWord name = true) (hrest : Delimited rest)
    (h : Lexes rest signs) : Lexes (name.toList ++ rest) ((.name, name.toList) :: signs) := by
  rw [isWord, Bool.and_eq_true, Option.isNone_iff_eq_none] at hname
  obtain ⟨c, cs, htext, ⟨more, hstart⟩, hparts⟩ := accepted_of_isName hname.1
  have hparts' : ∀ d ∈ cs, isNamePart d = true := by
    intro d hd
    obtain ⟨more, hmore⟩ := hparts d hd
    rw [namePart_accept] at hmore
    by_contra hnot
    exact hmore (if_neg hnot)
  have hfirst := first?_name hrest (letter_of_nameStart hstart) hparts'
  have hsign : signOf? .name (c :: cs) = some (.name, c :: cs) := by
    have hkeyword : keyword? (String.ofList (c :: cs)) = none := by
      rw [← htext, String.ofList_toList]
      exact hname.2
    rw [signOf?, hkeyword]
    rfl
  have hcons := Lexes.cons hfirst h
  rw [hsign] at hcons
  rw [htext]
  exact hcons

theorem Lexes.digits {n : Nat} (hrest : Delimited rest) (h : Lexes rest signs) :
    Lexes (Nat.toDigits 10 n ++ rest) ((.number, Nat.toDigits 10 n) :: signs) := by
  have hdigits : ∀ c ∈ Nat.toDigits 10 n, c.isDigit = true := fun c hc =>
    Term.isDigit_of_mem_toDigits hc
  obtain ⟨c, cs, htext⟩ := List.exists_cons_of_ne_nil (Nat.toDigits_ne_nil (b := 10) (n := n))
  rw [htext] at hdigits ⊢
  have hone : ∀ d ∈ c :: cs, ∀ more, digit.accept (d :: more) = 1 := by
    intro d hd more
    rw [digit_accept, if_pos (isDigit_iff.mp (hdigits d hd))]
  have hmany : (many digit).accept (cs ++ rest) = cs.length := by
    rw [accept]
    apply repeated_append
    · exact fun d hd => hone d (List.mem_cons_of_mem _ hd)
    · exact hrest.digit
    · simp
  have hnumber : number.accept (c :: (cs ++ rest)) = cs.length + 1 := by
    rw [number, accept_andThen, hone c List.mem_cons_self, if_neg Nat.one_ne_zero,
      List.drop_succ_cons, List.drop_zero, hmany, Nat.add_comm]
  have hfirst : first? rules (c :: cs ++ rest) = some (.number, cs.length + 1) := by
    have hc := isNamePart_of_isDigit (hdigits c List.mem_cons_self)
    rw [List.cons_append, first?_of_isNamePart hc]
    simp [first?, hnumber]
  exact Lexes.cons hfirst h

/-- A single blank, if the text goes on after it. -/
theorem Lexes.blank (hfirst : first? rules (' ' :: rest) = some (.space, 1))
    (h : Lexes rest signs) : Lexes (' ' :: rest) signs := by
  have hcons : Lexes (' ' :: [] ++ rest) ((signOf? .space [' ']).toList ++ signs) := .cons hfirst h
  exact hcons

def isBlankChar (c : Char) : Bool := c == ' ' || c == '\t' || c == '\n' || c == '\r'

/-- A blank before anything but another blank. -/
theorem first?_blank_cons {c : Char} (h : isBlankChar c = false) :
    first? rules (' ' :: c :: rest) = some (.space, 1) := by
  have hne : ∀ d, isBlankChar d = true → d ≠ c := by
    rintro d hd rfl
    rw [h] at hd
    cases hd
  have hrules : ∀ r ∈ rules.take 37, r.scanner.accept (' ' :: c :: rest) = 0 := by
    simp [rules, accept, word]
  have hblank : whitespace.accept (' ' :: c :: rest) = 1 := by
    simp (disch := decide) [whitespace, accept, repeated, acceptFirst, word, hne]
  refine (first?_append_of_forall hrules).trans ?_
  simp [first?, hblank]

/-- A text does not open with another blank. -/
theorem first?_blank (h : Opens rest) : first? rules (' ' :: rest) = some (.space, 1) := by
  obtain ⟨c, more, rfl, hc⟩ := h
  apply first?_blank_cons
  by_contra hblank
  rw [Bool.not_eq_false] at hblank
  have hcases : c = ' ' ∨ c = '\t' ∨ c = '\n' ∨ c = '\r' := by
    simpa [isBlankChar, or_assoc] using hblank
  rcases hcases with rfl | rfl | rfl | rfl <;> cases hc

/-- Nor does it open with what makes an arrow of a minus sign. -/
theorem first?_minus (h : Opens rest) :
    first? rules ('-' :: rest) = some (.operator .sub, 1) := by
  obtain ⟨c, more, rfl, hc⟩ := h
  have hne : '>' ≠ c := by
    rintro rfl
    cases hc
  simp [first?, rules, accept, word, hne]

/-- A symbol with a blank on either side. -/
theorem Lexes.infixed {c : Char} {kind : TokenKind} {s : Sign} (h : Lexes rest signs)
    (hrest : Opens rest) (hc : isBlankChar c = false)
    (hfirst : first? rules (c :: ' ' :: rest) = some (kind, 1))
    (hsign : signOf? kind [c] = some s) : Lexes (' ' :: c :: ' ' :: rest) (s :: signs) :=
  .blank (first?_blank_cons hc) (.symbol (.blank (first?_blank hrest) h) hfirst hsign)

end Pieces

end Token

end Entailment

import Entailment.Proofs.Interpretation
import Entailment.Term.Polynomial
import Entailment.Text.Token

/-!
# Keys identify terms

Polynomials identify atoms by a text. Where names are spelled as the reader of propositions spells
them, this text can be read back: a leaf is a word without brackets and commas, an application is
such a word followed by its arguments in brackets, and the first character of a word tells
variables, numbers and names apart. So two terms with the same key are the same term, up to the
names of variables, which the key leaves out in favour of their numbers.
-/
namespace Entailment

section Names

namespace Scanner

theorem accept_andThen (first second : Scanner) (text : List Char) :
    (andThen first second).accept text =
      if first.accept text = 0 then 0
      else first.accept text + second.accept (text.drop (first.accept text)) := by
  rw [accept]
  split <;> simp_all

/-- Repeating a scanner that takes one character at a time accepts a text only if it accepts every
character in it. -/
theorem accept_of_repeated {accept : List Char → Nat} (hone : ∀ text, accept text ≤ 1) {n : Nat}
    {text : List Char} (h : repeated accept n text = text.length) :
    ∀ c ∈ text, ∃ rest, accept (c :: rest) ≠ 0 := by
  induction n generalizing text with
  | zero =>
      have hlength : text.length = 0 := by simpa [repeated] using h.symm
      rw [List.length_eq_zero_iff.mp hlength]
      simp
  | succ n ih =>
      cases text with
      | nil => simp
      | cons c cs =>
          have hle := hone (c :: cs)
          rcases haccept : accept (c :: cs) with _ | k
          · simp [repeated, haccept] at h
          · obtain rfl : k = 0 := by omega
            have hrest : repeated accept n cs = cs.length := by
              simp only [repeated, haccept, Nat.zero_add, List.drop_succ_cons, List.drop_zero,
                List.length_cons] at h
              omega
            intro d hd
            rcases List.mem_cons.mp hd with rfl | hd
            · exact ⟨cs, by simp [haccept]⟩
            · exact ih hrest d hd

end Scanner

namespace Token
open Scanner

/-- Whether the reader of propositions takes the whole of a text for one name. -/
def isName (name : String) : Bool :=
  name != "" && identifier.accept name.toList == name.toList.length

/-- The characters that a name may begin with. -/
def nameStart : Scanner := .oneOf [word "_", lower, upper]

/-- The characters that a name may go on with. -/
def namePart : Scanner := .oneOf [word "_", word "'", digit, lower, upper]

theorem nameStart_accept_le (text : List Char) : nameStart.accept text ≤ 1 := by
  cases text with
  | nil => decide
  | cons c rest =>
      simp only [nameStart, accept, acceptFirst, word, lower, upper]
      split_ifs <;> simp

theorem namePart_accept_le (text : List Char) : namePart.accept text ≤ 1 := by
  cases text with
  | nil => decide
  | cons c rest =>
      simp only [namePart, accept, acceptFirst, word, digit, lower, upper]
      split_ifs <;> simp

theorem letter_of_nameStart {c : Char} {rest : List Char} (h : nameStart.accept (c :: rest) ≠ 0) :
    c = '_' ∨ ('a' ≤ c ∧ c ≤ 'z') ∨ ('A' ≤ c ∧ c ≤ 'Z') := by
  contrapose! h
  simp [nameStart, accept, acceptFirst, word, lower, upper, h.1.symm]
  grind

/-- A name is a first character and more, each of them accepted in its place. -/
theorem accepted_of_isName {name : String} (h : isName name = true) :
    ∃ c cs, name.toList = c :: cs ∧ (∃ rest, nameStart.accept (c :: rest) ≠ 0) ∧
      ∀ d ∈ cs, ∃ rest, namePart.accept (d :: rest) ≠ 0 := by
  simp only [isName, Bool.and_eq_true, bne_iff_ne, ne_eq, beq_iff_eq] at h
  obtain ⟨hname, haccept⟩ := h
  rcases htext : name.toList with _ | ⟨c, cs⟩
  · exact absurd (String.toList_eq_nil_iff.mp htext) hname
  · have hidentifier : identifier = .andThen nameStart (.many namePart) := rfl
    rw [htext, hidentifier, accept_andThen] at haccept
    have hle := nameStart_accept_le (c :: cs)
    have hstart : nameStart.accept (c :: cs) = 1 := by
      by_contra hne
      rw [if_pos (by omega)] at haccept
      simp at haccept
    have hmany : repeated namePart.accept cs.length cs = cs.length := by
      rw [hstart, if_neg Nat.one_ne_zero, List.drop_one, List.tail_cons, accept,
        List.length_cons] at haccept
      omega
    exact ⟨c, cs, rfl, ⟨cs, by simp [hstart]⟩, accept_of_repeated namePart_accept_le hmany⟩

/-- The signs that stand between the words of a key. -/
def isDelimiter (c : Char) : Bool := c == '(' || c == ',' || c == ')'

theorem not_isDelimiter {c : Char} (hopening : c ≠ '(') (hcomma : c ≠ ',') (hclosing : c ≠ ')') :
    isDelimiter c = false := by
  simp [isDelimiter, hopening, hcomma, hclosing]

theorem not_isDelimiter_of_isName {name : String} (h : isName name = true) :
    ∀ c ∈ name.toList, isDelimiter c = false := by
  obtain ⟨c, cs, htext, ⟨rest, hstart⟩, hpart⟩ := accepted_of_isName h
  intro d hd
  rw [htext, List.mem_cons] at hd
  rcases hd with rfl | hd
  · apply not_isDelimiter <;> (rintro rfl; exact hstart rfl)
  · obtain ⟨more, hmore⟩ := hpart d hd
    apply not_isDelimiter <;> (rintro rfl; exact hmore rfl)

theorem not_isDelimiter_of_isDigit {c : Char} (h : c.isDigit = true) : isDelimiter c = false := by
  apply not_isDelimiter <;> (rintro rfl; exact absurd h (by decide))

end Token

end Names

section Words
open Token

/-- Whether a text is over, or goes on with a delimiter. -/
def EndsWord (rest : List Char) : Prop := ∀ c ∈ rest.head?, isDelimiter c = true

/-- A word without delimiters ends where the first delimiter is. -/
theorem word_unique {w w' rest rest' : List Char} (hw : ∀ c ∈ w, isDelimiter c = false)
    (hw' : ∀ c ∈ w', isDelimiter c = false) (hrest : EndsWord rest) (hrest' : EndsWord rest')
    (h : w ++ rest = w' ++ rest') : w = w' ∧ rest = rest' := by
  have hspan : ∀ {w rest : List Char}, (∀ c ∈ w, isDelimiter c = false) → EndsWord rest →
      (w ++ rest).takeWhile (fun c => !isDelimiter c) = w := by
    intro w rest hw hrest
    have hstop : rest.takeWhile (fun c => !isDelimiter c) = [] := by
      cases rest with
      | nil => rfl
      | cons c cs => simp [hrest c rfl]
    rw [List.takeWhile_append_of_pos (by simpa using hw), hstop, List.append_nil]
  have hword : w = w' := by rw [← hspan hw hrest, h, hspan hw' hrest']
  subst hword
  exact ⟨rfl, List.append_cancel_left h⟩

end Words

namespace Term
open Token

mutual

/-- Whether all names in a term are spelled as propositions are written: constants have a name, and
functions a name or one of the signs that stand between terms. -/
def isLegible : Term → Bool
  | .var _ | .num _ => true
  | .const name => isName name
  | .app head args => (isName head || isOperator head) && areLegible args

def areLegible : List Term → Bool
  | [] => true
  | t :: ts => isLegible t && areLegible ts

end

@[simp] theorem areLegible_eq_all (ts : List Term) : areLegible ts = ts.all isLegible := by
  induction ts with
  | nil => rfl
  | cons t ts ih => simp [areLegible, ih]

mutual

/-- A term without the names of its variables. -/
def nameless : Term → Term
  | .var v => .var ⟨v.id, ""⟩
  | .const name => .const name
  | .num n => .num n
  | .app head args => .app head (namelessList args)

def namelessList : List Term → List Term
  | [] => []
  | t :: ts => nameless t :: namelessList ts

end

@[simp] theorem namelessList_eq_map (ts : List Term) : namelessList ts = ts.map nameless := by
  induction ts with
  | nil => rfl
  | cons t ts ih => simp [namelessList, ih]

/-- The word that the key of a term begins with. -/
def keyWord : Term → List Char
  | .var v => '$' :: Nat.toDigits 10 v.id
  | .const name => name.toList
  | .num n => n.repr.toList
  | .app head _ => head.toList

/-- The keys of further arguments, each after a comma. -/
def moreKeys (ts : List Term) : List Char := ts.flatMap fun t => ',' :: t.key.toList

def keyArgs : List Term → List Char
  | [] => []
  | t :: ts => t.key.toList ++ moreKeys ts

theorem toList_intercalate_key (ts : List Term) :
    (",".intercalate (ts.map key)).toList = keyArgs ts := by
  rw [String.toList_intercalate, List.map_map]
  cases ts with
  | nil => rfl
  | cons t ts =>
      induction ts generalizing t with
      | nil => simp [keyArgs, moreKeys]
      | cons u us ih =>
          have hrest := ih u
          simp only [List.map_cons, List.intercalate_cons_cons] at hrest ⊢
          rw [hrest]
          simp [keyArgs, moreKeys]

/-- What follows the first word: nothing after a leaf, and the arguments of an application. -/
def keyRest : Term → List Char
  | .app _ args => '(' :: (keyArgs args ++ [')'])
  | _ => []

theorem toList_key (t : Term) : t.key.toList = t.keyWord ++ t.keyRest := by
  cases t with
  | var v => simp [key, keyWord, keyRest]
  | const name => simp [key, keyWord, keyRest]
  | num n => simp [key, keyWord, keyRest]
  | app head args =>
      simp only [key, keyList_eq_map, String.toList_append, toList_intercalate_key]
      simp [keyWord, keyRest]

theorem toList_repr_int (n : Int) :
    n.repr.toList =
      if 0 ≤ n then Nat.toDigits 10 n.toNat else '-' :: Nat.toDigits 10 (-n).toNat := by
  rw [Int.repr_eq_if]
  split <;> simp

theorem isDigit_of_mem_toDigits {n : Nat} {c : Char} (h : c ∈ Nat.toDigits 10 n) :
    c.isDigit = true :=
  Nat.isDigit_of_mem_toDigits (by decide) (by decide) h

theorem head_cases {head : String} (h : (isName head || isOperator head) = true) :
    isName head = true ∨ head = "+" ∨ head = "-" ∨ head = "*" ∨ head = "∪" ∨ head = "∩" := by
  simpa [isOperator] using h

/-- A key begins with a word that is not empty and has no delimiter in it. -/
theorem keyWord_isWord {t : Term} (h : t.isLegible = true) :
    t.keyWord ≠ [] ∧ ∀ c ∈ t.keyWord, isDelimiter c = false := by
  have hdigits : ∀ n, ∀ c ∈ Nat.toDigits 10 n, isDelimiter c = false := fun n c hc =>
    not_isDelimiter_of_isDigit (isDigit_of_mem_toDigits hc)
  have hname : ∀ name : String, isName name = true → name.toList ≠ [] := by
    intro name hname
    obtain ⟨c, cs, htext, -⟩ := accepted_of_isName hname
    simp [htext]
  cases t with
  | var v =>
      rw [keyWord]
      exact ⟨List.cons_ne_nil _ _, List.forall_mem_cons.mpr ⟨by decide, hdigits v.id⟩⟩
  | const name => exact ⟨hname name h, not_isDelimiter_of_isName h⟩
  | num n =>
      rw [keyWord, toList_repr_int]
      split
      · exact ⟨Nat.toDigits_ne_nil, hdigits _⟩
      · exact ⟨List.cons_ne_nil _ _, List.forall_mem_cons.mpr ⟨by decide, hdigits _⟩⟩
  | app head args =>
      rw [isLegible, Bool.and_eq_true] at h
      rcases head_cases h.1 with hhead | rfl | rfl | rfl | rfl | rfl
      · exact ⟨hname head hhead, not_isDelimiter_of_isName hhead⟩
      all_goals
        rw [keyWord]
        exact ⟨by decide, List.forall_mem_singleton.mpr (by decide)⟩

/-- Reads the word of a leaf back. -/
def ofWord : List Char → Term
  | [] => .const ""
  | c :: cs =>
    if c = '$' then .var ⟨Nat.ofDigitChars 10 cs 0, ""⟩
    else if c = '-' then .num (-Nat.ofDigitChars 10 cs 0)
    else if c.isDigit then .num (Nat.ofDigitChars 10 (c :: cs) 0)
    else .const (String.ofList (c :: cs))

theorem ofWord_digits (n : Nat) : ofWord (Nat.toDigits 10 n) = .num n := by
  have hvalue : Nat.ofDigitChars 10 (Nat.toDigits 10 n) 0 = n := Nat.ofDigitChars_ten_toDigits
  obtain ⟨c, cs, hdigits⟩ := List.exists_cons_of_ne_nil (Nat.toDigits_ne_nil (b := 10) (n := n))
  have hdigit : c.isDigit = true := isDigit_of_mem_toDigits (n := n) (by simp [hdigits])
  have hdollar : c ≠ '$' := by
    rintro rfl
    exact absurd hdigit (by decide)
  have hminus : c ≠ '-' := by
    rintro rfl
    exact absurd hdigit (by decide)
  rw [hdigits] at hvalue ⊢
  rw [ofWord, if_neg hdollar, if_neg hminus, if_pos hdigit, hvalue]

theorem ofWord_num (n : Int) : ofWord n.repr.toList = .num n := by
  rw [toList_repr_int]
  split
  next h => rw [ofWord_digits, Int.toNat_of_nonneg h]
  next h =>
    rw [ofWord, if_neg (by decide), if_pos rfl, Nat.ofDigitChars_ten_toDigits]
    congr 1
    omega

theorem not_isDigit_of_letter {c : Char}
    (h : c = '_' ∨ ('a' ≤ c ∧ c ≤ 'z') ∨ ('A' ≤ c ∧ c ≤ 'Z')) : c.isDigit = false := by
  by_contra hdigit
  simp only [Bool.not_eq_false, Char.isDigit, Bool.and_eq_true, decide_eq_true_eq,
    UInt32.le_iff_toNat_le] at hdigit
  simp only [Char.le_def, UInt32.le_iff_toNat_le] at h
  have hhigh : c.val.toNat ≤ 57 := hdigit.2
  rcases h with rfl | ⟨hlow, -⟩ | ⟨hlow, -⟩
  · exact absurd hhigh (by decide)
  · have hlow : 97 ≤ c.val.toNat := hlow
    omega
  · have hlow : 65 ≤ c.val.toNat := hlow
    omega

theorem ofWord_name {name : String} (h : isName name = true) :
    ofWord name.toList = .const name := by
  obtain ⟨c, cs, htext, ⟨rest, hstart⟩, -⟩ := accepted_of_isName h
  have hdigit := not_isDigit_of_letter (letter_of_nameStart hstart)
  have hdollar : c ≠ '$' := by
    rintro rfl
    exact hstart rfl
  have hminus : c ≠ '-' := by
    rintro rfl
    exact hstart rfl
  rw [htext, ofWord, if_neg hdollar, if_neg hminus, if_neg (by simp [hdigit]), ← htext,
    String.ofList_toList]

def isLeaf : Term → Bool
  | .app _ _ => false
  | _ => true

theorem ofWord_keyWord {t : Term} (h : t.isLegible = true) (hleaf : t.isLeaf = true) :
    ofWord t.keyWord = t.nameless := by
  cases t with
  | var v => rw [keyWord, ofWord, if_pos rfl, Nat.ofDigitChars_ten_toDigits, nameless]
  | const name => exact ofWord_name h
  | num n => exact ofWord_num n
  | app head args => simp [isLeaf] at hleaf

/-- What may follow the key of a term: nothing, the next argument, or the end of the arguments. -/
def EndsKey (rest : List Char) : Prop := ∀ c ∈ rest.head?, c = ',' ∨ c = ')'

theorem keyRest_of_isLeaf {t : Term} (h : t.isLeaf = true) : t.keyRest = [] := by
  cases t with
  | app head args => simp [isLeaf] at h
  | _ => rfl

theorem isLeaf_of_endsKey {t : Term} {rest : List Char} (h : EndsKey (t.keyRest ++ rest)) :
    t.isLeaf = true := by
  cases t with
  | app head args => rcases h '(' rfl with hc | hc <;> exact absurd hc (by decide)
  | _ => rfl

theorem endsWord_keyRest (t : Term) {rest : List Char} (h : EndsKey rest) :
    EndsWord (t.keyRest ++ rest) := by
  have hrest : EndsWord rest := by
    intro c hc
    rcases h c hc with rfl | rfl <;> rfl
  cases t with
  | app head args =>
      intro c hc
      obtain rfl : '(' = c := by simpa [keyRest] using hc
      rfl
  | var v => exact hrest
  | const name => exact hrest
  | num n => exact hrest

/-- Keys are read back from the left: a text begins with the key of one term only, and what follows
is then the same too. -/
def KeyUnique (t : Term) : Prop :=
  ∀ (u : Term) (rest rest' : List Char), t.isLegible = true → u.isLegible = true →
    EndsKey rest → EndsKey rest' → t.key.toList ++ rest = u.key.toList ++ rest' → t.nameless = u.nameless ∧ rest = rest'

theorem keyWord_unique {t u : Term} {rest rest' : List Char} (ht : t.isLegible = true)
    (hu : u.isLegible = true) (hrest : EndsKey rest) (hrest' : EndsKey rest')
    (h : t.key.toList ++ rest = u.key.toList ++ rest') :
    t.keyWord = u.keyWord ∧ t.keyRest ++ rest = u.keyRest ++ rest' := by
  rw [toList_key, toList_key, List.append_assoc, List.append_assoc] at h
  exact word_unique (keyWord_isWord ht).2 (keyWord_isWord hu).2 (endsWord_keyRest t hrest)
    (endsWord_keyRest u hrest') h

theorem keyUnique_of_leaf {t : Term} (hleaf : t.isLeaf = true) : t.KeyUnique := by
  intro u rest rest' ht hu hrest hrest' h
  obtain ⟨hword, hargs⟩ := keyWord_unique ht hu hrest hrest' h
  rw [keyRest_of_isLeaf hleaf, List.nil_append] at hargs
  have hleaf' : u.isLeaf = true := isLeaf_of_endsKey (hargs ▸ hrest)
  rw [keyRest_of_isLeaf hleaf', List.nil_append] at hargs
  refine ⟨?_, hargs⟩
  rw [← ofWord_keyWord ht hleaf, hword, ofWord_keyWord hu hleaf']

theorem endsKey_moreKeys (ts : List Term) (rest : List Char) :
    EndsKey (moreKeys ts ++ ')' :: rest) := by
  intro c hc
  cases ts with
  | nil => exact .inr (by simpa [moreKeys] using hc.symm)
  | cons t ts => exact .inl (by simpa [moreKeys] using hc.symm)

theorem moreKeys_unique {ts us : List Term} {rest rest' : List Char}
    (hunique : ∀ t ∈ ts, t.KeyUnique) (hts : ts.all isLegible = true)
    (hus : us.all isLegible = true) (h : moreKeys ts ++ ')' :: rest = moreKeys us ++ ')' :: rest') :
    ts.map nameless = us.map nameless ∧ rest = rest' := by
  induction ts generalizing us with
  | nil =>
      cases us with
      | nil => exact ⟨rfl, by simpa [moreKeys] using h⟩
      | cons u us => simp [moreKeys] at h
  | cons t ts ih =>
      cases us with
      | nil => simp [moreKeys] at h
      | cons u us =>
          rw [List.all_cons, Bool.and_eq_true] at hts hus
          have hkeys : t.key.toList ++ (moreKeys ts ++ ')' :: rest) =
              u.key.toList ++ (moreKeys us ++ ')' :: rest') := by
            simpa [moreKeys] using h
          obtain ⟨hterm, hmore⟩ := hunique t (by simp) u _ _ hts.1 hus.1
            (endsKey_moreKeys ts rest) (endsKey_moreKeys us rest') hkeys
          obtain ⟨hterms, hrest⟩ := ih (fun t ht => hunique t (by simp [ht])) hts.2 hus.2 hmore
          exact ⟨by rw [List.map_cons, List.map_cons, hterm, hterms], hrest⟩

theorem keyArgs_ne_closing {t : Term} {ts : List Term} (h : t.isLegible = true)
    (rest rest' : List Char) : keyArgs (t :: ts) ++ rest ≠ ')' :: rest' := by
  obtain ⟨hne, hword⟩ := keyWord_isWord h
  obtain ⟨c, cs, hc⟩ := List.exists_cons_of_ne_nil hne
  intro heq
  simp only [keyArgs, toList_key, hc, List.cons_append, List.cons.injEq] at heq
  have hdelimiter := hword c (by simp [hc])
  rw [heq.1] at hdelimiter
  exact absurd hdelimiter (by decide)

theorem keyArgs_unique {ts us : List Term} {rest rest' : List Char}
    (hunique : ∀ t ∈ ts, t.KeyUnique) (hts : ts.all isLegible = true)
    (hus : us.all isLegible = true) (h : keyArgs ts ++ ')' :: rest = keyArgs us ++ ')' :: rest') :
    ts.map nameless = us.map nameless ∧ rest = rest' := by
  cases ts with
  | nil =>
      cases us with
      | nil => exact ⟨rfl, by simpa [keyArgs] using h⟩
      | cons u us => exact absurd h.symm (keyArgs_ne_closing (by simp_all) _ _)
  | cons t ts =>
      cases us with
      | nil => exact absurd h (keyArgs_ne_closing (by simp_all) _ _)
      | cons u us =>
          apply moreKeys_unique hunique hts hus
          simpa [moreKeys, keyArgs] using h

theorem keyUnique (t : Term) : t.KeyUnique := by
  induction t using inductionOn with
  | var v => exact keyUnique_of_leaf rfl
  | const name => exact keyUnique_of_leaf rfl
  | num n => exact keyUnique_of_leaf rfl
  | app head args ih =>
      intro u rest rest' ht hu hrest hrest' h
      obtain ⟨hword, hargs⟩ := keyWord_unique ht hu hrest hrest' h
      cases hleaf : u.isLeaf with
      | true =>
          rw [keyRest_of_isLeaf hleaf, List.nil_append] at hargs
          exact absurd (isLeaf_of_endsKey (hargs ▸ hrest')) (by simp [isLeaf])
      | false =>
          cases u with
          | app head' args' =>
              obtain rfl := String.toList_inj.mp hword
              rw [isLegible, Bool.and_eq_true, areLegible_eq_all] at ht hu
              obtain ⟨hterms, hrest⟩ := keyArgs_unique ih ht.2 hu.2 (by simpa [keyRest] using hargs)
              exact ⟨by simp [nameless, hterms], hrest⟩
          | _ => simp [isLeaf] at hleaf

/-- Terms with the same key differ at most in the names of variables. -/
theorem nameless_eq_of_key_eq {t u : Term} (ht : t.isLegible = true) (hu : u.isLegible = true)
    (h : t.key = u.key) : t.nameless = u.nameless := by
  have hnil : EndsKey [] := fun c hc => by simp at hc
  exact (t.keyUnique u [] [] ht hu hnil hnil (by rw [h])).1

end Term

end Entailment

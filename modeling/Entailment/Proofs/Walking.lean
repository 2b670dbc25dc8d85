import Entailment.Proofs.Rereading
import Entailment.Text.Walker

/-!
# Scanning by position

Scanners that accept characters only never go beyond the end of a text, and the rules for tokens
have no others, apart from the one that accepts the end. So cutting a text into lexemes by position
comes to what taking pieces off the front comes to.
-/
namespace Entailment

namespace Scanner

mutual

/-- Whether a scanner accepts characters only, and not the end of the text. -/
def isPlain : Scanner → Bool
  | .word _ | .within _ _ => true
  | .many inner => isPlain inner
  | .oneOf alternatives => arePlain alternatives
  | .andThen first second => isPlain first && isPlain second
  | .ending => false

def arePlain : List Scanner → Bool
  | [] => true
  | s :: rest => isPlain s && arePlain rest

end

section Plain

theorem repeated_le_length {accept : List Char → Nat} (h : ∀ text, accept text ≤ text.length)
    (n : Nat) (text : List Char) : repeated accept n text ≤ text.length := by
  induction n generalizing text with
  | zero => exact Nat.zero_le _
  | succ n ih =>
      cases text with
      | nil => exact Nat.le_refl _
      | cons c rest =>
          rw [repeated]
          · split
            next => exact Nat.zero_le _
            next k hk =>
              have hfirst := h (c :: rest)
              have hrest := ih ((c :: rest).drop (accept (c :: rest)))
              rw [List.length_drop] at hrest
              omega
          · exact fun hnil => List.cons_ne_nil c rest hnil

mutual

theorem accept_le_length {text : List Char} : ∀ {s : Scanner}, s.isPlain = true →
    s.accept text ≤ text.length
  | .word w, _ => by
      rw [accept]
      split_ifs with hprefix
      · exact (List.isPrefixOf_iff_prefix.mp hprefix).length_le
      · exact Nat.zero_le _
  | .within low high, _ => by
      cases text with
      | nil => exact Nat.le_refl _
      | cons c rest =>
          rw [accept]
          split_ifs
          · exact Nat.succ_le_succ (Nat.zero_le _)
          · exact Nat.zero_le _
  | .many inner, h => by
      rw [accept]
      exact repeated_le_length (fun _ => accept_le_length (s := inner) h) _ _
  | .oneOf alternatives, h => by
      rw [accept]
      exact acceptFirst_le_length h
  | .andThen first second, h => by
      rw [isPlain, Bool.and_eq_true] at h
      have hfirst : first.accept text ≤ text.length := accept_le_length h.1
      have hsecond : second.accept (text.drop (first.accept text)) ≤ _ := accept_le_length h.2
      rw [List.length_drop] at hsecond
      rw [accept]
      split
      next => exact Nat.zero_le _
      next k hk => omega

theorem acceptFirst_le_length {text : List Char} : ∀ {ss : List Scanner}, arePlain ss = true →
    acceptFirst ss text ≤ text.length
  | [], _ => Nat.zero_le _
  | s :: rest, h => by
      rw [arePlain, Bool.and_eq_true] at h
      rw [acceptFirst]
      split
      next => exact acceptFirst_le_length h.2
      next => exact accept_le_length h.1

end

theorem scanRepeated_eq_ok {scan : List Char → Except Crash Nat} {accept : List Char → Nat}
    (h : ∀ text, scan text = .ok (accept text)) {n : Nat} {text : List Char}
    (hn : text.length ≤ n) : scanRepeated scan n text = .ok (repeated accept n text) := by
  induction n generalizing text with
  | zero =>
      obtain rfl := List.eq_nil_of_length_eq_zero (Nat.le_zero.mp hn)
      rfl
  | succ n ih =>
      cases text with
      | nil => rfl
      | cons c rest =>
          rw [scanRepeated, h, repeated]
          · change (if accept (c :: rest) = 0 then _ else _) = _
            split_ifs with hzero
            · rw [hzero]
              rfl
            · have hrest : ((c :: rest).drop (accept (c :: rest))).length ≤ n := by
                rw [List.length_drop]
                omega
              rw [ih hrest]
              split
              next hzero' => exact absurd hzero' hzero
              next => rfl
          · exact fun hnil => List.cons_ne_nil c rest hnil
          · exact fun hnil => List.cons_ne_nil c rest hnil

mutual

/-- Scanners that accept characters only never go beyond the end. -/
theorem scan_eq_ok {text : List Char} : ∀ {s : Scanner}, s.isPlain = true →
    s.scan text = .ok (s.accept text)
  | .word w, _ => rfl
  | .within low high, _ => rfl
  | .many inner, h => by
      rw [scan, accept]
      exact scanRepeated_eq_ok (fun _ => scan_eq_ok (s := inner) h) (Nat.le_refl _)
  | .oneOf alternatives, h => by
      rw [scan, accept]
      exact scanFirst_eq_ok h
  | .andThen first second, h => by
      rw [isPlain, Bool.and_eq_true] at h
      have hle : first.accept text ≤ text.length := accept_le_length h.1
      rw [scan, accept, scan_eq_ok h.1]
      change (if first.accept text = 0 then _ else _) = _
      split_ifs with hzero hbeyond
      · rw [hzero]
        rfl
      · exact absurd hle (Nat.not_le.mpr hbeyond)
      · rw [scan_eq_ok h.2]
        split
        next hzero' => exact absurd hzero' hzero
        next => rfl

theorem scanFirst_eq_ok {text : List Char} : ∀ {ss : List Scanner}, arePlain ss = true →
    scanFirst ss text = .ok (acceptFirst ss text)
  | [], _ => rfl
  | s :: rest, h => by
      rw [arePlain, Bool.and_eq_true] at h
      rw [scanFirst, acceptFirst, scan_eq_ok h.1]
      change (if s.accept text = 0 then _ else _) = _
      split_ifs with hzero
      · rw [hzero]
        exact scanFirst_eq_ok h.2
      · split
        next hzero' => exact absurd hzero' hzero
        next => rfl

end

end Plain

end Scanner

namespace LexRule
variable {κ : Type}

/-- Whether rules accept characters only, or the end only. -/
def IsSimple (r : LexRule κ) : Prop := r.scanner.isPlain = true ∨ r.scanner = .ending

section Collecting
variable {rules : List (LexRule κ)}

theorem scanRules_eq_ok (h : ∀ r ∈ rules, r.IsSimple) (text : List Char) :
    scanRules text rules = .ok (first? rules text) := by
  induction rules with
  | nil => rfl
  | cons r rest ih =>
      obtain ⟨hr, hrest⟩ := List.forall_mem_cons.mp h
      have hscan : r.scanner.scan text = .ok (r.scanner.accept text) := by
        rcases hr with hplain | hending
        · exact Scanner.scan_eq_ok hplain
        · rw [hending]
          rfl
      rw [scanRules, hscan, first?_cons]
      change (if r.scanner.accept text = 0 then _ else _) = _
      split_ifs
      · exact ih hrest
      · rfl

/-- Collecting lexemes by position cuts a text as taking pieces off does. -/
theorem collect_eq_ok (h : ∀ r ∈ rules, r.IsSimple) (before text : List Char) :
    ∀ n, text.length + 2 ≤ n →
      collect rules (before ++ text) n before.length =
          .ok ((lexFrom rules before.length text).lexemes,
            (lexFrom rules before.length text).index) ∧
        (lexFrom rules before.length text).remaining =
          (before ++ text).length - (lexFrom rules before.length text).index := by
  refine lexFrom_induction ?_ ?_ ?_ before text
    (P := fun before text lexing => ∀ n, text.length + 2 ≤ n →
      collect rules (before ++ text) n before.length = .ok (lexing.lexemes, lexing.index) ∧
        lexing.remaining = (before ++ text).length - lexing.index)
  · intro before text hnone n hn
    obtain ⟨n, rfl⟩ := Nat.exists_eq_add_of_le' (Nat.le_trans (Nat.le_add_left 1 _) hn)
    rw [collect, List.drop_left, scanRules_eq_ok h, hnone, if_neg (by simp)]
    exact ⟨rfl, by simp⟩
  · intro before kind k hsome n hn
    obtain ⟨n, rfl⟩ : ∃ m, n = m + 1 + 1 := Nat.exists_eq_add_of_le' hn
    have hbeyond : collect rules before (n + 1) (before.length + 1) =
        .ok ([], before.length + 1) := by
      rw [collect, if_pos (Nat.lt_succ_self _)]
      rfl
    rw [List.append_nil, collect, if_neg (Nat.lt_irrefl _), List.drop_length, scanRules_eq_ok h,
      hsome]
    change (if min before.length (before.length + k) < before.length then _ else _) = _ ∧ _
    rw [Nat.min_eq_left (Nat.le_add_right _ _), if_neg (Nat.lt_irrefl _), if_pos rfl, hbeyond]
    exact ⟨rfl, by simp⟩
  · intro before piece after kind k tail hpiece hsome htake htail n hn
    have hpositive := List.length_pos_iff.mpr hpiece
    have htaken : piece.length = min k (piece ++ after).length := by
      rw [← List.length_take, ← htake]
    rw [List.length_append] at hn htaken
    obtain ⟨n, rfl⟩ : ∃ m, n = m + 1 := Nat.exists_eq_add_of_le' (by omega)
    obtain ⟨hcollect, hremaining⟩ := htail n (by omega)
    rw [List.append_assoc] at hcollect hremaining
    have hstop : min (before ++ (piece ++ after)).length (before.length + k) =
        (before ++ piece).length := by
      simp only [List.length_append]
      omega
    have hinside : ¬(before ++ piece).length < before.length := by
      rw [List.length_append]
      omega
    have hmore : before.length ≠ (before ++ (piece ++ after)).length := by
      simp only [List.length_append]
      omega
    rw [collect, if_neg (by simp), List.drop_left, scanRules_eq_ok h, hsome]
    change (if min _ (before.length + k) < before.length then _ else _) = _ ∧ _
    rw [hstop, if_neg hinside, if_neg hmore, hcollect]
    exact ⟨rfl, hremaining⟩

end Collecting

end LexRule

namespace Token
open LexRule

theorem isSimple_of_mem_rules : ∀ r ∈ rules, r.IsSimple := by
  simp [rules, IsSimple, word, whitespace, number, identifier, digit, lower, upper,
    Scanner.isPlain, Scanner.arePlain]

theorem ne_ending_of_first? {piece after : List Char} {kind : TokenKind} {n : Nat}
    (hpiece : piece ≠ []) (h : first? rules (piece ++ after) = some (kind, n)) :
    kind ≠ .ending := by
  rintro rfl
  obtain ⟨hn, r, hr, hkind, haccept⟩ := exists_of_first? h
  have honly : ∀ r ∈ rules, r.kind = .ending → r.scanner = .ending := by simp [rules]
  obtain ⟨c, rest, hcons⟩ := List.exists_cons_of_ne_nil hpiece
  rw [honly r hr hkind, hcons] at haccept
  exact hn haccept.symm

end Token

end Entailment

import Entailment.Proofs.Walking

/-!
# Tiling a text with lexemes

Lexing leaves no gaps. Its lexemes are not empty and follow each other from the beginning of the
text to where it stops, which is the end, or a place where no rule accepts anything. At the end
there is one more lexeme, an empty one.

Each lexeme is what the first fitting rule takes, and a rule takes as much as it can. That no other
rule describes a longer piece is a matter of how rules are ordered, which `precedes` decides for two
scanners by their spellings. `Fits` says what pieces of text a scanner describes, without any
strategy for finding them.
-/
namespace Entailment

namespace Scanner
variable {s s' : Scanner} {piece rest text : List Char} {c : Char}

/-- The pieces of text that a scanner describes. The end of a text is not one of them. -/
inductive Fits : Scanner → List Char → Prop
  | word (w : List Char) : Fits (.word w) w
  | within {low high c : Char} : low ≤ c → c ≤ high → Fits (.within low high) [c]
  | many {inner : Scanner} {pieces : List (List Char)} :
      (∀ piece ∈ pieces, Fits inner piece) → Fits (.many inner) pieces.flatten
  | oneOf {alternatives : List Scanner} {s : Scanner} {piece : List Char} :
      s ∈ alternatives → Fits s piece → Fits (.oneOf alternatives) piece
  | andThen {first second : Scanner} {piece rest : List Char} :
      piece ≠ [] → Fits first piece → Fits second rest →
      Fits (.andThen first second) (piece ++ rest)
  | alone {first second : Scanner} {piece : List Char} :
      Fits first piece → Fits (.andThen first second) piece

section Sound

theorem fits_take_repeated {inner : Scanner} {accept : List Char → Nat}
    (h : ∀ text, accept text ≠ 0 → inner.Fits (text.take (accept text))) (n : Nat)
    (text : List Char) : ∃ pieces : List (List Char), (∀ piece ∈ pieces, inner.Fits piece) ∧
      text.take (repeated accept n text) = pieces.flatten := by
  induction n generalizing text with
  | zero => exact ⟨[], by simp, by simp [repeated]⟩
  | succ n ih =>
      cases text with
      | nil => exact ⟨[], by simp, by simp⟩
      | cons c rest =>
          rw [repeated]
          · split
            next => exact ⟨[], by simp, by simp⟩
            next k hk =>
              obtain ⟨pieces, hpieces, hflatten⟩ := ih ((c :: rest).drop (accept (c :: rest)))
              refine ⟨(c :: rest).take (accept (c :: rest)) :: pieces, ?_, ?_⟩
              · exact List.forall_mem_cons.mpr ⟨h (c :: rest) hk, hpieces⟩
              · rw [List.take_add, hflatten, List.flatten_cons]
          · exact fun hnil => List.cons_ne_nil c rest hnil

mutual

/-- What a scanner takes off a text is a piece that it describes. -/
theorem fits_take_accept {text : List Char} : ∀ {s : Scanner}, s.isPlain = true →
    s.accept text ≠ 0 → s.Fits (text.take (s.accept text))
  | .word w, _, haccept => by
      rw [accept] at haccept ⊢
      split_ifs at haccept ⊢ with hprefix
      · rw [← List.prefix_iff_eq_take.mp (List.isPrefixOf_iff_prefix.mp hprefix)]
        exact .word w
      · exact absurd rfl haccept
  | .within low high, _, haccept => by
      cases text with
      | nil => exact absurd rfl haccept
      | cons c rest =>
          rw [accept] at haccept ⊢
          split_ifs at haccept ⊢ with hrange
          · exact .within hrange.1 hrange.2
          · exact absurd rfl haccept
  | .many inner, h, _ => by
      rw [accept]
      obtain ⟨pieces, hpieces, hflatten⟩ := fits_take_repeated
        (fun _ => fits_take_accept (s := inner) h) text.length text
      rw [hflatten]
      exact .many hpieces
  | .oneOf alternatives, h, haccept => by
      rw [accept] at haccept ⊢
      obtain ⟨s, hs, hfits⟩ := fits_take_acceptFirst h haccept
      exact .oneOf hs hfits
  | .andThen first second, h, haccept => by
      rw [isPlain, Bool.and_eq_true] at h
      rw [accept_andThen] at haccept ⊢
      split_ifs at haccept ⊢ with hfirst
      · exact absurd rfl haccept
      · have hpiece := fits_take_accept h.1 hfirst
        have hne : text.take (first.accept text) ≠ [] := by
          have hle : first.accept text ≤ text.length := accept_le_length h.1
          rw [← List.length_pos_iff, List.length_take]
          omega
        rw [List.take_add]
        by_cases hsecond : second.accept (text.drop (first.accept text)) = 0
        · rw [hsecond, List.take_zero, List.append_nil]
          exact .alone hpiece
        · exact .andThen hne hpiece (fits_take_accept h.2 hsecond)

theorem fits_take_acceptFirst {text : List Char} : ∀ {ss : List Scanner}, arePlain ss = true →
    acceptFirst ss text ≠ 0 → ∃ s ∈ ss, s.Fits (text.take (acceptFirst ss text))
  | [], _, haccept => absurd rfl haccept
  | s :: rest, h, haccept => by
      rw [arePlain, Bool.and_eq_true] at h
      rw [acceptFirst] at haccept ⊢
      split at haccept
      next hzero =>
        obtain ⟨s', hs', hfits⟩ := fits_take_acceptFirst h.2 haccept
        exact ⟨s', List.mem_cons_of_mem s hs', hfits⟩
      next hne => exact ⟨s, List.mem_cons_self, fits_take_accept h.1 hne⟩

end

end Sound

mutual

/-- Whether a scanner describes single characters. -/
def isSingle : Scanner → Bool
  | .word w => w.length == 1
  | .within _ _ => true
  | .oneOf alternatives => areSingle alternatives
  | .many _ | .andThen _ _ | .ending => false

def areSingle : List Scanner → Bool
  | [] => true
  | s :: rest => isSingle s && areSingle rest

end

/-- Whether it is enough for a scanner to take what it can get: repetitions are of single
characters, and nothing but a single character comes before something else. -/
def isGreedy : Scanner → Bool
  | .word _ | .ending => true
  | .within _ _ => true
  | .oneOf alternatives => areSingle alternatives
  | .many inner => isSingle inner
  | .andThen first second => isSingle first && isGreedy second

section Greedy

theorem isSingle_of_mem {ss : List Scanner} (h : areSingle ss = true) (hs : s ∈ ss) :
    s.isSingle = true := by
  induction ss with
  | nil => cases hs
  | cons head ss ih =>
      rw [areSingle, Bool.and_eq_true] at h
      rcases List.mem_cons.mp hs with rfl | hs
      · exact h.1
      · exact ih h.2 hs

mutual

theorem accept_le_one {text : List Char} : ∀ {s : Scanner}, s.isSingle = true → s.accept text ≤ 1
  | .word w, h => by
      rw [isSingle, beq_iff_eq] at h
      rw [accept, h]
      split_ifs
      · exact Nat.le_refl 1
      · exact Nat.zero_le 1
  | .within low high, _ => by
      cases text with
      | nil => exact Nat.zero_le 1
      | cons c rest =>
          rw [accept]
          split_ifs
          · exact Nat.le_refl 1
          · exact Nat.zero_le 1
  | .oneOf alternatives, h => by
      rw [accept]
      exact acceptFirst_le_one h

theorem acceptFirst_le_one {text : List Char} : ∀ {ss : List Scanner}, areSingle ss = true →
    acceptFirst ss text ≤ 1
  | [], _ => Nat.zero_le 1
  | s :: rest, h => by
      rw [areSingle, Bool.and_eq_true] at h
      rw [acceptFirst]
      split
      next => exact acceptFirst_le_one h.2
      next => exact accept_le_one h.1

end

theorem acceptFirst_ne_zero {ss : List Scanner} (hs : s ∈ ss) (h : s.accept text ≠ 0) :
    acceptFirst ss text ≠ 0 := by
  induction ss with
  | nil => cases hs
  | cons head ss ih =>
      rw [acceptFirst]
      split
      next hzero =>
        rcases List.mem_cons.mp hs with rfl | hs
        · exact absurd hzero h
        · exact ih hs
      next hne => exact hne

/-- A scanner for single characters takes each character that it describes. -/
theorem Fits.single (h : s.Fits piece) (hsingle : s.isSingle = true) :
    ∃ c, piece = [c] ∧ ∀ rest, s.accept (c :: rest) = 1 := by
  induction h with
  | word w =>
      rw [isSingle, beq_iff_eq] at hsingle
      obtain ⟨c, rfl⟩ := List.length_eq_one_iff.mp hsingle
      exact ⟨c, rfl, fun rest => by simp [accept]⟩
  | @within low high c hlow hhigh =>
      exact ⟨c, rfl, fun rest => by rw [accept, if_pos ⟨hlow, hhigh⟩]⟩
  | many => cases hsingle
  | @oneOf alternatives s piece hs _ ih =>
      obtain ⟨c, hpiece, haccept⟩ := ih (isSingle_of_mem hsingle hs)
      refine ⟨c, hpiece, fun rest => ?_⟩
      have hle : acceptFirst alternatives (c :: rest) ≤ 1 := acceptFirst_le_one hsingle
      have hne : s.accept (c :: rest) ≠ 0 := by
        rw [haccept]
        exact Nat.one_ne_zero
      have hpositive := acceptFirst_ne_zero hs hne
      rw [accept]
      omega
  | andThen => cases hsingle
  | alone => cases hsingle

theorem length_flatten_le_repeated {inner : Scanner} {pieces : List (List Char)}
    (hsingle : inner.isSingle = true) (hpieces : ∀ piece ∈ pieces, inner.Fits piece) {n : Nat}
    (hn : pieces.flatten.length ≤ n) :
    pieces.flatten.length ≤ repeated inner.accept n (pieces.flatten ++ rest) := by
  induction pieces generalizing n with
  | nil => exact Nat.zero_le _
  | cons piece pieces ih =>
      obtain ⟨hpiece, hmore⟩ := List.forall_mem_cons.mp hpieces
      obtain ⟨c, rfl, haccept⟩ := hpiece.single hsingle
      rw [List.flatten_cons, List.singleton_append, List.length_cons] at hn ⊢
      obtain ⟨m, rfl⟩ := Nat.exists_eq_add_of_le' hn
      have htail := ih hmore (Nat.le_add_left pieces.flatten.length m)
      rw [List.cons_append, ← Nat.add_assoc]
      simp only [repeated, haccept, List.drop_succ_cons, List.drop_zero]
      omega

/-- A greedy scanner takes at least as much as any piece that it describes. -/
theorem Fits.length_le_accept : ∀ {s : Scanner} {piece rest : List Char}, s.Fits piece →
    s.isGreedy = true → piece.length ≤ s.accept (piece ++ rest)
  | .word w, _, rest, .word _, _ => by
      have haccept : accept (.word w) (w ++ rest) = w.length := by
        rw [accept, if_pos (List.isPrefixOf_iff_prefix.mpr (List.prefix_append w rest))]
      exact Nat.le_of_eq haccept.symm
  | .within low high, _, rest, .within (c := c) hlow hhigh, _ => by
      have haccept : accept (.within low high) (c :: rest) = 1 := by
        rw [accept, if_pos ⟨hlow, hhigh⟩]
      exact Nat.le_of_eq haccept.symm
  | .many inner, _, rest, .many hpieces, h => by
      rw [accept]
      apply length_flatten_le_repeated h hpieces
      rw [List.length_append]
      exact Nat.le_add_right _ _
  | .oneOf alternatives, piece, rest, hfits, h => by
      obtain ⟨c, rfl, haccept⟩ := hfits.single h
      exact Nat.le_of_eq (haccept rest).symm
  | .andThen first second, _, rest, .andThen _ hpiece hmore, h => by
      rw [isGreedy, Bool.and_eq_true] at h
      obtain ⟨c, rfl, haccept⟩ := hpiece.single h.1
      have hsecond : _ ≤ second.accept (_ ++ rest) := hmore.length_le_accept h.2
      rw [List.singleton_append, List.cons_append, accept_andThen, haccept,
        if_neg Nat.one_ne_zero, List.drop_succ_cons, List.drop_zero, List.length_cons]
      omega
  | .andThen first second, piece, rest, .alone hpiece, h => by
      rw [isGreedy, Bool.and_eq_true] at h
      obtain ⟨c, rfl, haccept⟩ := hpiece.single h.1
      rw [List.singleton_append, accept_andThen, haccept, if_neg Nat.one_ne_zero]
      exact Nat.le_add_right 1 _

end Greedy

mutual

/-- The ranges of characters that what a scanner takes may begin with. -/
def firsts : Scanner → List (Char × Char)
  | .word [] | .ending => []
  | .word (c :: _) => [(c, c)]
  | .within low high => [(low, high)]
  | .many inner => firsts inner
  | .oneOf alternatives => firstsOf alternatives
  | .andThen first _ => firsts first

def firstsOf : List Scanner → List (Char × Char)
  | [] => []
  | s :: rest => firsts s ++ firstsOf rest

end

/-- Whether one scanner may come before another one: a longer word before its beginnings, or
scanners that never take the same character first. -/
def precedes : Scanner → Scanner → Bool
  | .word w, .word v => !w.isPrefixOf v || decide (v.length ≤ w.length)
  | s, s' => s.firsts.all fun r => s'.firsts.all fun r' => decide (r.2 < r'.1 ∨ r'.2 < r.1)

section Order

mutual

theorem exists_first {c : Char} {rest : List Char} : ∀ {s : Scanner}, s.accept (c :: rest) ≠ 0 →
    ∃ r ∈ s.firsts, r.1 ≤ c ∧ c ≤ r.2
  | .word [], h => absurd (by simp [accept]) h
  | .word (d :: w), h => by
      have hd : d = c := by
        by_contra hne
        exact h (by simp [accept, hne])
      rw [firsts, hd]
      exact ⟨(c, c), List.mem_singleton_self _, Char.le_refl c, Char.le_refl c⟩
  | .within low high, h => by
      have hrange : low ≤ c ∧ c ≤ high := by
        by_contra hnot
        exact h (by rw [accept, if_neg hnot])
      rw [firsts]
      exact ⟨(low, high), List.mem_singleton_self _, hrange⟩
  | .many inner, h => by
      have hinner : inner.accept (c :: rest) ≠ 0 := by
        intro hzero
        apply h
        rw [accept, List.length_cons]
        simp only [repeated, hzero]
      rw [firsts]
      exact exists_first hinner
  | .oneOf alternatives, h => by
      rw [accept] at h
      exact exists_firstOf h
  | .andThen first second, h => by
      have hfirst : first.accept (c :: rest) ≠ 0 := by
        intro hzero
        apply h
        rw [accept_andThen, if_pos hzero]
      rw [firsts]
      exact exists_first hfirst
  | .ending, h => absurd rfl h

theorem exists_firstOf {c : Char} {rest : List Char} : ∀ {ss : List Scanner},
    acceptFirst ss (c :: rest) ≠ 0 → ∃ r ∈ firstsOf ss, r.1 ≤ c ∧ c ≤ r.2
  | [], h => absurd rfl h
  | s :: ss, h => by
      rw [acceptFirst] at h
      rw [firstsOf]
      split at h
      next =>
        obtain ⟨r, hr, hc⟩ := exists_firstOf h
        exact ⟨r, List.mem_append_right _ hr, hc⟩
      next hne =>
        obtain ⟨r, hr, hc⟩ := exists_first hne
        exact ⟨r, List.mem_append_left _ hr, hc⟩

end

theorem accept_word_le {w v : List Char} (h : precedes (.word w) (.word v) = true)
    (haccept : accept (.word w) text ≠ 0) : accept (.word v) text ≤ accept (.word w) text := by
  have hw : w.isPrefixOf text = true := by
    by_contra hnot
    exact haccept (by rw [accept, if_neg hnot])
  rw [accept, accept, if_pos hw]
  split_ifs with hv
  · rw [List.isPrefixOf_iff_prefix] at hw hv
    rcases List.prefix_or_prefix_of_prefix hw hv with hprefix | hprefix
    · rw [precedes, List.isPrefixOf_iff_prefix.mpr hprefix] at h
      exact of_decide_eq_true h
    · exact hprefix.length_le
  · exact Nat.zero_le _

theorem accept_eq_zero_of_firsts
    (h : (s.firsts.all fun r => s'.firsts.all fun r' => decide (r.2 < r'.1 ∨ r'.2 < r.1)) = true)
    (haccept : s.accept (c :: rest) ≠ 0) : s'.accept (c :: rest) = 0 := by
  by_contra haccept'
  obtain ⟨r, hr, hlow, hhigh⟩ := exists_first haccept
  obtain ⟨r', hr', hlow', hhigh'⟩ := exists_first haccept'
  have hapart := of_decide_eq_true (List.all_eq_true.mp (List.all_eq_true.mp h r hr) r' hr')
  rcases hapart with hbelow | hbelow
  · exact absurd (Char.le_trans hlow' hhigh) (Char.not_le.mpr hbelow)
  · exact absurd (Char.le_trans hlow hhigh') (Char.not_le.mpr hbelow)

/-- Where the preceding scanner takes anything, the other one takes no more. -/
theorem accept_le_of_precedes (h : s.precedes s' = true) (haccept : s.accept (c :: rest) ≠ 0) :
    s'.accept (c :: rest) ≤ s.accept (c :: rest) := by
  unfold precedes at h
  split at h
  next w v => exact accept_word_le h haccept
  next =>
    rw [accept_eq_zero_of_firsts h haccept]
    exact Nat.zero_le _

end Order

end Scanner

namespace LexRule
variable {κ : Type} {rules : List (LexRule κ)} {before text : List Char}

/-- No rule takes more than `n` characters off a text, or describes a longer beginning of it. -/
structure NoneLonger (rules : List (LexRule κ)) (text : List Char) (n : Nat) : Prop where
  accept_le : ∀ r ∈ rules, r.scanner.accept text ≤ n
  fits_le : ∀ r ∈ rules, ∀ piece, piece <+: text → r.scanner.Fits piece → piece.length ≤ n

/-- A lexeme is what the first fitting rule takes where the lexeme starts, a piece that some rule of
its kind describes, and the longest one. -/
structure IsLongest (rules : List (LexRule κ)) (text : List Char) (l : Lexeme κ) : Prop where
  first : first? rules (text.drop l.start) = some (l.kind, l.stop - l.start)
  fits : ∃ r ∈ rules, r.kind = l.kind ∧
    r.scanner.Fits ((text.drop l.start).take (l.stop - l.start))
  noneLonger : NoneLonger rules (text.drop l.start) (l.stop - l.start)

/-- Lexemes in a row, none of them empty, from one position to another. -/
inductive Tiles : Nat → List (Lexeme κ) → Nat → Prop
  | nil (position : Nat) : Tiles position [] position
  | cons {l : Lexeme κ} {more : List (Lexeme κ)} {stop : Nat} :
      l.start < l.stop → Tiles l.stop more stop → Tiles l.start (l :: more) stop

/-- What is asked of a table: rules are greedy, accept characters only or the end only, and stand in
an order in which the first that fits takes most. -/
structure IsOrdered (rules : List (LexRule κ)) : Prop where
  simple : ∀ r ∈ rules, r.IsSimple
  greedy : ∀ r ∈ rules, r.scanner.isGreedy = true
  order : rules.Pairwise fun r r' => r.scanner.precedes r'.scanner = true

section Longest

theorem noneLonger_of_accept_le (hgreedy : ∀ r ∈ rules, r.scanner.isGreedy = true) {n : Nat}
    (h : ∀ r ∈ rules, r.scanner.accept text ≤ n) : NoneLonger rules text n where
  accept_le := h
  fits_le := by
    rintro r hr piece ⟨rest, rfl⟩ hfits
    exact Nat.le_trans (hfits.length_le_accept (hgreedy r hr)) (h r hr)

theorem accept_eq_zero_of_first? (h : first? rules text = none) :
    ∀ r ∈ rules, r.scanner.accept text = 0 := by
  intro r hr
  have hnone := List.findSome?_eq_none_iff.mp h r hr
  split at hnone
  next hzero => exact hzero
  next => cases hnone

/-- Where rules are in order, none takes more than the first one that fits. -/
theorem accept_le_of_first? {kind : κ} {n : Nat} {c : Char} {rest : List Char}
    (horder : rules.Pairwise fun r r' => r.scanner.precedes r'.scanner = true)
    (h : first? rules (c :: rest) = some (kind, n)) :
    ∀ r ∈ rules, r.scanner.accept (c :: rest) ≤ n := by
  induction rules with
  | nil => cases h
  | cons head rules ih =>
      obtain ⟨hhead, horder⟩ := List.pairwise_cons.mp horder
      rw [first?_cons] at h
      split_ifs at h with hzero
      · refine List.forall_mem_cons.mpr ⟨?_, ih horder h⟩
        rw [hzero]
        exact Nat.zero_le n
      · rw [Option.some.injEq, Prod.mk.injEq] at h
        rw [← h.2]
        refine List.forall_mem_cons.mpr ⟨Nat.le_refl _, fun r hr => ?_⟩
        exact Scanner.accept_le_of_precedes (hhead r hr) hzero

/-- A rule that takes a character is not the one for the end. -/
theorem isPlain_of_accept_ne_zero {r : LexRule κ} {c : Char} {rest : List Char} (hr : r.IsSimple)
    (h : r.scanner.accept (c :: rest) ≠ 0) : r.scanner.isPlain = true := by
  rcases hr with hplain | hending
  · exact hplain
  · rw [hending] at h
    exact absurd rfl h

end Longest

section Tiling

/-- How lexing comes to an end: with an empty lexeme at the end of the text, or where no rule takes
anything. -/
inductive Ends (rules : List (LexRule κ)) (text : List Char) (pieces : List (Lexeme κ)) :
    Nat → Lexing κ → Prop
  | complete {kind : κ} {n : Nat} : first? rules [] = some (kind, n) →
      Ends rules text pieces text.length
        ⟨pieces ++ [⟨kind, text.length, text.length⟩], text.length + 1, 0⟩
  | stuck {stop : Nat} : stop ≤ text.length → NoneLonger rules (text.drop stop) 0 →
      Ends rules text pieces stop ⟨pieces, stop, text.length - stop⟩

theorem Ends.cons {pieces : List (Lexeme κ)} {stop : Nat} {lexing : Lexing κ} (l : Lexeme κ)
    (h : Ends rules text pieces stop lexing) :
    Ends rules text (l :: pieces) stop { lexing with lexemes := l :: lexing.lexemes } := by
  cases h with
  | complete hend => exact .complete hend
  | stuck hstop hnone => exact .stuck hstop hnone

/-- What the first fitting rule takes where something is left is the longest lexeme there. -/
theorem IsOrdered.isLongest (h : IsOrdered rules) {piece after : List Char} {kind : κ} {n : Nat}
    (hpiece : piece ≠ []) (hfirst : first? rules (piece ++ after) = some (kind, n))
    (htake : piece = (piece ++ after).take n) :
    IsLongest rules (before ++ (piece ++ after))
      ⟨kind, before.length, (before ++ piece).length⟩ := by
  obtain ⟨hn, r, hr, hkind, haccept⟩ := exists_of_first? hfirst
  obtain ⟨c, rest, hcons⟩ : ∃ c rest, piece ++ after = c :: rest :=
    List.exists_cons_of_ne_nil (List.append_ne_nil_of_left_ne_nil hpiece after)
  have hplain : r.scanner.isPlain = true := by
    apply isPlain_of_accept_ne_zero (h.simple r hr)
    rw [← hcons, haccept]
    exact hn
  have hlength : piece.length = n := by
    have hle : r.scanner.accept (piece ++ after) ≤ _ := Scanner.accept_le_length hplain
    have htaken := congrArg List.length htake
    rw [List.length_take] at htaken
    omega
  have hsize : (before ++ piece).length - before.length = n := by
    rw [List.length_append, Nat.add_sub_cancel_left, hlength]
  have hlongest : NoneLonger rules (piece ++ after) n := by
    rw [hcons] at hfirst ⊢
    exact noneLonger_of_accept_le h.greedy (accept_le_of_first? h.order hfirst)
  have hfits : r.scanner.Fits ((piece ++ after).take n) := by
    rw [← haccept]
    exact Scanner.fits_take_accept hplain (by rwa [haccept])
  constructor
  · rw [List.drop_left, hsize]
    exact hfirst
  · rw [List.drop_left, hsize]
    exact ⟨r, hr, hkind, hfits⟩
  · rw [List.drop_left, hsize]
    exact hlongest

/-- Lexing with rules in order cuts a text into longest lexemes, wherever in a longer text it
starts. -/
theorem IsOrdered.lexFrom_tiles (h : IsOrdered rules) (before text : List Char) :
    ∃ pieces stop, Tiles before.length pieces stop ∧
      (∀ l ∈ pieces, IsLongest rules (before ++ text) l) ∧
      Ends rules (before ++ text) pieces stop (lexFrom rules before.length text) := by
  refine lexFrom_induction ?_ ?_ ?_ before text
    (P := fun before text lexing => ∃ pieces stop, Tiles before.length pieces stop ∧
      (∀ l ∈ pieces, IsLongest rules (before ++ text) l) ∧
      Ends rules (before ++ text) pieces stop lexing)
  · intro before text hnone
    have hremaining : text.length = (before ++ text).length - before.length := by simp
    have hzero : ∀ r ∈ rules, r.scanner.accept text ≤ 0 := fun r hr =>
      Nat.le_of_eq (accept_eq_zero_of_first? hnone r hr)
    refine ⟨[], before.length, .nil _, by simp, ?_⟩
    rw [hremaining]
    apply Ends.stuck
    · simp
    · rw [List.drop_left]
      exact noneLonger_of_accept_le h.greedy hzero
  · intro before kind n hend
    rw [List.append_nil]
    exact ⟨[], before.length, .nil _, by simp, .complete hend⟩
  · intro before piece after kind n tail hpiece hfirst htake ih
    obtain ⟨pieces, stop, htiles, hlongest, hends⟩ := ih
    have hnonempty : before.length < (before ++ piece).length := by
      rw [List.length_append]
      exact Nat.lt_add_of_pos_right (List.length_pos_iff.mpr hpiece)
    rw [List.append_assoc] at hlongest hends
    refine ⟨⟨kind, before.length, (before ++ piece).length⟩ :: pieces, stop, ?_, ?_, ?_⟩
    · exact Tiles.cons (l := ⟨kind, before.length, (before ++ piece).length⟩) hnonempty htiles
    · exact List.forall_mem_cons.mpr ⟨h.isLongest hpiece hfirst htake, hlongest⟩
    · exact hends.cons _

end Tiling

end LexRule

namespace Token
open LexRule

theorem isOrdered_rules : IsOrdered rules where
  simple := isSimple_of_mem_rules
  greedy := by decide
  order := by decide

/-- The lexemes of a text before the end are not empty and follow each other without a gap from its
beginning. Each of them is the longest that any rule accepts where it starts. They cover the whole
text, and then there is one more, for the end; or they stop where no rule accepts anything, and what
remains is counted. Collecting lexemes by position comes to the same, and needs at most two steps
more than there are characters. -/
theorem lex_tiles (text : List Char) :
    ∃ pieces stop, Tiles 0 pieces stop ∧
      (∀ l ∈ pieces, l.kind ≠ .ending ∧ IsLongest rules text l) ∧
      (stop = text.length ∧
          lex rules text = ⟨pieces ++ [⟨.ending, stop, stop⟩], stop + 1, 0⟩ ∨
        stop < text.length ∧ NoneLonger rules (text.drop stop) 0 ∧
          lex rules text = ⟨pieces, stop, text.length - stop⟩) ∧
      ∀ n, text.length + 2 ≤ n →
        collect rules text n 0 = .ok ((lex rules text).lexemes, (lex rules text).index) := by
  obtain ⟨pieces, stop, htiles, hlongest, hends⟩ := isOrdered_rules.lexFrom_tiles [] text
  have hcollect : ∀ n, text.length + 2 ≤ n →
      collect rules text n 0 = .ok ((lex rules text).lexemes, (lex rules text).index) :=
    fun n hn => (collect_eq_ok isSimple_of_mem_rules [] text n hn).1
  have hkind : ∀ l ∈ pieces, l.kind ≠ .ending := by
    intro l hl hending
    have honly : ∀ r ∈ rules, r.kind = .ending → r.scanner = .ending := by simp [rules]
    obtain ⟨r, hr, hrule, hfits⟩ := (hlongest l hl).fits
    rw [honly r hr (hrule.trans hending)] at hfits
    cases hfits
  have hends : (stop = text.length ∧
        lex rules text = ⟨pieces ++ [⟨.ending, stop, stop⟩], stop + 1, 0⟩) ∨
      (stop < text.length ∧ NoneLonger rules (text.drop stop) 0 ∧
        lex rules text = ⟨pieces, stop, text.length - stop⟩) := by
    change Ends rules text pieces stop (lex rules text) at hends
    generalize lex rules text = lexing at hends
    cases hends with
    | complete hend =>
        cases hend
        exact .inl ⟨rfl, rfl⟩
    | stuck hle hnone =>
        refine .inr ⟨Nat.lt_of_le_of_ne hle ?_, hnone, rfl⟩
        -- The rule for the end accepts it, so lexing cannot be stuck there.
        rintro rfl
        have hend := hnone.accept_le ⟨.ending, .ending⟩ (by simp [rules])
        rw [List.drop_length] at hend
        exact absurd hend (by decide)
  exact ⟨pieces, stop, htiles, fun l hl => ⟨hkind l hl, hlongest l hl⟩, hends, hcollect⟩

example : (lex rules "x<=1 <-> !y".toList).lexemes.map (·.kind) =
    [.name, .relation .lessEqual, .number, .space, .iff, .space, .not, .name, .ending] := by
  decide +kernel

end Token

end Entailment

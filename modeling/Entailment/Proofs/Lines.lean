import Mathlib.Data.List.TakeWhile
import Entailment.Text.Source

/-!
# Lines of a text

A text is cut into lines at its newlines. `IsLineOf` says by position what a line is, without saying
how to find one. A newline is taken to be on the line that it ends, and then a position in the text
is on exactly one line. Walking through a text finds this line. A position that is never come to
leads to the last one.
-/
namespace Entailment

namespace Line
variable {text : List Char} {line other : Line} {position : Int}

/-- One past the last character of a line. -/
def stop (line : Line) : Nat := line.start + line.text.length

/-- A line is a part of the text without a newline. It begins with the text or after a newline, and
ends with the text or before a newline. Its number counts the newlines before it. -/
structure IsLineOf (text : List Char) (line : Line) : Prop where
  part : (text.drop line.start).take line.text.length = line.text
  stop_le : line.stop ≤ text.length
  inner : '\n' ∉ line.text
  begins : line.start = 0 ∨ text[line.start - 1]? = some '\n'
  ends : line.stop = text.length ∨ text[line.stop]? = some '\n'
  number : line.number = 1 + (text.take line.start).count '\n'

/-- A position is on a line also if it is that of the newline, or the end of the text, right after
it. -/
def Encloses (line : Line) (position : Int) : Prop :=
  line.start ≤ position ∧ position ≤ line.stop

section Unique

theorem IsLineOf.ne_newline (h : line.IsLineOf text) {i : Nat} (hstart : line.start ≤ i)
    (hstop : i < line.stop) : text[i]? ≠ some '\n' := by
  intro hnewline
  have hoffset : i - line.start < line.text.length := by
    rw [stop] at hstop
    omega
  have hinner : line.text[i - line.start]? = some '\n' := by
    rw [← h.part, List.getElem?_take_of_lt hoffset, List.getElem?_drop,
      Nat.add_sub_cancel' hstart]
    exact hnewline
  exact h.inner (List.mem_of_getElem? hinner)

/-- No line begins within another one, or right after it. -/
theorem IsLineOf.start_le (h : line.IsLineOf text) (hother : other.IsLineOf text)
    (hline : position ≤ line.stop) (hposition : other.start ≤ position) :
    other.start ≤ line.start := by
  by_contra hlater
  rcases hother.begins with hzero | hnewline
  · omega
  · exact h.ne_newline (by omega) (by omega) hnewline

/-- Of two lines that begin together none goes on beyond the other one. -/
theorem IsLineOf.stop_le_stop (h : line.IsLineOf text) (hother : other.IsLineOf text)
    (hstart : other.start = line.start) : line.stop ≤ other.stop := by
  by_contra hlonger
  rcases hother.ends with hend | hnewline
  · have hstop := h.stop_le
    omega
  · have hother_le : other.start ≤ other.stop := Nat.le_add_right _ _
    exact h.ne_newline (by omega) (by omega) hnewline

/-- A position is on one line at most. -/
theorem IsLineOf.unique (h : line.IsLineOf text) (hother : other.IsLineOf text)
    (hencloses : line.Encloses position) (hencloses' : other.Encloses position) : other = line := by
  have hstart : other.start = line.start :=
    Nat.le_antisymm (h.start_le hother hencloses.2 hencloses'.1)
      (hother.start_le h hencloses'.2 hencloses.1)
  have hstop : other.stop = line.stop :=
    Nat.le_antisymm (hother.stop_le_stop h hstart.symm) (h.stop_le_stop hother hstart)
  have hlength : other.text.length = line.text.length := by
    rw [stop, stop] at hstop
    omega
  have htext : other.text = line.text := by rw [← hother.part, ← h.part, hstart, hlength]
  have hnumber : other.number = line.number := by rw [hother.number, h.number, hstart]
  cases line
  cases other
  rw [mk.injEq]
  exact ⟨hnumber, hstart, htext⟩

end Unique

section Seeking
variable {before passed rest after : List Char} {target : Int}

/-- What precedes a line: nothing, or something that ends with a newline. -/
def Precedes (before : List Char) : Prop := before = [] ∨ before.getLast? = some '\n'

theorem precedes_append_newline : Precedes (before ++ ['\n']) := .inr List.getLast?_concat

theorem isLineOf_append {chars : List Char} (hbefore : Precedes before)
    (hafter : after = [] ∨ after.head? = some '\n') (hinner : '\n' ∉ chars) :
    IsLineOf (before ++ chars ++ after) ⟨1 + before.count '\n', before.length, chars⟩ where
  part := by simp
  stop_le := by simp [stop]
  inner := hinner
  begins := by
    rcases hbefore with rfl | hlast
    · exact .inl rfl
    · have hne : before ≠ [] := by
        rintro rfl
        cases hlast
      have hpositive := List.length_pos_iff.mpr hne
      refine .inr ?_
      rw [List.append_assoc, List.getElem?_append_left (Nat.sub_lt hpositive Nat.one_pos),
        ← List.getLast?_eq_getElem?]
      exact hlast
  ends := by
    rcases hafter with rfl | hhead
    · exact .inl (by simp [stop])
    · refine .inr ?_
      rw [stop, ← List.length_append, List.getElem?_append_right (Nat.le_refl _), Nat.sub_self,
        ← List.head?_eq_getElem?]
      exact hhead
  number := by simp

/-- What looking for a position from index `i` on comes to. -/
structure Found (text : List Char) (target : Int) (i : Nat) (line : Line) : Prop where
  isLineOf : line.IsLineOf text
  encloses : i ≤ target → target ≤ text.length → line.Encloses target
  last : text.length < target → line.stop = text.length

theorem found_end (hbefore : Precedes before) (hpassed : '\n' ∉ passed) :
    Found (before ++ passed) target (before ++ passed).length
      ⟨1 + before.count '\n', before.length, passed⟩ where
  isLineOf := by
    have hline := isLineOf_append hbefore (.inl rfl) hpassed
    rwa [List.append_nil] at hline
  encloses hlow hhigh := by
    simp only [Encloses, stop, List.length_append] at hlow hhigh ⊢
    omega
  last _ := by rw [stop, List.length_append]

theorem found_here (hbefore : Precedes before) (hpassed : '\n' ∉ passed) :
    Found (before ++ passed ++ rest) (before ++ passed).length (before ++ passed).length
      ⟨1 + before.count '\n', before.length, passed ++ rest.takeWhile (· ≠ '\n')⟩ where
  isLineOf := by
    have hafter : rest.dropWhile (· ≠ '\n') = [] ∨
        (rest.dropWhile (· ≠ '\n')).head? = some '\n' := by
      cases hrest : rest.dropWhile (· ≠ '\n') with
      | nil => exact .inl rfl
      | cons c more =>
          have hhead := List.head?_dropWhile_not (· ≠ '\n') rest
          rw [hrest] at hhead
          refine .inr ?_
          simpa using hhead
    have hinner : '\n' ∉ passed ++ rest.takeWhile (· ≠ '\n') := by
      rw [List.mem_append, not_or]
      refine ⟨hpassed, fun hmem => ?_⟩
      simpa using List.mem_takeWhile_imp hmem
    have hline := isLineOf_append hbefore hafter hinner
    rwa [List.append_assoc, List.append_assoc, List.takeWhile_append_dropWhile,
      ← List.append_assoc] at hline
  encloses _ _ := by
    simp only [Encloses, stop, List.length_append]
    omega
  last hbeyond := by
    simp only [List.length_append] at hbeyond
    omega

theorem Found.next {i : Nat} (h : Found text target (i + 1) line) (hne : (i : Int) ≠ target) :
    Found text target i line where
  isLineOf := h.isLineOf
  encloses hlow hhigh := h.encloses (by omega) hhigh
  last := h.last

/-- The walk keeps what it has passed of the current line free of newlines, and counts those before
it. So wherever it stops, it has found a line. -/
theorem seek_found (before passed : List Char) (hbefore : Precedes before)
    (hpassed : '\n' ∉ passed) :
    Found (before ++ passed ++ rest) target (before ++ passed).length
      (seek target (before ++ passed).length (1 + before.count '\n') before.length passed.reverse
        rest) := by
  induction rest generalizing before passed with
  | nil =>
      rw [seek, List.reverse_reverse, List.append_nil]
      exact found_end hbefore hpassed
  | cons c rest ih =>
      rw [seek, List.reverse_reverse]
      split_ifs with htarget hnewline
      · rw [← htarget]
        exact found_here hbefore hpassed
      · subst hnewline
        have hnext := ih (before ++ passed ++ ['\n']) [] precedes_append_newline List.not_mem_nil
        have hcount : (before ++ passed ++ ['\n']).count '\n' = before.count '\n' + 1 := by
          simp [List.count_eq_zero.mpr hpassed]
        rw [hcount, List.append_nil, List.append_assoc _ ['\n'], List.singleton_append,
          List.length_append, List.length_singleton, List.reverse_nil, ← Nat.add_assoc] at hnext
        exact hnext.next htarget
      · have hlonger : '\n' ∉ passed ++ [c] := by simpa using ⟨hpassed, Ne.symm hnewline⟩
        have hnext := ih before (passed ++ [c]) hbefore hlonger
        rw [← List.append_assoc, List.append_assoc _ [c], List.singleton_append,
          List.length_append, List.length_singleton, List.reverse_concat] at hnext
        exact hnext.next htarget

end Seeking

end Line

/-- A span starts on a line of the text. If the start is in the text or at its end, that is the only
line with the start on it; if it is beyond, it is the last line. -/
theorem Source.lineOf_encloses (source : Source) (span : Span) (h : 0 ≤ span.start) :
    (source.lineOf span).IsLineOf source.text ∧
      (span.start ≤ source.text.length → (source.lineOf span).Encloses span.start ∧
        ∀ line : Line, line.IsLineOf source.text → line.Encloses span.start →
          line = source.lineOf span) ∧
      (source.text.length < span.start → (source.lineOf span).stop = source.text.length) := by
  have hfound : Line.Found source.text span.start 0 (source.lineOf span) :=
    Line.seek_found [] [] (.inl rfl) List.not_mem_nil
  have hencloses : span.start ≤ source.text.length →
      (source.lineOf span).Encloses span.start := hfound.encloses h
  refine ⟨hfound.isLineOf, fun hinside => ⟨hencloses hinside, ?_⟩, hfound.last⟩
  intro line hline hposition
  exact hfound.isLineOf.unique hline (hencloses hinside) hposition

/-- The newline of an empty line is on that line, and after a newline at the end there is one more
line, which is empty. -/
theorem Source.lineOf_encloses_empty :
    let source := Source.ofString "expr" "P ∧\n\nQ ∨ R\n"
    source.lineOf ⟨4, 5⟩ = ⟨2, 4, []⟩ ∧ source.lineOf ⟨20, 21⟩ = ⟨4, 11, []⟩ ∧
      (0 : Int) ≤ 4 ∧ (4 : Int) ≤ source.text.length ∧ (source.lineOf ⟨4, 5⟩).Encloses 4 ∧
      (0 : Int) ≤ 20 ∧ source.text.length < (20 : Int) ∧
      (source.lineOf ⟨20, 21⟩).stop = source.text.length := by
  intro source
  have hinside : (4 : Int) ≤ source.text.length := by decide
  have hbeyond : source.text.length < (20 : Int) := by decide
  have hnewline := source.lineOf_encloses ⟨4, 5⟩ (by decide)
  have hlast := source.lineOf_encloses ⟨20, 21⟩ (by decide)
  exact ⟨by decide, by decide, by decide, hinside, (hnewline.2.1 hinside).1, by decide, hbeyond,
    hlast.2.2 hbeyond⟩

end Entailment

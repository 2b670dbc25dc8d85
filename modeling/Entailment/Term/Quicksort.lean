/-!
# Quicksort

Sorts by a strict order, in which different elements may well tie.  Which of the tied elements comes
first is part of the result, and follows from the way the sorting goes: short ranges are sorted by
insertion, so that ties keep their order, and longer ones are split at a pivot.  The pivot is a
median of a few elements.  How these elements lie gives a hint whether the range is sorted already;
ranges that split badly are scattered a little before the next attempt, and after too many bad
splits the range is sorted as a heap.

Elements only ever change places, so nothing is lost.  That the result is in order is checked at the
end, and does not rest on the way it was found.
-/

namespace Entailment.Quicksort

variable {α : Type}

/-- Ranges up to this length are sorted by insertion. -/
def shortest : Nat := 12

/-- Ranges from this length on have their pivot chosen among nine elements instead of three. -/
def long : Nat := 50

/-- Whether the element in one place comes before the one in another place. -/
def less (lt : α → α → Bool) (xs : Array α) (i j : Nat) : Bool :=
  match xs[i]?, xs[j]? with
  | some x, some y => lt x y
  | _, _ => false

/-- The number of binary digits of a number. -/
def width (n : Nat) : Nat := if n = 0 then 0 else n.log2 + 1

section Insertion

/-- Moves the element in place `j` to the left, past all greater ones down to place `least`. -/
def sinkLeft (lt : α → α → Bool) (least : Nat) (xs : Array α) : Nat → Array α
  | 0 => xs
  | j + 1 =>
    if least < j + 1 && less lt xs (j + 1) j then
      sinkLeft lt least (xs.swapIfInBounds (j + 1) j) j
    else xs

/-- Moves the element before place `j` to the right, past smaller ones.  `n` places are left. -/
def sinkRight (lt : α → α → Bool) (xs : Array α) (j : Nat) : Nat → Array α
  | 0 => xs
  | n + 1 =>
    if less lt xs j (j - 1) then sinkRight lt (xs.swapIfInBounds j (j - 1)) (j + 1) n else xs

/-- Sorts the range from `a` up to `b`. -/
def insertion (lt : α → α → Bool) (xs : Array α) (a b : Nat) : Array α :=
  (List.range' (a + 1) (b - (a + 1))).foldl (sinkLeft lt a) xs

/-- The first place from `i` on, with `n` places to look at, whose element is out of order. -/
def firstDescent (lt : α → α → Bool) (xs : Array α) (i : Nat) : Nat → Nat
  | 0 => i
  | n + 1 => if less lt xs i (i - 1) then i else firstDescent lt xs (i + 1) n

/-- Tries to sort a range in which hardly anything is out of order, from place `i` on and with a
number of attempts.  Short ranges are only looked at.  Tells whether the range is sorted. -/
def settle (lt : α → α → Bool) (a b : Nat) : Nat → Nat → Array α → Array α × Bool
  | 0, _, xs => (xs, false)
  | n + 1, i, xs =>
    let i := firstDescent lt xs i (b - i)
    if i = b then (xs, true)
    else if b - a < long then (xs, false)
    else
      let xs := xs.swapIfInBounds i (i - 1)
      let xs := if 2 ≤ i - a then sinkLeft lt 0 xs (i - 1) else xs
      let xs := if 2 ≤ b - i then sinkRight lt xs (i + 1) (b - (i + 1)) else xs
      settle lt a b n i xs

end Insertion

section Heap

/-- Restores the order of a heap of size `size` that begins in place `a`, below one of its nodes.
The depth of the heap bounds the way down. -/
def siftDown (lt : α → α → Bool) (a size : Nat) : Nat → Nat → Array α → Array α
  | 0, _, xs => xs
  | n + 1, node, xs =>
    let child := 2 * node + 1
    if size ≤ child then xs
    else
      let child :=
        if child + 1 < size && less lt xs (a + child) (a + child + 1) then child + 1 else child
      if less lt xs (a + node) (a + child) then
        siftDown lt a size n child (xs.swapIfInBounds (a + node) (a + child))
      else xs

/-- Sorts the range from `a` up to `b` by making it a heap and taking out the greatest elements. -/
def heap (lt : α → α → Bool) (xs : Array α) (a b : Nat) : Array α :=
  let size := b - a
  let heaped := (List.range ((size - 1) / 2 + 1)).reverse.foldl
    (fun xs node => siftDown lt a size size node xs) xs
  (List.range size).reverse.foldl
    (fun xs i => siftDown lt a i size 0 (xs.swapIfInBounds a (a + i))) heaped

end Heap

section Pivot

/-- What the elements that were compared for a pivot tell about the whole range. -/
inductive Hint where
  | unknown | rising | falling
deriving DecidableEq, Repr

/-- Puts two places in the order of their elements, and counts it if they have to be exchanged. -/
def ordered (lt : α → α → Bool) (xs : Array α) (i j swaps : Nat) : Nat × Nat × Nat :=
  if less lt xs j i then (j, i, swaps + 1) else (i, j, swaps)

/-- The place of the median among three, with the count of exchanges. -/
def median (lt : α → α → Bool) (xs : Array α) (i j k swaps : Nat) : Nat × Nat :=
  let (i, j, swaps) := ordered lt xs i j swaps
  let (j, _, swaps) := ordered lt xs j k swaps
  let (_, j, swaps) := ordered lt xs i j swaps
  (j, swaps)

/-- The median of a place and its neighbours. -/
def medianAround (lt : α → α → Bool) (xs : Array α) (i swaps : Nat) : Nat × Nat :=
  median lt xs (i - 1) i (i + 1) swaps

/-- Chooses a pivot for the range from `a` up to `b`, which is not short.  If no exchange was needed
the range seems to rise, and if all were needed it seems to fall. -/
def choose (lt : α → α → Bool) (xs : Array α) (a b : Nat) : Nat × Hint :=
  let quarter := (b - a) / 4
  let (i, j, k) := (a + quarter, a + 2 * quarter, a + 3 * quarter)
  let (pivot, swaps) :=
    if long ≤ b - a then
      let (i, swaps) := medianAround lt xs i 0
      let (j, swaps) := medianAround lt xs j swaps
      let (k, swaps) := medianAround lt xs k swaps
      median lt xs i j k swaps
    else median lt xs i j k 0
  (pivot, if swaps = 0 then .rising else if swaps = 12 then .falling else .unknown)

/-- Turns the range from `a` up to `b` around. -/
def reverse (xs : Array α) (a b : Nat) : Array α :=
  (List.range ((b - a) / 2)).foldl (fun xs i => xs.swapIfInBounds (a + i) (b - 1 - i)) xs

/-- The next number of a sequence that looks random. -/
def scramble (x : UInt64) : UInt64 :=
  let x := x ^^^ (x <<< 13)
  let x := x ^^^ (x >>> 7)
  x ^^^ (x <<< 17)

/-- Exchanges three elements in the middle of the range with others, to break a pattern. -/
def scatter (xs : Array α) (a b : Nat) : Array α :=
  let length := b - a
  let middle := a + length / 4 * 2
  let exchange (state : Array α × UInt64) (i : Nat) : Array α × UInt64 :=
    let random := scramble state.2
    let other := random.toNat % Nat.pow 2 (width length)
    let other := if length ≤ other then other - length else other
    (state.1.swapIfInBounds (middle - 1 + i) (a + other), random)
  ([0, 1, 2].foldl exchange (xs, length.toUInt64)).1

end Pivot

section Partition

/-- Passes elements for which `keep` holds, going up from `i` no further than `j`. -/
def passUp (keep : Nat → Bool) (j : Nat) : Nat → Nat → Nat
  | 0, i => i
  | n + 1, i => if i ≤ j && keep i then passUp keep j n (i + 1) else i

/-- Passes elements for which `keep` holds, going down from `j` no further than `i`. -/
def passDown (keep : Nat → Bool) (i : Nat) : Nat → Nat
  | 0 => 0
  | j + 1 => if i ≤ j + 1 && keep (j + 1) then passDown keep i j else j + 1

/-- Exchanges elements from both ends that are on the wrong side, until the ends meet.  `low` and
`high` tell which places may stay as they are.  Gives the places where the ends met, and whether
nothing had to be exchanged. -/
def exchange (low high : Array α → Nat → Bool) :
    Nat → Nat → Nat → Array α → Array α × Nat × Nat × Bool
  | 0, i, j, xs => (xs, i, j, true)
  | n + 1, i, j, xs =>
    let i := passUp (low xs) j (j + 1 - i) i
    let j := passDown (high xs) i j
    if j < i then (xs, i, j, true)
    else
      let (xs, i, j, _) := exchange low high n (i + 1) (j - 1) (xs.swapIfInBounds i j)
      (xs, i, j, false)

/-- Splits the range into elements smaller than the pivot, the pivot, and all others.  Gives the
place of the pivot, and whether the range was split already. -/
def partition (lt : α → α → Bool) (xs : Array α) (a b pivot : Nat) : Array α × Nat × Bool :=
  let (xs, _, j, already) :=
    exchange (fun xs i => less lt xs i a) (fun xs j => !less lt xs j a) (b - a) (a + 1) (b - 1)
      (xs.swapIfInBounds a pivot)
  (xs.swapIfInBounds j a, j, already)

/-- Splits a range without elements smaller than the pivot into those that tie with it and those
that are greater.  Gives the place where the greater ones begin. -/
def partitionTied (lt : α → α → Bool) (xs : Array α) (a b pivot : Nat) : Array α × Nat :=
  let (xs, i, _, _) :=
    exchange (fun xs i => !less lt xs a i) (fun xs j => less lt xs a j) (b - a) (a + 1) (b - 1)
      (xs.swapIfInBounds a pivot)
  (xs, i)

end Partition

/-- The range before it is split: scattered if the last split was a bad one, turned round if it
falls, and settled if few elements are out of place.  Gives the number of bad splits that are still
put up with, the pivot, and whether the range is in order. -/
def prepare (lt : α → α → Bool) (xs : Array α) (a b limit : Nat) (balanced split : Bool) :
    Array α × Nat × Nat × Bool :=
  let (xs, limit) := if balanced then (xs, limit) else (scatter xs a b, limit - 1)
  let (pivot, hint) := choose lt xs a b
  let (xs, pivot) :=
    if hint = .falling then (reverse xs a b, b - 1 - (pivot - a)) else (xs, pivot)
  let (xs, settled) :=
    if balanced && split && hint ≠ .unknown then settle lt a b 5 (a + 1) xs else (xs, false)
  (xs, limit, pivot, settled)

/-- Sorts the range from `a` up to `b`.  `limit` is the number of bad splits that are put up with;
`balanced` and `split` tell whether the last split was a good one and whether it moved nothing.
Every split makes the range shorter, and the first argument bounds how often that can happen. -/
def sortRange (lt : α → α → Bool) :
    Nat → Array α → (a b limit : Nat) → (balanced split : Bool) → Array α
  | 0, xs, _, _, _, _, _ => xs
  | n + 1, xs, a, b, limit, balanced, split =>
    let length := b - a
    if length ≤ shortest then insertion lt xs a b
    else if limit = 0 then heap lt xs a b
    else
      let (xs, limit, pivot, settled) := prepare lt xs a b limit balanced split
      if settled then xs
      else if 0 < a && !less lt xs (a - 1) pivot then
        let (xs, mid) := partitionTied lt xs a b pivot
        sortRange lt n xs mid b limit balanced split
      else
        let (xs, mid, already) := partition lt xs a b pivot
        let (left, right) := (mid - a, b - mid)
        if left < right then
          sortRange lt n (sortRange lt n xs a mid limit true true) (mid + 1) b limit
            (length / 8 ≤ left) already
        else
          sortRange lt n (sortRange lt n xs (mid + 1) b limit true true) a mid limit
            (length / 8 ≤ right) already

/-- Whether no element comes before the one that it follows. -/
def inOrder (lt : α → α → Bool) : List α → Bool
  | x :: y :: rest => !lt y x && inOrder lt (y :: rest)
  | _ => true

/-- The elements in order. -/
def sort (lt : α → α → Bool) (xs : List α) : List α :=
  let n := xs.length
  let sorted := (sortRange lt (n + 1) xs.toArray 0 n (width n) true true).toList
  if inOrder lt sorted then sorted else xs.mergeSort fun x y => !lt y x

section Permutation

theorem swap_perm (xs : Array α) (i j : Nat) : (xs.swapIfInBounds i j).Perm xs := by
  unfold Array.swapIfInBounds
  split
  · split
    · exact Array.swap_perm ..
    · exact .refl _
  · exact .refl _

/-- Steps that change places, one after the other, change places. -/
theorem foldl_perm {β : Type} {f : Array α → β → Array α} (h : ∀ xs b, (f xs b).Perm xs)
    (bs : List β) (xs : Array α) : (bs.foldl f xs).Perm xs := by
  induction bs generalizing xs with
  | nil => exact .refl _
  | cons b bs ih => exact (ih _).trans (h xs b)

theorem sinkLeft_perm (lt : α → α → Bool) (least : Nat) (xs : Array α) (j : Nat) :
    (sinkLeft lt least xs j).Perm xs := by
  induction j generalizing xs with
  | zero => exact .refl _
  | succ j ih =>
    rw [sinkLeft]
    split
    · exact (ih _).trans (swap_perm ..)
    · exact .refl _

theorem sinkRight_perm (lt : α → α → Bool) (xs : Array α) (j n : Nat) :
    (sinkRight lt xs j n).Perm xs := by
  induction n generalizing xs j with
  | zero => exact .refl _
  | succ n ih =>
    rw [sinkRight]
    split
    · exact (ih ..).trans (swap_perm ..)
    · exact .refl _

theorem insertion_perm (lt : α → α → Bool) (xs : Array α) (a b : Nat) :
    (insertion lt xs a b).Perm xs :=
  foldl_perm (sinkLeft_perm lt a) ..

theorem settle_perm (lt : α → α → Bool) (a b n i : Nat) (xs : Array α) :
    (settle lt a b n i xs).1.Perm xs := by
  induction n generalizing i xs with
  | zero => exact .refl _
  | succ n ih =>
    have left (xs : Array α) (p : Prop) [Decidable p] (j : Nat) :
        (if p then sinkLeft lt 0 xs j else xs).Perm xs := by
      split
      · exact sinkLeft_perm ..
      · exact .refl _
    have right (xs : Array α) (p : Prop) [Decidable p] (j m : Nat) :
        (if p then sinkRight lt xs j m else xs).Perm xs := by
      split
      · exact sinkRight_perm ..
      · exact .refl _
    simp only [settle]
    split
    · exact .refl _
    · split
      · exact .refl _
      · exact (ih ..).trans ((right ..).trans ((left ..).trans (swap_perm ..)))

theorem siftDown_perm (lt : α → α → Bool) (a size n node : Nat) (xs : Array α) :
    (siftDown lt a size n node xs).Perm xs := by
  induction n generalizing node xs with
  | zero => exact .refl _
  | succ n ih =>
    simp only [siftDown]
    repeat' split
    all_goals first
      | exact .refl _
      | exact (ih ..).trans (swap_perm ..)

theorem heap_perm (lt : α → α → Bool) (xs : Array α) (a b : Nat) : (heap lt xs a b).Perm xs :=
  (foldl_perm (fun _ _ => (siftDown_perm ..).trans (swap_perm ..)) ..).trans
    (foldl_perm (fun _ _ => siftDown_perm ..) ..)

theorem reverse_perm (xs : Array α) (a b : Nat) : (reverse xs a b).Perm xs :=
  foldl_perm (fun _ _ => swap_perm ..) ..

theorem scatter_perm (xs : Array α) (a b : Nat) : (scatter xs a b).Perm xs := by
  simp only [scatter, List.foldl]
  exact (swap_perm ..).trans ((swap_perm ..).trans (swap_perm ..))

theorem exchange_perm (low high : Array α → Nat → Bool) (n i j : Nat) (xs : Array α) :
    (exchange low high n i j xs).1.Perm xs := by
  induction n generalizing i j xs with
  | zero => exact .refl _
  | succ n ih =>
    simp only [exchange]
    split
    · exact .refl _
    · exact (ih ..).trans (swap_perm ..)

theorem partition_perm (lt : α → α → Bool) (xs : Array α) (a b pivot : Nat) :
    (partition lt xs a b pivot).1.Perm xs :=
  (swap_perm ..).trans ((exchange_perm ..).trans (swap_perm ..))

theorem partitionTied_perm (lt : α → α → Bool) (xs : Array α) (a b pivot : Nat) :
    (partitionTied lt xs a b pivot).1.Perm xs :=
  (exchange_perm ..).trans (swap_perm ..)

theorem prepare_perm (lt : α → α → Bool) (xs : Array α) (a b limit : Nat)
    (balanced split : Bool) : (prepare lt xs a b limit balanced split).1.Perm xs := by
  have scattered : (if balanced then (xs, limit) else (scatter xs a b, limit - 1)).1.Perm xs := by
    split
    · exact .refl _
    · exact scatter_perm ..
  simp only [prepare]
  generalize (if balanced then (xs, limit) else (scatter xs a b, limit - 1)).1 = ys at scattered ⊢
  have turned (hint : Hint) (i j : Nat) :
      (if hint = .falling then (reverse ys a b, i) else (ys, j)).1.Perm xs := by
    split
    · exact (reverse_perm ..).trans scattered
    · exact scattered
  split
  · exact (settle_perm ..).trans (turned ..)
  · exact turned ..

theorem sortRange_perm (lt : α → α → Bool) (n : Nat) (xs : Array α) (a b limit : Nat)
    (balanced split : Bool) : (sortRange lt n xs a b limit balanced split).Perm xs := by
  induction n generalizing xs a b limit balanced split with
  | zero => exact .refl _
  | succ n ih =>
    have start := prepare_perm lt xs a b limit balanced split
    simp only [sortRange]
    split
    · exact insertion_perm ..
    · split
      · exact heap_perm ..
      · split
        · exact start
        · split
          · exact (ih ..).trans ((partitionTied_perm ..).trans start)
          · split
            · exact (ih ..).trans ((ih ..).trans ((partition_perm ..).trans start))
            · exact (ih ..).trans ((ih ..).trans ((partition_perm ..).trans start))

/-- Sorting loses nothing and adds nothing. -/
theorem sort_perm (lt : α → α → Bool) (xs : List α) : (sort lt xs).Perm xs := by
  simp only [sort]
  split
  · simpa using (sortRange_perm lt _ xs.toArray ..).toList
  · exact List.mergeSort_perm ..

end Permutation

end Entailment.Quicksort

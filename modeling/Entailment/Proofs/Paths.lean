import Entailment.Proposition.Replace
import Mathlib.Data.List.Basic
import Mathlib.Data.List.Pairwise

/-!
# Paths and the positions they cover

A list of paths covers the positions at or below one of them, and an empty list covers all. What it
covers does not depend on the order or the repetition of the paths. The paths that lead into a part
cover the positions there that the whole list covers.
-/
namespace Entailment

namespace Path
variable {i : Nat} {paths inner : List Path}

/-- Whether a position lies at or below one of the paths. -/
def reach (paths : List Path) (position : Path) : Bool :=
  paths.any fun path => path.isPrefixOf position

/-- Whether a position lies at or below one of the paths, as all do if there are no paths. -/
def covers (paths : List Path) (position : Path) : Bool :=
  paths.isEmpty || reach paths position

/-- No path is given twice or leads through the end of another. -/
def Apart (paths : List Path) : Prop := paths.Pairwise fun a b => ¬a <+: b ∧ ¬b <+: a

theorem mem_below {rest : Path} : rest ∈ below i paths ↔ (i : Int) :: rest ∈ paths := by
  unfold below
  rw [List.mem_filterMap]
  constructor
  · intro h
    obtain ⟨path, hpath, hrest⟩ := h
    cases path with
    | nil => cases hrest
    | cons j tail =>
        by_cases hj : j = i
        · simp only [if_pos hj, Option.some.injEq] at hrest
          rwa [← hj, ← hrest]
        · simp only [if_neg hj, reduceCtorEq] at hrest
  · intro h
    exact ⟨_, h, by simp⟩

theorem below_append (paths others : List Path) :
    below i (paths ++ others) = below i paths ++ below i others :=
  List.filterMap_append

theorem below_map_cons (others : List Path) :
    below i (others.map fun rest => (i : Int) :: rest) = others := by
  unfold below
  rw [List.filterMap_map]
  exact (List.filterMap_congr fun rest _ => if_pos rfl).trans List.filterMap_some

theorem Apart.below (h : Apart paths) (i : Nat) : Apart (below i paths) := by
  apply List.Pairwise.filterMap _ _ h
  intro a b hab rest hrest rest' hrest'
  have ha : a = (i : Int) :: rest := by
    cases a with
    | nil => cases hrest
    | cons j tail => grind
  have hb : b = (i : Int) :: rest' := by
    cases b with
    | nil => cases hrest'
    | cons j tail => grind
  rw [ha, hb, List.cons_prefix_cons, List.cons_prefix_cons] at hab
  simpa using hab

/-- A path that ends here is the only one. -/
theorem Apart.eq_singleton (h : Apart paths) (hmem : [] ∈ paths) : paths = [[]] := by
  obtain ⟨before, rest, rfl⟩ := List.append_of_mem hmem
  unfold Apart at h
  rw [List.pairwise_append, List.pairwise_cons] at h
  obtain ⟨-, ⟨hrest, -⟩, hbefore⟩ := h
  have hnobefore : before = [] := by
    apply List.eq_nil_iff_forall_not_mem.mpr
    intro path hpath
    exact (hbefore path hpath [] (by simp)).2 List.nil_prefix
  have hnorest : rest = [] := by
    apply List.eq_nil_iff_forall_not_mem.mpr
    intro path hpath
    exact (hrest path hpath).1 List.nil_prefix
  rw [hnobefore, hnorest]
  rfl

theorem reach_iff {position : Path} :
    reach paths position = true ↔ ∃ path ∈ paths, path <+: position := by
  simp [reach, List.any_eq_true]

theorem reach_of_nil_mem (h : [] ∈ paths) : reach paths = fun _ => true := by
  funext position
  exact reach_iff.mpr ⟨[], h, List.nil_prefix⟩

theorem reach_nil_iff : reach paths [] = true ↔ [] ∈ paths := by
  simp [reach_iff]

theorem reach_nil_of_not_mem (h : [] ∉ paths) : reach paths [] = false := by
  rw [← Bool.not_eq_true, reach_nil_iff]
  exact h

theorem reach_cons (h : [] ∉ paths) (i : Nat) :
    (fun position => reach paths (i :: position)) = reach (below i paths) := by
  funext position
  rw [Bool.eq_iff_iff, reach_iff, reach_iff]
  constructor
  · intro hreach
    obtain ⟨path, hpath, hprefix⟩ := hreach
    cases path with
    | nil => exact absurd hpath h
    | cons j rest =>
        obtain ⟨hj, hrest⟩ := List.cons_prefix_cons.mp hprefix
        rw [hj] at hpath
        exact ⟨rest, mem_below.mpr hpath, hrest⟩
  · intro hreach
    obtain ⟨rest, hrest, hprefix⟩ := hreach
    exact ⟨i :: rest, mem_below.mp hrest, List.cons_prefix_cons.mpr ⟨rfl, hprefix⟩⟩

theorem everywhere_iff : everywhere paths = true ↔ paths = [] ∨ [] ∈ paths := by
  simp [everywhere]

theorem covers_of_everywhere (h : everywhere paths = true) : covers paths = fun _ => true := by
  funext position
  unfold covers
  cases everywhere_iff.mp h with
  | inl hnil => simp [hnil]
  | inr hmem => simp [reach_of_nil_mem hmem]

theorem covers_of_not_everywhere (h : everywhere paths = false) : covers paths = reach paths := by
  funext position
  have hne : paths ≠ [] := by
    intro hnil
    rw [everywhere_iff.mpr (.inl hnil)] at h
    cases h
  simp [covers, hne]

theorem nil_not_mem_of_not_everywhere (h : everywhere paths = false) : [] ∉ paths := by
  intro hmem
  rw [everywhere_iff.mpr (.inr hmem)] at h
  cases h

theorem covers_nil (paths : List Path) : covers paths [] = everywhere paths := by
  cases h : everywhere paths with
  | true => rw [covers_of_everywhere h]
  | false =>
      rw [covers_of_not_everywhere h]
      exact reach_nil_of_not_mem (nil_not_mem_of_not_everywhere h)

theorem covers_congr {others : List Path} (h : ∀ path, path ∈ others ↔ path ∈ paths) :
    covers others = covers paths := by
  have hempty : others = [] ↔ paths = [] := by
    simp only [List.eq_nil_iff_forall_not_mem, h]
  funext position
  rw [covers, covers, Bool.eq_iff_iff, Bool.or_eq_true, Bool.or_eq_true, List.isEmpty_iff,
    List.isEmpty_iff, hempty, reach_iff, reach_iff]
  simp only [h]

theorem into_eq_some (h : into i paths = some inner) :
    everywhere paths = true ∧ inner = [] ∨
      everywhere paths = false ∧ inner = below i paths ∧ inner ≠ [] := by
  unfold into at h
  split at h
  next hall => exact .inl ⟨hall, (Option.some.inj h).symm⟩
  next hsome =>
    split at h
    next => cases h
    next hne =>
      cases h
      exact .inr ⟨by simpa using hsome, rfl, hne⟩

theorem into_eq_none (h : into i paths = none) : everywhere paths = false ∧ below i paths = [] := by
  unfold into at h
  split at h
  next => cases h
  next hsome =>
    split at h
    next hbelow => exact ⟨by simpa using hsome, hbelow⟩
    next => cases h

theorem into_of_below (h : everywhere paths = false) (hne : below i paths ≠ []) :
    into i paths = some (below i paths) := by
  unfold into
  rw [if_neg (by simp [h])]
  split
  next hbelow => exact absurd hbelow hne
  next => rfl

/-- The positions in a part that paths lead into. -/
theorem covers_cons_of_some (h : into i paths = some inner) :
    (fun position => covers paths (i :: position)) = covers inner := by
  obtain ⟨hall, rfl⟩ | ⟨hsome, hinner, hne⟩ := into_eq_some h
  · rw [covers_of_everywhere hall]
    rfl
  · rw [covers_of_not_everywhere hsome, reach_cons (nil_not_mem_of_not_everywhere hsome), ← hinner]
    funext position
    simp [covers, hne]

theorem covers_cons_of_none (h : into i paths = none) :
    (fun position => covers paths (i :: position)) = fun _ => false := by
  obtain ⟨hsome, hbelow⟩ := into_eq_none h
  rw [covers_of_not_everywhere hsome, reach_cons (nil_not_mem_of_not_everywhere hsome), hbelow]
  rfl

theorem Apart.into (h : Apart paths) (hinto : into i paths = some inner) : Apart inner := by
  obtain ⟨-, rfl⟩ | ⟨-, rfl, -⟩ := into_eq_some hinto
  · exact .nil
  · exact h.below i

theorem map_cons_subset {more : List Path} (h : more ⊆ below i paths) :
    (more.map fun rest => (i : Int) :: rest) ⊆ paths := by
  intro path hpath
  obtain ⟨rest, hrest, rfl⟩ := List.mem_map.mp hpath
  exact mem_below.mp (h hrest)

theorem everywhere_append_map_cons (h : everywhere paths = false) (i : Nat) (more : List Path) :
    everywhere (paths ++ more.map fun rest => (i : Int) :: rest) = false := by
  have hmem := nil_not_mem_of_not_everywhere h
  have hne : paths ≠ [] := by
    intro hnil
    simp [hnil, everywhere] at h
  rw [← Bool.not_eq_true, everywhere_iff]
  simp [hmem, hne]

/-- Any paths in a part can be had from paths to the same positions outside. -/
theorem exists_into {extra : List Path} (h : into i paths = some inner) (hsub : extra ⊆ inner) :
    ∃ more, more ⊆ paths ∧ into i (paths ++ more) = some (inner ++ extra) := by
  obtain ⟨hall, rfl⟩ | ⟨hsome, hinner, hne⟩ := into_eq_some h
  · rw [List.subset_nil.mp hsub]
    exact ⟨[], List.nil_subset _, by simpa using h⟩
  · have hmore := everywhere_append_map_cons hsome i extra
    have hbelow : below i (paths ++ extra.map fun rest => (i : Int) :: rest) = inner ++ extra := by
      rw [below_append, below_map_cons, ← hinner]
    refine ⟨_, map_cons_subset (hinner ▸ hsub), ?_⟩
    rw [into_of_below hmore (by simp [hbelow, hne]), hbelow]

end Path

end Entailment

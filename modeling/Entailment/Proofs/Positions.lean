import Entailment.Proofs.Marks
import Entailment.Proofs.Paths
import Entailment.Proofs.Rewriting

/-!
# Replacement at a set of positions

Paths name the parts of the arguments of relations that they lead to, and replacement is meant to
put `new` in the place of each occurrence of `old` in these parts once. A connective passes each
member the paths that lead into it, and a part that is named twice is still one part. A relation
follows its paths one after another instead, and looks through a part again for every path that
leads there. So repeated and nested paths, and their order, make a difference exactly if `old`
occurs in a part in which it has been replaced.
-/
namespace Entailment

theorem mapIdx_eq_self {α : Type} {g : Nat → α → α} {xs : List α}
    (h : ∀ i, ∀ x ∈ xs, g i x = x) : xs.mapIdx g = xs := by
  apply List.ext_getElem (by simp)
  intro i hi hi'
  rw [List.getElem_mapIdx]
  exact h i _ (List.getElem_mem hi')

namespace Term

mutual

/-- Applies `f` to the outermost parts of a term that lie at positions with a property. -/
def onRegions (covered : Path → Bool) (f : Term → Term) : Term → Term
  | .app head args =>
      if covered [] then f (.app head args) else .app head (onRegionsOfArgs covered f 0 args)
  | .var v => if covered [] then f (.var v) else .var v
  | .const name => if covered [] then f (.const name) else .const name
  | .num n => if covered [] then f (.num n) else .num n

def onRegionsOfArgs (covered : Path → Bool) (f : Term → Term) (i : Nat) : List Term → List Term
  | [] => []
  | t :: ts =>
      onRegions (fun position => covered (i :: position)) f t ::
        onRegionsOfArgs covered f (i + 1) ts

end

mutual

/-- The outermost parts of a term that lie at positions with a property. -/
def regions (covered : Path → Bool) : Term → List Term
  | .app head args => if covered [] then [.app head args] else regionsOfArgs covered 0 args
  | .var v => if covered [] then [.var v] else []
  | .const name => if covered [] then [.const name] else []
  | .num n => if covered [] then [.num n] else []

def regionsOfArgs (covered : Path → Bool) (i : Nat) : List Term → List Term
  | [] => []
  | t :: ts =>
      regions (fun position => covered (i :: position)) t ++ regionsOfArgs covered (i + 1) ts

end

section Regions
variable {covered : Path → Bool} {f : Term → Term} {t : Term}

theorem onRegions_of_covered (h : covered [] = true) : onRegions covered f t = f t := by
  cases t <;> rw [onRegions, if_pos h]

theorem regions_of_covered (h : covered [] = true) : regions covered t = [t] := by
  cases t <;> rw [regions, if_pos h]

theorem onRegionsOfArgs_eq_mapIdx (i : Nat) (ts : List Term) :
    onRegionsOfArgs covered f i ts =
      ts.mapIdx fun j t => onRegions (fun position => covered ((i + j : Nat) :: position)) f t := by
  induction ts generalizing i with
  | nil => rfl
  | cons t ts ih =>
      rw [onRegionsOfArgs, ih, List.mapIdx_cons]
      simp only [Nat.add_zero, Nat.add_assoc, Nat.add_comm 1]

theorem mem_regionsOfArgs {u : Term} (i : Nat) (ts : List Term) :
    u ∈ regionsOfArgs covered i ts ↔ ∃ (j : Nat) (h : j < ts.length),
      u ∈ regions (fun position => covered ((i + j : Nat) :: position)) ts[j] := by
  have hflatten : regionsOfArgs covered i ts = (ts.mapIdx fun j t =>
      regions (fun position => covered ((i + j : Nat) :: position)) t).flatten := by
    induction ts generalizing i with
    | nil => rfl
    | cons t ts ih =>
        rw [regionsOfArgs, ih, List.mapIdx_cons, List.flatten_cons]
        simp only [Nat.add_zero, Nat.add_assoc, Nat.add_comm 1]
  simp [hflatten, List.mem_mapIdx]

theorem onRegions_nowhere (t : Term) : onRegions (fun _ => false) f t = t := by
  induction t using Term.inductionOn with
  | app head args ih =>
      rw [onRegions, if_neg (by simp), onRegionsOfArgs_eq_mapIdx]
      congr 1
      apply List.ext_getElem (by simp)
      intro i hi hi'
      simpa using ih args[i] (List.getElem_mem hi')
  | _ => rfl

theorem regions_nowhere (t : Term) : regions (fun _ => false) t = [] := by
  induction t using Term.inductionOn with
  | app head args ih =>
      rw [regions, if_neg (by simp)]
      apply List.eq_nil_iff_forall_not_mem.mpr
      intro u hu
      obtain ⟨i, hi, hu⟩ := (mem_regionsOfArgs 0 args).mp hu
      rw [ih _ (List.getElem_mem hi)] at hu
      cases hu
  | _ => rfl

end Regions

section Parts
variable {old new : Term}

theorem sizeOf_le_of_occursIn {part t : Term} (h : part.occursIn t = true) :
    sizeOf part ≤ sizeOf t := by
  induction t using Term.inductionOn with
  | app head args ih =>
      rw [occursIn, occursInAny_eq_any, Bool.or_eq_true, decide_eq_true_eq, List.any_eq_true] at h
      cases h with
      | inl heq => exact Nat.le_of_eq (congrArg sizeOf heq.symm)
      | inr harg =>
          obtain ⟨u, hu, hpart⟩ := harg
          have hsize := ih u hu hpart
          have hless := List.sizeOf_lt_of_mem hu
          rw [app.sizeOf_spec]
          omega
  | _ =>
      simp only [occursIn, decide_eq_true_eq] at h
      exact Nat.le_of_eq (congrArg sizeOf h.symm)

theorem occursIn_refl (t : Term) : t.occursIn t = true := by
  cases t <;> simp [occursIn]

/-- A term does not occur in its own arguments. -/
theorem occursIn_arg {head : String} {args : List Term} {t : Term} (ht : t ∈ args) :
    (Term.app head args).occursIn t = false := by
  by_contra hoccurs
  have hsize := sizeOf_le_of_occursIn (by simpa using hoccurs)
  have hless := List.sizeOf_lt_of_mem ht
  rw [app.sizeOf_spec] at hsize
  omega

theorem modifyArg_eq_mapIdx (j : Int) (f : Term → Term) (args : List Term) :
    modifyArg j f args = args.mapIdx fun i t => if j = i then f t else t := by
  unfold modifyArg
  split
  next hj =>
    apply List.ext_getElem (by simp)
    intro i hi hi'
    rw [List.getElem_mapIdx, if_neg (by omega)]
  next hj =>
    apply List.ext_getElem (by simp)
    intro i hi hi'
    rw [List.getElem_modify, List.getElem_mapIdx]
    congr 1
    rw [eq_iff_iff]
    omega

theorem replaceAt_of_not_occursIn {path : Path} {t : Term} (h : old.occursIn t = false) :
    replaceAt old new path t = t := by
  induction path generalizing t with
  | nil => exact replace_of_not_occursIn h
  | cons j rest ih =>
      cases t with
      | app head args =>
          obtain ⟨-, hargs⟩ := occursIn_app_eq_false.mp h
          rw [replaceAt, modifyArg_eq_mapIdx, mapIdx_eq_self]
          intro i t ht
          split
          next => exact ih (hargs t ht)
          next => rfl
      | _ => rfl

section Whole
variable {head : String} {args : List Term} (heq : Term.app head args = old)
include heq

/-- Nothing can be replaced in the arguments of `old`. -/
theorem map_replace_args : args.map (replace old new) = args := by
  have hkept : ∀ t ∈ args, replace old new t = id t := fun t ht =>
    replace_of_not_occursIn (heq ▸ occursIn_arg ht)
  rw [List.map_congr_left hkept, List.map_id]

theorem modifyArg_args (j : Int) (path : Path) :
    modifyArg j (replaceAt old new path) args = args := by
  rw [modifyArg_eq_mapIdx, mapIdx_eq_self]
  intro i t ht
  rw [replaceAt_of_not_occursIn (heq ▸ occursIn_arg ht), ite_self]

end Whole

/-- What is replaced below a position that is replaced later makes no difference, unless occurrences
of `old` come up. -/
theorem replace_replaceAt (path : Path) {t : Term}
    (h : old.occursIn (replace old new t) = false) :
    replace old new (replaceAt old new path t) = replace old new t := by
  induction path generalizing t with
  | nil => exact replace_of_not_occursIn h
  | cons j rest ih =>
      cases t with
      | app head args =>
          by_cases heq : Term.app head args = old
          · rw [replaceAt, modifyArg_args heq]
          · rw [replace, if_neg heq, replaceList_eq_map] at h ⊢
            obtain ⟨hne, hargs⟩ := occursIn_app_eq_false.mp h
            have hmap : (modifyArg j (replaceAt old new rest) args).map (replace old new) =
                args.map (replace old new) := by
              rw [modifyArg_eq_mapIdx]
              apply List.ext_getElem (by simp)
              intro i hi hi'
              rw [List.getElem_map, List.getElem_map, List.getElem_mapIdx]
              split
              next => exact ih (hargs _ (List.mem_map_of_mem (List.getElem_mem _)))
              next => rfl
            rw [replaceAt]
            by_cases heq' : Term.app head (modifyArg j (replaceAt old new rest) args) = old
            · -- Nothing more is replaced in it, so it would occur in the result.
              rw [← hmap, map_replace_args heq'] at hne
              exact absurd heq' hne
            · rw [replace, if_neg heq', replaceList_eq_map, hmap]
      | _ => rfl

end Parts

section Paths
variable {old new t : Term} {ps : List Path}

/-- Follows one path after another. -/
def replaceEach (old new : Term) (ps : List Path) (t : Term) : Term :=
  ps.foldl (fun u path => replaceAt old new path u) t

theorem replaceEach_cons (path : Path) (ps : List Path) (t : Term) :
    replaceEach old new (path :: ps) t = replaceEach old new ps (replaceAt old new path t) := rfl

theorem replaceEach_append (ps others : List Path) :
    replaceEach old new (ps ++ others) t = replaceEach old new others (replaceEach old new ps t) :=
  List.foldl_append

/-- Whether a part has nothing left to replace after `old` has been replaced in it. -/
def Spent (old new t : Term) : Prop := old = new ∨ old.occursIn (replace old new t) = false

theorem replace_self (old t : Term) : replace old old t = t := by
  induction t using Term.inductionOn with
  | app head args ih =>
      rw [replace, replaceList_eq_map]
      split
      next heq => exact heq.symm
      next =>
        have hargs : args.map (replace old old) = args.map id := List.map_congr_left ih
        rw [hargs, List.map_id]
  | _ =>
      rw [replace]
      split
      next heq => exact heq.symm
      next => rfl

theorem eq_or_not_occursIn_of_replace_eq (h : replace old new t = t) :
    old = new ∨ old.occursIn t = false := by
  by_cases hsame : old = new
  · exact .inl hsame
  refine .inr ?_
  induction t using Term.inductionOn with
  | app head args ih =>
      rw [replace, replaceList_eq_map] at h
      split at h
      next heq => exact absurd (heq.symm.trans h.symm) hsame
      next hne =>
        have hargs : args.map (replace old new) = args.map id := by
          rw [List.map_id]
          exact (Term.app.inj h).2
        rw [List.map_inj_left] at hargs
        exact occursIn_app_eq_false.mpr ⟨hne, fun u hu => ih u hu (hargs u hu)⟩
  | _ =>
      rw [replace] at h
      split at h
      next heq => exact absurd (heq.symm.trans h.symm) hsame
      next hne => simpa [occursIn] using hne

theorem spent_iff : Spent old new t ↔ replace old new (replace old new t) = replace old new t := by
  constructor
  · intro h
    cases h with
    | inl heq => rw [heq, replace_self]
    | inr hnone => exact replace_of_not_occursIn hnone
  · exact eq_or_not_occursIn_of_replace_eq

theorem replace_eq_or_occursIn (old new t : Term) :
    replace old new t = t ∨ new.occursIn (replace old new t) = true := by
  induction t using Term.inductionOn with
  | app head args ih =>
      rw [replace, replaceList_eq_map]
      split
      next => exact .inr new.occursIn_refl
      next =>
        by_cases hargs : ∀ u ∈ args, replace old new u = id u
        · rw [List.map_congr_left hargs, List.map_id]
          exact .inl rfl
        · simp only [not_forall] at hargs
          obtain ⟨u, hu, hne⟩ := hargs
          have hnew := (ih u hu).resolve_left hne
          rw [occursIn, occursInAny_eq_any, Bool.or_eq_true, List.any_eq_true]
          exact .inr (.inr ⟨_, List.mem_map_of_mem hu, hnew⟩)
  | _ =>
      rw [replace]
      split
      next => exact .inr new.occursIn_refl
      next => exact .inl rfl

/-- Nothing is left to replace if neither term occurs in the other. -/
theorem not_occursIn_replace (hnew : old.occursIn new = false) (hold : new.occursIn old = false)
    (t : Term) : old.occursIn (replace old new t) = false := by
  induction t using Term.inductionOn with
  | app head args ih =>
      rw [replace, replaceList_eq_map]
      split
      next => exact hnew
      next hne =>
        rw [occursIn_app_eq_false, List.forall_mem_map]
        refine ⟨?_, ih⟩
        intro heq
        have hreplace : replace old new (.app head args) = old := by
          rw [replace, if_neg hne, replaceList_eq_map, heq]
        cases replace_eq_or_occursIn old new (.app head args) with
        | inl hsame => exact hne (hsame.symm.trans hreplace)
        | inr hoccurs =>
            rw [hreplace, hold] at hoccurs
            cases hoccurs
  | _ =>
      rw [replace]
      split
      next => exact hnew
      next hne => simpa [occursIn] using hne

theorem replaceAt_self (old : Term) (path : Path) (t : Term) : replaceAt old old path t = t := by
  induction path generalizing t with
  | nil => exact replace_self old t
  | cons j rest ih =>
      cases t with
      | app head args =>
          rw [replaceAt, modifyArg_eq_mapIdx, mapIdx_eq_self]
          intro i t ht
          rw [ih, ite_self]
      | _ => rfl

/-- Once all of a part has been replaced, further paths change nothing. -/
theorem replaceEach_of_fixed (h : ∀ path, replaceAt old new path t = t) (ps : List Path) :
    replaceEach old new ps t = t := by
  induction ps with
  | nil => rfl
  | cons path ps ih => rw [replaceEach_cons, h path, ih]

/-- Where a path ends, others make no difference if nothing is left to replace. -/
theorem replaceEach_of_spent (h : Spent old new t) (hmem : [] ∈ ps) :
    replaceEach old new ps t = replace old new t := by
  cases h with
  | inl heq => rw [heq, replace_self, replaceEach_of_fixed (replaceAt_self new · t)]
  | inr hnone =>
      induction ps generalizing t with
      | nil => cases hmem
      | cons path ps ih =>
          have hpath := replace_replaceAt path hnone
          rw [replaceEach_cons]
          cases path with
          | nil =>
              exact replaceEach_of_fixed (fun path => replaceAt_of_not_occursIn hnone) ps
          | cons j rest =>
              have hrest : [] ∈ ps := by simpa using hmem
              rw [← hpath] at hnone
              rw [ih hrest hnone, hpath]

/-- Following a path into one of several terms is following the rest of it there. -/
theorem mapIdx_replaceEach_modifyArg (j : Int) (rest : Path) (ps : List Path) (args : List Term) :
    (modifyArg j (replaceAt old new rest) args).mapIdx
        (fun i t => replaceEach old new (Path.below i ps) t) =
      args.mapIdx fun i t => replaceEach old new (Path.below i ((j :: rest) :: ps)) t := by
  rw [modifyArg_eq_mapIdx]
  apply List.ext_getElem (by simp)
  intro i hi hi'
  rw [List.getElem_mapIdx, List.getElem_mapIdx, List.getElem_mapIdx]
  by_cases hj : j = i
  · simp [Path.below, hj, replaceEach]
  · simp [Path.below, hj]

theorem replaceArgs_eq_mapIdx {paths : List Path} (h : Path.everywhere paths = false)
    (args : List Term) :
    Proposition.replaceArgs old new paths args =
      args.mapIdx fun i t => replaceEach old new (Path.below i paths) t := by
  rw [Proposition.replaceArgs, if_neg (by simp [h])]
  clear h
  induction paths generalizing args with
  | nil => exact (mapIdx_eq_self fun _ _ _ => rfl).symm
  | cons path paths ih =>
      rw [List.foldl_cons, ih]
      cases path with
      | nil => rfl
      | cons j rest => exact mapIdx_replaceEach_modifyArg j rest paths args

theorem replaceEach_app (h : [] ∉ ps) (head : String) (args : List Term) :
    replaceEach old new ps (.app head args) =
      .app head (args.mapIdx fun i t => replaceEach old new (Path.below i ps) t) := by
  induction ps generalizing args with
  | nil => exact congrArg (Term.app head) (mapIdx_eq_self fun _ _ _ => rfl).symm
  | cons path ps ih =>
      cases path with
      | nil => simp at h
      | cons j rest =>
          have hps : [] ∉ ps := by simpa using h
          rw [replaceEach_cons, replaceAt, ih hps, mapIdx_replaceEach_modifyArg]

theorem replaceEach_leaf (h : [] ∉ ps) (hleaf : ∀ head args, t ≠ .app head args) :
    replaceEach old new ps t = t := by
  induction ps with
  | nil => rfl
  | cons path ps ih =>
      cases path with
      | nil => simp at h
      | cons j rest =>
          have hstep : replaceAt old new (j :: rest) t = t := by
            cases t with
            | app head args => exact absurd rfl (hleaf head args)
            | _ => rfl
          have hps : [] ∉ ps := by simpa using h
          rw [replaceEach_cons, hstep, ih hps]

end Paths

section Once
variable {old new t : Term} {ps : List Path}

/-- Induction along paths: they end in a term, cannot be followed, or lead into its arguments. -/
@[elab_as_elim]
theorem pathInduction {motive : List Path → Term → Prop} (ps : List Path) (t : Term)
    (ends : ∀ ps t, [] ∈ ps → motive ps t)
    (leaf : ∀ ps t, [] ∉ ps → (∀ head args, t ≠ .app head args) → motive ps t)
    (app : ∀ ps head args, [] ∉ ps →
      (∀ (i : Nat) (hi : i < args.length), motive (Path.below i ps) args[i]) →
        motive ps (.app head args)) : motive ps t := by
  induction t using Term.inductionOn generalizing ps with
  | app head args ih =>
      by_cases hmem : [] ∈ ps
      · exact ends ps _ hmem
      · exact app ps head args hmem fun i hi => ih _ (List.getElem_mem hi) _
  | _ =>
      by_cases hmem : [] ∈ ps
      · exact ends ps _ hmem
      · exact leaf ps _ hmem nofun

theorem onRegions_reach_app {f : Term → Term} (h : [] ∉ ps) (head : String) (args : List Term) :
    onRegions (Path.reach ps) f (.app head args) =
      .app head (args.mapIdx fun i t => onRegions (Path.reach (Path.below i ps)) f t) := by
  rw [onRegions, if_neg (by simp [Path.reach_nil_of_not_mem h]), onRegionsOfArgs_eq_mapIdx]
  congr 1
  apply List.ext_getElem (by simp)
  intro i hi hi'
  rw [List.getElem_mapIdx, List.getElem_mapIdx, Nat.zero_add, Path.reach_cons h]

theorem onRegions_reach_leaf {f : Term → Term} (h : [] ∉ ps)
    (hleaf : ∀ head args, t ≠ .app head args) : onRegions (Path.reach ps) f t = t := by
  cases t with
  | app head args => exact absurd rfl (hleaf head args)
  | _ => rw [onRegions, if_neg (by simp [Path.reach_nil_of_not_mem h])]

theorem mem_regions_reach_app {u : Term} (h : [] ∉ ps) {head : String} {args : List Term} :
    u ∈ regions (Path.reach ps) (.app head args) ↔ ∃ (i : Nat) (hi : i < args.length),
      u ∈ regions (Path.reach (Path.below i ps)) args[i] := by
  rw [regions, if_neg (by simp [Path.reach_nil_of_not_mem h]), mem_regionsOfArgs]
  simp only [Nat.zero_add, Path.reach_cons h]

theorem regions_reach_leaf (h : [] ∉ ps) (hleaf : ∀ head args, t ≠ .app head args) :
    regions (Path.reach ps) t = [] := by
  cases t with
  | app head args => exact absurd rfl (hleaf head args)
  | _ => rw [regions, if_neg (by simp [Path.reach_nil_of_not_mem h])]

theorem reach_of_ends {ps : List Path} (h : [] ∈ ps) : Path.reach ps [] = true :=
  Path.reach_nil_iff.mpr h

/-- Paths that keep apart, or end in spent parts, replace each occurrence once. -/
theorem replaceEach_eq_onRegions (ps : List Path) (t : Term)
    (h : Path.Apart ps ∨ ∀ u ∈ regions (Path.reach ps) t, Spent old new u) :
    replaceEach old new ps t = onRegions (Path.reach ps) (replace old new) t := by
  induction ps, t using pathInduction with
  | ends ps t hmem =>
      rw [onRegions_of_covered (reach_of_ends hmem)]
      cases h with
      | inl hapart =>
          rw [hapart.eq_singleton hmem]
          rfl
      | inr hspent =>
          rw [regions_of_covered (reach_of_ends hmem), List.forall_mem_singleton] at hspent
          exact replaceEach_of_spent hspent hmem
  | leaf ps t hmem hleaf => rw [replaceEach_leaf hmem hleaf, onRegions_reach_leaf hmem hleaf]
  | app ps head args hmem ih =>
      rw [replaceEach_app hmem, onRegions_reach_app hmem]
      congr 1
      apply List.ext_getElem (by simp)
      intro i hi hi'
      rw [List.getElem_mapIdx, List.getElem_mapIdx]
      apply ih i (by simpa using hi)
      cases h with
      | inl hapart => exact .inl (hapart.below i)
      | inr hspent =>
          refine .inr fun u hu => hspent u ?_
          exact (mem_regions_reach_app hmem).mpr ⟨i, _, hu⟩

/-- Whatever the paths, nothing changes outside of the parts that they end in. -/
theorem onRegions_replaceEach (ps : List Path) (t hole : Term) :
    onRegions (Path.reach ps) (fun _ => hole) (replaceEach old new ps t) =
      onRegions (Path.reach ps) (fun _ => hole) t := by
  induction ps, t using pathInduction with
  | ends ps t hmem =>
      rw [onRegions_of_covered (reach_of_ends hmem), onRegions_of_covered (reach_of_ends hmem)]
  | leaf ps t hmem hleaf => rw [replaceEach_leaf hmem hleaf]
  | app ps head args hmem ih =>
      rw [replaceEach_app hmem, onRegions_reach_app hmem, onRegions_reach_app hmem]
      congr 1
      apply List.ext_getElem (by simp)
      intro i hi hi'
      rw [List.getElem_mapIdx, List.getElem_mapIdx, List.getElem_mapIdx]
      exact ih i (by simpa using hi')

/-- If further paths to the same parts never make a difference, nothing is left to replace in them.
-/
theorem spent_of_replaceEach (ps : List Path) (t : Term)
    (h : ∀ more, more ⊆ ps → replaceEach old new (ps ++ more) t =
      onRegions (Path.reach ps) (replace old new) t) :
    ∀ u ∈ regions (Path.reach ps) t, Spent old new u := by
  induction ps, t using pathInduction with
  | ends ps t hmem =>
      rw [regions_of_covered (reach_of_ends hmem), List.forall_mem_singleton, spent_iff]
      rw [onRegions_of_covered (reach_of_ends hmem)] at h
      -- Once more, and twice more, over the whole part.
      have honce := h [[]] (by simpa using hmem)
      have htwice := h [[], []] (by simpa using hmem)
      rw [replaceEach_append] at honce htwice
      change replace old new (replaceEach old new ps t) = replace old new t at honce
      change replace old new (replace old new (replaceEach old new ps t)) =
        replace old new t at htwice
      rwa [honce] at htwice
  | leaf ps t hmem hleaf => simp [regions_reach_leaf hmem hleaf]
  | app ps head args hmem ih =>
      intro u hu
      obtain ⟨i, hi, hu⟩ := (mem_regions_reach_app hmem).mp hu
      apply ih i hi _ u hu
      intro more hmore
      have hall := h _ (Path.map_cons_subset hmore)
      have hnil : [] ∉ ps ++ more.map fun rest => (i : Int) :: rest := by simp [hmem]
      rw [replaceEach_app hnil, onRegions_reach_app hmem, app.injEq] at hall
      have harg := congrArg (fun args => args[i]?) hall.2
      simpa [hi, Path.below_append, Path.below_map_cons] using harg

end Once

end Term

namespace Proposition

section Regions
variable (old : Term) (f : Term → Term)

mutual

/-- Applies `f` to the outermost terms that lie at positions with a property. A relation or a domain
that lies there as a whole has all of its terms there. A quantifier over `old` is left alone, as the
variable is not free in what it quantifies, and a domain does not mention the bound variable. -/
def onRegions (covered : Path → Bool) : Proposition → Proposition
  | .relation name args _ => .relation name (Term.onRegionsOfArgs covered f 0 args)
  | .not p _ => .not (onRegions (fun position => covered (0 :: position)) p)
  | .junction c ps _ => .junction c (onRegionsOfMembers covered 0 ps)
  | .implies a b _ =>
      .implies (onRegions (fun position => covered (0 :: position)) a)
        (onRegions (fun position => covered (1 :: position)) b)
  | .iff a b _ =>
      .iff (onRegions (fun position => covered (0 :: position)) a)
        (onRegions (fun position => covered (1 :: position)) b)
  | .quantified q v domain p _ =>
      if old = .var v then .quantified q v domain p
      else .quantified q v (if covered [] then domain.map f else domain) (onRegions covered p)
  | .contradiction _ => .contradiction

def onRegionsOfMembers (covered : Path → Bool) (i : Nat) : List Proposition → List Proposition
  | [] => []
  | p :: ps =>
      onRegions (fun position => covered (i :: position)) p :: onRegionsOfMembers covered (i + 1) ps

end

mutual

/-- The outermost terms at positions with a property, in relations that do not lie there as a whole
and not under a quantifier over `old`. -/
def regions (covered : Path → Bool) : Proposition → List Term
  | .relation _ args _ => if covered [] then [] else Term.regionsOfArgs covered 0 args
  | .not p _ => regions (fun position => covered (0 :: position)) p
  | .junction _ ps _ => regionsOfMembers covered 0 ps
  | .implies a b _ | .iff a b _ =>
      regions (fun position => covered (0 :: position)) a ++
        regions (fun position => covered (1 :: position)) b
  | .quantified _ v _ p _ => if old = .var v then [] else regions covered p
  | .contradiction _ => []

def regionsOfMembers (covered : Path → Bool) (i : Nat) : List Proposition → List Term
  | [] => []
  | p :: ps =>
      regions (fun position => covered (i :: position)) p ++ regionsOfMembers covered (i + 1) ps

end

end Regions

section Pairs

/-- Implications and biconditionals, which are made of two parts in the same way. -/
inductive TwoPart : (Proposition → Proposition → Option FactId → Proposition) → Prop
  | implies : TwoPart @implies
  | iff : TwoPart @iff

/-- Induction that does not tell propositions with two parts from each other. -/
@[elab_as_elim]
theorem inductionOnParts {motive : Proposition → Prop} (p : Proposition)
    (relation : ∀ name args m, motive (.relation name args m))
    (not : ∀ p m, motive p → motive (.not p m))
    (junction : ∀ c ps m, (∀ p ∈ ps, motive p) → motive (.junction c ps m))
    (pair : ∀ {mk}, TwoPart mk → ∀ a b m, motive a → motive b → motive (mk a b m))
    (quantified : ∀ q v domain p m, motive p → motive (.quantified q v domain p m))
    (contradiction : ∀ m, motive (.contradiction m)) : motive p :=
  p.inductionOn relation not junction (pair .implies) (pair .iff) quantified contradiction

namespace TwoPart
variable {mk : Proposition → Proposition → Option FactId → Proposition} {old new : Term}
  {f : Term → Term} {covered : Path → Bool} {a b c d : Proposition} {m m' : Option FactId}

theorem bare_eq_iff (h : TwoPart mk) :
    (mk a b m).bare = (mk c d m').bare ↔ a.bare = c.bare ∧ b.bare = d.bare := by
  cases h <;> simp [bare]

theorem replace_eq (h : TwoPart mk) (paths : List Path) : (mk a b m).replace old new paths =
    mk (a.replaceWithin old new (Path.into 0 paths))
      (b.replaceWithin old new (Path.into 1 paths)) none := by
  cases h with
  | implies => exact replace_implies ..
  | iff => exact replace_iff ..

theorem onRegions_eq (h : TwoPart mk) : (mk a b m).onRegions old f covered =
    mk (a.onRegions old f fun position => covered (0 :: position))
      (b.onRegions old f fun position => covered (1 :: position)) none := by
  cases h <;> rw [onRegions]

theorem regions_eq (h : TwoPart mk) : (mk a b m).regions old covered =
    (a.regions old fun position => covered (0 :: position)) ++
      b.regions old fun position => covered (1 :: position) := by
  cases h <;> rw [regions]

end TwoPart

end Pairs

section Members
variable {old new : Term} {f : Term → Term} {covered : Path → Bool}

theorem onRegionsOfMembers_eq_mapIdx (i : Nat) (ps : List Proposition) :
    onRegionsOfMembers old f covered i ps = ps.mapIdx fun j p =>
      p.onRegions old f fun position => covered ((i + j : Nat) :: position) := by
  induction ps generalizing i with
  | nil => rfl
  | cons p ps ih =>
      rw [onRegionsOfMembers, ih, List.mapIdx_cons]
      simp only [Nat.add_zero, Nat.add_assoc, Nat.add_comm 1]

theorem mem_regionsOfMembers {u : Term} (i : Nat) (ps : List Proposition) :
    u ∈ regionsOfMembers old covered i ps ↔ ∃ (j : Nat) (h : j < ps.length),
      u ∈ ps[j].regions old fun position => covered ((i + j : Nat) :: position) := by
  have hflatten : regionsOfMembers old covered i ps = (ps.mapIdx fun j p =>
      p.regions old fun position => covered ((i + j : Nat) :: position)).flatten := by
    induction ps generalizing i with
    | nil => rfl
    | cons p ps ih =>
        rw [regionsOfMembers, ih, List.mapIdx_cons, List.flatten_cons]
        simp only [Nat.add_zero, Nat.add_assoc, Nat.add_comm 1]
  simp [hflatten, List.mem_mapIdx]

theorem replaceMembers_eq_mapIdx (paths : List Path) (i : Nat) (ps : List Proposition) :
    replaceMembers old new paths i ps =
      ps.mapIdx fun j p => p.replaceWithin old new (Path.into (i + j) paths) := by
  induction ps generalizing i with
  | nil => rfl
  | cons p ps ih =>
      rw [replaceMembers_cons, ih, List.mapIdx_cons]
      simp only [Nat.add_zero, Nat.add_assoc, Nat.add_comm 1]

/-- Members that agree up to marks, one by one. -/
theorem bareList_mapIdx_congr {ps : List Proposition} {g h : Nat → Proposition → Proposition}
    (heq : ∀ i (hi : i < ps.length), (g i ps[i]).bare = (h i ps[i]).bare) :
    bareList (ps.mapIdx g) = bareList (ps.mapIdx h) := by
  rw [bareList_eq_map, bareList_eq_map]
  apply List.ext_getElem (by simp)
  intro i hi hi'
  simpa using heq i (by simpa using hi)

theorem bare_onRegions_nowhere (p : Proposition) :
    (p.onRegions old f fun _ => false).bare = p.bare := by
  induction p using Proposition.inductionOnParts with
  | relation name args m =>
      rw [onRegions, Term.onRegionsOfArgs_eq_mapIdx, mapIdx_eq_self, bare, bare]
      intro i t ht
      exact Term.onRegions_nowhere t
  | not p m ih => rw [onRegions, bare, bare, ih]
  | junction c ps m ih =>
      rw [onRegions, onRegionsOfMembers_eq_mapIdx, bare, bare]
      congr 1
      calc
        _ = bareList (ps.mapIdx fun _ p => p) :=
          bareList_mapIdx_congr fun i hi => ih _ (List.getElem_mem hi)
        _ = bareList ps := by rw [mapIdx_eq_self fun _ _ _ => rfl]
  | pair hmk a b m iha ihb =>
      rw [hmk.onRegions_eq, hmk.bare_eq_iff]
      exact ⟨iha, ihb⟩
  | quantified q v domain p m ih =>
      rw [onRegions, if_neg Bool.false_ne_true]
      split_ifs
      · rfl
      · rw [bare, bare, ih]
  | contradiction m => rfl

theorem regions_nowhere (p : Proposition) : p.regions old (fun _ => false) = [] := by
  induction p using Proposition.inductionOnParts with
  | relation name args m =>
      have hnone : Term.regions (fun _ => false) (.app name args) = [] := Term.regions_nowhere _
      rw [Term.regions, if_neg Bool.false_ne_true] at hnone
      rw [regions, if_neg Bool.false_ne_true, hnone]
  | not p m ih => rw [regions, ih]
  | junction c ps m ih =>
      rw [regions]
      apply List.eq_nil_iff_forall_not_mem.mpr
      intro u hu
      obtain ⟨i, hi, hu⟩ := (mem_regionsOfMembers 0 ps).mp hu
      rw [ih _ (List.getElem_mem hi)] at hu
      cases hu
  | pair hmk a b m iha ihb => rw [hmk.regions_eq, iha, ihb, List.append_nil]
  | quantified q v domain p m ih => rw [regions, ih, ite_self]
  | contradiction m => rfl

end Members

section Once
variable {old new : Term} {paths : List Path} {p : Proposition}

theorem bare_replaceWithin_eq (i : Nat)
    (ih : ∀ inner,
      (Path.Apart inner ∨ ∀ u ∈ p.regions old (Path.covers inner), Term.Spent old new u) →
      (p.replace old new inner).bare =
        (p.onRegions old (Term.replace old new) (Path.covers inner)).bare)
    (h : Path.Apart paths ∨ ∀ u ∈ p.regions old fun position => Path.covers paths (i :: position),
      Term.Spent old new u) :
    (p.replaceWithin old new (Path.into i paths)).bare =
      (p.onRegions old (Term.replace old new)
        fun position => Path.covers paths (i :: position)).bare := by
  cases hinto : Path.into i paths with
  | none => rw [Path.covers_cons_of_none hinto, bare_onRegions_nowhere, replaceWithin]
  | some inner =>
      rw [Path.covers_cons_of_some hinto] at h ⊢
      exact ih inner (h.imp_left fun hapart => Path.Apart.into hapart hinto)

theorem replaceArgs_eq_onRegionsOfArgs {name : String} {args : List Term} {m : Option FactId}
    (h : Path.Apart paths ∨
      ∀ u ∈ (relation name args m).regions old (Path.covers paths), Term.Spent old new u) :
    replaceArgs old new paths args =
      Term.onRegionsOfArgs (Path.covers paths) (Term.replace old new) 0 args := by
  rw [Term.onRegionsOfArgs_eq_mapIdx]
  cases heverywhere : Path.everywhere paths with
  | true =>
      rw [replaceArgs, if_pos heverywhere, Path.covers_of_everywhere heverywhere]
      apply List.ext_getElem (by simp)
      intro i hi hi'
      rw [List.getElem_map, List.getElem_mapIdx, Term.onRegions_of_covered rfl]
  | false =>
      have hnil := Path.nil_not_mem_of_not_everywhere heverywhere
      rw [Term.replaceArgs_eq_mapIdx heverywhere, Path.covers_of_not_everywhere heverywhere]
      apply List.ext_getElem (by simp)
      intro i hi hi'
      rw [List.getElem_mapIdx, List.getElem_mapIdx, Nat.zero_add, Path.reach_cons hnil]
      apply Term.replaceEach_eq_onRegions
      cases h with
      | inl hapart => exact .inl (hapart.below i)
      | inr hspent =>
          refine .inr fun u hu => hspent u ?_
          rw [regions, Path.covers_nil, if_neg (by simp [heverywhere]), Term.mem_regionsOfArgs,
            Path.covers_of_not_everywhere heverywhere]
          refine ⟨i, by simpa using hi, ?_⟩
          rwa [Nat.zero_add, Path.reach_cons hnil]

/-- Paths that keep apart, or end in spent parts, replace each occurrence once. -/
theorem bare_replace_eq (p : Proposition) (paths : List Path)
    (h : Path.Apart paths ∨ ∀ u ∈ p.regions old (Path.covers paths), Term.Spent old new u) :
    (p.replace old new paths).bare =
      (p.onRegions old (Term.replace old new) (Path.covers paths)).bare := by
  induction p using Proposition.inductionOnParts generalizing paths with
  | relation name args m => rw [replace, onRegions, replaceArgs_eq_onRegionsOfArgs h]
  | not p m ih =>
      have hp := bare_replaceWithin_eq 0 ih h
      rw [replace_not, onRegions, bare, bare, hp]
      rfl
  | junction c ps m ih =>
      rw [replace, onRegions, replaceMembers_eq_mapIdx, onRegionsOfMembers_eq_mapIdx, bare, bare]
      congr 1
      apply bareList_mapIdx_congr
      intro i hi
      rw [Nat.zero_add]
      apply bare_replaceWithin_eq i (ih _ (List.getElem_mem hi))
      refine h.imp_right fun hspent u hu => hspent u ?_
      rw [regions, mem_regionsOfMembers]
      exact ⟨i, hi, by rwa [Nat.zero_add]⟩
  | pair hmk a b m iha ihb =>
      rw [hmk.regions_eq, List.forall_mem_append] at h
      rw [hmk.replace_eq, hmk.onRegions_eq, hmk.bare_eq_iff]
      constructor
      · exact bare_replaceWithin_eq 0 iha (h.imp_right And.left)
      · exact bare_replaceWithin_eq 1 ihb (h.imp_right And.right)
  | quantified q v domain p m ih =>
      by_cases hbound : old = .var v
      · rw [replace, onRegions, if_pos hbound, if_pos hbound]
      · rw [regions, if_neg hbound] at h
        rw [replace, onRegions, if_neg hbound, if_neg hbound, Path.covers_nil, bare, bare,
          ih paths h]
  | contradiction m => rfl

theorem bare_onRegions_replaceWithin (paths : List Path) (i : Nat) (hole : Term)
    (ih : ∀ inner,
      ((p.replace old new inner).onRegions old (fun _ => hole) (Path.covers inner)).bare =
        (p.onRegions old (fun _ => hole) (Path.covers inner)).bare) :
    ((p.replaceWithin old new (Path.into i paths)).onRegions old (fun _ => hole)
        fun position => Path.covers paths (i :: position)).bare =
      (p.onRegions old (fun _ => hole) fun position => Path.covers paths (i :: position)).bare := by
  cases hinto : Path.into i paths with
  | none => rfl
  | some inner =>
      rw [Path.covers_cons_of_some hinto]
      exact ih inner

/-- Whatever the paths, nothing changes outside of the parts that they end in. -/
theorem bare_onRegions_replace (p : Proposition) (paths : List Path) (hole : Term) :
    ((p.replace old new paths).onRegions old (fun _ => hole) (Path.covers paths)).bare =
      (p.onRegions old (fun _ => hole) (Path.covers paths)).bare := by
  induction p using Proposition.inductionOnParts generalizing paths with
  | relation name args m =>
      rw [replace, onRegions, onRegions, Term.onRegionsOfArgs_eq_mapIdx,
        Term.onRegionsOfArgs_eq_mapIdx, bare, bare]
      congr 1
      cases heverywhere : Path.everywhere paths with
      | true =>
          rw [replaceArgs, if_pos heverywhere, Path.covers_of_everywhere heverywhere]
          apply List.ext_getElem (by simp)
          intro i hi hi'
          rw [List.getElem_mapIdx, List.getElem_mapIdx, Term.onRegions_of_covered rfl,
            Term.onRegions_of_covered rfl]
      | false =>
          have hnil := Path.nil_not_mem_of_not_everywhere heverywhere
          rw [Term.replaceArgs_eq_mapIdx heverywhere, Path.covers_of_not_everywhere heverywhere]
          apply List.ext_getElem (by simp)
          intro i hi hi'
          rw [List.getElem_mapIdx, List.getElem_mapIdx, List.getElem_mapIdx, Nat.zero_add,
            Path.reach_cons hnil, Term.onRegions_replaceEach]
  | not p m ih =>
      have hp := bare_onRegions_replaceWithin paths 0 hole ih
      rw [replace_not, onRegions, onRegions, bare, bare]
      exact congrArg (Proposition.not ·) hp
  | junction c ps m ih =>
      rw [replace, onRegions, onRegions, replaceMembers_eq_mapIdx, onRegionsOfMembers_eq_mapIdx,
        onRegionsOfMembers_eq_mapIdx, List.mapIdx_mapIdx, bare, bare]
      congr 1
      apply bareList_mapIdx_congr
      intro i hi
      rw [Nat.zero_add]
      exact bare_onRegions_replaceWithin paths i hole (ih _ (List.getElem_mem hi))
  | pair hmk a b m iha ihb =>
      rw [hmk.replace_eq, hmk.onRegions_eq, hmk.onRegions_eq, hmk.bare_eq_iff]
      constructor
      · exact bare_onRegions_replaceWithin paths 0 hole iha
      · exact bare_onRegions_replaceWithin paths 1 hole ihb
  | quantified q v domain p m ih =>
      by_cases hbound : old = .var v
      · rw [replace, if_pos hbound, onRegions, onRegions]
      · rw [replace, if_neg hbound, onRegions, onRegions, if_neg hbound, if_neg hbound,
          Path.covers_nil, bare, bare, ih paths]
        congr 1
        split
        next => rw [Option.map_map, Function.comp_def]
        next => rfl
  | contradiction m => rfl

theorem spent_of_replaceWithin (i : Nat)
    (ih : ∀ inner,
      (∀ more, more ⊆ inner → (p.replace old new (inner ++ more)).bare =
        (p.onRegions old (Term.replace old new) (Path.covers inner)).bare) →
      ∀ u ∈ p.regions old (Path.covers inner), Term.Spent old new u)
    (h : ∀ more, more ⊆ paths → (p.replaceWithin old new (Path.into i (paths ++ more))).bare =
      (p.onRegions old (Term.replace old new)
        fun position => Path.covers paths (i :: position)).bare) :
    ∀ u ∈ p.regions old fun position => Path.covers paths (i :: position),
      Term.Spent old new u := by
  cases hinto : Path.into i paths with
  | none => simp [Path.covers_cons_of_none hinto, regions_nowhere]
  | some inner =>
      rw [Path.covers_cons_of_some hinto] at h ⊢
      apply ih inner
      intro more hmore
      obtain ⟨outer, houter, hmore⟩ := Path.exists_into hinto hmore
      rw [← h outer houter, hmore, replaceWithin]

/-- If further paths to the same parts never make a difference, nothing is left to replace in them.
-/
theorem spent_of_replace (p : Proposition) (paths : List Path)
    (h : ∀ more, more ⊆ paths → (p.replace old new (paths ++ more)).bare =
      (p.onRegions old (Term.replace old new) (Path.covers paths)).bare) :
    ∀ u ∈ p.regions old (Path.covers paths), Term.Spent old new u := by
  induction p using Proposition.inductionOnParts generalizing paths with
  | relation name args m =>
      rw [regions, Path.covers_nil]
      split
      next => simp
      next hsome =>
        have heverywhere : Path.everywhere paths = false := by simpa using hsome
        have hnil := Path.nil_not_mem_of_not_everywhere heverywhere
        rw [Path.covers_of_not_everywhere heverywhere] at h ⊢
        intro u hu
        obtain ⟨i, hi, hu⟩ := (Term.mem_regionsOfArgs 0 args).mp hu
        rw [Nat.zero_add, Path.reach_cons hnil] at hu
        apply Term.spent_of_replaceEach _ _ _ u hu
        intro more hmore
        have hargs := h _ (Path.map_cons_subset hmore)
        rw [replace, onRegions, bare, bare, relation.injEq,
          Term.replaceArgs_eq_mapIdx (Path.everywhere_append_map_cons heverywhere i more),
          Term.onRegionsOfArgs_eq_mapIdx] at hargs
        have harg := congrArg (fun args => args[i]?) hargs.2.1
        simpa [hi, Path.below_append, Path.below_map_cons, Path.reach_cons hnil] using harg
  | not p m ih =>
      apply spent_of_replaceWithin 0 ih
      intro more hmore
      have hp := h more hmore
      rw [replace_not, onRegions, bare, bare] at hp
      exact (Proposition.not.inj hp).1
  | junction c ps m ih =>
      intro u hu
      rw [regions, mem_regionsOfMembers] at hu
      obtain ⟨i, hi, hu⟩ := hu
      rw [Nat.zero_add] at hu
      apply spent_of_replaceWithin i (ih _ (List.getElem_mem hi)) _ u hu
      intro more hmore
      have hps := h more hmore
      rw [replace, onRegions, replaceMembers_eq_mapIdx, onRegionsOfMembers_eq_mapIdx, bare, bare,
        junction.injEq, bareList_eq_map, bareList_eq_map] at hps
      have hp := congrArg (fun ps => ps[i]?) hps.2.1
      simpa [hi] using hp
  | pair hmk a b m iha ihb =>
      simp only [hmk.replace_eq, hmk.onRegions_eq, hmk.bare_eq_iff] at h
      rw [hmk.regions_eq, List.forall_mem_append]
      constructor
      · exact spent_of_replaceWithin 0 iha fun more hmore => (h more hmore).1
      · exact spent_of_replaceWithin 1 ihb fun more hmore => (h more hmore).2
  | quantified q v domain p m ih =>
      rw [regions]
      split
      next => simp
      next hbound =>
        apply ih
        intro more hmore
        have hp := h more hmore
        rw [replace, onRegions, if_neg hbound, if_neg hbound, bare, bare,
          quantified.injEq] at hp
        exact hp.2.2.2.1
  | contradiction m => simp [regions]

end Once

/-- Replacement at paths never changes anything outside of the parts that they end in. If no path
is given twice or leads through the end of another, it replaces each occurrence of `old` in these
parts once. The order of the paths and their repetition make no difference to this exactly if `old`
does not occur in a part once it has been replaced there, or is replaced by itself. -/
theorem replace_positions (p : Proposition) (old new : Term) (paths : List Path) :
    (∀ hole : Term,
      ((p.replace old new paths).onRegions old (fun _ => hole) (Path.covers paths)).same
        (p.onRegions old (fun _ => hole) (Path.covers paths)) = true) ∧
    (Path.Apart paths → (p.replace old new paths).same
      (p.onRegions old (Term.replace old new) (Path.covers paths)) = true) ∧
    ((∀ paths' : List Path, (∀ path, path ∈ paths' ↔ path ∈ paths) →
      (p.replace old new paths').same
        (p.onRegions old (Term.replace old new) (Path.covers paths)) = true) ↔
      ∀ t ∈ p.regions old (Path.covers paths),
        old = new ∨ old.occursIn (Term.replace old new t) = false) := by
  simp only [same_iff_bare]
  refine ⟨bare_onRegions_replace p paths, fun hapart => bare_replace_eq p paths (.inl hapart), ?_⟩
  constructor
  · intro h
    apply spent_of_replace p paths
    intro more hmore
    apply h
    intro path
    rw [List.mem_append]
    exact ⟨fun hpath => hpath.elim id (hmore ·), .inl⟩
  · intro hspent paths' hsame
    rw [← Path.covers_congr hsame] at hspent ⊢
    exact bare_replace_eq p paths' (.inr hspent)

section Example

/-- The constant `a` in `n` applications of `f`. -/
def nested : Nat → Term
  | 0 => .const "a"
  | n + 1 => .app "f" [nested n]

/-- Paths that keep apart may put in terms with the term that goes out, and paths that overlap may
come in any order if what is put in has nothing to replace. -/
theorem replace_positions_nested :
    (Proposition.replace (nested 0) (nested 1) [[0], [1, 0]]
        (.relation "P" [nested 1, nested 2])).same (.relation "P" [nested 2, nested 3]) = true ∧
      ∀ paths, (∀ path : Path, path ∈ paths ↔ path ∈ [[0], [0, 0], [1]]) →
        (Proposition.replace (nested 1) (.const "b") paths
          (.relation "P" [nested 1, nested 2])).same
            (.relation "P" [.const "b", .app "f" [.const "b"]]) = true := by
  constructor
  · exact (replace_positions _ _ _ _).2.1 (by unfold Path.Apart; decide)
  · refine (replace_positions _ _ _ _).2.2.mpr ?_
    intro t _
    exact .inr (Term.not_occursIn_replace (by decide) (by decide) t)

/-- With `a` in the place of `f(a)` or the other way round, a relation goes on to replace what it has
put in, or what has come up around it, if a path is given twice or a part comes before the whole. A
negation replaces what it leads to once, also if it is named twice. -/
theorem replace_depends_on_order :
    (∀ path : Path, path ∈ [[0], [0]] ↔ path ∈ [[0]]) ∧
    Proposition.replace (nested 0) (nested 1) [[0]] (.relation "P" [nested 0]) =
      .relation "P" [nested 1] ∧
    Proposition.replace (nested 0) (nested 1) [[0], [0]] (.relation "P" [nested 0]) =
      .relation "P" [nested 2] ∧
    Proposition.replace (nested 0) (nested 1) [[0], [0]] (.not (.relation "P" [nested 0])) =
      .not (.relation "P" [nested 1]) ∧
    (∀ path : Path, path ∈ [[0, 0], [0]] ↔ path ∈ [[0], [0, 0]]) ∧
    Proposition.replace (nested 1) (nested 0) [[0], [0, 0]] (.relation "P" [nested 2]) =
      .relation "P" [nested 1] ∧
    Proposition.replace (nested 1) (nested 0) [[0, 0], [0]] (.relation "P" [nested 2]) =
      .relation "P" [nested 0] ∧
    nested 0 ≠ nested 1 ∧ nested 1 ≠ nested 2 := by
  refine ⟨by simp, rfl, rfl, rfl, ?_, rfl, rfl, by decide, by decide⟩
  intro path
  simp [or_comm]

end Example

end Proposition

end Entailment

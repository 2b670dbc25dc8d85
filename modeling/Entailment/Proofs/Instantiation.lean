import Entailment.Proofs.Interpretation
import Entailment.Proofs.Run

/-!
# Soundness of instantiation

Replacing a variable by a term everywhere reads as giving the variable the value of the term, as
long as no quantifier on the way captures a variable of the term. `Proposition.admits` is that
condition. The replacement itself does not look at the quantifiers it passes, so instantiation is
sound under this condition, and the last theorem shows what can go wrong without it.
-/
namespace Entailment

namespace Proposition

mutual

/-- Replacing `v` by `t` puts no variable of `t` under a quantifier that binds it, and misses no
free occurrence of `v`. -/
def admits (v : Variable) (t : Term) : Proposition → Bool
  | .relation _ _ _ | .contradiction _ => true
  | .not p _ => admits v t p
  | .junction _ ps _ => admitsAll v t ps
  | .implies a b _ | .iff a b _ => admits v t a && admits v t b
  | .quantified _ w domain p _ =>
      if w = v then !domain.any (Term.var v).occursIn
      else (!p.contains (.var v) || !(Term.var w).occursIn t) && admits v t p

def admitsAll (v : Variable) (t : Term) : List Proposition → Bool
  | [] => true
  | p :: ps => admits v t p && admitsAll v t ps

end

@[simp] theorem admitsAll_eq_all (v : Variable) (t : Term) (ps : List Proposition) :
    admitsAll v t ps = ps.all (admits v t) := by
  induction ps with
  | nil => rfl
  | cons p ps ih => simp [admitsAll, ih]

/-- Whether a universal statement can be instantiated by a term without capture. -/
def admitsInstance (t : Term) : Proposition → Bool
  | .quantified .all v _ p _ => p.admits v t
  | _ => true

section Everywhere
variable (old new : Term)

theorem replaceMembers_nil (i : Nat) (ps : List Proposition) :
    replaceMembers old new [] i ps = ps.map (replaceAll old new) := by
  induction ps generalizing i with
  | nil => rfl
  | cons p ps ih =>
      rw [replaceMembers, ih]
      rfl

theorem replaceAll_junction (c : Connective) (ps : List Proposition) (m : Option FactId) :
    (junction c ps m).replaceAll old new = .junction c (ps.map (replaceAll old new)) := by
  rw [replaceAll, replace, replaceMembers_nil]

theorem replaceAll_quantified (q : Quantifier) (v : Variable) (domain : Option Term)
    (p : Proposition) (m : Option FactId) :
    (quantified q v domain p m).replaceAll old new =
      if old = .var v then .quantified q v domain p
      else .quantified q v (domain.map (Term.replace old new)) (p.replaceAll old new) := by
  rw [replaceAll, replace]
  rfl

end Everywhere

end Proposition

theorem Term.occursIn_app_eq_false {part : Term} {head : String} {args : List Term} :
    part.occursIn (.app head args) = false ↔
      Term.app head args ≠ part ∧ ∀ t ∈ args, part.occursIn t = false := by
  rw [occursIn, occursInAny_eq_any, Bool.or_eq_false_iff, decide_eq_false_iff_not,
    List.any_eq_false]
  simp

theorem Term.replace_of_not_occursIn {old new t : Term} (h : old.occursIn t = false) :
    Term.replace old new t = t := by
  induction t using Term.inductionOn with
  | var v => rw [replace, if_neg (by simpa [occursIn] using h)]
  | const name => rw [replace, if_neg (by simpa [occursIn] using h)]
  | num n => rw [replace, if_neg (by simpa [occursIn] using h)]
  | app head args ih =>
      obtain ⟨hne, hargs⟩ := occursIn_app_eq_false.mp h
      rw [replace, if_neg hne, replaceList_eq_map]
      have hkept : args.map (replace old new) = args.map id :=
        List.map_congr_left fun t ht => ih t ht (hargs t ht)
      rw [hkept, List.map_id]

namespace Interpretation

universe u

variable {D : Type u} {I : Interpretation D} {ρ : Variable → D} {v : Variable} {t : Term}

theorem value_replace (ρ : Variable → D) (v : Variable) (t u : Term) :
    I.value ρ (Term.replace (.var v) t u) = I.value (Function.update ρ v (I.value ρ t)) u := by
  induction u using Term.inductionOn with
  | var w =>
      rw [Term.replace, value]
      by_cases h : w = v
      · rw [if_pos (by rw [h]), h, Function.update_self]
      · rw [if_neg (by simpa using h), value, Function.update_of_ne h]
  | const name => rw [Term.replace, if_neg (by simp), value, value]
  | num n => rw [Term.replace, if_neg (by simp), value, value]
  | app head args ih =>
      rw [Term.replace, if_neg (by simp), value, value, values_eq_map, values_eq_map,
        Term.replaceList_eq_map, List.map_map]
      congr 1
      exact List.map_congr_left ih

theorem within_replace (ρ : Variable → D) (v : Variable) (t : Term) (domain : Option Term) (d : D) :
    I.Within ρ (domain.map (Term.replace (.var v) t)) d ↔
      I.Within (Function.update ρ v (I.value ρ t)) domain d := by
  cases domain with
  | none => exact Iff.rfl
  | some set => rw [Option.map_some, Within, Within, value_replace]

theorem satisfies_replaceAll {p : Proposition} (h : p.admits v t = true) :
    I.Satisfies ρ (p.replaceAll (.var v) t) ↔
      I.Satisfies (Function.update ρ v (I.value ρ t)) p := by
  induction p using Proposition.inductionOn generalizing ρ with
  | relation name args m =>
      have hargs : (args.map (Term.replace (.var v) t)).map (I.value ρ) =
          args.map (I.value (Function.update ρ v (I.value ρ t))) := by
        rw [List.map_map]
        exact List.map_congr_left fun u _ => value_replace ρ v t u
      exact satisfies_relation_congr hargs
  | not p m ih => exact not_congr (ih h)
  | junction c ps m ih =>
      rw [Proposition.admits, Proposition.admitsAll_eq_all, List.all_eq_true] at h
      have hmembers : (ps.map (Proposition.replaceAll (.var v) t)).map (I.Satisfies ρ) =
          ps.map (I.Satisfies (Function.update ρ v (I.value ρ t))) := by
        rw [List.map_map]
        exact List.map_congr_left fun p hp => propext (ih p hp (h p hp))
      rw [Proposition.replaceAll_junction]
      exact satisfies_junction_congr hmembers
  | implies a b m iha ihb =>
      rw [Proposition.admits, Bool.and_eq_true] at h
      exact imp_congr (iha h.1) (ihb h.2)
  | iff a b m iha ihb =>
      rw [Proposition.admits, Bool.and_eq_true] at h
      exact iff_congr (iha h.1) (ihb h.2)
  | quantified q w domain p m ih =>
      rw [Proposition.replaceAll_quantified]
      rw [Proposition.admits] at h
      by_cases hw : w = v
      · rw [if_pos hw] at h
        rw [if_pos (by rw [hw]), hw]
        refine satisfies_quantified_congr (within_congr fun x hx => ?_) fun d => ?_
        · have hne : x ≠ v := by
            rintro rfl
            simp [hx] at h
          rw [Function.update_of_ne hne]
        · rw [Function.update_idem]
      · rw [if_neg hw, Bool.and_eq_true] at h
        rw [if_neg (by simpa [eq_comm] using hw)]
        refine satisfies_quantified_congr (within_replace ρ v t domain) fun d => ?_
        rw [ih h.2, Function.update_comm hw]
        refine satisfies_congr fun x hx => ?_
        by_cases hxv : x = v
        · have hfree : (Term.var w).occursIn t = false := by simpa [← hxv, hx] using h.1
          have hvalue : I.value (Function.update ρ w d) t = I.value ρ t := by
            refine value_congr fun y hy => Function.update_of_ne ?_ _ _
            rintro rfl
            rw [hfree] at hy
            cases hy
          rw [hvalue]
        · by_cases hxw : x = w
          · rw [hxw, Function.update_self, Function.update_self]
          · simp only [Function.update_of_ne hxw, Function.update_of_ne hxv]
  | contradiction m => exact Iff.rfl

end Interpretation

namespace Session

universe u

theorem inParticular_ensures {s : Session} {u : Fact} (hu : s.Proves u) (t : Term)
    (facts : List Proposition) :
    Ensures (inParticular (some u.proposition) t facts) s
      (fun q s' => ∃ v domain p m, u.statement = .quantified .all v domain p m ∧
        q.statement = (p.replaceAll (.var v) t).strip ∧ u.statement ∈ s'.grounds q.id ∧
        ∀ set, domain = some set →
          ∃ m', .relation Relation.element.name [t, set] m' ∈ s'.grounds q.id)
      fun _ => True := by
  unfold inParticular
  apply (require_proposition_reads _ hu).ensures_bind trivial
  rintro f rfl
  split
  next v p m hstatement =>
    refine .derive ⟨v, none, p, m, hstatement, rfl, ?_, by simp⟩
    exact statement_mem_grounds hu.lists (by simp [Inference.premises]) _ _
  next v set p m hstatement =>
    apply (membership_reads s _ _ _ _).ensures_bind trivial
    rintro g ⟨hg, m', hmember⟩
    refine .derive ⟨v, some set, p, m, hstatement, rfl, ?_, ?_⟩
    · exact statement_mem_grounds hu.lists (by simp [Inference.premises]) _ _
    · rintro _ ⟨⟩
      refine ⟨m', ?_⟩
      rw [← hmember]
      exact statement_mem_grounds hg.lists (by simp [Inference.premises, Argument.premise?]) _ _
  next => exact .refuse trivial

/-- Where a universal statement and the membership used with it are true, so is the instance,
provided that the statement admits the term. -/
theorem inParticular_sound {D : Type u} (I : Interpretation D) (ρ : Variable → D)
    {s s' : Session} {u q : Fact} {t : Term} {facts : List Proposition} (hu : s.Proves u)
    (hfree : u.statement.admitsInstance t = true)
    (hrun : inParticular (some u.proposition) t facts s = .ok q s')
    (hgrounds : ∀ p ∈ s'.grounds q.id, I.Satisfies ρ p) : I.Satisfies ρ q.statement := by
  obtain ⟨v, domain, p, m, hstatement, hq, hmem, hdomain⟩ :=
    (inParticular_ensures hu t facts).answer hrun
  have huniversal := hgrounds _ hmem
  rw [hstatement] at huniversal hfree
  rw [hq, Interpretation.satisfies_strip, Interpretation.satisfies_replaceAll hfree]
  apply huniversal (I.value ρ t)
  cases domain with
  | none => trivial
  | some set =>
      obtain ⟨m', hmember⟩ := hdomain set rfl
      exact hgrounds _ hmember

/-- There is something that differs from `t`. -/
def unlike (t : Term) : Proposition :=
  .quantified .exist ⟨2, "y"⟩ none (.rel .notEqual t (.var ⟨2, "y"⟩))

/-- For everything there is something that differs from it. -/
def allUnlike : Proposition := .quantified .all ⟨1, "x"⟩ none (unlike (.var ⟨1, "x"⟩))

/-- Two objects, where a relation holds when its first and last argument differ. -/
def twoObjects : Interpretation Bool where
  constant _ := false
  number _ := false
  function _ _ := false
  relation _ args := args.head? ≠ args.getLast?

theorem twoObjects_allUnlike (ρ : Variable → Bool) : twoObjects.Satisfies ρ allUnlike := by
  intro d _
  refine ⟨!d, trivial, ?_⟩
  change some d ≠ some !d
  cases d <;> decide

theorem inParticular_sound_unlike :
    ∃ s', inParticular (some (Fact.proposition ⟨⟨0⟩, allUnlike⟩)) (.const "c") []
        (run {} [.postulate allUnlike]) = .ok ⟨⟨1⟩, unlike (.const "c")⟩ s' ∧
      twoObjects.Satisfies (fun _ => false) (unlike (.const "c")) := by
  have hrun : inParticular (some (Fact.proposition ⟨⟨0⟩, allUnlike⟩)) (.const "c") []
      (run {} [.postulate allUnlike]) = .ok ⟨⟨1⟩, unlike (.const "c")⟩
        (after (inParticular (some (Fact.proposition ⟨⟨0⟩, allUnlike⟩)) (.const "c") [])
          (run {} [.postulate allUnlike])) := rfl
  refine ⟨_, hrun, ?_⟩
  apply inParticular_sound twoObjects _ ⟨_, rfl, rfl, rfl⟩ rfl hrun
  intro p hp
  obtain rfl : p = allUnlike := List.mem_singleton.mp hp
  exact twoObjects_allUnlike _

/-- Instantiating by the variable that the inner quantifier binds leads from a true statement to
one that says of something that it differs from itself. -/
theorem inParticular_captures :
    ∃ s', inParticular (some (Fact.proposition ⟨⟨0⟩, allUnlike⟩)) (.var ⟨2, "y"⟩) []
        (run {} [.postulate allUnlike]) = .ok ⟨⟨1⟩, unlike (.var ⟨2, "y"⟩)⟩ s' ∧
      (∀ p ∈ s'.grounds ⟨1⟩, twoObjects.Satisfies (fun _ => false) p) ∧
      ¬twoObjects.Satisfies (fun _ => false) (unlike (.var ⟨2, "y"⟩)) := by
  refine ⟨_, rfl, ?_, ?_⟩
  · intro p hp
    obtain rfl : p = allUnlike := List.mem_singleton.mp hp
    exact twoObjects_allUnlike _
  · rintro ⟨d, -, hdiffers⟩
    exact hdiffers rfl

end Session

end Entailment

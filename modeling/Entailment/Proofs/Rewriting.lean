import Entailment.Proofs.Instantiation

/-!
# Soundness of rewriting

Putting one term in the place of another keeps the truth of a proposition where the two terms have
the same value, as long as their values do not change on the way: no quantifier above a place where
something is replaced may bind a variable of either term. `Proposition.replaceable` is that
condition. The replacement does not look at the quantifiers it passes, except for one that binds the
very term to be replaced; the last theorem shows what can go wrong.
-/
namespace Entailment

namespace Proposition

mutual

/-- No quantifier above a place where `old` is replaced binds a variable of `old` or `new`. -/
def replaceable (old new : Term) (paths : List Path) : Proposition → Bool
  | .relation _ _ _ | .contradiction _ => true
  | .not p _ => (Path.into 0 paths).all fun inner => replaceable old new inner p
  | .junction _ ps _ => replaceableMembers old new paths 0 ps
  | .implies a b _ | .iff a b _ =>
      ((Path.into 0 paths).all fun inner => replaceable old new inner a) &&
        (Path.into 1 paths).all fun inner => replaceable old new inner b
  | .quantified _ v _ p _ =>
      old == .var v || (p.replace old new paths).same p ||
        (!(Term.var v).occursIn old && !(Term.var v).occursIn new && replaceable old new paths p)

def replaceableMembers (old new : Term) (paths : List Path) (i : Nat) : List Proposition → Bool
  | [] => true
  | p :: ps =>
      ((Path.into i paths).all fun inner => replaceable old new inner p) &&
        replaceableMembers old new paths (i + 1) ps

end

/-- Replaces in a part that paths lead into, and keeps any other. -/
def replaceWithin (old new : Term) (p : Proposition) : Option (List Path) → Proposition
  | some inner => p.replace old new inner
  | none => p

section Parts
variable (old new : Term) (paths : List Path) (m : Option FactId)

theorem replace_not (p : Proposition) :
    (Proposition.not p m).replace old new paths =
      .not (p.replaceWithin old new (Path.into 0 paths)) := by
  rw [replace]
  cases Path.into 0 paths <;> rfl

theorem replace_implies (a b : Proposition) :
    (Proposition.implies a b m).replace old new paths =
      .implies (a.replaceWithin old new (Path.into 0 paths))
        (b.replaceWithin old new (Path.into 1 paths)) := by
  rw [replace]
  cases Path.into 0 paths <;> cases Path.into 1 paths <;> rfl

theorem replace_iff (a b : Proposition) :
    (Proposition.iff a b m).replace old new paths =
      .iff (a.replaceWithin old new (Path.into 0 paths))
        (b.replaceWithin old new (Path.into 1 paths)) := by
  rw [replace]
  cases Path.into 0 paths <;> cases Path.into 1 paths <;> rfl

theorem replaceMembers_cons (i : Nat) (p : Proposition) (ps : List Proposition) :
    replaceMembers old new paths i (p :: ps) =
      p.replaceWithin old new (Path.into i paths) :: replaceMembers old new paths (i + 1) ps := by
  rw [replaceMembers]
  cases Path.into i paths <;> rfl

end Parts

end Proposition

namespace Interpretation

universe u

variable {D : Type u} {I : Interpretation D} {ρ : Variable → D} {old new : Term}

theorem value_replace_eq (h : I.value ρ old = I.value ρ new) (t : Term) :
    I.value ρ (Term.replace old new t) = I.value ρ t := by
  induction t using Term.inductionOn with
  | var v =>
      rw [Term.replace]
      split
      next heq => rw [heq, h]
      next => rfl
  | const name =>
      rw [Term.replace]
      split
      next heq => rw [heq, h]
      next => rfl
  | num n =>
      rw [Term.replace]
      split
      next heq => rw [heq, h]
      next => rfl
  | app head args ih =>
      rw [Term.replace]
      split
      next heq => rw [heq, h]
      next =>
        rw [value, value, values_eq_map, values_eq_map, Term.replaceList_eq_map, List.map_map]
        congr 1
        exact List.map_congr_left ih

theorem map_modifyArg {f : Term → Term} (h : ∀ t, I.value ρ (f t) = I.value ρ t) (i : Int)
    (args : List Term) :
    (Term.modifyArg i f args).map (I.value ρ) = args.map (I.value ρ) := by
  rw [Term.modifyArg]
  split
  next => rfl
  next =>
    apply List.ext_getElem?
    intro k
    rw [List.getElem?_map, List.getElem?_map, List.getElem?_modify]
    cases args[k]? with
    | none => rfl
    | some t =>
        simp only [Option.map_some]
        split
        next => simp [h]
        next => rfl

theorem value_replaceAt_eq (h : I.value ρ old = I.value ρ new) (path : Path) (t : Term) :
    I.value ρ (Term.replaceAt old new path t) = I.value ρ t := by
  induction path generalizing t with
  | nil => exact value_replace_eq h t
  | cons i path ih =>
      cases t with
      | app head args =>
          rw [Term.replaceAt, value, value, values_eq_map, values_eq_map, map_modifyArg ih]
      | _ => rfl

theorem map_value_replaceArgs (h : I.value ρ old = I.value ρ new) (paths : List Path)
    (args : List Term) :
    (Proposition.replaceArgs old new paths args).map (I.value ρ) = args.map (I.value ρ) := by
  rw [Proposition.replaceArgs]
  split
  next =>
    rw [List.map_map]
    exact List.map_congr_left fun t _ => value_replace_eq h t
  next =>
    clear * - h
    induction paths generalizing args with
    | nil => rfl
    | cons path paths ih =>
        rw [List.foldl_cons, ih]
        cases path with
        | nil => rfl
        | cons i rest => exact map_modifyArg (value_replaceAt_eq h rest) i args

theorem within_replace_eq (h : I.value ρ old = I.value ρ new) (domain : Option Term) (d : D) :
    I.Within ρ (domain.map (Term.replace old new)) d ↔ I.Within ρ domain d := by
  cases domain with
  | none => exact Iff.rfl
  | some set => rw [Option.map_some, Within, Within, value_replace_eq h]

/-- Replacing a term by one with the same value keeps the truth of a part, if it does so wherever
paths lead. -/
theorem satisfies_replaceWithin {p : Proposition} {paths : Option (List Path)}
    (hp : paths.all (fun inner => p.replaceable old new inner) = true)
    (ih : ∀ inner, p.replaceable old new inner = true →
      (I.Satisfies ρ (p.replace old new inner) ↔ I.Satisfies ρ p)) :
    I.Satisfies ρ (p.replaceWithin old new paths) ↔ I.Satisfies ρ p := by
  cases paths with
  | none => exact Iff.rfl
  | some inner => exact ih inner (by simpa using hp)

theorem map_satisfies_replaceMembers {ps : List Proposition} {paths : List Path} {i : Nat}
    (hps : Proposition.replaceableMembers old new paths i ps = true)
    (ih : ∀ p ∈ ps, ∀ inner, p.replaceable old new inner = true →
      (I.Satisfies ρ (p.replace old new inner) ↔ I.Satisfies ρ p)) :
    (Proposition.replaceMembers old new paths i ps).map (I.Satisfies ρ) =
      ps.map (I.Satisfies ρ) := by
  induction ps generalizing i with
  | nil => rfl
  | cons p ps ihs =>
      rw [Proposition.replaceableMembers, Bool.and_eq_true] at hps
      have hfirst := satisfies_replaceWithin hps.1 (ih p (by simp))
      have hrest := ihs hps.2 fun p hp => ih p (by simp [hp])
      rw [Proposition.replaceMembers_cons, List.map_cons, List.map_cons, propext hfirst, hrest]

theorem satisfies_replace {p : Proposition} {paths : List Path}
    (h : I.value ρ old = I.value ρ new) (hp : p.replaceable old new paths = true) :
    I.Satisfies ρ (p.replace old new paths) ↔ I.Satisfies ρ p := by
  induction p using Proposition.inductionOn generalizing ρ paths with
  | relation name args m => exact satisfies_relation_congr (map_value_replaceArgs h paths args)
  | not p m ih =>
      rw [Proposition.replace_not]
      exact not_congr (satisfies_replaceWithin hp fun inner => ih h)
  | junction c ps m ih =>
      rw [Proposition.replace]
      exact satisfies_junction_congr (map_satisfies_replaceMembers hp fun p hp inner => ih p hp h)
  | implies a b m iha ihb =>
      rw [Proposition.replaceable, Bool.and_eq_true] at hp
      rw [Proposition.replace_implies]
      exact imp_congr (satisfies_replaceWithin hp.1 fun inner => iha h)
        (satisfies_replaceWithin hp.2 fun inner => ihb h)
  | iff a b m iha ihb =>
      rw [Proposition.replaceable, Bool.and_eq_true] at hp
      rw [Proposition.replace_iff]
      exact iff_congr (satisfies_replaceWithin hp.1 fun inner => iha h)
        (satisfies_replaceWithin hp.2 fun inner => ihb h)
  | quantified q v domain p m ih =>
      simp only [Proposition.replaceable, Bool.or_eq_true, Bool.and_eq_true, beq_iff_eq,
        Bool.not_eq_true'] at hp
      rw [Proposition.replace]
      split
      next => exact Iff.rfl
      next hne =>
        have hdomain : ∀ d, I.Within ρ (if Path.everywhere paths then
            domain.map (Term.replace old new) else domain) d ↔ I.Within ρ domain d := by
          intro d
          split
          next => exact within_replace_eq h domain d
          next => exact Iff.rfl
        refine satisfies_quantified_congr hdomain fun d => ?_
        rcases hp with (heq | huntouched) | ⟨⟨hold, hnew⟩, hbody⟩
        · exact absurd heq hne
        · exact satisfies_same huntouched
        · refine ih ?_ hbody
          rw [value_update_of_not_occursIn hold, value_update_of_not_occursIn hnew, h]
  | contradiction m => exact Iff.rfl

end Interpretation

/-- The variable is new to the proposition and the witness, and can be put in the place of the
witness. -/
def Proposition.abstractable (witness : Term) (v : Variable) (paths : List Path)
    (p : Proposition) : Bool :=
  !p.contains (.var v) && !(Term.var v).occursIn witness &&
    p.replaceable witness (.var v) paths

namespace Interpretation

universe u

variable {D : Type u} {I : Interpretation D} {ρ : Variable → D}

/-- Equality relates everything to itself and nothing else. -/
def ReadsEquality (I : Interpretation D) : Prop :=
  ∀ x y, I.relation Relation.equal.name [x, y] ↔ x = y

/-- A witness makes an existential statement true, over any domain that it belongs to. -/
theorem satisfies_abstracted {p : Proposition} {witness : Term} {v : Variable} {paths : List Path}
    {domain : Option Term} (hp : p.abstractable witness v paths = true) (htrue : I.Satisfies ρ p)
    (hdomain : I.Within ρ domain (I.value ρ witness)) :
    I.Satisfies ρ (.quantified .exist v domain (p.replace witness (.var v) paths)) := by
  simp only [Proposition.abstractable, Bool.and_eq_true, Bool.not_eq_true'] at hp
  obtain ⟨⟨hfree, hwitness⟩, hreplaceable⟩ := hp
  refine ⟨I.value ρ witness, hdomain, ?_⟩
  have hvalue : I.value (Function.update ρ v (I.value ρ witness)) witness =
      I.value (Function.update ρ v (I.value ρ witness)) (.var v) := by
    rw [value_update_of_not_occursIn hwitness, value, Function.update_self]
  have hkept := (satisfies_update_of_not_contains hfree (I.value ρ witness)).mpr htrue
  exact (satisfies_replace hvalue hreplaceable).mpr hkept

end Interpretation

namespace Session

universe u

section Specification
variable {s : Session} {p : Fact}

theorem substitute_ensures {e : Fact} (he : s.Proves e) (hp : s.Proves p) (paths : List Path) :
    Ensures (substitute (some e.proposition) (some p.proposition) paths) s
      (fun q s' => ∃ lhs rhs m, e.statement = .relation Relation.equal.name [lhs, rhs] m ∧
        q.statement = (p.statement.replace lhs rhs paths).strip ∧
        e.statement ∈ s'.grounds q.id ∧ p.statement ∈ s'.grounds q.id)
      fun _ => True := by
  unfold substitute
  apply (require_proposition_reads _ he).ensures_bind trivial
  rintro f rfl
  apply (require_proposition_reads _ hp).ensures_bind trivial
  rintro g rfl
  split
  next name lhs rhs m hstatement =>
    refine .guard trivial fun hname => .guard trivial fun _ => ?_
    obtain rfl : name = Relation.equal.name := by simpa using hname
    refine .derive ⟨lhs, rhs, m, hstatement, rfl, ?_, ?_⟩
    · exact statement_mem_grounds he.lists (by simp [Inference.premises]) _ _
    · exact statement_mem_grounds hp.lists (by simp [Inference.premises, Argument.premise?]) _ _
  next => exact .refuse trivial

/-- Abstracting a witness uses up the next variable. -/
theorem abstractWitness_fresh (p : Fact) (name : String) (witness : Term) (paths : List Path) :
    Ensures (abstractWitness p name witness paths) s
      (fun x t => s.Aside t ∧ x.1 = ⟨s.fresh, name⟩ ∧
        x.2 = p.statement.replace witness (.var ⟨s.fresh, name⟩) paths)
      fun _ => True := by
  have hnew : Ensures (newVariable name) s (fun v t => s.Aside t ∧ v = ⟨s.fresh, name⟩)
      fun _ => True := ⟨⟨_, _, _, rfl⟩, rfl⟩
  unfold abstractWitness
  refine hnew.bind fun v t ht => .guard trivial fun _ => .pure ?_
  obtain ⟨haside, rfl⟩ := ht
  exact ⟨haside, rfl, rfl⟩

theorem thusThereExists_ensures (hp : s.Proves p) (name : String) (witness : Term)
    (paths : List Path) :
    Ensures (thusThereExists (some p.proposition) name witness paths) s
      (fun q s' => q.statement = .quantified .exist ⟨s.fresh, name⟩ none
          (p.statement.replace witness (.var ⟨s.fresh, name⟩) paths) ∧
        p.statement ∈ s'.grounds q.id)
      fun _ => True := by
  unfold thusThereExists
  apply (require_proposition_reads _ hp).ensures_bind trivial
  rintro f rfl
  refine (abstractWitness_fresh f name witness paths).bind fun ⟨v, inner⟩ t ht => ?_
  obtain ⟨haside, rfl, rfl⟩ := ht
  refine .derive ⟨rfl, ?_⟩
  exact statement_mem_grounds (haside.proves hp).lists (by simp [Inference.premises]) _ _

theorem thusThereExistsIn_ensures (hp : s.Proves p) (name : String) (witness set : Term)
    (given : Option Proposition) (paths : List Path) :
    Ensures (thusThereExistsIn (some p.proposition) name witness set given paths) s
      (fun q s' => q.statement = .quantified .exist ⟨s.fresh, name⟩ (some set)
          (p.statement.replace witness (.var ⟨s.fresh, name⟩) paths) ∧
        p.statement ∈ s'.grounds q.id ∧
        ∃ m, .relation Relation.element.name [witness, set] m ∈ s'.grounds q.id)
      fun _ => True := by
  unfold thusThereExistsIn
  apply (require_proposition_reads _ hp).ensures_bind trivial
  rintro f rfl
  refine (membership_reads s _ _ _ _).ensures_bind trivial fun g ⟨hg, m, hmember⟩ => ?_
  refine (abstractWitness_fresh f name witness paths).bind fun ⟨v, inner⟩ t ht => ?_
  obtain ⟨haside, rfl, rfl⟩ := ht
  refine .derive ⟨rfl, ?_, m, ?_⟩
  · exact statement_mem_grounds (haside.proves hp).lists (by simp [Inference.premises]) _ _
  · rw [← hmember]
    refine statement_mem_grounds (haside.proves hg).lists ?_ _ _
    simp [Inference.premises, Argument.premise?]

end Specification

/-- Where the premises are true, so is what rewriting by an equality and abstracting a witness
derive from them, provided that the terms involved keep their values at every place of the
replacement. -/
theorem rewriting_sound {D : Type u} (I : Interpretation D) (ρ : Variable → D) {s s' : Session}
    {p q : Fact} (hp : s.Proves p) (paths : List Path)
    (hgrounds : ∀ g ∈ s'.grounds q.id, I.Satisfies ρ g) :
    (I.ReadsEquality → ∀ e lhs rhs m, s.Proves e →
      e.statement = .relation Relation.equal.name [lhs, rhs] m →
      p.statement.replaceable lhs rhs paths = true →
      substitute (some e.proposition) (some p.proposition) paths s = .ok q s' →
        I.Satisfies ρ q.statement) ∧
    (∀ name witness, p.statement.abstractable witness ⟨s.fresh, name⟩ paths = true →
      thusThereExists (some p.proposition) name witness paths s = .ok q s' →
        I.Satisfies ρ q.statement) ∧
    ∀ name witness set given, p.statement.abstractable witness ⟨s.fresh, name⟩ paths = true →
      thusThereExistsIn (some p.proposition) name witness set given paths s = .ok q s' →
        I.Satisfies ρ q.statement := by
  refine ⟨?_, ?_, ?_⟩
  · intro hI e lhs rhs m he hstatement hreplaceable hrun
    obtain ⟨lhs', rhs', m', hstatement', hq, hequality, hpremise⟩ :=
      (substitute_ensures he hp paths).answer hrun
    obtain ⟨⟨rfl, rfl⟩, -⟩ : (lhs = lhs' ∧ rhs = rhs') ∧ m = m' := by
      simpa [hstatement] using hstatement'
    have hvalue : I.value ρ lhs = I.value ρ rhs := by
      have htrue := hgrounds _ hequality
      rw [hstatement] at htrue
      exact (hI _ _).mp htrue
    rw [hq, Interpretation.satisfies_strip, Interpretation.satisfies_replace hvalue hreplaceable]
    exact hgrounds _ hpremise
  · intro name witness habstractable hrun
    obtain ⟨hq, hpremise⟩ := (thusThereExists_ensures hp name witness paths).answer hrun
    rw [hq]
    exact Interpretation.satisfies_abstracted habstractable (hgrounds _ hpremise) trivial
  · intro name witness set given habstractable hrun
    obtain ⟨hq, hpremise, m, hmember⟩ :=
      (thusThereExistsIn_ensures hp name witness set given paths).answer hrun
    rw [hq]
    exact Interpretation.satisfies_abstracted habstractable (hgrounds _ hpremise)
      (hgrounds _ hmember)

/-- Two objects, with equality, where any other relation holds when its first and last argument
differ and a function answers with its first argument. -/
def distinguished : Interpretation Bool where
  constant _ := false
  number _ := false
  function _ args := args.headD false
  relation name args :=
    if name = Relation.equal.name then args.head? = args.getLast? else args.head? ≠ args.getLast?

theorem distinguished_readsEquality : distinguished.ReadsEquality := by
  intro x y
  simp [distinguished]

/-- The variables `x` and `y` and the image of `x`. -/
def termX : Term := .var ⟨1, "x"⟩
def termY : Term := .var ⟨2, "y"⟩
def imageX : Term := .app "f" [termX]

/-- A session with two variables that has postulated some propositions. -/
def postulating (ps : List Proposition) : Session :=
  run {} (.newVariable "x" :: .newVariable "y" :: ps.map .postulate)

theorem distinguished_unlike (b : Bool) :
    distinguished.Satisfies (fun _ => b) (unlike termX) := by
  refine ⟨!b, trivial, ?_⟩
  change some b ≠ some !b
  cases b <;> decide

theorem rewriting_sound_unlike :
    let s := postulating [.rel .equal termX imageX, unlike termX, .rel .element termX (.const "A")]
    let p : Fact := ⟨⟨1⟩, unlike termX⟩
    let v : Variable := ⟨3, "v"⟩
    (∃ s', substitute (some (Fact.proposition ⟨⟨0⟩, .rel .equal termX imageX⟩)) (some p.proposition)
        [[0]] s = .ok ⟨⟨3⟩, unlike imageX⟩ s' ∧
      distinguished.Satisfies (fun _ => true) (unlike imageX)) ∧
    (∃ s', thusThereExists (some p.proposition) "v" termX [] s =
        .ok ⟨⟨3⟩, .quantified .exist v none (unlike (.var v))⟩ s' ∧
      distinguished.Satisfies (fun _ => true) (.quantified .exist v none (unlike (.var v)))) ∧
    ∃ s', thusThereExistsIn (some p.proposition) "v" termX (.const "A") none [] s =
        .ok ⟨⟨3⟩, .quantified .exist v (some (.const "A")) (unlike (.var v))⟩ s' ∧
      distinguished.Satisfies (fun _ => true)
        (.quantified .exist v (some (.const "A")) (unlike (.var v))) := by
  intro s p v
  have hp : s.Proves p := ⟨_, rfl, rfl, rfl⟩
  have hunlike := distinguished_unlike true
  have hequation : distinguished.Satisfies (fun _ => true) (.rel .equal termX imageX) := rfl
  have hmember : distinguished.Satisfies (fun _ => true) (.rel .element termX (.const "A")) := by
    change some true ≠ some false
    decide
  refine ⟨⟨_, rfl, ?_⟩, ⟨_, rfl, ?_⟩, ⟨_, rfl, ?_⟩⟩
  · refine (rewriting_sound distinguished _ hp [[0]] ?_).1 distinguished_readsEquality
      ⟨⟨0⟩, .rel .equal termX imageX⟩ termX imageX none ⟨_, rfl, rfl, rfl⟩ rfl rfl rfl
    exact List.forall_mem_cons.mpr ⟨hequation, List.forall_mem_singleton.mpr hunlike⟩
  · refine (rewriting_sound distinguished _ hp [] ?_).2.1 "v" termX rfl rfl
    exact List.forall_mem_singleton.mpr hunlike
  · refine (rewriting_sound distinguished _ hp [] ?_).2.2 "v" termX (.const "A") none rfl rfl
    exact List.forall_mem_cons.mpr ⟨hunlike, List.forall_mem_singleton.mpr hmember⟩

/-- For some `x`, the value of `t` is not `c`. -/
def differsFromC (t : Term) : Proposition :=
  .quantified .exist ⟨1, "x"⟩ none (.rel .notEqual t (.const "c"))

/-- For all `x`, the value of `t` is `x`. -/
def isAlwaysX (t : Term) : Proposition := .quantified .all ⟨1, "x"⟩ none (.rel .equal t termX)

/-- Rewriting does not look at the quantifiers it passes. One may bind a variable of the term that
is put in, or of the one that goes out, and each time a true statement becomes a false one. -/
theorem rewriting_captures :
    (∃ s', substitute (some (Fact.proposition ⟨⟨0⟩, .rel .equal termX termY⟩))
        (some (Fact.proposition ⟨⟨1⟩, unlike termX⟩)) []
        (postulating [.rel .equal termX termY, unlike termX]) = .ok ⟨⟨2⟩, unlike termY⟩ s' ∧
      (∀ g ∈ s'.grounds ⟨2⟩, distinguished.Satisfies (fun _ => false) g) ∧
      ¬distinguished.Satisfies (fun _ => false) (unlike termY)) ∧
    (∃ s', substitute (some (Fact.proposition ⟨⟨0⟩, .rel .equal imageX (.const "c")⟩))
        (some (Fact.proposition ⟨⟨1⟩, differsFromC imageX⟩)) []
        (postulating [.rel .equal imageX (.const "c"), differsFromC imageX]) =
          .ok ⟨⟨2⟩, differsFromC (.const "c")⟩ s' ∧
      (∀ g ∈ s'.grounds ⟨2⟩, distinguished.Satisfies (fun _ => false) g) ∧
      ¬distinguished.Satisfies (fun _ => false) (differsFromC (.const "c"))) ∧
    ∃ s', thusThereExists (some (Fact.proposition ⟨⟨0⟩, isAlwaysX imageX⟩)) "v" imageX []
        (postulating [isAlwaysX imageX]) =
          .ok ⟨⟨1⟩, .quantified .exist ⟨3, "v"⟩ none (isAlwaysX (.var ⟨3, "v"⟩))⟩ s' ∧
      (∀ g ∈ s'.grounds ⟨1⟩, distinguished.Satisfies (fun _ => false) g) ∧
      ¬distinguished.Satisfies (fun _ => false)
        (.quantified .exist ⟨3, "v"⟩ none (isAlwaysX (.var ⟨3, "v"⟩))) := by
  refine ⟨⟨_, rfl, ?_, ?_⟩, ⟨_, rfl, ?_, ?_⟩, ⟨_, rfl, ?_, ?_⟩⟩
  · have hequation : distinguished.Satisfies (fun _ => false) (.rel .equal termX termY) := rfl
    exact List.forall_mem_cons.mpr
      ⟨hequation, List.forall_mem_singleton.mpr (distinguished_unlike false)⟩
  · rintro ⟨d, -, hdiffers⟩
    exact hdiffers rfl
  · have hequation : distinguished.Satisfies (fun _ => false) (.rel .equal imageX (.const "c")) :=
      rfl
    have hdiffers : distinguished.Satisfies (fun _ => false) (differsFromC imageX) := by
      refine ⟨true, trivial, ?_⟩
      change some true ≠ some false
      decide
    exact List.forall_mem_cons.mpr ⟨hequation, List.forall_mem_singleton.mpr hdiffers⟩
  · rintro ⟨d, -, hdiffers⟩
    exact hdiffers rfl
  · have hfixed : distinguished.Satisfies (fun _ => false) (isAlwaysX imageX) := fun d _ => rfl
    exact List.forall_mem_singleton.mpr hfixed
  · rintro ⟨d, -, hall⟩
    have hother : some d = some !d := hall (!d) trivial
    cases d <;> simp at hother

end Session

end Entailment

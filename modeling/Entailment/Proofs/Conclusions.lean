import Entailment.Proofs.Equivalence
import Entailment.Proofs.Traces

/-!
# What the usual steps conclude

A step of a search may fail or add facts to the ledger, and in general it matters what the session
knows and which assumptions its premises rest on. For the usual steps this is different as long as
no quantifiers and no assumptions are involved. What they conclude is then a function of the
skeletons of the premises (`consequences`), the same in every session, and whatever they conclude is
again free of quantifiers and assumptions.
-/
namespace Entailment

open Session

/-- What a fact says, as far as equality can tell. -/
def Fact.shape (f : Fact) : Proposition := f.statement.skeleton

namespace Search

/-- The consequent of an implication whose antecedent is there. -/
def detach (p : Proposition) : Proposition → List Proposition
  | .implies a b _ => if a.equal p then [b] else []
  | _ => []

/-- The implication that two implications with a common middle add up to. -/
def chain : Proposition → Proposition → List Proposition
  | .implies a b _, .implies b' c _ => if b.equal b' then [.implies a c] else []
  | _, _ => []

/-- What is left of a disjunction when a disjunct is refuted. Something has to be left. -/
def residue : Proposition → Proposition → List Proposition
  | .junction .or members _, .not n _ =>
    if members.any n.equal then
      match members.filter fun d => !d.equal n with
      | [] => []
      | first :: rest => [.disjunction first rest]
    else []
  | _, _ => []

def conjuncts : Proposition → List Proposition
  | .junction .and members _ => members
  | _ => []

/-- A disjunction of one disjunct only, again and again. Refuting it leaves nothing. -/
def isUniform : Proposition → Bool
  | .junction .or (first :: rest) _ => rest.all first.equal
  | _ => false

/-- What a rule concludes from premises without quantifiers that rest on no assumptions. -/
def consequences : Rule → List Proposition → List Proposition
  | .modusPonens, [p, q] => detach p q
  | .hypotheticalSyllogism, [p, q] => chain p q
  | .unitResolve, [p, q] => residue p q
  | .conjunctionElim, [p] => conjuncts p
  | _, _ => []

section Consequences
variable {rule : Rule} {p q r : Proposition} {ps : List Proposition}

theorem isQuantifierFree_detach (hq : q.isQuantifierFree = true) (h : r ∈ detach p q) :
    r.isQuantifierFree = true := by
  unfold detach at h
  split at h
  next a b m =>
    split_ifs at h
    · rw [List.mem_singleton.mp h]
      exact (Bool.and_eq_true_iff.mp hq).2
    · cases h
  next => cases h

theorem isQuantifierFree_chain (hp : p.isQuantifierFree = true) (hq : q.isQuantifierFree = true)
    (h : r ∈ chain p q) : r.isQuantifierFree = true := by
  unfold chain at h
  split at h
  next a b m b' c m' =>
    split_ifs at h
    · rw [List.mem_singleton.mp h]
      have hleft := (Bool.and_eq_true_iff.mp hp).1
      have hright := (Bool.and_eq_true_iff.mp hq).2
      exact Bool.and_eq_true_iff.mpr ⟨hleft, hright⟩
    · cases h
  next => cases h

theorem isQuantifierFree_residue (hp : p.isQuantifierFree = true) (h : r ∈ residue p q) :
    r.isQuantifierFree = true := by
  unfold residue at h
  split at h
  next members m n m' =>
    split_ifs at h
    · split at h
      next => cases h
      next first rest hrest =>
        have hmembers := (Proposition.areQuantifierFree_iff members).mp hp
        have hfree : ∀ p ∈ first :: rest, p.isQuantifierFree = true := fun p hp =>
          hmembers p (List.mem_of_mem_filter (hrest ▸ hp))
        rw [List.mem_singleton.mp h]
        cases rest with
        | nil => exact hfree first List.mem_cons_self
        | cons second rest => exact (Proposition.areQuantifierFree_iff _).mpr hfree
    · cases h
  next => cases h

theorem isQuantifierFree_conjuncts (hp : p.isQuantifierFree = true) (h : r ∈ conjuncts p) :
    r.isQuantifierFree = true := by
  unfold conjuncts at h
  split at h
  next members m => exact (Proposition.areQuantifierFree_iff members).mp hp r h
  next => cases h

theorem isQuantifierFree_consequences (hps : ∀ p ∈ ps, p.isQuantifierFree = true) :
    ∀ q ∈ consequences rule ps, q.isQuantifierFree = true := by
  intro r hr
  unfold consequences at hr
  split at hr
  next p q => exact isQuantifierFree_detach (hps q (by simp)) hr
  next p q => exact isQuantifierFree_chain (hps p (by simp)) (hps q (by simp)) hr
  next p q => exact isQuantifierFree_residue (hps p (by simp)) hr
  next p => exact isQuantifierFree_conjuncts (hps p (by simp)) hr
  next => cases hr

section Reshaping
variable {g : Proposition → Proposition}

/-- The map keeps the form of a proposition and is applied to its parts. What equality can tell of
propositions it does not change. -/
structure Reshapes (g : Proposition → Proposition) : Prop where
  relation : ∀ name args m, g (.relation name args m) = .relation name args
  not : ∀ p m, g (.not p m) = .not (g p)
  junction : ∀ c ps m, g (.junction c ps m) = .junction c (ps.map g)
  implies : ∀ a b m, g (.implies a b m) = .implies (g a) (g b)
  iff : ∀ a b m, g (.iff a b m) = .iff (g a) (g b)
  quantified : ∀ k v domain p m, ∃ w, g (.quantified k v domain p m) = .quantified k w domain (g p)
  contradiction : ∀ m, g (.contradiction m) = .contradiction
  equal : ∀ p q, (g p).equal (g q) = p.equal q

theorem Reshapes.detach (hg : Reshapes g) (p q : Proposition) :
    (detach p q).map g = Search.detach (g p) (g q) := by
  cases q with
  | implies a b m =>
      rw [hg.implies, Search.detach, Search.detach, hg.equal]
      split_ifs <;> rfl
  | quantified k v domain q m =>
      obtain ⟨w, hw⟩ := hg.quantified k v domain q m
      rw [hw]
      rfl
  | _ => simp only [hg.relation, hg.not, hg.junction, hg.iff, hg.contradiction, Search.detach,
      List.map_nil]

theorem Reshapes.chain (hg : Reshapes g) (p q : Proposition) :
    (chain p q).map g = Search.chain (g p) (g q) := by
  cases p with
  | implies a b m =>
      cases q with
      | implies b' c m' =>
          rw [hg.implies, hg.implies, Search.chain, Search.chain, hg.equal]
          split_ifs
          · rw [List.map_singleton, hg.implies]
          · rfl
      | quantified k v domain q m' =>
          obtain ⟨w, hw⟩ := hg.quantified k v domain q m'
          rw [hw, hg.implies]
          rfl
      | _ => simp only [hg.relation, hg.not, hg.junction, hg.implies, hg.iff, hg.contradiction,
          Search.chain, List.map_nil]
  | quantified k v domain p m =>
      obtain ⟨w, hw⟩ := hg.quantified k v domain p m
      rw [hw]
      rfl
  | _ => simp only [hg.relation, hg.not, hg.junction, hg.iff, hg.contradiction, Search.chain,
      List.map_nil]

theorem Reshapes.disjunction (hg : Reshapes g) (first : Proposition) (rest : List Proposition) :
    g (.disjunction first rest) = .disjunction (g first) (rest.map g) := by
  cases rest with
  | nil => rfl
  | cons second rest => simp only [Proposition.disjunction, hg.junction, List.map_cons]

theorem Reshapes.residue (hg : Reshapes g) (p q : Proposition) :
    (residue p q).map g = Search.residue (g p) (g q) := by
  cases p with
  | junction c members m =>
      rw [hg.junction]
      cases c with
      | or =>
          cases q with
          | not n m' =>
              have hany : (members.map g).any (g n).equal = members.any n.equal := by
                rw [List.any_map]
                congr 1
                funext d
                exact hg.equal n d
              have hfilter : (members.map g).filter (fun d => !d.equal (g n)) =
                  (members.filter fun d => !d.equal n).map g := by
                rw [List.filter_map]
                congr 2
                funext d
                exact congrArg Bool.not (hg.equal d n)
              rw [hg.not, Search.residue, Search.residue, hany, hfilter]
              split_ifs
              · cases members.filter fun d => !d.equal n with
                | nil => rfl
                | cons first rest => simp [hg.disjunction]
              · rfl
          | quantified k v domain q m' =>
              obtain ⟨w, hw⟩ := hg.quantified k v domain q m'
              rw [hw]
              rfl
          | _ => simp only [hg.relation, hg.junction, hg.implies, hg.iff, hg.contradiction,
              Search.residue, List.map_nil]
      | _ => rfl
  | quantified k v domain p m =>
      obtain ⟨w, hw⟩ := hg.quantified k v domain p m
      rw [hw]
      rfl
  | _ => simp only [hg.relation, hg.not, hg.implies, hg.iff, hg.contradiction, Search.residue,
      List.map_nil]

theorem Reshapes.conjuncts (hg : Reshapes g) (p : Proposition) :
    (conjuncts p).map g = Search.conjuncts (g p) := by
  cases p with
  | junction c members m =>
      rw [hg.junction]
      cases c <;> rfl
  | quantified k v domain p m =>
      obtain ⟨w, hw⟩ := hg.quantified k v domain p m
      rw [hw]
      rfl
  | _ => simp only [hg.relation, hg.not, hg.implies, hg.iff, hg.contradiction, Search.conjuncts,
      List.map_nil]

/-- What is concluded from reshaped premises are the reshaped conclusions. -/
theorem Reshapes.consequences (hg : Reshapes g) (rule : Rule) (ps : List Proposition) :
    (consequences rule ps).map g = Search.consequences rule (ps.map g) := by
  match ps with
  | [] => cases rule <;> rfl
  | [p] =>
      cases rule with
      | conjunctionElim => exact hg.conjuncts p
      | _ => rfl
  | [p, q] =>
      cases rule with
      | modusPonens => exact hg.detach p q
      | hypotheticalSyllogism => exact hg.chain p q
      | unitResolve => exact hg.residue p q
      | _ => rfl
  | _ :: _ :: _ :: _ => cases rule <;> rfl

theorem skeleton_reshapes : Reshapes Proposition.skeleton where
  relation _ _ _ := rfl
  not _ _ := rfl
  junction c ps _ := congrArg (Proposition.junction c ·) (Proposition.skeletons_eq_map ps)
  implies _ _ _ := rfl
  iff _ _ _ := rfl
  quantified _ _ _ _ _ := ⟨_, rfl⟩
  contradiction _ := rfl
  equal := Proposition.equal_skeleton

end Reshaping

theorem shapes_consequences (rule : Rule) (fs : List Fact) :
    (consequences rule (fs.map Fact.statement)).map Proposition.skeleton =
      consequences rule (fs.map Fact.shape) := by
  rw [skeleton_reshapes.consequences, List.map_map]
  rfl

/-- From a premise taken twice, a rule with two premises concludes nothing new. -/
theorem consequences_twice (hp : p.skeleton = p) (h : q ∈ consequences rule [p, p]) : q = p := by
  cases rule with
  | modusPonens =>
      cases p with
      | implies a b m =>
          -- An implication is larger than its antecedent.
          have hne : a.equal (.implies a b m) = false := by
            rw [Bool.eq_false_iff, ne_eq, Proposition.equal_iff_skeleton]
            intro hsame
            have hsize := congrArg sizeOf hsame
            simp only [Proposition.skeleton, Proposition.implies.sizeOf_spec] at hsize
            omega
          rw [consequences, detach, hne] at h
          cases h
      | _ => cases h
  | hypotheticalSyllogism =>
      cases p with
      | implies a b m =>
          rw [consequences, chain] at h
          split_ifs at h with hequal
          · rw [Proposition.skeleton, Proposition.implies.injEq] at hp
            rw [Proposition.equal_iff_skeleton, hp.1, hp.2.1] at hequal
            rw [List.mem_singleton.mp h, ← hp.2.2]
          · cases h
      | _ => cases h
  | unitResolve =>
      cases p with
      | junction c members m => cases c <;> cases h
      | _ => cases h
  | _ => cases h

end Consequences

end Search

namespace Session

/-- The fact counts as proven, and rests on no assumptions. -/
def Establishes (s : Session) (f : Fact) : Prop := s.Proves f ∧ s.dependencies f.id = []

/-- The fact is established, and free of quantifiers. -/
def Plain (s : Session) (f : Fact) : Prop :=
  s.Establishes f ∧ f.statement.isQuantifierFree = true

/-- The deduction establishes a statement, and leaves alone what is established already. -/
def Adds (a : Action Fact) (s : Session) (p : Proposition) : Prop :=
  Ensures a s
    (fun f t => f.shape = p.skeleton ∧ t.Establishes f ∧ ∀ g, s.Establishes g → t.Establishes g)
    fun _ => False

/-- The deduction establishes the given statements, and fails only if there are none. -/
def Produces (a : Action (List Fact)) (s : Session) (qs : List Proposition) : Prop :=
  Ensures a s
    (fun fs t => fs.map Fact.shape = qs.map Proposition.skeleton ∧ ∀ f ∈ fs, t.Establishes f)
    fun _ => qs = []

section Concluding
variable {s : Session} {p q : Fact}

theorem Establishes.of_entry {t : Session} (h : s.Establishes p)
    (ht : ∀ e, s.entry? p.id = some e → t.entry? p.id = some e) : t.Establishes p := by
  obtain ⟨⟨e, he, hrest⟩, hdependencies⟩ := h
  refine ⟨⟨e, ht e he, hrest⟩, ?_⟩
  rw [dependencies, he] at hdependencies
  rw [dependencies, ht e he]
  exact hdependencies

theorem Establishes.deduces {R : Rule → Prop} {t : Session} (h : s.Establishes p)
    (ht : Deduces R s t) : t.Establishes p := h.of_entry fun _ he => ht.extends.entry_eq he

theorem Plain.deduces {R : Rule → Prop} {t : Session} (h : s.Plain p) (ht : Deduces R s t) :
    t.Plain p := ⟨h.1.deduces ht, h.2⟩

theorem Establishes.certified (h : s.Establishes p) (r : Proposition) (i : Inference FactId)
    (d : List FactId) : (s.certified r i d).Establishes p :=
  h.of_entry fun _ he => entry?_of_push_of_some (certified_ledger s r i d) he

theorem certified_establishes (s : Session) (p : Proposition) (i : Inference FactId) :
    (s.certified p i []).Establishes (s.nextFact p) := by
  refine ⟨proves_nextFact s p i [], ?_⟩
  rw [dependencies, entry?_certified, nextFact, if_pos rfl]
  rfl

theorem union_of_establishes {fs : List Fact} (h : ∀ f ∈ fs, s.Establishes f) :
    s.union (fs.map Fact.id) = [] := by
  apply List.eq_nil_iff_forall_not_mem.mpr
  intro a ha
  obtain ⟨id, hid, hmem⟩ := mem_union.mp ha
  obtain ⟨f, hf, rfl⟩ := List.mem_map.mp hid
  rw [(h f hf).2] at hmem
  cases hmem

theorem certify_adds (s : Session) (p : Proposition) (i : Inference FactId) :
    Adds (certify p i []) s p := by
  apply Ensures.certify
  exact ⟨p.skeleton_strip, certified_establishes s p i, fun g hg => hg.certified p i []⟩

/-- What is derived from facts that rest on no assumptions rests on none. -/
theorem derive_adds {fs : List Fact} (h : ∀ f ∈ fs, s.Establishes f) (p : Proposition)
    (i : Inference FactId) : Adds (derive p i fs) s p := by
  refine Ensures.get_bind ?_
  rw [union_of_establishes h]
  exact certify_adds s p i

/-- Statements are added one after the other, as long as what is relied on is established. -/
theorem mapM_adds {enter : Proposition → Action Fact} {given : List Fact} (ps : List Proposition)
    (henter : ∀ t p, (∀ f ∈ given, t.Establishes f) → Adds (enter p) t p)
    (hgiven : ∀ f ∈ given, s.Establishes f) :
    Ensures (ps.mapM enter) s
      (fun fs t => fs.map Fact.shape = ps.map Proposition.skeleton ∧ (∀ f ∈ fs, t.Establishes f) ∧
        ∀ g, s.Establishes g → t.Establishes g) fun _ => False := by
  induction ps generalizing s with
  | nil => exact .pure ⟨rfl, nofun, fun _ hg => hg⟩
  | cons p ps ih =>
      rw [List.mapM_cons]
      apply (henter s p hgiven).bind
      intro f t hf
      apply (ih fun g hg => hf.2.2 g (hgiven g hg)).bind
      intro fs u hfs
      refine .pure ⟨?_, ?_, fun g hg => hfs.2.2 g (hf.2.2 g hg)⟩
      · rw [List.map_cons, List.map_cons, hf.1, hfs.1]
      · exact List.forall_mem_cons.mpr ⟨hfs.2.2 f hf.2.1, hfs.2.1⟩

theorem alone_produces {a : Action Fact} {qs : List Proposition}
    (h : Ensures a s (fun f t => [f.shape] = qs.map Proposition.skeleton ∧ t.Establishes f)
      fun _ => qs = []) : Produces (Tactic.alone a) s qs := by
  apply Ensures.bind h
  intro f t hf
  exact .pure ⟨hf.1, List.forall_mem_singleton.mpr hf.2⟩

theorem Adds.ensures {a : Action Fact} {p : Proposition} {failed : Session → Prop}
    (h : Adds a s p) :
    Ensures a s (fun f t => [f.shape] = [p].map Proposition.skeleton ∧ t.Establishes f) failed := by
  refine Ensures.mono h (fun f t hf => ⟨?_, hf.2.1⟩) nofun
  rw [List.map_singleton, hf.1]

/-- Here the tactic derives its only conclusion from the given facts, or refuses if there is none.
-/
inductive Infers (a : Action Fact) (s : Session) (fs : List Fact) : List Proposition → Prop
  | derives {q : Proposition} {i : Inference FactId} : a s = derive q i fs s → Infers a s fs [q]
  | refuses {e : Failure} : a s = .error e s → Infers a s fs []

theorem Infers.of_run_eq {a b : Action Fact} {fs : List Fact} {qs : List Proposition}
    (h : Infers b s fs qs) (hrun : a s = b s) : Infers a s fs qs := by
  cases h with
  | derives hderive => exact .derives (hrun.trans hderive)
  | refuses hrefuse => exact .refuses (hrun.trans hrefuse)

theorem Infers.refuses_of {a : Action Fact} {fs : List Fact} {qs : List Proposition} {e : Failure}
    (hnone : qs = []) (hrun : a s = .error e s) : Infers a s fs qs := by
  rw [hnone]
  exact .refuses hrun

theorem Infers.guard {c : Prop} [Decidable c] {e : Failure} {k : PUnit → Action Fact}
    {fs : List Fact} {qs : List Proposition} (hnone : c → qs = [])
    (hk : ¬c → Infers (k ⟨⟩) s fs qs) :
    Infers (if c then MonadExcept.throw e >>= k else k ⟨⟩) s fs qs := by
  split
  next hc => exact .refuses_of (hnone hc) rfl
  next hc => exact hk hc

theorem Infers.require_bind {rule : Rule} {k : Fact → Action Fact} {fs : List Fact}
    {qs : List Proposition} (h : s.Proves p) (hk : Infers (k p) s fs qs) :
    Infers (require rule (some p.proposition) >>= k) s fs qs :=
  hk.of_run_eq (require_bind_run h)

theorem Infers.produces {a : Action Fact} {fs : List Fact} {qs : List Proposition}
    (h : Infers a s fs qs) (hfs : ∀ f ∈ fs, s.Establishes f) :
    Produces (Tactic.alone a) s qs := by
  apply alone_produces
  cases h with
  | @derives q i hderive => exact (derive_adds hfs q i).ensures.of_run_eq hderive
  | @refuses e hrefuse =>
      refine Ensures.of_run_eq (b := MonadExcept.throw e) ?_ hrefuse
      exact Ensures.throw rfl

theorem modusPonens_infers (hp : s.Proves p) (hq : s.Proves q) :
    Infers (modusPonens (some p.proposition) (some q.proposition)) s [p, q]
      (Search.detach p.statement q.statement) := by
  apply Infers.require_bind hp
  apply Infers.require_bind hq
  split
  next a b m hstatement =>
    rw [hstatement, Search.detach]
    split_ifs
    · exact .derives rfl
    · exact .refuses rfl
  next hother =>
    refine .refuses_of ?_ rfl
    cases hstatement : q.statement with
    | implies a b m => exact (hother a b m hstatement).elim
    | _ => rfl

theorem hypotheticalSyllogism_infers (hp : s.Proves p) (hq : s.Proves q) :
    Infers (hypotheticalSyllogism (some p.proposition) (some q.proposition)) s [p, q]
      (Search.chain p.statement q.statement) := by
  apply Infers.require_bind hp
  apply Infers.require_bind hq
  split
  next a b m b' c m' hfirst hsecond =>
    rw [hfirst, hsecond, Search.chain]
    split_ifs
    · exact .derives rfl
    · exact .refuses rfl
  next hother =>
    refine .refuses_of ?_ rfl
    unfold Search.chain
    split
    next hfirst hsecond => exact (hother _ _ _ _ _ _ hfirst hsecond).elim
    next => rfl

/-- A disjunct is left, unless they are all the same. -/
theorem isUniform_of_filter_eq_nil {members : List Proposition} {n : Proposition}
    {m : Option FactId} (hany : members.any n.equal = true)
    (hnil : (members.filter fun d => !d.equal n) = []) :
    Search.isUniform (.junction .or members m) = true := by
  have hall : ∀ d ∈ members, d.skeleton = n.skeleton := by
    intro d hd
    rw [← Proposition.equal_iff_skeleton]
    simpa using List.filter_eq_nil_iff.mp hnil d hd
  cases members with
  | nil => cases hany
  | cons first rest =>
      rw [Search.isUniform, List.all_eq_true]
      intro d hd
      rw [Proposition.equal_iff_skeleton, hall first List.mem_cons_self,
        hall d (List.mem_cons_of_mem _ hd)]

/-- Without assumptions to blame, a disjunction of which nothing is left is refused. -/
theorem contradiction_refuses {rule : Rule} {i : Inference FactId} {fs : List Fact}
    (h : s.union (fs.map Fact.id) = []) : Infers (contradiction rule i fs) s fs [] := by
  have hrun : Ensures (contradiction rule i fs) s (fun _ _ => False) (· = s) := by
    refine Ensures.get_bind ?_
    rw [h]
    rfl
  unfold Ensures at hrun
  split at hrun
  next => exact hrun.elim
  next e t herror => exact .refuses (hrun ▸ herror)

/-- Something is left of the disjunction, or there are no assumptions to blame. -/
theorem unitResolve_infers (hp : s.Proves p) (hq : s.Proves q)
    (hleft : Search.isUniform p.statement = false ∨ s.union ([p, q].map Fact.id) = []) :
    Infers (unitResolve (some p.proposition) (some q.proposition)) s [p, q]
      (Search.residue p.statement q.statement) := by
  cases hrefutation : q.statement with
  | not n m' =>
      have hnot : q.proposition = .not n (some q.id) := by
        rw [Fact.proposition, hrefutation, Proposition.withMark]
      have hresolve : unitResolve (some p.proposition) (some q.proposition) =
          resolveBy .unitResolve (some p.proposition) [some q.proposition] := by
        rw [hnot]
        rfl
      rw [hresolve]
      apply Infers.require_bind hp
      split
      next members m hdisjunction =>
        simp only [List.isEmpty_cons, Bool.false_eq_true, if_false, requireAll, List.mapM_cons,
          List.mapM_nil, bind_assoc, pure_bind]
        apply Infers.require_bind hq
        simp only [refuted, hrefutation, pure_bind, hdisjunction, List.flatten_singleton,
          removeRefuted, Search.residue]
        split_ifs with hany
        · rw [pure_bind]
          cases hrest : members.filter fun d => !d.equal n with
          | nil =>
              rw [hdisjunction, isUniform_of_filter_eq_nil hany hrest] at hleft
              have hblameless : s.union ([p, q].map Fact.id) = [] := by simpa using hleft
              exact contradiction_refuses hblameless
          | cons first rest => exact .derives rfl
        · exact .refuses rfl
      next hother =>
        refine .refuses_of ?_ rfl
        unfold Search.residue
        split
        next hdisjunction _ => exact (hother _ _ hdisjunction).elim
        next => rfl
  | _ =>
      have hmark : q.proposition = Proposition.withMark (some q.id) _ :=
        congrArg (Proposition.withMark (some q.id)) hrefutation
      rw [hmark]
      refine .refuses_of ?_ rfl
      unfold Search.residue
      split
      next hnot => cases hnot
      next => rfl

theorem split_produces (hp : s.Establishes p) :
    Produces (split (some p.proposition)) s (Search.conjuncts p.statement) := by
  have hconjunct : ∀ t member, (∀ f ∈ [p], t.Establishes f) → Adds (conjunct p member) t member :=
    fun t member ht => derive_adds ht member _
  unfold split requireConjuncts
  rw [bind_assoc]
  apply hp.1.require_bind
  split
  next members m hstatement =>
    rw [hstatement, pure_bind]
    exact (mapM_adds members hconjunct (List.forall_mem_singleton.mpr hp)).mono
      (fun _ _ h => ⟨h.1, h.2.1⟩) nofun
  next hother =>
    refine .refuse ?_
    unfold Search.conjuncts
    split
    next hstatement => exact (hother _ _ hstatement).elim
    next => rfl

theorem quantifiedModusPonens_produces (hp : s.Establishes p) (hq : s.Establishes q)
    (hfree : p.statement.isQuantifierFree = true) :
    Produces (Tactic.alone (quantifiedModusPonens (some p.proposition) (some q.proposition) [])) s
      [] := by
  apply alone_produces
  apply hp.1.require_bind
  apply hq.1.require_bind
  have hpeel : peel p.statement = ([], p.statement) := by
    cases hstatement : p.statement with
    | quantified k v domain body m =>
        rw [hstatement] at hfree
        cases hfree
    | _ => rfl
  rw [hpeel]
  exact .refuse rfl

theorem existentialElimination_produces (hp : s.Establishes p) (hq : s.Establishes q)
    (hfree : p.statement.isQuantifierFree = true) :
    Produces (Tactic.alone (existentialElimination (some p.proposition) (some q.proposition))) s
      [] := by
  apply alone_produces
  apply hp.1.require_bind
  apply hq.1.require_bind
  split
  next hexists _ =>
    rw [hexists] at hfree
    cases hfree
  next => exact .refuse rfl

end Concluding

end Session

namespace Search

section Steps
variable {s : Session} {step : Step}

/-- What a usual step concludes does not depend on the session. -/
theorem Step.produces {fs : List Fact} (hstep : step ∈ Step.defaults)
    (hlength : fs.length = step.arity) (hfs : ∀ f ∈ fs, s.Plain f) :
    Produces (step.apply (fs.map Fact.proposition)) s
      (consequences step.rule (fs.map Fact.statement)) := by
  have htwo : ∀ {tactic : Option Proposition → Option Proposition → Action Fact} {rule : Rule},
      step = Step.binary rule tactic →
      (∀ {p q : Fact}, s.Establishes p → s.Establishes q → p.statement.isQuantifierFree = true →
        Produces (Tactic.alone (tactic (some p.proposition) (some q.proposition))) s
          (consequences rule [p.statement, q.statement])) →
      Produces (step.apply (fs.map Fact.proposition)) s
        (consequences step.rule (fs.map Fact.statement)) := by
    intro tactic rule hbinary htactic
    subst hbinary
    obtain ⟨p, q, rfl⟩ := List.length_eq_two.mp hlength
    have hp := hfs p (by simp)
    have hq := hfs q (by simp)
    exact htactic hp.1 hq.1 hp.2
  simp only [Step.defaults, List.mem_cons, List.not_mem_nil, or_false] at hstep
  rcases hstep with rfl | rfl | rfl | rfl | rfl | rfl
  · exact htwo rfl fun hp hq _ =>
      (modusPonens_infers hp.1 hq.1).produces (by simp [hp, hq])
  · exact htwo rfl fun hp hq _ =>
      (hypotheticalSyllogism_infers hp.1 hq.1).produces (by simp [hp, hq])
  · exact htwo rfl fun hp hq hfree => quantifiedModusPonens_produces hp hq hfree
  · exact htwo rfl fun hp hq hfree => existentialElimination_produces hp hq hfree
  · exact htwo rfl fun {p q} hp hq _ => by
      have hboth : ∀ f ∈ [p, q], s.Establishes f := by simp [hp, hq]
      exact (unitResolve_infers hp.1 hq.1 (.inr (union_of_establishes hboth))).produces hboth
  · obtain ⟨p, rfl⟩ := List.length_eq_one_iff.mp hlength
    exact split_produces (hfs p (by simp)).1

theorem Step.deduces {ps : List Proposition} (hstep : step ∈ Step.defaults)
    (hlength : ps.length = step.arity) :
    Ensures (step.apply ps) s (fun _ t => Deduces (fun _ => True) s t)
      (Deduces (fun _ => True) s) := by
  obtain ⟨tactic, -, -, -, happly⟩ := Step.wraps_of_mem_defaults hstep s ps hlength
  have hperform := tactic.perform_ensures s
  unfold Ensures at hperform ⊢
  rw [happly]
  exact hperform

theorem isQuantifierFree_of_shapes {fs : List Fact} {qs : List Proposition}
    (h : fs.map Fact.shape = qs) (hqs : ∀ q ∈ qs, q.isQuantifierFree = true) :
    ∀ f ∈ fs, f.statement.isQuantifierFree = true := by
  intro f hf
  rw [← Proposition.isQuantifierFree_skeleton]
  apply hqs
  rw [← h]
  exact List.mem_map_of_mem hf

/-- Trying a usual step on plain facts gives plain facts, of the shapes that follow. -/
theorem Step.try_plain {fs : List Fact} (hstep : step ∈ Step.defaults)
    (hlength : fs.length = step.arity) (hfs : ∀ f ∈ fs, s.Plain f) :
    Ensures (MonadExcept.tryCatch (step.apply (fs.map Fact.proposition)) fun _ => Pure.pure []) s
      (fun gs t => Deduces (fun _ => True) s t ∧
        gs.map Fact.shape = consequences step.rule (fs.map Fact.shape) ∧ ∀ g ∈ gs, t.Plain g)
      fun _ => False := by
  have hshapes := shapes_consequences step.rule fs
  have hfree : ∀ q ∈ consequences step.rule (fs.map Fact.shape), q.isQuantifierFree = true := by
    apply isQuantifierFree_consequences
    rw [List.forall_mem_map]
    exact fun f hf => (Proposition.isQuantifierFree_skeleton f.statement).trans (hfs f hf).2
  have hdeduces : Ensures (step.apply (fs.map Fact.proposition)) s
      (fun _ t => Deduces (fun _ => True) s t) (Deduces (fun _ => True) s) :=
    Step.deduces hstep (by rw [List.length_map, hlength])
  have hproduces := hdeduces.and (Step.produces hstep hlength hfs)
  rw [hshapes] at hproduces
  refine Ensures.tryCatch (hproduces.mono ?_ fun t h => h) ?_
  · intro gs t hgs
    exact ⟨hgs.1, hgs.2.1, fun g hg =>
      ⟨hgs.2.2 g hg, isQuantifierFree_of_shapes hgs.2.1 hfree g hg⟩⟩
  · intro _ t ht
    refine .pure ⟨ht.1, ?_, nofun⟩
    rw [← hshapes, ht.2]
    rfl

/-- What a step concludes from axioms, as it does in a session that has nothing else. -/
def Step.conclusions (step : Step) (ps : List Proposition) : List Proposition :=
  match (do step.apply ((← ps.mapM postulate).map Fact.proposition) : Action (List Fact)) {} with
  | .ok fs _ => fs.map Fact.statement
  | .error _ _ => []

/-- Axioms without quantifiers are plain facts. -/
theorem postulates_plain {ps : List Proposition} (h : ∀ p ∈ ps, p.isQuantifierFree = true) :
    Ensures (ps.mapM postulate) s
      (fun fs t => fs.map Fact.shape = ps.map Proposition.skeleton ∧ ∀ f ∈ fs, t.Plain f)
      fun _ => False := by
  have hpostulate : ∀ t p, (∀ f ∈ [], t.Establishes f) → Adds (postulate p) t p :=
    fun t p _ => certify_adds t p _
  refine (mapM_adds ps hpostulate nofun).mono (fun fs t hfs => ⟨hfs.1, fun f hf => ?_⟩) nofun
  exact ⟨hfs.2.1 f hf, isQuantifierFree_of_shapes hfs.1 (by simpa using h) f hf⟩

/-- What a usual step concludes from axioms, up to what equality can tell. -/
theorem Step.skeleton_conclusions {ps : List Proposition} (hstep : step ∈ Step.defaults)
    (hlength : ps.length = step.arity) (hps : ∀ p ∈ ps, p.isQuantifierFree = true) :
    (step.conclusions ps).map Proposition.skeleton =
      consequences step.rule (ps.map Proposition.skeleton) := by
  have hrun : Ensures (do step.apply ((← ps.mapM postulate).map Fact.proposition)) {}
      (fun gs _ => gs.map Fact.shape = consequences step.rule (ps.map Proposition.skeleton))
      fun _ => [] = consequences step.rule (ps.map Proposition.skeleton) := by
    apply ((postulates_plain hps).mono (fun _ _ h => h) nofun).bind
    intro fs t hfs
    have hcount : fs.length = ps.length := by simpa using congrArg List.length hfs.1
    rw [← hfs.1, ← shapes_consequences]
    have hproduces := Step.produces hstep (hcount.trans hlength) hfs.2
    refine Ensures.mono hproduces (fun gs _ hgs => hgs.1) fun _ h => ?_
    rw [h]
    rfl
  unfold Ensures at hrun
  unfold conclusions
  split
  next gs t hok =>
    rw [hok] at hrun
    rw [List.map_map]
    exact hrun
  next e t herror =>
    rw [herror] at hrun
    exact hrun

end Steps

end Search

end Entailment

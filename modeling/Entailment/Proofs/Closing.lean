import Entailment.Proofs.Generalisation
import Entailment.Proofs.Guarding

/-!
# Closing a scope by position

Closing a scope restates its conclusions, and the checks on the way ask for positions in the log.
Reading the log backwards by position peels off one layer after another, always the last one of
those that the log is grouped into. So no check ever fails.
-/
namespace Entailment

namespace Guarded
open Checked (rhs join)

section Reading
variable {scope : Scope} {before rest : List Supposition} {v w : Variable} {f g : Fact}

theorem domainFor?_eq_some {p : Proposition} {set : Term} :
    p.domainFor? v = some set ↔ ∃ m, p = .relation Relation.element.name [.var v, set] m := by
  constructor
  · intro h
    unfold Proposition.domainFor? at h
    split at h
    next name w set' m =>
      obtain ⟨⟨rfl, rfl⟩, hset⟩ := Option.ite_none_right_eq_some.mp h
      exact ⟨m, by rw [Option.some.inj hset]⟩
    next => cases h
  · rintro ⟨m, rfl⟩
    simp [Proposition.domainFor?]

/-- The variable that is found is the one that the proposition is a membership of. -/
theorem memberOf_pure (scope : Scope) (p : Proposition) :
    ∃ found, memberOf scope p = pure found ∧
      ∀ v, found = some v ↔ v ∈ scope.introduced ∧ (p.domainFor? v).isSome := by
  by_cases hform : ∃ w set m, p = .relation Relation.element.name [.var w, set] m
  · obtain ⟨w, set, m, rfl⟩ := hform
    refine ⟨if scope.introduced.contains w then some w else none, rfl, fun v => ?_⟩
    simp only [Proposition.domainFor?, true_and, Option.ite_none_right_eq_some,
      List.contains_iff_mem, Option.some.injEq, Option.isSome_ite]
    grind
  · have hnone : ∀ v, p.domainFor? v = none := by
      intro v
      rw [Option.eq_none_iff_forall_ne_some]
      intro set hset
      obtain ⟨m, hp⟩ := domainFor?_eq_some.mp hset
      exact hform ⟨v, set, m, hp⟩
    refine ⟨none, ?_, by simp [hnone]⟩
    unfold memberOf Proposition.isRelation
    split
    next name l r m =>
      by_cases hname : name = Relation.element.name
      · cases l with
        | var w => exact absurd ⟨w, r, m, by rw [hname]⟩ hform
        | _ => simp [hname]
      · simp [hname]
    next => rfl

theorem isDomain_succ {i : Nat} {x : Supposition} {found : Option Variable}
    (hprevious : scope.log[i]? = some x) (hassumed : scope.log[i + 1]? = some (.assumed f))
    (hfound : memberOf scope f.statement = pure found) :
    isDomain scope (i + 1) = pure (match found, x with
      | some v, .introduced w => w == v
      | _, _ => false) := by
  simp only [isDomain, Nat.succ_ne_zero, if_false, Checked.item_of_getElem? hassumed, pure_bind,
    hfound, Nat.add_sub_cancel, Checked.item_of_getElem? hprevious]
  cases found with
  | none => rfl
  | some v => cases x <;> rfl

/-- Right after a variable, a domain is what says that the variable is in a set. -/
theorem isDomain_after_variable {i : Nat} (hprevious : scope.log[i]? = some (.introduced v))
    (hassumed : scope.log[i + 1]? = some (.assumed f)) :
    isDomain scope (i + 1) = pure (f.statement.domainFor? v).isSome := by
  have hv : v ∈ scope.introduced :=
    List.mem_filterMap.mpr ⟨_, List.mem_of_getElem? hprevious, rfl⟩
  obtain ⟨found, hmember, hfound⟩ := memberOf_pure scope f.statement
  rw [isDomain_succ hprevious hassumed hmember]
  have hiff : found = some v ↔ (f.statement.domainFor? v).isSome = true := by simp [hfound, hv]
  cases found with
  | none =>
      have hnone : f.statement.domainFor? v = none := by simpa using hiff
      rw [hnone]
      rfl
  | some w =>
      rw [Option.some.injEq, eq_comm] at hiff
      exact congrArg pure (Bool.eq_iff_iff.mpr (by simpa using hiff))

theorem isDomain_after_assumption {i : Nat} (hprevious : scope.log[i]? = some (.assumed g))
    (hassumed : scope.log[i + 1]? = some (.assumed f)) : isDomain scope (i + 1) = pure false := by
  obtain ⟨found, hmember, -⟩ := memberOf_pure scope f.statement
  rw [isDomain_succ hprevious hassumed hmember]
  cases found <;> rfl

theorem getElem?_run {run : List Fact} {i : Nat}
    (h : scope.log = before ++ run.map .assumed ++ rest) (hi : i < run.length) :
    scope.log[before.length + i]? = some (.assumed run[i]) := by
  rw [h, List.append_assoc, List.getElem?_append_right (Nat.le_add_right _ _),
    Nat.add_sub_cancel_left, List.getElem?_append_left (by simpa using hi), List.getElem?_map,
    List.getElem?_eq_getElem hi, Option.map_some]

/-- Only the first of a run of assumptions can be a domain. -/
theorem isDomain_run {run : List Fact} {i : Nat}
    (h : scope.log = before ++ run.map .assumed ++ rest)
    (hfirst : isDomain scope before.length = pure false) (hi : i < run.length) :
    isDomain scope (before.length + i) = pure false := by
  cases i with
  | zero => exact hfirst
  | succ i => exact isDomain_after_assumption (getElem?_run h (by omega)) (getElem?_run h hi)

/-- A run of assumptions is collected as far as it goes. -/
theorem hypotheses_run {run : List Fact} (h : scope.log = before ++ run.map .assumed ++ rest)
    (hfirst : isDomain scope before.length = pure false)
    (hbefore : hypotheses scope before.length = pure []) :
    hypotheses scope (before.length + run.length) = pure (run.map Fact.statement).reverse := by
  induction run using List.reverseRecOn generalizing rest with
  | nil => exact hbefore
  | append_singleton run f ih =>
      have hlast : scope.log[before.length + run.length]? = some (.assumed f) := by
        rw [getElem?_run h (by simp)]
        simp
      have hdomain : isDomain scope (before.length + run.length) = pure false :=
        isDomain_run h hfirst (by simp)
      have hearlier := @ih (.assumed f :: rest) (by simpa using h)
      rw [List.length_append, List.length_singleton, ← Nat.add_assoc, hypotheses,
        Checked.item_of_getElem? hlast]
      simp [hdomain, hearlier]

end Reading

section Peeling
variable {v w : Variable} {before inner rest : List Supposition} {layer : Layer}

/-- The log `before` is `inner`, followed by what makes up one more layer. -/
inductive Peels : List Supposition → List Supposition → Layer → Prop
  | each {inner : List Supposition} {v : Variable} :
      Peels (inner ++ [.introduced v]) inner (.each v)
  | eachIn {inner : List Supposition} {v : Variable} {f : Fact} {set : Term} :
      f.statement.domainFor? v = some set →
      Peels (inner ++ [.introduced v, .assumed f]) inner (.eachIn v set)
  | given {f : Fact} {fs : List Fact} :
      Peels ((f :: fs).map .assumed) [] (.given f.statement (fs.map Fact.statement))
  | givenAfter {earlier : List Supposition} {v : Variable} {f : Fact} {fs : List Fact} :
      f.statement.domainFor? v = none →
      Peels (earlier ++ [.introduced v] ++ (f :: fs).map .assumed) (earlier ++ [.introduced v])
        (.given f.statement (fs.map Fact.statement))
  | givenWithin {earlier : List Supposition} {v : Variable} {f g : Fact} {fs : List Fact}
      {set : Term} : g.statement.domainFor? v = some set →
      Peels (earlier ++ [.introduced v, .assumed g] ++ (f :: fs).map .assumed)
        (earlier ++ [.introduced v, .assumed g]) (.given f.statement (fs.map Fact.statement))

/-- A log ends in assumptions, all of them or those after the last variable. -/
theorem exists_assumed_suffix (before : List Supposition) :
    (∃ fs : List Fact, before = fs.map .assumed) ∨
      ∃ (earlier : List Supposition) (v : Variable) (fs : List Fact),
        before = earlier ++ .introduced v :: fs.map .assumed := by
  induction before with
  | nil => exact .inl ⟨[], rfl⟩
  | cons x before ih =>
      rcases ih with ⟨fs, rfl⟩ | ⟨earlier, v, fs, rfl⟩
      · cases x with
        | introduced v => exact .inr ⟨[], v, fs, rfl⟩
        | assumed f => exact .inl ⟨f :: fs, rfl⟩
      · exact .inr ⟨x :: earlier, v, fs, rfl⟩

/-- There is a layer to peel off as long as there are suppositions left. -/
theorem exists_peels (h : before ≠ []) : ∃ inner layer, Peels before inner layer := by
  rcases exists_assumed_suffix before with ⟨fs, rfl⟩ | ⟨earlier, v, fs, rfl⟩
  · cases fs with
    | nil => exact absurd rfl h
    | cons f fs => exact ⟨_, _, .given⟩
  · cases fs with
    | nil => exact ⟨_, _, .each⟩
    | cons f fs =>
        cases hdomain : f.statement.domainFor? v with
        | none => exact ⟨_, _, by simpa using Peels.givenAfter hdomain⟩
        | some set =>
            cases fs with
            | nil => exact ⟨_, _, .eachIn hdomain⟩
            | cons g gs => exact ⟨_, _, by simpa using Peels.givenWithin hdomain⟩

theorem Peels.append (h : Peels before inner layer) : ∃ more, before = inner ++ more := by
  cases h <;> exact ⟨_, rfl⟩

theorem Peels.length_lt (h : Peels before inner layer) : inner.length < before.length := by
  cases h <;> simp

theorem ofLog_assumed (f : Fact) (fs : List Fact) :
    Layer.ofLog ((f :: fs).map .assumed) = [.given f.statement (fs.map Fact.statement)] := by
  induction fs generalizing f with
  | nil => rfl
  | cons g fs ih => rw [List.map_cons, Layer.ofLog, ih g, List.map_cons]

theorem ofLog_introduced (rest : List Supposition) (v : Variable) :
    ∃ layers, Layer.ofLog (.introduced v :: rest) = .each v :: layers ∨
      ∃ set, Layer.ofLog (.introduced v :: rest) = .eachIn v set :: layers := by
  cases rest with
  | nil => exact ⟨[], .inl rfl⟩
  | cons x rest =>
      cases x with
      | introduced w => exact ⟨_, .inl rfl⟩
      | assumed f =>
          cases hdomain : f.statement.domainFor? v with
          | none => exact ⟨_, .inl (by rw [Layer.ofLog, hdomain])⟩
          | some set => exact ⟨_, .inr ⟨set, by rw [Layer.ofLog, hdomain]⟩⟩

/-- A variable begins a layer of its own. -/
theorem ofLog_append_introduced (before rest : List Supposition) (v : Variable) :
    Layer.ofLog (before ++ .introduced v :: rest) =
      Layer.ofLog before ++ Layer.ofLog (.introduced v :: rest) := by
  fun_induction Layer.ofLog before with
  | case1 => rfl
  | case2 w => rfl
  | case3 w x before ih => simpa [Layer.ofLog] using ih
  | case4 w f before set hset ih => simp [Layer.ofLog, hset, ih]
  | case5 w f before hset ih => simpa [Layer.ofLog, hset] using ih
  | case6 f before p ps layers hlayers ih =>
      rw [hlayers, List.cons_append] at ih
      rw [List.cons_append, Layer.ofLog, ih, List.cons_append]
  | case7 f before hother ih =>
      rw [List.cons_append, Layer.ofLog, ih]
      cases hlayers : Layer.ofLog before with
      | nil =>
          obtain ⟨layers, heach | ⟨set, heachIn⟩⟩ := ofLog_introduced rest v
          · rw [heach]
            rfl
          · rw [heachIn]
            rfl
      | cons layer layers =>
          cases layer with
          | given p ps => exact absurd hlayers (hother p ps layers)
          | _ => rfl

/-- What is peeled off is the last of the layers that the log is grouped into. -/
theorem Peels.ofLog (h : Peels before inner layer) :
    Layer.ofLog before = Layer.ofLog inner ++ [layer] := by
  cases h with
  | each => exact ofLog_append_introduced _ _ _
  | eachIn hset => rw [ofLog_append_introduced, Layer.ofLog, hset, Layer.ofLog]
  | given => exact ofLog_assumed _ _
  | @givenAfter earlier v f fs hnone =>
      have hrun : Layer.ofLog (.introduced v :: (f :: fs).map .assumed) =
          [.each v, .given f.statement (fs.map Fact.statement)] := by
        rw [List.map_cons, Layer.ofLog, hnone, ← List.map_cons, ofLog_assumed]
      rw [List.append_assoc, List.singleton_append, ofLog_append_introduced, hrun,
        ofLog_append_introduced, List.append_assoc]
      rfl
  | @givenWithin earlier v f g fs set hset =>
      have hrun : Layer.ofLog (.introduced v :: .assumed g :: (f :: fs).map .assumed) =
          [.eachIn v set, .given f.statement (fs.map Fact.statement)] := by
        rw [Layer.ofLog, hset, ofLog_assumed]
      rw [List.append_assoc, List.cons_append, List.singleton_append, ofLog_append_introduced, hrun,
        ofLog_append_introduced, Layer.ofLog, hset, List.append_assoc]
      rfl

end Peeling

section Synthesis
variable {scope : Scope} {before inner rest : List Supposition} {layer : Layer} (p : Proposition)

/-- Fails as closing a scope does that cannot be generalised. -/
def attempt (scope : Scope) : Except Breach Proposition → Action Proposition
  | .ok q => return q
  | .error b => Session.breach scope b

theorem attempt_bind (x : Except Breach Proposition) (k : Proposition → Except Breach Proposition) :
    attempt scope (x >>= k) = attempt scope x >>= fun q => attempt scope (k q) := by
  cases x <;> rfl

@[simp] theorem liftM_breach {α : Type} (scope : Scope) (b : Breach) :
    (liftM (Session.breach scope b : Action α) : Guarded α) =
      throw (.failed (.scope scope.name b)) := rfl

theorem synthesise_each {i : Nat} {v : Variable} (h : scope.log[i]? = some (.introduced v)) :
    synthesise scope (i + 1) p =
      liftM (attempt scope ((Layer.each v).wrap p)) >>= synthesise scope i := by
  rw [synthesise, Checked.item_of_getElem? h, Layer.wrap]
  by_cases hbinds : p.binds v = true
  · simp [hbinds, attempt]
  · by_cases hcontains : p.contains (.var v) = true
    · have hquantified := Checked.quantified_of_unbound .all (by simpa using hbinds)
      simp [hbinds, hcontains, hquantified, attempt]
    · simp [hbinds, hcontains, attempt]

theorem synthesise_eachIn {i : Nat} {v : Variable} {f : Fact} {set : Term}
    (hvariable : scope.log[i]? = some (.introduced v))
    (hassumed : scope.log[i + 1]? = some (.assumed f))
    (hset : f.statement.domainFor? v = some set) :
    synthesise scope (i + 2) p =
      liftM (attempt scope ((Layer.eachIn v set).wrap p)) >>= synthesise scope i := by
  have hdomain : isDomain scope (i + 1) = pure true := by
    rw [isDomain_after_variable hvariable hassumed, hset]
    rfl
  obtain ⟨m, hstatement⟩ := domainFor?_eq_some.mp hset
  have hrhs : rhs f.statement = pure set := by rw [hstatement, Checked.rhs_relation]
  rw [synthesise, Checked.item_of_getElem? hassumed, Layer.wrap]
  simp only [hdomain, hrhs, Nat.add_sub_cancel, Checked.item_of_getElem? hvariable,
    liftM_checked_pure, pure_bind, if_true]
  cases hunfit : p.binds v || (Term.var v).occursIn set with
  | true => simp [attempt]
  | false =>
      obtain ⟨hbinds, hoccurs⟩ := Bool.or_eq_false_iff.mp hunfit
      simp [Checked.quantified_of_unbound_in .all hbinds hoccurs, attempt]

theorem wrap_given (first : Proposition) (others : List Proposition) :
    (Layer.given first others).wrap p = .ok (if p.kind = .contradiction then
      .not (.conjunction first others) else .implies (.conjunction first others) p) := by
  unfold Layer.wrap
  by_cases hkind : p.kind = .contradiction
  · obtain ⟨m, rfl⟩ := Checked.hasForm hkind
    rfl
  · rw [if_neg hkind]
    cases p with
    | contradiction m => exact absurd rfl hkind
    | _ => rfl

theorem synthesise_given {f : Fact} {fs : List Fact}
    (h : scope.log = inner ++ (f :: fs).map .assumed ++ rest)
    (hfirst : isDomain scope inner.length = pure false)
    (hinner : hypotheses scope inner.length = pure []) :
    synthesise scope (inner.length + (fs.length + 1)) p =
      liftM (attempt scope ((Layer.given f.statement (fs.map Fact.statement)).wrap p)) >>=
        synthesise scope inner.length := by
  have hlast := getElem?_run h (Nat.lt_succ_self fs.length)
  have hdomain := isDomain_run h hfirst (Nat.lt_succ_self fs.length)
  have hrun := hypotheses_run h hfirst hinner
  obtain ⟨last, earlier, hreverse⟩ : ∃ last earlier,
      ((f :: fs).map Fact.statement).reverse = last :: earlier :=
    List.exists_cons_of_ne_nil (by simp)
  have hlength : earlier.length = fs.length := by simpa using (congrArg List.length hreverse).symm
  have hjoin : join .and (last :: earlier).reverse =
      pure (.conjunction f.statement (fs.map Fact.statement)) := by
    rw [← hreverse, List.reverse_reverse, List.map_cons, Checked.join_and]
  rw [hreverse, List.length_cons, ← Nat.add_assoc] at hrun
  rw [← Nat.add_assoc, synthesise, Checked.item_of_getElem? hlast, wrap_given, attempt]
  simp only [liftM_checked_pure, pure_bind, hdomain, hrun, hjoin, hlength, Nat.add_sub_cancel,
    Bool.false_eq_true, if_false, liftM_pure]

/-- One round of reading the log backwards peels off one layer. -/
theorem Peels.synthesise (h : Peels before inner layer) (hlog : scope.log = before ++ rest) :
    synthesise scope before.length p =
      liftM (attempt scope (layer.wrap p)) >>= synthesise scope inner.length := by
  cases h with
  | each =>
      rw [List.length_append, List.length_singleton]
      exact synthesise_each p (by simp [hlog])
  | eachIn hset =>
      rw [List.length_append]
      exact synthesise_eachIn p (by simp [hlog]) (by simp [hlog]) hset
  | given =>
      rw [List.length_map, List.length_cons, ← Nat.zero_add (_ + 1)]
      exact @synthesise_given scope [] rest p _ _ hlog rfl rfl
  | @givenAfter earlier v f fs hnone =>
      have hvariable : scope.log[earlier.length]? = some (.introduced v) := by simp [hlog]
      have hassumed : scope.log[earlier.length + 1]? = some (.assumed f) := by simp [hlog]
      have hfirst : isDomain scope (earlier.length + 1) = pure false := by
        rw [isDomain_after_variable hvariable hassumed, hnone]
        rfl
      have hinner : hypotheses scope (earlier.length + 1) = pure [] := by
        rw [hypotheses, Checked.item_of_getElem? hvariable]
        rfl
      rw [List.length_append, List.length_map]
      exact synthesise_given p hlog (by simpa using hfirst) (by simpa using hinner)
  | @givenWithin earlier v f g fs set hset =>
      have hvariable : scope.log[earlier.length]? = some (.introduced v) := by simp [hlog]
      have hassumed : scope.log[earlier.length + 1]? = some (.assumed g) := by simp [hlog]
      have hnext : scope.log[earlier.length + 2]? = some (.assumed f) := by simp [hlog]
      have hfirst : isDomain scope (earlier.length + 2) = pure false :=
        isDomain_after_assumption hassumed hnext
      have hinner : hypotheses scope (earlier.length + 2) = pure [] := by
        have hdomain : isDomain scope (earlier.length + 1) = pure true := by
          rw [isDomain_after_variable hvariable hassumed, hset]
          rfl
        simp [hypotheses, Checked.item_of_getElem? hassumed, hdomain]
      rw [List.length_append, List.length_map]
      exact synthesise_given p hlog (by simpa using hfirst) (by simpa using hinner)

/-- Reading the log backwards from any position puts the layers of what comes before around a
conclusion. The positions are those of the log, and what is built is fit to be built. -/
theorem synthesise_eq (before rest : List Supposition) (hlog : scope.log = before ++ rest) :
    synthesise scope before.length p =
      liftM (attempt scope ((Layer.ofLog before).foldrM Layer.wrap p)) := by
  induction hn : before.length using Nat.strongRecOn generalizing before rest p with
  | ind n ih =>
      by_cases hempty : before = []
      · rw [← hn, hempty, List.length_nil, synthesise]
        rfl
      · obtain ⟨inner, layer, hpeels⟩ := exists_peels hempty
        obtain ⟨more, hmore⟩ := hpeels.append
        have hinner : ∀ q, synthesise scope inner.length q =
            liftM (attempt scope ((Layer.ofLog inner).foldrM Layer.wrap q)) := fun q =>
          ih inner.length (hn ▸ hpeels.length_lt) q inner (more ++ rest)
            (by rw [hlog, hmore, List.append_assoc]) rfl
        rw [← hn, hpeels.synthesise p hlog, hpeels.ofLog, List.foldrM_append, List.foldrM_cons,
          List.foldrM_nil, pure_bind, attempt_bind, liftM_bind]
        exact bind_congr hinner

end Synthesis

section Closing
variable (s : Session)

theorem targets_eq_pure (scope : Scope) : targets s scope = pure (s.targets scope) := by
  unfold targets Session.targets
  cases hconclusions : scope.conclusions with
  | cons f fs => rfl
  | nil =>
      cases hlast : scope.proven.getLast? with
      | none => simp [List.getLast?_eq_none_iff.mp hlast]
      | some id =>
          have hne : scope.proven.isEmpty = false := by
            cases hproven : scope.proven with
            | nil => simp [hproven] at hlast
            | cons => rfl
          rw [List.getLast?_eq_getElem?] at hlast
          simp [hne, Checked.item_of_getElem? hlast]

/-- What is restated does not depend on how the log is read. -/
theorem restate_eq (scope : Scope) (f : Fact) :
    (liftM (match scope.generalise f.statement with
      | .ok p => (pure (f, p) : Action (Fact × Proposition))
      | .error b => Session.breach scope b) : Guarded (Fact × Proposition)) =
    (do return (f, ← synthesise scope scope.log.length f.statement.strip)) := by
  rw [synthesise_eq _ scope.log [] (by simp), Scope.generalise]
  cases (Layer.ofLog scope.log).foldrM Layer.wrap f.statement.strip <;> rfl

theorem close_withstands (c : ScopeId) : Withstands (Session.close c) (close c) s := by
  unfold Session.close close
  refine .after (Session.getScope_reads s c) fun scope _ => ?_
  cases scope.closed with
  | true => rfl
  | false =>
      refine .get_bind (.guard fun _ => ?_)
      rw [targets_eq_pure, liftM_checked_pure, pure_bind]
      refine .bind (.of_eq ?_) fun statements t _ => .of_eq ?_
      · rw [liftM_mapM]
        exact congrArg (fun k => (s.targets scope).mapM k) (funext (restate_eq scope))
      · simp only [liftM_bind]

end Closing

section Deductions
variable {s : Session}

/-- In a well-formed session, every tactic goes through all its checks if it is given what fits. -/
theorem perform_withstands (h : s.WellFormed) (t : Session.Tactic) (ht : t.Fits s) :
    Withstands t.perform (perform t) s := by
  cases t with
  | modusPonens p imp => exact (modusPonens_withstands s p imp).alone
  | modusTollens notQ imp => exact (modusTollens_withstands s notQ imp).alone
  | hypotheticalSyllogism ab bc => exact (hypotheticalSyllogism_withstands s ab bc).alone
  | followedFrom p assumptions => exact (followedFrom_withstands s p assumptions).alone
  | conjoin ps => exact (conjoin_withstands s ps).alone
  | extract p i => exact (extract_withstands s p i).alone
  | split p => exact split_withstands s p
  | disjoin p alternatives =>
      obtain ⟨present, rfl⟩ : ∃ present : List Proposition, alternatives = present.map some := by
        refine ⟨_, (Session.map_some_filterMap_id ?_).symm⟩
        rw [List.any_eq_false]
        intro x hx
        obtain ⟨q, rfl, -⟩ := ht x hx
        simp
      exact (disjoin_withstands s p present).alone
  | resolve p refutations => exact (resolveBy_withstands s .resolve p refutations).alone
  | unitResolve p refutation => exact (unitResolve_withstands s p refutation).alone
  | resolveClauses lhs rhs => exact (resolveClauses_withstands s lhs rhs).alone
  | exorEliminate exor p => exact (exorEliminate_withstands s h exor p).alone
  | doubleNegation p => exact (doubleNegation_withstands s p).alone
  | contrapositive imp => exact (contrapositive_withstands s imp).alone
  | iffIntro ab ba => exact (iffIntro_withstands s ab ba).alone
  | iffForward p => exact (iffForward_withstands s p).alone
  | iffBackward p => exact (iffBackward_withstands s p).alone
  | contradicts p q => exact (contradicts_withstands s p q).alone
  | thusAssumptionsCannotAllHold c => exact (thusAssumptionsCannotAllHold_withstands s c).alone
  | thusForall p v => exact (thusForall_withstands s p v).alone
  | thusThereExists p name witness paths =>
      exact (thusThereExists_withstands s h p name witness paths).alone
  | thusThereExistsIn p name witness set given paths =>
      have hset : (Term.var ⟨s.fresh, name⟩).occursIn set = false := by
        by_contra hoccurs
        exact Nat.lt_irrefl _ (ht ⟨s.fresh, name⟩ (by simpa using hoccurs))
      exact (thusThereExistsIn_withstands s h p name witness given paths hset).alone
  | inParticular p t facts => exact (inParticular_withstands s p t facts).alone
  | isSpecialCaseOf p universal facts =>
      exact (isSpecialCaseOf_withstands s p universal facts).alone
  | quantifiedModusPonens universal p facts =>
      exact (quantifiedModusPonens_withstands s universal p facts).alone
  | existentialElimination existential universal =>
      exact (existentialElimination_withstands s existential universal).alone
  | reflexivity t => exact Withstands.alone rfl
  | symmetry p => exact (symmetry_withstands s p).alone
  | substitute equality p paths => exact (substitute_withstands s equality p paths).alone
  | bySimplification p => exact (bySimplification_withstands s p).alone
  | transitiveIn order want links => exact (transitiveIn_withstands s order want links).alone
  | transitive want links => exact (transitive_withstands s want links).alone

/-- The deduction with checks has the answer or the failure of the plain one. In particular, it does
not break down. -/
def Completes {α : Type} (a : Action α) (g : Guarded α) (s : Session) : Prop :=
  (∃ x t, a s = .ok x t ∧ g s = .ok x t) ∨
    ∃ e t, a s = .error e t ∧ g s = .error (.failed e) t

theorem Withstands.completes {α : Type} {a : Action α} {g : Guarded α} (h : Withstands a g s) :
    Completes a g s := by
  rw [Withstands, liftM_run] at h
  cases hrun : a s with
  | ok x t =>
      rw [hrun] at h
      exact .inl ⟨x, t, hrun, h.symm⟩
  | error e t =>
      rw [hrun] at h
      exact .inr ⟨e, t, hrun, h.symm⟩

/-- Whatever a caller has done before, tactics that are given what fits and the closing of scopes
end with an answer or a failure. No connective lacks a member, no quantifier binds a variable twice
or ranges over a domain that mentions it, no side is asked of what has none, and no part, argument
or step of a path is looked for where there is none. -/
theorem never_breaks_down (h : s.Reachable) :
    (∀ t : Session.Tactic, t.Fits s → Completes t.perform (perform t) s) ∧
      ∀ c, Completes (Session.close c) (close c) s :=
  ⟨fun t ht => (perform_withstands h.wellFormed t ht).completes,
    fun c => (close_withstands s c).completes⟩

/-- One of `P` and `Q` holds and it is `P`. In a scope that is still open, something is in a set. -/
def crowdedRun : List Session.Call :=
  let x : Variable := ⟨1, "x"⟩
  let inside : Proposition := .rel .element (.var x) (.const "S")
  [.postulate (.junction .exor [.relation "P" [], .relation "Q" []]),
    .postulate (.relation "P" []), .openScope "inner", .letVariable ⟨0⟩ "x", .assumeIn ⟨0⟩ inside,
    .tactic (.thusThereExists (some (inside.withMark (some ⟨2⟩))) "y" (.var x) [])]

theorem reachable_crowdedRun : (Session.run {} crowdedRun).Reachable := by
  have hexor : Session.Obtainable {} (.junction .exor [.relation "P" [], .relation "Q" []]) := by
    refine @Session.Obtainable.junction {} .exor
      [some (.relation "P" []), some (.relation "Q" [])] _ (fun q hq => ?_) rfl
    rcases List.mem_pair.mp hq with heq | heq <;> cases heq <;> exact .relation _ _
  simp only [Session.run, crowdedRun, List.foldl_cons, List.foldl_nil]
  refine .call (.call (.call (.call (.call (.call .start ?_) ?_) ?_) ?_) ?_) ?_
  · exact hexor
  · exact .relation _ _
  · trivial
  · trivial
  · exact .relation _ _
  · trivial

/-- There, `Q` is refuted, another alternative is added, and the scope is closed. -/
theorem never_breaks_down_crowdedRun :
    (∃ f u, perform (.exorEliminate
        (some (.junction .exor [.relation "P" [], .relation "Q" []] (some ⟨0⟩)))
        (some (.relation "P" [] (some ⟨1⟩)))) (Session.run {} crowdedRun) = .ok [f] u ∧
      f.statement = .not (.relation "Q" [])) ∧
    (∃ f u, perform (.disjoin (some (.relation "P" [] (some ⟨1⟩))) [some (.relation "R" [])])
        (Session.run {} crowdedRun) = .ok [f] u ∧
      f.statement = .junction .or [.relation "P" [], .relation "R" []]) ∧
    ∃ u, close ⟨0⟩ (Session.run {} crowdedRun) = .ok () u := by
  obtain ⟨htactics, hclose⟩ := never_breaks_down reachable_crowdedRun
  refine ⟨?_, ?_, ?_⟩
  · have hfits : (Session.Tactic.exorEliminate
        (some (.junction .exor [.relation "P" [], .relation "Q" []] (some ⟨0⟩)))
        (some (.relation "P" [] (some ⟨1⟩)))).Fits (Session.run {} crowdedRun) := trivial
    rcases htactics _ hfits with ⟨_, _, hplain, hchecked⟩ | ⟨_, _, hplain, -⟩
    · cases hplain
      exact ⟨_, _, hchecked, rfl⟩
    · cases hplain
  · have hfits : (Session.Tactic.disjoin (some (.relation "P" [] (some ⟨1⟩)))
        [some (.relation "R" [])]).Fits (Session.run {} crowdedRun) := by
      intro p hp
      exact ⟨_, List.mem_singleton.mp hp, .relation _ _⟩
    rcases htactics _ hfits with ⟨_, _, hplain, hchecked⟩ | ⟨_, _, hplain, -⟩
    · cases hplain
      exact ⟨_, _, hchecked, rfl⟩
    · cases hplain
  · rcases hclose ⟨0⟩ with ⟨_, u, -, hchecked⟩ | ⟨_, _, hplain, -⟩
    · exact ⟨u, hchecked⟩
    · cases hplain

end Deductions

end Guarded

end Entailment

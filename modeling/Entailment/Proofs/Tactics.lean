import Entailment.Proofs.Justification

/-!
# Every tactic follows its rule

One theorem for each tactic: whatever it is called with and in whatever state, it enters at most
the conclusions that its rule allows, from premises that are proven, and nothing when it fails.
The proofs read the tactics from top to bottom with the rules for `Yields`.
-/
namespace Entailment.Session

section Rules
variable {r r' : Rule} {s : Session} {α : Type}

theorem Yields.throw {e : Failure} : Yields r (MonadExcept.throw e) s := Spares.refl s

theorem Yields.refuse {o : Obstacle} {fs : List Fact} : Yields r (refuse r' o fs) s :=
  Spares.refl s

theorem Yields.guard {c : Prop} [Decidable c] {e : Failure} {k : PUnit → Action Fact}
    (h : ¬c → Yields r (k ⟨⟩) s) :
    Yields r (if c then MonadExcept.throw e >>= k else k ⟨⟩) s :=
  Ensures.guard (.refl s) h

theorem Yields.get_bind {k : Session → Action Fact} (h : Yields r (k s) s) :
    Yields r (MonadState.get >>= k) s := h

theorem Yields.bind {a : Action α} {k : α → Action Fact} {P : α → Prop}
    (ha : Ensures a s (fun x t => s.Spares t ∧ P x) s.Spares)
    (hk : ∀ x t, s.Spares t → P x → Yields r (k x) t) : Yields r (a >>= k) s := by
  refine Ensures.bind ha fun x t ht => ?_
  refine Ensures.mono (hk x t ht.1 ht.2) ?_ fun u hu => ht.1.trans hu
  rintro f v ⟨u, p, i, d, hu, hrest⟩
  exact ⟨u, p, i, d, ht.1.prepares.trans hu, hrest⟩

theorem Yields.after {a : Action α} {k : α → Action Fact} {P : α → Prop} (ha : Reads a s P)
    (hk : ∀ x, P x → Yields r (k x) s) : Yields r (a >>= k) s :=
  ha.ensures_bind (.refl s) hk

theorem Yields.certify {p : Proposition} {i : Inference FactId} {d : List FactId}
    (h : s.Derives p i d) (hr : i.rule = r) : Yields r (certify p i d) s :=
  Ensures.certify ⟨s, p, i, d, .refl s, h, hr, rfl, rfl⟩

theorem Yields.derive {p : Proposition} {i : Inference FactId} {premises : List Fact}
    (hc : Concludes i.rule (premises.map Fact.statement) p) (hr : i.rule = r)
    (hp : ∀ f ∈ premises, s.Proves f)
    (hi : ∀ j, j ∈ i.premises ↔ j ∈ premises.map Fact.id) :
    Yields r (derive p i premises) s :=
  Ensures.derive ⟨s, p, i, _, .refl s, .plain hc hp hi, hr, rfl, rfl⟩

theorem filterMap_premise (fs : List Fact) :
    (fs.map fun f => Argument.premise f.id).filterMap Argument.premise? = fs.map Fact.id := by
  rw [List.filterMap_map]
  exact congrFun (List.filterMap_eq_map (f := Fact.id)) fs

end Rules

section Propositional
variable (s : Session)

theorem modusPonens_yields (p imp : Option Proposition) :
    Yields .modusPonens (modusPonens p imp) s := by
  unfold modusPonens
  refine .after (require_reads _ _ s) fun p hp => .after (require_reads _ _ s) fun imp himp => ?_
  split
  next a b m hstatement =>
    split
    next heq =>
      refine .derive ?_ rfl (by simp [hp, himp]) (by simp [Inference.premises, Argument.premise?])
      simpa [hstatement] using Concludes.modusPonens heq
    next => exact .refuse
  next => exact .refuse

theorem modusTollens_yields (notQ imp : Option Proposition) :
    Yields .modusTollens (modusTollens notQ imp) s := by
  unfold modusTollens
  refine .after (require_reads _ _ s) fun notQ hnotQ => ?_
  refine .after (require_reads _ _ s) fun imp himp => ?_
  split
  next a b m himplies =>
    split
    next q m' hnot =>
      split
      next heq =>
        refine .derive ?_ rfl (by simp [hnotQ, himp])
          (by simp [Inference.premises, Argument.premise?])
        simpa [himplies, hnot] using Concludes.modusTollens heq
      next => exact .refuse
    next => exact .refuse
  next => exact .refuse

theorem hypotheticalSyllogism_yields (ab bc : Option Proposition) :
    Yields .hypotheticalSyllogism (hypotheticalSyllogism ab bc) s := by
  unfold hypotheticalSyllogism
  refine .after (require_reads _ _ s) fun ab hab => .after (require_reads _ _ s) fun bc hbc => ?_
  split
  next a b m b' c m' hab' hbc' =>
    split
    next heq =>
      refine .derive ?_ rfl (by simp [hab, hbc]) (by simp [Inference.premises, Argument.premise?])
      simpa [hab', hbc'] using Concludes.hypotheticalSyllogism heq
    next => exact .refuse
  next => exact .refuse

theorem conjoin_yields (ps : List (Option Proposition)) :
    Yields .conjunctionIntro (conjoin ps) s := by
  unfold conjoin
  refine .guard fun hlength => .after (requireAll_reads _ _ s) fun fs ⟨hfs, hproven⟩ => ?_
  refine .derive (.conjunctionIntro ?_) rfl hproven ?_
  · rw [List.length_map, hfs]
    omega
  · cases fs with
    | nil => simp [Inference.premises]
    | cons f fs => simp [Inference.premises, Argument.premise?]

theorem junction?_eq_ok {c : Connective} {first : Proposition} {others : List (Option Proposition)}
    {p : Proposition} (h : Proposition.junction? c (some first :: others) = .ok p) :
    p = .junction c (first :: others.filterMap id) ∧ others.filterMap id ≠ [] := by
  unfold Proposition.junction? at h
  split at h
  next => cases h
  next hlength =>
    split at h
    next => cases h
    next hsome =>
      injection h with h
      refine ⟨by simpa using h.symm, ?_⟩
      cases others with
      | nil => simp at hlength
      | cons o others =>
          cases o with
          | none => simp at hsome
          | some o => simp

theorem disjoin_yields (p : Option Proposition) (alternatives : List (Option Proposition)) :
    Yields .disjunctionIntro (disjoin p alternatives) s := by
  unfold disjoin
  refine .after (require_reads _ _ s) fun p hp => .guard fun _ => ?_
  split
  next d hd =>
    obtain ⟨rfl, hne⟩ := junction?_eq_ok hd
    exact .derive (.disjunctionIntro hne) rfl (by simp [hp]) (by simp [Inference.premises])
  next => exact .throw

/-- Wherever a contradiction would follow, the tactic enters it or fails for want of
assumptions. -/
theorem contradiction_yields {rule : Rule} {i : Inference FactId} {premises : List Fact}
    (hc : Concludes i.rule (premises.map Fact.statement) .contradiction)
    (hp : ∀ f ∈ premises, s.Proves f)
    (hi : ∀ j, j ∈ i.premises ↔ j ∈ premises.map Fact.id) :
    Yields i.rule (contradiction rule i premises) s := by
  unfold contradiction
  exact .get_bind (.guard fun _ => .certify (.plain hc hp hi) rfl)

theorem negated_reads (rule : Rule) (r : Fact) (ps : List Proposition) :
    Reads (ps.mapM fun
      | .not p _ => Pure.pure p
      | _ => refuse rule .expectedNegations [r]) s
      (List.Forall₂ (fun p n => ∃ k, p = .not n k) ps) := by
  refine .mapM fun p _ => ?_
  split
  next => exact .pure ⟨_, rfl⟩
  next => exact .refuse

theorem refuted_reads (rule : Rule) (alone : Bool) (r : Fact) :
    Reads (refuted rule alone r) s (Refutes r.statement) := by
  unfold refuted
  split
  next p m hstatement => exact .pure (hstatement ▸ .negation p m)
  next ps m hstatement =>
    refine Ensures.mono (negated_reads s rule r ps) ?_ fun _ ht => ht
    rintro ns t ⟨ht, hns⟩
    exact ⟨ht, hstatement ▸ .negations ps ns m hns⟩
  next => exact .refuse

theorem removeRefuted_reads (rule : Rule) (d : Fact) (ns ps : List Proposition) :
    Reads (removeRefuted rule d ns ps) s
      (· = ps.filter fun p => ns.all fun n => !p.equal n) := by
  induction ns generalizing ps with
  | nil => exact .pure (by simp)
  | cons n ns ih =>
      unfold removeRefuted
      split
      next =>
        refine Ensures.mono (ih _) ?_ fun _ ht => ht
        rintro rest t ⟨ht, rfl⟩
        refine ⟨ht, ?_⟩
        rw [List.filter_filter]
        simp only [List.all_cons, Bool.and_comm]
      next => exact .throw

theorem resolveBy_yields {rule : Rule} (h : rule = .resolve ∨ rule = .unitResolve)
    (p : Option Proposition) (refutations : List (Option Proposition)) :
    Yields rule (resolveBy rule p refutations) s := by
  unfold resolveBy
  refine .after (require_reads _ _ s) fun p hp => ?_
  split
  next members m hstatement =>
    refine .guard fun _ => .after (requireAll_reads _ _ s) fun fs ⟨_, hfs⟩ => ?_
    refine .after (.mapM fun f _ => refuted_reads s rule _ f) fun ns hns => ?_
    refine .after (removeRefuted_reads s rule p ns.flatten members) fun remaining hremaining => ?_
    have hrefutes : List.Forall₂ Refutes (fs.map Fact.statement) ns :=
      List.forall₂_map_left_iff.mpr hns
    have hconcludes : Concludes rule ((p :: fs).map Fact.statement) (.clause remaining) := by
      rw [List.map_cons, hstatement]
      exact .resolve h hrefutes hremaining
    have hproven : ∀ f ∈ p :: fs, s.Proves f := by simpa [hp] using hfs
    split
    next =>
      exact contradiction_yields s hconcludes hproven
        (by simp [Inference.premises, Argument.premise?])
    next =>
      exact .derive hconcludes rfl hproven (by simp [Inference.premises, Argument.premise?])
  next => exact .refuse

theorem resolve_yields (p : Option Proposition) (refutations : List (Option Proposition)) :
    Yields .resolve (resolve p refutations) s :=
  resolveBy_yields s (.inl rfl) p refutations

theorem unitResolve_yields (p refutation : Option Proposition) :
    Yields .unitResolve (unitResolve p refutation) s := by
  unfold unitResolve
  split
  next => exact resolveBy_yields s (.inr rfl) p _
  next => exact resolveBy_yields s (.inr rfl) p _
  next => exact .throw

theorem resolveClauses_yields (lhs rhs : Option Proposition) :
    Yields .resolveClauses (resolveClauses lhs rhs) s := by
  unfold resolveClauses
  refine .after (require_reads _ _ s) fun p hp => .after (require_reads _ _ s) fun q hq => ?_
  dsimp only
  split
  next => exact .refuse
  next i j hclash =>
    have hproven : ∀ f ∈ [p, q], s.Proves f := by simp [hp, hq]
    split
    next hnone =>
      refine contradiction_yields s ?_ hproven (by simp [Inference.premises, Argument.premise?])
      exact .resolveClauses hclash hnone.symm
    next first rest hsome =>
      refine .derive ?_ rfl hproven (by simp [Inference.premises, Argument.premise?])
      exact .resolveClauses hclash hsome.symm

theorem exorEliminate_yields (exor p : Option Proposition) :
    Yields .exorElim (exorEliminate exor p) s := by
  unfold exorEliminate
  refine .after (require_reads _ _ s) fun exor hexor => .after (require_reads _ _ s) fun p hp => ?_
  split
  next members m hstatement =>
    split
    next => exact .refuse
    next i hi =>
      split
      next => exact .refuse
      next first rest hnegated =>
        refine .derive ?_ rfl (by simp [hexor, hp])
          (by simp [Inference.premises, Argument.premise?])
        simpa [hstatement] using Concludes.exorElim hi hnegated
  next => exact .refuse

theorem doubleNegation_yields (p : Option Proposition) :
    Yields .doubleNegation (doubleNegation p) s := by
  unfold doubleNegation
  refine .after (require_reads _ _ s) fun p hp => ?_
  split
  next a m m' hstatement =>
    refine .derive ?_ rfl (by simp [hp]) (by simp [Inference.premises])
    simpa [hstatement] using Concludes.doubleNegation
  next => exact .refuse

theorem contrapositive_yields (imp : Option Proposition) :
    Yields .contrapositive (contrapositive imp) s := by
  unfold contrapositive
  refine .after (require_reads _ _ s) fun imp himp => ?_
  split
  next a b m hstatement =>
    refine .derive ?_ rfl (by simp [himp]) (by simp [Inference.premises])
    simpa [hstatement] using Concludes.contrapositive
  next => exact .refuse

theorem iffIntro_yields (ab ba : Option Proposition) : Yields .iffIntro (iffIntro ab ba) s := by
  unfold iffIntro
  refine .after (require_reads _ _ s) fun ab hab => .after (require_reads _ _ s) fun ba hba => ?_
  split
  next a b m b' a' m' hab' hba' =>
    split
    next heq =>
      obtain ⟨ha, hb⟩ := (Bool.and_eq_true _ _).mp heq
      refine .derive ?_ rfl (by simp [hab, hba]) (by simp [Inference.premises, Argument.premise?])
      simpa [hab', hba'] using Concludes.iffIntro ha hb
    next => exact .refuse
  next => exact .refuse

theorem contradicts_yields (p q : Option Proposition) :
    Yields .contradicts (contradicts p q) s := by
  unfold contradicts
  refine .after (require_reads _ _ s) fun p hp => .after (require_reads _ _ s) fun q hq => ?_
  split
  next h =>
    refine contradiction_yields s ?_ (by simp [hp, hq])
      (by simp [Inference.premises, Argument.premise?])
    exact .contradicts h
  next => exact .refuse

theorem requireBiconditional_reads (p : Option Proposition) :
    Reads (requireBiconditional p) s
      fun x => s.Proves x.1 ∧ ∃ m, x.1.statement = .iff x.2.1 x.2.2 m := by
  unfold requireBiconditional
  refine .bind (require_reads _ _ s) fun p hp => ?_
  split
  next a b m hstatement => exact .pure ⟨hp, m, hstatement⟩
  next => exact .refuse

theorem iffForward_yields (p : Option Proposition) : Yields .iffElim (iffForward p) s := by
  unfold iffForward
  refine .after (requireBiconditional_reads s p) fun ⟨p, a, b⟩ ⟨hp, m, hstatement⟩ => ?_
  have hiff : p.statement = .iff a b m := hstatement
  refine .derive ?_ rfl (by simp [hp]) (by simp [Inference.premises])
  simpa [hiff] using Concludes.iffForward

theorem iffBackward_yields (p : Option Proposition) : Yields .iffElim (iffBackward p) s := by
  unfold iffBackward
  refine .after (requireBiconditional_reads s p) fun ⟨p, a, b⟩ ⟨hp, m, hstatement⟩ => ?_
  have hiff : p.statement = .iff a b m := hstatement
  refine .derive ?_ rfl (by simp [hp]) (by simp [Inference.premises])
  simpa [hiff] using Concludes.iffBackward

theorem requireConjuncts_reads (p : Option Proposition) :
    Reads (requireConjuncts p) s
      fun x => s.Proves x.1 ∧ ∃ m, x.1.statement = .junction .and x.2 m := by
  unfold requireConjuncts
  refine .bind (require_reads _ _ s) fun p hp => ?_
  split
  next members m hstatement => exact .pure ⟨hp, m, hstatement⟩
  next => exact .refuse

theorem conjunct_yields {p : Fact} {member : Proposition} {members : List Proposition}
    {m : Option FactId} (hp : s.Proves p) (hstatement : p.statement = .junction .and members m)
    (hmember : member ∈ members) : Yields .conjunctionElim (conjunct p member) s := by
  unfold conjunct
  refine .derive ?_ rfl (by simp [hp]) (by simp [Inference.premises])
  simpa [hstatement] using Concludes.conjunctionElim hmember

theorem extract_yields (p : Option Proposition) (i : Int) :
    Yields .conjunctionElim (extract p i) s := by
  unfold extract
  refine .after (requireConjuncts_reads s p) fun ⟨p, members⟩ ⟨hp, m, hstatement⟩ => ?_
  dsimp only
  split
  next member hmember =>
    apply conjunct_yields s hp hstatement
    split at hmember
    next => cases hmember
    next => exact List.mem_of_getElem? hmember
  next => exact .refuse

theorem split_extends (p : Option Proposition) :
    Extends (· = .conjunctionElim) s (after (split p) s) := by
  have hboth : Ensures (split p) s (fun _ t => Extends (· = .conjunctionElim) s t)
      (Extends (· = .conjunctionElim) s) := by
    unfold split
    apply (requireConjuncts_reads s p).ensures_bind .refl
    rintro ⟨p, members⟩ ⟨hp, m, hstatement⟩
    have hloop : Ensures (members.mapM (conjunct p)) s
        (fun fs t => (Extends (· = .conjunctionElim) s t ∧ t.Proves p) ∧
          List.Forall₂ (fun _ _ => True) members fs) (Extends (· = .conjunctionElim) s) := by
      refine .mapM ?_ ⟨.refl, hp⟩
      rintro member hmember t ⟨hst, hpt⟩
      refine Ensures.mono (conjunct_yields t hpt hstatement hmember) ?_ fun u hu =>
        hst.ofAside hu.aside
      rintro f u ⟨v, q, i, d, hv, hd, hr, -, rfl⟩
      refine ⟨⟨.certify (hst.ofAside hv.aside) hd hr, ?_⟩, trivial⟩
      exact (hv.aside.proves hpt).certified q i d
    exact hloop.mono (fun _ _ h => h.1.1) fun _ h => h
  exact hboth.left

theorem requireAssumption_reads (p : Option Proposition) :
    Reads (requireAssumption p) s s.Assumes := by
  unfold requireAssumption
  refine .get_bind ?_
  split
  next f hf =>
    split
    next hassumed =>
      obtain ⟨q, -, hq⟩ := Option.bind_eq_some_iff.mp hf
      obtain ⟨id, -, hid⟩ := Option.bind_eq_some_iff.mp hq
      obtain ⟨e, he, rfl⟩ := Option.map_eq_some_iff.mp hid
      exact .pure ⟨e, he, rfl, by simpa [he] using hassumed⟩
    next => exact .throw
  next => exact .throw

theorem followedFrom_yields (p : Option Proposition) (assumptions : List (Option Proposition)) :
    Yields .followedFrom (followedFrom p assumptions) s := by
  unfold followedFrom
  refine .after (require_reads _ _ s) fun p hp => .guard fun _ => ?_
  refine .after (.mapM fun a _ => requireAssumption_reads s a) fun fs hfs => ?_
  have hassumed : ∀ f ∈ fs, s.Assumes f := forall_mem_of_forall₂ hfs
  split
  next => exact .refuse
  next a rest => exact .get_bind (.certify (.followedFrom hp hassumed) rfl)

theorem thusAssumptionsCannotAllHold_yields (c : Option Proposition) :
    Yields .assumptionsCannotAllHold (thusAssumptionsCannotAllHold c) s := by
  unfold thusAssumptionsCannotAllHold
  refine .after (require_reads _ _ s) fun c hc => ?_
  split
  next m hstatement =>
    refine .get_bind (.guard fun hlength => .certify ?_ rfl)
    exact .assumptionsCannotAllHold hc hstatement (Nat.le_of_not_lt hlength)
  next => exact .refuse

end Propositional

section Quantifier
variable (s : Session)

theorem lookup_eq_some {want : Proposition} {facts : List Proposition} {f : Fact}
    (h : s.lookup want facts = some f) : s.Proves f ∧ f.statement.equal want = true := by
  unfold lookup at h
  rcases Option.or_eq_some_iff.mp h with hgiven | ⟨-, hknown⟩
  · have hmem := List.mem_of_find?_eq_some hgiven
    obtain ⟨p, -, hp⟩ := List.mem_filterMap.mp hmem
    have hequal := List.find?_some hgiven
    exact ⟨proves_of_provenFact? hp, hequal⟩
  · obtain ⟨v, -, hv⟩ := List.exists_of_findSome?_eq_some hknown
    obtain ⟨id, -, hid⟩ := List.exists_of_findSome?_eq_some hv
    split at hid
    next hholds =>
      obtain ⟨hmap, hequal⟩ := Option.filter_eq_some_iff.mp hid
      obtain ⟨e, he, rfl⟩ := Option.map_eq_some_iff.mp hmap
      exact ⟨⟨e, he, rfl, by simpa [Session.holds, he] using hholds⟩, hequal⟩
    next => cases hid

theorem eq_relation_of_equal {p : Proposition} {name : String} {args : List Term}
    {m : Option FactId} (h : p.equal (.relation name args m) = true) :
    ∃ m', p = .relation name args m' := by
  cases p with
  | relation name' args' m' =>
      simp only [Proposition.equal, Bool.and_eq_true, beq_iff_eq] at h
      exact ⟨m', by rw [h.1, h.2]⟩
  | _ => simp [Proposition.equal] at h

theorem rejectFacts_reads (rule : Rule) (element : Term) (want : Proposition)
    (facts : List Proposition) : Reads (rejectFacts rule element want facts) s fun _ => True := by
  induction facts with
  | nil => exact .pure trivial
  | cons f facts ih =>
      unfold rejectFacts
      refine .get_bind (.guard fun _ => ?_)
      split
      next => exact .guard fun _ => ih
      next => exact ih

theorem membership_reads (rule : Rule) (element set : Term) (facts : List Proposition) :
    Reads (membership rule element set facts) s fun f =>
      s.Proves f ∧ ∃ m, f.statement = .relation Relation.element.name [element, set] m := by
  unfold membership
  refine .get_bind ?_
  split
  next f hf =>
    obtain ⟨hproven, hequal⟩ := lookup_eq_some s hf
    exact .pure ⟨hproven, eq_relation_of_equal hequal⟩
  next => exact .bind (rejectFacts_reads s _ _ _ _) fun _ _ => .throw

theorem thusForall_yields (p : Option Proposition) (v : Option Variable) :
    Yields .thusForall (thusForall p v) s := by
  unfold thusForall
  refine .after (require_reads _ _ s) fun p hp => ?_
  split
  next => exact .refuse
  next v =>
    refine .guard fun hbinds => .get_bind ?_
    -- The warnings come first, but nothing after them can fail.
    refine Ensures.modify_bind (Ensures.derive ⟨_, _, _, _, ?_, .plain ?_ ?_ ?_, rfl, rfl, rfl⟩)
    · exact ⟨Nat.le_refl _, List.prefix_append _ _, rfl⟩
    · exact .thusForall (by simpa using hbinds)
    · exact List.forall_mem_singleton.mpr hp
    · simp [Inference.premises, Argument.premise?]

theorem abstractWitness_ensures (p : Fact) (name : String) (witness : Term) (paths : List Path) :
    Ensures (abstractWitness p name witness paths) s
      (fun x t => s.Spares t ∧ x.2 = p.statement.replace witness (.var x.1) paths ∧
        x.2.equal p.statement = false) s.Spares := by
  have hnew : Ensures (newVariable name) s (fun _ t => s.Spares t) s.Spares :=
    ⟨Nat.le_succ _, rfl⟩
  unfold abstractWitness
  refine hnew.bind fun v t ht => .guard ht fun hequal => ?_
  exact .pure ⟨ht, rfl, by simpa using hequal⟩

theorem thusThereExists_yields (p : Option Proposition) (name : String) (witness : Term)
    (paths : List Path) : Yields .thusThereExists (thusThereExists p name witness paths) s := by
  unfold thusThereExists
  refine .after (require_reads _ _ s) fun p hp => ?_
  refine .bind (abstractWitness_ensures s p name witness paths) fun ⟨v, q⟩ t ht ⟨hq, hne⟩ => ?_
  obtain rfl : q = p.statement.replace witness (.var v) paths := hq
  refine .derive ?_ rfl (by simp [ht.aside.proves hp])
    (by simp [Inference.premises, Argument.premise?])
  exact .thusThereExists hne

theorem thusThereExistsIn_yields (p : Option Proposition) (name : String) (witness set : Term)
    (given : Option Proposition) (paths : List Path) :
    Yields .thusThereExists (thusThereExistsIn p name witness set given paths) s := by
  unfold thusThereExistsIn
  refine .after (require_reads _ _ s) fun p hp => ?_
  refine .after (membership_reads s _ _ _ _) fun f ⟨hf, m, hmember⟩ => ?_
  refine .bind (abstractWitness_ensures s p name witness paths) fun ⟨v, q⟩ t ht ⟨hq, hne⟩ => ?_
  obtain rfl : q = p.statement.replace witness (.var v) paths := hq
  refine .derive ?_ rfl (by simp [ht.aside.proves hp, ht.aside.proves hf])
    (by simp [Inference.premises, Argument.premise?, eq_comm])
  simpa [hmember] using Concludes.thusThereExistsIn hne

theorem inParticular_yields (p : Option Proposition) (t : Term) (facts : List Proposition) :
    Yields .inParticular (inParticular p t facts) s := by
  unfold inParticular
  refine .after (require_reads _ _ s) fun p hp => ?_
  split
  next v inner m hstatement =>
    refine .derive ?_ rfl (by simp [hp]) (by simp [Inference.premises, Argument.premise?])
    simpa [hstatement] using Concludes.inParticular
  next v set inner m hstatement =>
    refine .after (membership_reads s _ _ _ _) fun f ⟨hf, m', hmember⟩ => ?_
    refine .derive ?_ rfl (by simp [hp, hf])
      (by simp [Inference.premises, Argument.premise?, eq_comm])
    simpa [hstatement, hmember] using Concludes.inParticularIn
  next => exact .refuse

theorem memberships_reads (rule : Rule) (σ : Substitution) (facts : List Proposition)
    (layers : List (Variable × Option Term)) :
    Reads (memberships rule σ facts layers) s fun fs =>
      (∀ f ∈ fs, s.Proves f) ∧ Memberships σ layers (fs.map Fact.statement) := by
  induction layers with
  | nil => exact .pure ⟨by simp, .nil⟩
  | cons layer layers ih =>
      obtain ⟨v, domain⟩ := layer
      cases domain with
      | none =>
          refine Ensures.mono ih ?_ fun _ ht => ht
          rintro fs t ⟨ht, hfs, hms⟩
          exact ⟨ht, hfs, .anywhere hms⟩
      | some set =>
          unfold memberships
          split
          next => exact .throw
          next t ht =>
            refine .bind (membership_reads s _ _ _ _) fun f ⟨hf, m, hmember⟩ => ?_
            refine .bind ih fun fs ⟨hfs, hms⟩ => .pure ⟨?_, ?_⟩
            · simpa [hf] using hfs
            · rw [List.map_cons, hmember]
              exact .inside ht hms

theorem isSpecialCaseOf_yields (p : Proposition) (universal : Option Proposition)
    (facts : List Proposition) : Yields .isSpecialCaseOf (isSpecialCaseOf p universal facts) s := by
  unfold isSpecialCaseOf
  refine .after (require_reads _ _ s) fun q hq => ?_
  split
  next => exact .refuse
  next layers body hne hpeel =>
    split
    next => exact .throw
    next σ hσ =>
      refine .after (memberships_reads s _ σ facts layers) fun ms ⟨hms, hmembers⟩ => ?_
      refine .derive ?_ rfl ?_ ?_
      · rw [List.map_append, List.map_singleton]
        exact .isSpecialCaseOf hpeel hne hσ hmembers
      · intro f hf
        rcases List.mem_append.mp hf with hf | hf
        · exact hms f hf
        · rw [List.mem_singleton.mp hf]
          exact hq
      · intro j
        simp [Inference.premises, Argument.premise?, or_comm, eq_comm]

theorem quantifiedModusPonens_yields (universal p : Option Proposition)
    (facts : List Proposition) :
    Yields .quantifiedModusPonens (quantifiedModusPonens universal p facts) s := by
  unfold quantifiedModusPonens
  refine .after (require_reads _ _ s) fun q hq => .after (require_reads _ _ s) fun p hp => ?_
  split
  next layer layers a b m hpeel =>
    dsimp only
    split
    next => exact .refuse
    next σ hσ =>
      split
      next => exact .refuse
      next hdetermined =>
        refine .after (memberships_reads s _ σ facts _) fun ms ⟨hms, hmembers⟩ => ?_
        refine .derive ?_ rfl ?_ ?_
        · rw [List.map_append, List.map_cons, List.map_singleton]
          refine .quantifiedModusPonens hpeel (by simp) hσ ?_ hmembers
          intro v hv hnone
          simpa [hnone] using List.find?_eq_none.mp hdetermined v hv
        · intro f hf
          rcases List.mem_append.mp hf with hf | hf
          · exact hms f hf
          · have hcases : f = q ∨ f = p := by simpa using hf
            rcases hcases with rfl | rfl
            · exact hq
            · exact hp
        · intro j
          simp only [Inference.premises, Option.toList_some, List.filterMap_cons,
            Argument.premise?, filterMap_premise, List.map_append, List.map_cons, List.map_nil]
          grind
  next => exact .refuse

theorem existentialElimination_yields (existential universal : Option Proposition) :
    Yields .existentialElim (existentialElimination existential universal) s := by
  unfold existentialElimination
  refine .after (require_reads _ _ s) fun e he => .after (require_reads _ _ s) fun u hu => ?_
  split
  next v d inner m w d' body m' hexist hall =>
    refine .guard fun hdomain => ?_
    split
    next a b m'' =>
      refine .guard fun hequal => .guard fun hfree => ?_
      refine .derive ?_ rfl (by simp [he, hu]) (by simp [Inference.premises, Argument.premise?])
      have hsame : d = d' := by simpa using hdomain
      subst hsame
      simpa [hexist, hall] using Concludes.existentialElim (by simpa using hequal)
        (by simpa using hfree)
    next => exact .refuse
  next => exact .refuse

end Quantifier

section Relation
variable (s : Session)

/-- A rule without premises needs nothing of the session. -/
theorem baseless_yields {p : Proposition} {i : Inference FactId} (hc : Concludes i.rule [] p)
    (hi : i.premises = []) : Yields i.rule (certify p i []) s := by
  have hderives : s.Derives p i (s.union (([] : List Fact).map Fact.id)) :=
    .plain hc (by simp) (by simp [hi])
  exact .certify hderives rfl

theorem reflexivity_yields (t : Term) : Yields .reflexivity (reflexivity t) s :=
  baseless_yields s .reflexivity rfl

theorem symmetry_yields (p : Option Proposition) : Yields .symmetry (symmetry p) s := by
  unfold symmetry
  refine .after (require_reads _ _ s) fun p hp => ?_
  split
  next name lhs rhs m hstatement =>
    refine .get_bind ?_
    have hconclude : ∀ flipped, Converse s.order name flipped →
        Yields .symmetry (derive (.relation flipped [rhs, lhs])
          { rule := .symmetry, first := some p.id } [p]) s := by
      intro flipped hconverse
      refine .derive ?_ rfl (by simp [hp]) (by simp [Inference.premises])
      simpa [hstatement] using Concludes.symmetry hconverse
    split
    next hname => exact hconclude name (.inl ⟨hname, rfl⟩)
    next =>
      dsimp only
      split
      next flipped hflipped => exact hconclude flipped (.inr hflipped)
      next => exact .refuse
  next => exact .refuse

theorem substitute_yields (equality p : Option Proposition) (paths : List Path) :
    Yields .substitute (substitute equality p paths) s := by
  unfold substitute
  refine .after (require_reads _ _ s) fun q hq => .after (require_reads _ _ s) fun p hp => ?_
  split
  next name lhs rhs m hstatement =>
    refine .guard fun hname => .guard fun _ => ?_
    refine .derive ?_ rfl (by simp [hq, hp]) (by simp [Inference.premises, Argument.premise?])
    obtain rfl : name = Relation.equal.name := by simpa using hname
    simpa [hstatement] using Concludes.substitute
  next => exact .refuse

theorem bySimplification_yields (p : Proposition) :
    Yields .bySimplification (bySimplification p) s := by
  unfold bySimplification
  split
  next target negated hp =>
    split
    next name lhs rhs m =>
      split
      next => exact .throw
      next decided hdecided =>
        refine .guard fun hne => baseless_yields s ?_ rfl
        split at hp
        next q m' =>
          obtain ⟨rfl, rfl⟩ := Prod.mk.inj hp
          exact .bySimplificationNot (by simpa [hdecided] using hne)
        next =>
          obtain ⟨rfl, rfl⟩ := Prod.mk.inj hp
          exact .bySimplification (by simpa [hdecided] using hne)
    next => exact .throw

theorem extendChain_reads {order : Order} {chain : List Fact} {acc : Chain} {link : Fact}
    {links : List Fact} {P : Chain → Prop}
    (h : ∀ acc, Reads (followChain order chain (some link) acc links) s P) :
    Reads (match order.classify link.statement.name with
      | none => refuse .transitive (.notInOrder link.statement.name) [link]
      | some l =>
        match acc.extend l with
        | none => refuse .transitive .mixedDirections chain
        | some acc => followChain order chain (some link) acc links) s P := by
  split
  next => exact .refuse
  next =>
    split
    next => exact .refuse
    next acc' _ => exact h acc'

theorem followChain_reads (order : Order) (chain : List Fact) (previous : Option Fact)
    (acc : Chain) (links : List Fact) :
    Reads (followChain order chain previous acc links) s fun _ => True := by
  induction links generalizing previous acc with
  | nil => exact .pure trivial
  | cons link links ih =>
      unfold followChain
      split
      next => exact .refuse
      next lhs rhs hsides =>
        have hlink := ih (some link)
        cases previous with
        | none => exact extendChain_reads s hlink
        | some q => exact .guard fun _ => extendChain_reads s hlink

theorem transitiveIn_yields (order : Order) (want : String) (links : List (Option Proposition)) :
    Yields .transitive (transitiveIn order want links) s := by
  unfold transitiveIn
  split
  next => exact .throw
  next goal hgoal =>
    refine .guard fun _ => .after (requireAll_reads _ _ s) fun chain ⟨_, hchain⟩ => ?_
    refine .after (followChain_reads s _ _ _ _ _) fun found _ => ?_
    refine .guard fun _ => .guard fun _ => .guard fun _ => ?_
    split
    next lhs x y rhs hfirst hlast =>
      refine .derive ?_ rfl hchain ?_
      · refine .transitive (x := x) (y := y) ?_ ?_
        · rw [List.head?_map, Option.bind_map]
          exact hfirst
        · rw [List.getLast?_map, Option.bind_map]
          exact hlast
      · cases chain with
        | nil => simp [Inference.premises]
        | cons f fs => simp [Inference.premises, Argument.premise?]
    next => exact .throw

theorem transitive_yields (want : String) (links : List (Option Proposition)) :
    Yields .transitive (transitive want links) s :=
  .get_bind (transitiveIn_yields s s.order want links)

end Relation

end Entailment.Session

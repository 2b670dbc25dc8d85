import Entailment.Proofs.Auditing
import Mathlib.Data.Set.Card

/-!
# Audits that remember nothing

An audit remembers what it has seen, and whether it saw it as a live statement or below the closing
of a scope. It writes that down before it goes on to the premises, and it stops at a depth that is
meant to be enough. `replay` does without all this: it visits every premise of every statement on
the way, in order, each time that it comes up.

As long as no statement is a premise of itself, over any number of steps, the two come to the same
verdict. Every statement then has a rank above those of its premises, which is less than the depth
that an audit allows for. What an audit has written down is of higher rank than what it looks at, or
it has passed, and what passes as a live statement passes below a closing too.
-/
namespace Entailment.Session

section Ranks
variable {s : Session} {id j : FactId}

def IsPremise (s : Session) (j id : FactId) : Prop :=
  ∃ e, s.entry? id = some e ∧ j ∈ e.inference.premises

/-- No statement is a premise of itself, over any number of steps. -/
def IsAcyclic (s : Session) : Prop := ∀ id, ¬Relation.TransGen s.IsPremise id id

/-- The entries that a statement is derived from, itself included. -/
def derivation (s : Session) (id : FactId) : Set FactId :=
  {j | j.index < s.ledger.size ∧ Relation.ReflTransGen s.IsPremise j id}

noncomputable def rank (s : Session) (id : FactId) : Nat := (s.derivation id).ncard

theorem derivation_subset (s : Session) (id : FactId) :
    s.derivation id ⊆ ((Finset.range s.ledger.size).image FactId.mk : Finset FactId) := by
  intro j hj
  exact Finset.mem_coe.mpr (Finset.mem_image.mpr ⟨j.index, Finset.mem_range.mpr hj.1, rfl⟩)

theorem derivation_finite (s : Session) (id : FactId) : (s.derivation id).Finite :=
  (Finset.finite_toSet _).subset (s.derivation_subset id)

theorem rank_le (s : Session) (id : FactId) : s.rank id ≤ s.ledger.size := by
  calc s.rank id
      ≤ ((Finset.range s.ledger.size).image FactId.mk).card := by
        rw [← Set.ncard_coe_finset]
        exact Set.ncard_le_ncard (s.derivation_subset id) (Finset.finite_toSet _)
    _ ≤ (Finset.range s.ledger.size).card := Finset.card_image_le
    _ = s.ledger.size := Finset.card_range _

/-- What a premise is derived from, the statement is derived from too, and from itself besides. -/
theorem IsAcyclic.rank_lt (h : s.IsAcyclic) (hj : s.IsPremise j id) : s.rank j < s.rank id := by
  apply Set.ncard_lt_ncard _ (s.derivation_finite id)
  constructor
  · exact fun k hk => ⟨hk.1, hk.2.tail hj⟩
  · intro hsubset
    obtain ⟨e, he, hmem⟩ := hj
    have hself : id ∈ s.derivation j := hsubset ⟨entry?_lt he, .refl⟩
    exact h id (Relation.TransGen.tail' hself.2 ⟨e, he, hmem⟩)

/-- Entries that refer to older ones only do not go around in circles. -/
theorem Traced.isAcyclic (h : s.Traced) : s.IsAcyclic := by
  have holder : ∀ {j id}, Relation.TransGen s.IsPremise j id → j.index < id.index := by
    intro j id hpath
    induction hpath with
    | single hpremise =>
        obtain ⟨e, he, hj⟩ := hpremise
        exact (h.recorded _ e he).older j hj
    | tail _ hpremise ih =>
        obtain ⟨e, he, hj⟩ := hpremise
        exact Nat.lt_trans ih ((h.recorded _ e he).older _ hj)
  exact fun id hcycle => Nat.lt_irrefl _ (holder hcycle)

theorem isAcyclic_run (calls : List Call) : (run {} calls).IsAcyclic :=
  (Traced.initial.run calls).isAcyclic

end Ranks

/-- Checks the statement of an entry and then, one after the other, its premises, and so on down to
the leaves. The rules of the statements above are at hand: a statement need not be proven below the
closing of a scope. -/
def replay (s : Session) (h : s.IsAcyclic) (above : List Rule) (id : FactId) :
    Except Failure Unit :=
  match _ : s.entry? id with
  | none => throw (.unjustified default)
  | some e =>
    if e.holds = false ∧ .closeScope ∉ above then throw (.notProven e.statement)
    else if e.inference.rule = .postulate ∨ e.inference.rule = .assumption then return ()
    else if e.inference.premises = [] ∧ e.inference.terms = [] then
      throw (.baseless e.statement e.inference.rule)
    else e.inference.premises.attach.forM fun ⟨j, _⟩ => s.replay h (e.inference.rule :: above) j
termination_by s.rank id
decreasing_by exact h.rank_lt ⟨e, ‹_›, ‹_›⟩

/-- Checks a proposition in the same way. -/
def replayOf (s : Session) (h : s.IsAcyclic) (p : Proposition) : Except Failure Unit :=
  match s.provenFact? p with
  | none => throw (.notProven p)
  | some f => s.replay h [] f.id

section Replays
variable {s : Session} {h : s.IsAcyclic} {above above' : List Rule} {id : FactId} {e : Entry}

theorem replay_of_none (hentry : s.entry? id = none) :
    s.replay h above id = .error (.unjustified default) := by
  rw [replay]
  split
  next => rfl
  next e he =>
    rw [hentry] at he
    cases he

theorem forM_attach {α : Type} (xs : List α) (f : α → Except Failure Unit) :
    (xs.attach.forM fun x => f x.1) = xs.forM f := by
  conv_rhs => rw [← List.attach_map_subtype_val xs]
  rw [List.forM_eq_forM, List.forM_eq_forM, List.forM_map]

theorem flaw?_eq (discharged : Bool) (e : Entry) :
    flaw? discharged e =
      if e.holds = false ∧ discharged = false then some (.notProven e.statement)
      else if e.inference.rule = .postulate ∨ e.inference.rule = .assumption then none
      else if e.inference.premises = [] ∧ e.inference.terms = [] then
        some (.baseless e.statement e.inference.rule)
      else none := by
  have hunproven : (!discharged && !e.holds) = true ↔ e.holds = false ∧ discharged = false := by
    simp [and_comm]
  have hnone : (e.inference.premises.isEmpty && e.inference.terms.isEmpty) = true ↔
      e.inference.premises = [] ∧ e.inference.terms = [] := by simp
  rw [flaw?]
  simp only [hunproven, hnone]
  congr 1
  split
  next hrule => rw [if_pos (.inr hrule)]
  next hrule => rw [if_pos (.inl hrule)]
  next hassumption hpostulate => rw [if_neg (not_or.mpr ⟨hpostulate, hassumption⟩)]

theorem auditPremises_of_leaf
    (hleaf : e.inference.rule = .postulate ∨ e.inference.rule = .assumption) :
    auditPremises e = [] := by
  rcases hleaf with hrule | hrule <;> rw [auditPremises, hrule]

theorem auditPremises_of_derived
    (hleaf : ¬(e.inference.rule = .postulate ∨ e.inference.rule = .assumption)) :
    auditPremises e = e.inference.premises := by
  unfold auditPremises
  split
  next hrule => exact absurd (.inr hrule) hleaf
  next hrule => exact absurd (.inl hrule) hleaf
  next => rfl

/-- What an audit finds wrong with an entry is what is found here before the premises. -/
theorem replay_of_some (hentry : s.entry? id = some e) :
    s.replay h above id =
      match flaw? (decide (.closeScope ∈ above)) e with
      | some failure => .error failure
      | none => (auditPremises e).forM (s.replay h (e.inference.rule :: above)) := by
  rw [replay]
  split
  next he =>
    rw [hentry] at he
    cases he
  next e' he =>
    obtain rfl : e' = e := Option.some.inj (he.symm.trans hentry)
    rw [forM_attach, flaw?_eq]
    simp only [decide_eq_false_iff_not]
    split_ifs with hunproven hleaf hnone
    · rfl
    · rw [auditPremises_of_leaf hleaf]
      rfl
    · rfl
    · rw [auditPremises_of_derived hleaf]

/-- The premises of a statement that passes have passed, and vice versa if it is not flawed. -/
theorem replay_eq_ok_iff : s.replay h above id = .ok () ↔ ∃ e, s.entry? id = some e ∧
    flaw? (decide (.closeScope ∈ above)) e = none ∧
    (auditPremises e).forM (s.replay h (e.inference.rule :: above)) = .ok () := by
  cases hentry : s.entry? id with
  | none => simp [replay_of_none hentry]
  | some e =>
      rw [replay_of_some hentry]
      cases hflaw : flaw? (decide (.closeScope ∈ above)) e with
      | none => simp [hflaw]
      | some failure => simp [hflaw]

theorem forM_cons_ok {α : Type} {x : α} {xs : List α} {f : α → Except Failure Unit}
    (hx : f x = .ok ()) : (x :: xs).forM f = xs.forM f := by
  rw [List.forM, hx]
  rfl

theorem forM_cons_error {α : Type} {x : α} {xs : List α} {f : α → Except Failure Unit}
    {failure : Failure} (hx : f x = .error failure) : (x :: xs).forM f = .error failure := by
  rw [List.forM, hx]
  rfl

theorem forM_eq_ok_iff {α : Type} {xs : List α} {f : α → Except Failure Unit} :
    xs.forM f = .ok () ↔ ∀ x ∈ xs, f x = .ok () := by
  induction xs with
  | nil => exact iff_of_true rfl (by simp)
  | cons x xs ih =>
      rw [List.forall_mem_cons]
      cases hx : f x with
      | ok u => rw [forM_cons_ok hx, ih, and_iff_right rfl]
      | error failure => simp [forM_cons_error hx]

theorem flaw?_mono {discharged discharged' : Bool} (hflaw : flaw? discharged e = none)
    (hexempt : discharged = true → discharged' = true) : flaw? discharged' e = none := by
  have hproven : ¬(e.holds = false ∧ discharged' = false) := by
    rintro ⟨hholds, rfl⟩
    rw [flaw?_eq, if_pos ⟨hholds, Bool.eq_false_iff.mpr fun hd => Bool.noConfusion (hexempt hd)⟩]
      at hflaw
    cases hflaw
  rw [flaw?_eq, if_neg hproven]
  rw [flaw?_eq] at hflaw
  split_ifs at hflaw ⊢ <;> rfl

/-- What passes where it has to be proven passes where it need not be. -/
theorem replay_mono (hpasses : s.replay h above id = .ok ())
    (hexempt : .closeScope ∈ above → .closeScope ∈ above') : s.replay h above' id = .ok () := by
  induction hrank : s.rank id using Nat.strongRecOn generalizing id above above' with
  | ind n ih =>
      subst hrank
      obtain ⟨e, he, hflaw, hpremises⟩ := replay_eq_ok_iff.mp hpasses
      refine replay_eq_ok_iff.mpr ⟨e, he, ?_, forM_eq_ok_iff.mpr fun j hj => ?_⟩
      · exact flaw?_mono hflaw (by simpa using hexempt)
      · have hpremise : s.IsPremise j id := ⟨e, he, mem_premises_of_mem_auditPremises hj⟩
        refine ih _ (h.rank_lt hpremise) (forM_eq_ok_iff.mp hpremises j hj) ?_ rfl
        exact fun hmem => (List.mem_cons.mp hmem).elim (· ▸ List.mem_cons_self)
          fun hmem => List.mem_cons_of_mem _ (hexempt hmem)

end Replays

section Agreement
variable {s : Session} {h : s.IsAcyclic} {above : List Rule} {id : FactId} {n depth : Nat}
  {path : List FactId} {visited : Visited}

/-- Whatever was seen is on the path down to here, or it passes: everywhere, if it was seen as a
live statement, and else below a closing. -/
def Seen (s : Session) (h : s.IsAcyclic) (path : List FactId) (visited : Visited) : Prop :=
  ∀ id live, visited.lookup id = some live → id ∈ path ∨
    ∀ above, (live = true ∨ .closeScope ∈ above) → s.replay h above id = .ok ()

/-- An audit of entries below rank `n` comes to the same verdict, and leaves entries from that rank
on as it saw them. -/
def Concurs (s : Session) (h : s.IsAcyclic) (n : Nat) (path : List FactId) (visited : Visited)
    (verdict : Except Failure Unit) : Except Failure Visited → Prop
  | .error failure => verdict = .error failure
  | .ok found => verdict = .ok () ∧ s.Seen h path found ∧
      ∀ id, n ≤ s.rank id → found.lookup id = visited.lookup id

/-- An entry is noted as seen when it joins the path. -/
theorem Seen.cons {discharged : Bool} (hseen : s.Seen h path visited) :
    s.Seen h (id :: path) ((id, discharged) :: visited) := by
  intro j live hlookup
  by_cases hj : j = id
  · exact .inl (List.mem_cons.mpr (.inl hj))
  · rw [List.lookup_cons, beq_false_of_ne hj] at hlookup
    exact (hseen j live hlookup).imp_left (List.mem_cons_of_mem _)

/-- The entries from rank `n` on have been left alone before, too. -/
theorem Concurs.of_frame {found : Visited} {verdict : Except Failure Unit}
    {result : Except Failure Visited} (hconcurs : s.Concurs h n path found verdict result)
    (hframe : ∀ id, n ≤ s.rank id → found.lookup id = visited.lookup id) :
    s.Concurs h n path visited verdict result := by
  cases result with
  | error failure => exact hconcurs
  | ok last =>
      obtain ⟨hverdict, hlast, hkept⟩ := hconcurs
      exact ⟨hverdict, hlast, fun j hj => (hkept j hj).trans (hframe j hj)⟩

theorem auditFrom_cons (s : Session) (depth : Nat) (discharged : Bool) (id : FactId)
    (ids : List FactId) (visited : Visited) :
    s.auditFrom (depth + 1) discharged (id :: ids) visited =
      (s.auditFrom (depth + 1) discharged [id] visited).bind
        (s.auditFrom (depth + 1) discharged ids) := by
  simp only [auditFrom, List.foldlM_cons, List.foldlM_nil, bind_pure]
  rfl

/-- The entry below a closing, or a live one. -/
theorem auditFrom_singleton (s : Session) (depth : Nat) (discharged : Bool) (id : FactId)
    (visited : Visited) :
    s.auditFrom (depth + 1) discharged [id] visited =
      if visited.lookup id = some true ∨ (visited.lookup id = some false ∧ discharged = true) then
        .ok visited
      else
        match s.entry? id with
        | none => .error (.unjustified default)
        | some e =>
          match flaw? discharged e with
          | some failure => .error failure
          | none => s.auditFrom depth (discharged || e.inference.rule == .closeScope)
              (auditPremises e) ((id, !discharged) :: visited) := by
  simp only [auditFrom, List.foldlM_cons, List.foldlM_nil, bind_pure]
  cases hlookup : visited.lookup id with
  | none =>
      rw [if_neg (by simp)]
      rfl
  | some live =>
      cases live with
      | true => rw [if_pos (.inl rfl)]
      | false =>
          cases discharged with
          | true => rw [if_pos (.inr ⟨rfl, rfl⟩)]; rfl
          | false =>
              rw [if_neg (by simp)]
              rfl

theorem decide_closeScope_cons (above : List Rule) (rule : Rule) :
    (decide (.closeScope ∈ above) || rule == .closeScope) =
      decide (.closeScope ∈ rule :: above) := by
  rw [Bool.eq_iff_iff]
  simp [or_comm, eq_comm (a := rule)]

/-- The verdict on an entry that has been seen is known, and on another one it is the verdict on its
premises. -/
theorem concurs_singleton (hid : s.rank id < n) (hpath : ∀ q ∈ path, n ≤ s.rank q)
    (hseen : s.Seen h path visited)
    (hpremises : ∀ e, s.entry? id = some e → s.Concurs h (s.rank id) (id :: path)
      ((id, !decide (.closeScope ∈ above)) :: visited)
      ((auditPremises e).forM (s.replay h (e.inference.rule :: above)))
      (s.auditFrom depth (decide (.closeScope ∈ e.inference.rule :: above)) (auditPremises e)
        ((id, !decide (.closeScope ∈ above)) :: visited))) :
    s.Concurs h n path visited (s.replay h above id)
      (s.auditFrom (depth + 1) (decide (.closeScope ∈ above)) [id] visited) := by
  have hfresh : id ∉ path := fun hmem => Nat.lt_irrefl _ (Nat.lt_of_lt_of_le hid (hpath id hmem))
  rw [auditFrom_singleton]
  split
  next hknown =>
    refine ⟨?_, hseen, fun _ _ => rfl⟩
    rcases hknown with hlive | ⟨hclosed, habove⟩
    · exact (hseen id true hlive).resolve_left hfresh above (.inl rfl)
    · exact (hseen id false hclosed).resolve_left hfresh above (.inr (decide_eq_true_eq.mp habove))
  next =>
    cases hentry : s.entry? id with
    | none => exact replay_of_none hentry
    | some e =>
        have hbelow := hpremises e hentry
        dsimp only
        rw [decide_closeScope_cons, replay_of_some hentry]
        cases hflaw : flaw? (decide (.closeScope ∈ above)) e with
        | some failure => rfl
        | none =>
            dsimp only
            cases hrun : s.auditFrom depth (decide (.closeScope ∈ e.inference.rule :: above))
                (auditPremises e) ((id, !decide (.closeScope ∈ above)) :: visited) with
            | error failure =>
                rw [hrun] at hbelow
                exact hbelow
            | ok found =>
                rw [hrun] at hbelow
                obtain ⟨hverdict, hfound, hframe⟩ := hbelow
                have hpasses : s.replay h above id = .ok () :=
                  replay_eq_ok_iff.mpr ⟨e, hentry, hflaw, hverdict⟩
                refine ⟨hverdict, ?_, ?_⟩
                · intro j live hlookup
                  by_cases hj : j = id
                  · -- The entry itself was noted before its premises, and stays noted.
                    subst hj
                    rw [hframe j (Nat.le_refl _), List.lookup_cons_self, Option.some.injEq]
                      at hlookup
                    refine .inr fun above' hmode => replay_mono hpasses fun hclosed => ?_
                    refine hmode.resolve_left fun hlive => ?_
                    rw [hlive, Bool.not_eq_true', decide_eq_false_iff_not] at hlookup
                    exact hlookup hclosed
                  · exact (hfound j live hlookup).imp_left fun hmem =>
                      (List.mem_cons.mp hmem).resolve_left hj
                · intro j hj
                  have hne : j ≠ id := by
                    rintro rfl
                    exact Nat.lt_irrefl _ (Nat.lt_of_lt_of_le hid hj)
                  rw [hframe j (Nat.le_trans (Nat.le_of_lt hid) hj), List.lookup_cons,
                    beq_false_of_ne hne]

/-- An audit comes to the verdict of checking everything again. -/
theorem auditFrom_concurs {ids : List FactId} (hdepth : n ≤ depth)
    (hids : ∀ id ∈ ids, s.rank id < n) (hpath : ∀ q ∈ path, n ≤ s.rank q) (hseen : s.Seen h path visited) :
    s.Concurs h n path visited (ids.forM (s.replay h above))
      (s.auditFrom depth (decide (.closeScope ∈ above)) ids visited) := by
  induction depth generalizing n path visited above ids with
  | zero =>
      obtain rfl : n = 0 := Nat.le_zero.mp hdepth
      obtain rfl : ids = [] := List.eq_nil_iff_forall_not_mem.mpr fun id hid =>
        Nat.not_lt_zero _ (hids id hid)
      exact ⟨rfl, hseen, fun _ _ => rfl⟩
  | succ depth ih =>
      induction ids generalizing visited with
      | nil => exact ⟨rfl, hseen, fun _ _ => rfl⟩
      | cons id ids ihrest =>
          obtain ⟨hid, hrest⟩ := List.forall_mem_cons.mp hids
          have hsingle : s.Concurs h n path visited (s.replay h above id)
              (s.auditFrom (depth + 1) (decide (.closeScope ∈ above)) [id] visited) := by
            apply concurs_singleton hid hpath hseen
            intro e he
            apply ih (Nat.le_of_lt_succ (Nat.lt_of_lt_of_le hid hdepth))
            · exact fun j hj => h.rank_lt ⟨e, he, mem_premises_of_mem_auditPremises hj⟩
            · intro q hq
              rcases List.mem_cons.mp hq with rfl | hq
              · exact Nat.le_refl _
              · exact Nat.le_trans (Nat.le_of_lt hid) (hpath q hq)
            · exact hseen.cons
          rw [auditFrom_cons]
          cases hrun : s.auditFrom (depth + 1) (decide (.closeScope ∈ above)) [id] visited with
          | error failure =>
              rw [hrun] at hsingle
              exact forM_cons_error hsingle
          | ok found =>
              rw [hrun] at hsingle
              obtain ⟨hverdict, hfound, hframe⟩ := hsingle
              rw [forM_cons_ok hverdict]
              exact (ihrest hrest hfound).of_frame hframe

/-- An audit that remembers what it has seen finds what checking everything again finds: the same
first failure, or none. -/
theorem audit_eq_replayOf (s : Session) (h : s.IsAcyclic) (p : Proposition) :
    s.audit p = s.replayOf h p := by
  rw [audit, replayOf]
  cases s.provenFact? p with
  | none => rfl
  | some f =>
      dsimp only
      have hconcurs : s.Concurs h (s.ledger.size + 1) [] [] ([f.id].forM (s.replay h []))
          (s.auditFrom (s.ledger.size + 1) false [f.id] []) := by
        apply auditFrom_concurs (Nat.le_refl _)
        · exact fun id _ => Nat.lt_succ_of_le (s.rank_le id)
        · exact fun q hq => absurd hq List.not_mem_nil
        · intro id live hlookup
          cases hlookup
      have hone : [f.id].forM (s.replay h []) = s.replay h [] f.id := bind_pure _
      rw [hone] at hconcurs
      cases hrun : s.auditFrom (s.ledger.size + 1) false [f.id] [] with
      | error failure =>
          rw [hrun] at hconcurs
          exact hconcurs.symm
      | ok found =>
          rw [hrun] at hconcurs
          exact hconcurs.1.symm

/-- Discharges an assumption in its scope, closes the scope with the same consequence, and joins the
two results. The consequence is a premise of the closing and of the discharge. -/
def dischargingTwice : List Call :=
  [.openScope "outer", .assumeIn ⟨0⟩ (.relation "P" []),
    .tactic (.disjoin (some (.relation "P" [] (some ⟨0⟩))) [some (.relation "Q" [])]),
    .tactic (.followedFrom (some (.junction .or [.relation "P" [], .relation "Q" []] (some ⟨1⟩)))
      [some (.relation "P" [] (some ⟨0⟩))]),
    .conclude ⟨0⟩ (some (.junction .or [.relation "P" [], .relation "Q" []] (some ⟨1⟩))),
    .close ⟨0⟩,
    .tactic (.conjoin [some (discharged ⟨3⟩), some (discharged ⟨2⟩)])]
where
  discharged (id : FactId) : Proposition :=
    .implies (.relation "P" []) (.junction .or [.relation "P" [], .relation "Q" []]) (some id)

/-- The consequence passes below the closing, and fails as a live premise of the discharge. -/
theorem audit_eq_replayOf_dischargingTwice :
    (run {} dischargingTwice).IsAcyclic ∧
      (run {} dischargingTwice).audit (dischargingTwice.discharged ⟨3⟩) = .ok () ∧
      (run {} dischargingTwice).replayOf (isAcyclic_run dischargingTwice)
        (.junction .and [dischargingTwice.discharged ⟨3⟩, dischargingTwice.discharged ⟨2⟩]
          (some ⟨4⟩)) =
        .error (.notProven (.junction .or [.relation "P" [], .relation "Q" []])) :=
  ⟨isAcyclic_run dischargingTwice, rfl,
    (audit_eq_replayOf (run {} dischargingTwice) (isAcyclic_run dischargingTwice) _).symm.trans
      rfl⟩

end Agreement

end Entailment.Session

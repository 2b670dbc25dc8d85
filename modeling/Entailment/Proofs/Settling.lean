import Entailment.Proofs.Knowledge
import Entailment.Proofs.Traces

/-!
# What a speculation keeps

A speculation is settled by one sweep over what it derived, from the newest entry to the oldest.
`Needed` says what the sweep is after without any order: the entries that are reached from those to
be kept, from each entry to its premises. The two agree since premises are always older. So
whatever a body of postulates, tactics and further speculations derives, what remains of it is
needed, what it was derived from remains too, and both the innermost scope and the variables learn
of it in the order in which it was derived.
-/
namespace Entailment.Session

/-- Bodies of speculations: postulates, tactics and further speculations with any control flow
between them, which may look at the session and go on after a failure. -/
inductive Attempts : {α : Type} → Action α → Prop
  | pure {α : Type} (x : α) : Attempts (Pure.pure x : Action α)
  | throw {α : Type} (e : Failure) : Attempts (MonadExcept.throw e : Action α)
  | get : Attempts (MonadState.get : Action Session)
  | bind {α β : Type} {a : Action β} {k : β → Action α} :
      Attempts a → (∀ x, Attempts (k x)) → Attempts (a >>= k)
  | tryCatch {α : Type} {a : Action α} {handle : Failure → Action α} :
      Attempts a → (∀ e, Attempts (handle e)) → Attempts (MonadExcept.tryCatch a handle)
  | newVariable (name : String) : Attempts (newVariable name)
  | postulate (p : Proposition) : Attempts (postulate p)
  | tactic (t : Tactic) : Attempts t.perform
  | speculate {α : Type} {body : Action (α × List FactId)} :
      Attempts body → Attempts (speculate body)

/-- What is reached from entries to be kept, going from an entry to its premises. -/
inductive Needed (s : Session) (keep : List FactId) : FactId → Prop
  | kept {id : FactId} : id ∈ keep → Needed s keep id
  | premise {id j : FactId} {e : Entry} : Needed s keep id → s.entry? id = some e →
      j ∈ e.inference.premises → Needed s keep j

section Bodies
variable {s : Session}

theorem Derives.postulate (s : Session) (p : Proposition) :
    s.Derives p { rule := .postulate } [] := by
  have hplain : s.Derives p { rule := .postulate } (s.union (([] : List Fact).map Fact.id)) :=
    .plain .postulate (by simp) (by simp [Inference.premises])
  exact hplain

/-- A speculation inside another one is nothing but its body. -/
theorem Ensures.speculate_of_isSome {α : Type} {body : Action (α × List FactId)}
    {P : Session → Prop} (hs : s.speculation.isSome = true)
    (h : Ensures body s (fun _ t => P t) P) : Ensures (speculate body) s (fun _ t => P t) P := by
  obtain ⟨derived, hderived⟩ := Option.isSome_iff_exists.mp hs
  have hfrom : Ensures speculateFrom s (fun outermost t => outermost = false ∧ t = s) P := by
    have hrun : speculateFrom s = .ok false s := by simp [speculateFrom, modifyGet_run, hderived]
    simp [Ensures, hrun]
  unfold speculate
  apply hfrom.bind
  rintro outermost t ⟨rfl, rfl⟩
  apply h.bind
  rintro ⟨x, keep⟩ t ht
  exact .pure ht

/-- While a session speculates, a body adds justified statements one after another, and does so
also where it fails. -/
theorem Attempts.extends {α : Type} {a : Action α} (h : Attempts a)
    (hs : s.speculation.isSome = true) :
    Ensures a s (fun _ t => Extends (fun _ => True) s t) (Extends (fun _ => True) s) := by
  induction h generalizing s with
  | pure x => exact .pure .refl
  | throw e => exact .throw .refl
  | get => exact Extends.refl
  | bind _ _ iha ihk =>
      apply (iha hs).bind
      intro x t hst
      have hrest := ihk x (hst.unrecorded hs).2.2.2
      exact hrest.mono (fun _ _ htu => hst.trans htu) fun _ htu => hst.trans htu
  | tryCatch _ _ iha ihhandle =>
      apply (iha hs).tryCatch
      intro e t hst
      have hrest := ihhandle e (hst.unrecorded hs).2.2.2
      exact hrest.mono (fun _ _ htu => hst.trans htu) fun _ htu => hst.trans htu
  | newVariable name => exact Extends.aside _ _ _ .refl
  | postulate p => exact .certify (.certify .refl (.postulate s p) trivial)
  | tactic t =>
      apply Ensures.of_after
      rw [t.after_perform]
      exact (t.apply_extends s).mono fun _ _ => trivial
  | speculate _ ih => exact .speculate_of_isSome hs (ih hs)

/-- What is entered is proven then and there, by premises that hold. -/
theorem Extends.justified {R : Rule → Prop} {t : Session} (h : Extends R s t) {id : FactId}
    {e : Entry} (he : t.entry? id = some e) (hnew : s.ledger.size ≤ id.index) :
    e.proven = true ∧ e.assumed = false ∧ ∀ j ∈ e.inference.premises, t.holds j = true := by
  induction h with
  | refl => exact absurd (entry?_lt he) (Nat.not_lt.mpr hnew)
  | aside _ _ _ _ ih => exact ih he
  | @certify t p i d _ hd _ ih =>
      have hholds : ∀ j, t.holds j = true → (t.certified p i d).holds j = true := fun j hj =>
        holds_of_push (certified_ledger t p i d) hj
      rw [entry?_certified] at he
      split at he
      next =>
        obtain rfl := Option.some.inj he
        exact ⟨rfl, rfl, fun j hj => hholds j (hd.holds j hj)⟩
      next =>
        obtain ⟨hproven, hassumed, hpremises⟩ := ih he
        exact ⟨hproven, hassumed, fun j hj => hholds j (hpremises j hj)⟩

end Bodies

section Sweep
variable {s : Session} {keep derived : List FactId} {id : FactId}

/-- Wanting the premises of what is wanted already asks for nothing new. -/
theorem Needed.of_premises (hid : id ∈ keep) {j : FactId}
    (h : s.Needed (((s.entry? id).map (·.inference.premises)).getD [] ++ keep) j) :
    s.Needed keep j := by
  induction h with
  | kept hmem =>
      rcases List.mem_append.mp hmem with hpremise | hkept
      · cases he : s.entry? id with
        | none => simp [he] at hpremise
        | some e =>
            rw [he, Option.map_some, Option.getD_some] at hpremise
            exact .premise (.kept hid) he hpremise
      · exact .kept hkept
  | premise _ he hj ih => exact .premise ih he hj

theorem needed_of_mem_supporting (h : id ∈ s.supporting keep derived) : s.Needed keep id := by
  induction derived generalizing keep with
  | nil => cases h
  | cons first derived ih =>
      rw [supporting] at h
      split at h
      next hwanted =>
        rcases List.mem_cons.mp h with rfl | h
        · exact .kept hwanted
        · exact .of_premises hwanted (ih h)
      next => exact ih h

/-- One sweep from new to old finds all that is needed, if the sweep begins with the newest entry
and misses none that comes after `base`. -/
theorem mem_supporting_iff {base : Nat} (htraced : s.Traced)
    (hids : ∀ id, id ∈ derived ↔ base ≤ id.index ∧ id.index < s.ledger.size)
    (hnewest : derived.Pairwise fun newer older => older.index < newer.index)
    (hid : id ∈ derived) : id ∈ s.supporting keep derived ↔ s.Needed keep id := by
  refine ⟨needed_of_mem_supporting, fun hneeded => ?_⟩
  induction hneeded with
  | kept hkept => exact mem_supporting hid hkept
  | @premise id j e _ he hj ih =>
      -- what has a derived premise is newer than that, so it was derived too
      have hlt : j.index < id.index := (htraced.recorded id e he).older j hj
      have hderived : id ∈ derived :=
        (hids id).mpr ⟨Nat.le_trans ((hids j).mp hid).1 (Nat.le_of_lt hlt), entry?_lt he⟩
      exact mem_supporting_of_premise hnewest (ih hderived) he hj hlt hid

end Sweep

theorem run_speculate {α : Type} {s u : Session} {body : Action (α × List FactId)} {x : α}
    {keep : List FactId} (hquiet : s.speculation = none)
    (hbody : body { s with speculation := some [] } = .ok (x, keep) u) :
    speculate body s = .ok x (u.settled keep) := by
  have hfrom : speculateFrom s = .ok true { s with speculation := some [] } := by
    simp [speculateFrom, modifyGet_run, hquiet]
  unfold speculate
  change EStateM.bind speculateFrom _ s = _
  rw [EStateM.bind, hfrom]
  change EStateM.bind body _ _ = _
  rw [EStateM.bind, hbody]
  rfl

theorem eq_ok_of_run' {α : Type} {a : Action α} {s : Session} {x : α} (h : a.run' s = some x) :
    a s = .ok x (after a s) := by
  delta EStateM.run' EStateM.run at h
  unfold after
  cases hrun : a s with
  | ok y t =>
      simp only [hrun, Option.some.injEq] at h
      rw [h]
  | error e t => simp [hrun] at h

section Outcome
variable {R : Rule → Prop} {s u : Session} {keep derived : List FactId}

/-- Of what was derived, what is needed is proven in the end and the rest is not. -/
theorem holds_settled_iff (hu : Extends R { s with speculation := some [] } u)
    (hderived : u.speculation = some derived) {id : FactId} (hnew : s.ledger.size ≤ id.index)
    (hlt : id.index < u.ledger.size) (hid : id ∈ derived) :
    (u.settled keep).holds id = true ↔ id ∈ u.supporting keep derived := by
  obtain ⟨e, he⟩ := entry?_of_lt hlt
  obtain ⟨hproven, hassumed, -⟩ := hu.justified he hnew
  rw [Session.holds, entry?_settled keep hderived, he]
  by_cases hneeded : id ∈ u.supporting keep derived
  · simp [hneeded, Entry.holds, hproven]
  · simp [hneeded, hid, Entry.holds, hassumed]

theorem entry?_settled_of_lt (hu : Extends R { s with speculation := some [] } u)
    (hderived : u.speculation = some derived)
    (hids : ∀ id, id ∈ derived ↔ s.ledger.size ≤ id.index ∧ id.index < u.ledger.size)
    {id : FactId} (hlt : id.index < s.ledger.size) :
    Session.entry? (u.settled keep) id = s.entry? id := by
  obtain ⟨e, he⟩ := entry?_of_lt hlt
  have hold : id ∉ derived := fun hmem => Nat.not_le.mpr hlt ((hids id).mp hmem).1
  have hsame : u.entry? id = some e := hu.entry_eq he
  rw [entry?_settled keep hderived, hsame, he]
  simp [hold]

/-- What is kept stands on what holds. -/
theorem holds_premise_of_kept (hu : Extends R { s with speculation := some [] } u)
    (htraced : u.Traced) (hderived : u.speculation = some derived)
    (hids : ∀ id, id ∈ derived ↔ s.ledger.size ≤ id.index ∧ id.index < u.ledger.size)
    (hnewest : derived.Pairwise fun newer older => older.index < newer.index) {id j : FactId}
    {e : Entry} (hid : id ∈ u.supporting keep derived) (he : u.entry? id = some e)
    (hj : j ∈ e.inference.premises) : (u.settled keep).holds j = true := by
  have hnew : s.ledger.size ≤ id.index := ((hids id).mp (mem_of_mem_supporting hid)).1
  have hlt : j.index < id.index := (htraced.recorded id e he).older j hj
  refine holds_settled hderived ((hu.justified he hnew).2.2 j hj) fun hmem => ?_
  exact mem_supporting_of_premise hnewest hid he hj hlt hmem

end Outcome

/-- Speculating keeps exactly what the result needs. Of what the body derived, an entry holds in the
end if and only if it is needed by what the body asked to keep. The innermost scope, and the
variables of the relations among them, get to know what is kept in the order in which it was
derived. Whatever a kept entry was derived from holds, and all older entries are as they were. -/
theorem speculate_exact {α : Type} (calls : List Call) {body : Action (α × List FactId)}
    (hattempts : Attempts body) {x : α} {keep : List FactId} {u : Session}
    (hquiet : (run {} calls).speculation = none)
    (hbody : body { run {} calls with speculation := some [] } = .ok (x, keep) u) :
    ∃ t, speculate body (run {} calls) = .ok x t ∧ t.speculation = none ∧ SameContents u t ∧
      (∀ id : FactId, (run {} calls).ledger.size ≤ id.index → id.index < t.ledger.size →
        (t.holds id = true ↔ u.Needed keep id)) ∧
      (∀ id : FactId, id.index < (run {} calls).ledger.size →
        t.entry? id = Session.entry? (run {} calls) id) ∧
      ∃ kept : List FactId, kept.Pairwise (·.index < ·.index) ∧
        (∀ id, id ∈ kept ↔
          (run {} calls).ledger.size ≤ id.index ∧ id.index < t.ledger.size ∧ t.holds id = true) ∧
        (∀ id ∈ kept, ∀ e, t.entry? id = some e →
          ∀ j ∈ e.inference.premises, t.holds j = true) ∧
        t.stack = (run {} calls).stack ∧
        (∀ c, t.scope? c = ((run {} calls).scope? c).map fun scope =>
          if (run {} calls).stack.head? = some c then
            { scope with proven := scope.proven ++ kept }
          else scope) ∧
        ∀ v, t.known v = (run {} calls).known v ++
          kept.filter fun id => (t.entry? id).any (·.statement.isAbout v) := by
  generalize hs : run {} calls = s at *
  have htraced : Session.Traced { s with speculation := some [] } := by
    have hcall : Call.apply s .speculateFrom = { s with speculation := some [] } := by
      simp [Call.apply, after, speculateFrom, modifyGet_run, hquiet]
    rw [← hcall, ← hs]
    exact (Traced.initial.run calls).call .speculateFrom
  have hextends : Extends (fun _ => True) { s with speculation := some [] } u :=
    (hattempts.extends rfl).answer hbody
  have hutraced : u.Traced := htraced.extended hextends
  obtain ⟨derived, hderived, hids, hnewest⟩ := hextends.derived
  obtain ⟨hscopes, hstack, hknowledge, -⟩ := hextends.unrecorded rfl
  have hcontents : SameContents u (u.settled keep) := settled_sameContents u keep
  have hsize : (u.settled keep).ledger.size = u.ledger.size := hcontents.size_eq
  have hkept : ∀ id, id ∈ u.keptBy keep derived ↔ s.ledger.size ≤ id.index ∧
      id.index < (u.settled keep).ledger.size ∧ (u.settled keep).holds id = true := by
    intro id
    rw [mem_keptBy, hids, hsize, and_assoc]
    refine and_congr_right fun hnew => and_congr_right fun hlt => ?_
    obtain ⟨e, he⟩ := entry?_of_lt hlt
    rw [holds_settled_iff hextends hderived hnew hlt ((hids id).mpr ⟨hnew, hlt⟩), he]
    simp
  refine ⟨u.settled keep, run_speculate hquiet hbody, settled_speculation u keep, hcontents, ?_,
    ?_, u.keptBy keep derived, ?_, hkept, ?_, ?_, ?_, ?_⟩
  · intro id hnew hlt
    rw [hsize] at hlt
    have hid : id ∈ derived := (hids id).mpr ⟨hnew, hlt⟩
    rw [holds_settled_iff hextends hderived hnew hlt hid,
      mem_supporting_iff hutraced hids hnewest hid]
  · intro id hlt
    exact entry?_settled_of_lt hextends hderived hids hlt
  · exact (List.pairwise_reverse.mpr hnewest).filter _
  · intro id hid e' he' j hj
    obtain ⟨e, he, hcontent⟩ := hcontents.symm.entry he'
    have hinference : e'.inference = e.inference := by
      have hsame : e.content.2.1 = e'.content.2.1 := by rw [hcontent]
      exact hsame.symm
    rw [hinference] at hj
    exact holds_premise_of_kept hextends hutraced hderived hids hnewest (mem_keptBy.mp hid).2.1
      he hj
  · rw [settled_stack, hstack]
  · intro c
    rw [scope?_settled keep hderived, hstack, scope?, hscopes, scope?]
  · intro v
    rw [known_settled keep hderived, known, hknowledge, known]
    congr 1
    apply List.filter_congr
    intro id _
    rw [entry?_settled keep hderived]
    cases u.entry? id with
    | none => rfl
    | some e =>
        simp only [Option.map_some, Option.any_some]
        split <;> rfl

section Example

/-- An atomic proposition about `x`. -/
def weakened (name : String) : Proposition := .relation name [.var ⟨1, "x"⟩]

/-- A scope is open in which `P(x)` is given. -/
def weakeningRun : List Call :=
  [.newVariable "x", .openScope "case", .assumeIn ⟨0⟩ (weakened "P")]

/-- Postulates `R(x)` and `S(x)`, weakens `P(x)` to `P(x) ∨ Q(x)`, fails once, and conjoins the
disjunction with `P(x)` in a speculation of its own. Asks for `S(x)` and the conjunction. -/
def weakeningBody : Action (Unit × List FactId) := do
  let given : Fact := ⟨⟨0⟩, weakened "P"⟩
  let _ ← postulate (weakened "R")
  let wanted ← postulate (weakened "S")
  let weaker ← (Tactic.disjoin (some given.proposition) [some (weakened "Q")]).perform
  let _ ← MonadExcept.tryCatch (Tactic.modusPonens none none).perform fun _ => pure []
  let both ← speculate do
    let both ← (Tactic.conjoin
      (weaker.map (some ·.proposition) ++ [some given.proposition])).perform
    return (both, [])
  return ((), wanted.id :: both.map Fact.id)

/-- The disjunction, on which the conjunction rests, stays proven. What was postulated in vain does
not. -/
theorem speculate_exact_weakening :
    let s := run {} weakeningRun
    let u := after weakeningBody { s with speculation := some [] }
    Attempts weakeningBody ∧ s.speculation = none ∧
      weakeningBody { s with speculation := some [] } = .ok ((), [⟨2⟩, ⟨4⟩]) u ∧
      u.Needed [⟨2⟩, ⟨4⟩] ⟨3⟩ ∧ ¬u.Needed [⟨2⟩, ⟨4⟩] ⟨1⟩ ∧
      ∃ t, speculate weakeningBody s = .ok () t ∧ t.known ⟨1, "x"⟩ = [⟨0⟩, ⟨2⟩] := by
  intro s u
  have hattempts : Attempts weakeningBody :=
    .bind (.postulate _) fun _ => .bind (.postulate _) fun _ => .bind (.tactic _) fun _ =>
      .bind (.tryCatch (.tactic _) fun _ => .pure _) fun _ =>
      .bind (.speculate (.bind (.tactic _) fun _ => .pure _)) fun _ => .pure _
  have hanswer : weakeningBody.run' { run {} weakeningRun with speculation := some [] } =
      some ((), [⟨2⟩, ⟨4⟩]) := by decide +kernel
  have hbody : weakeningBody { s with speculation := some [] } = .ok ((), [⟨2⟩, ⟨4⟩]) u :=
    eq_ok_of_run' hanswer
  obtain ⟨t, hrun, -, hcontents, hholds, -⟩ :=
    speculate_exact weakeningRun hattempts rfl hbody
  have hsize : t.ledger.size = 5 := by
    rw [hcontents.size_eq]
    decide +kernel
  have ht : t = after (speculate weakeningBody) (run {} weakeningRun) := by
    rw [after, hrun]
  have hneeded : u.Needed [⟨2⟩, ⟨4⟩] ⟨3⟩ := by
    refine (hholds ⟨3⟩ (by decide) (hsize ▸ (by decide))).mp ?_
    rw [ht]
    decide +kernel
  have hvain : ¬u.Needed [⟨2⟩, ⟨4⟩] ⟨1⟩ := by
    rw [← hholds ⟨1⟩ (by decide) (hsize ▸ (by decide)), ht]
    decide +kernel
  refine ⟨hattempts, rfl, hbody, hneeded, hvain, t, hrun, ?_⟩
  rw [ht]
  decide +kernel

end Example

end Entailment.Session

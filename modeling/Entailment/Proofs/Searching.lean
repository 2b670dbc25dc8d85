import Entailment.Proofs.Advancing

/-!
# What a speculation leaves

In a speculation, whatever is tried only adds to the ledger (`Explores`), so facts stay proven while
it goes on, and settling the speculation withdraws nothing that was there before. What it is asked
to keep counts as proven in the end.
-/
namespace Entailment.Session

section Outcomes
variable {α β : Type} {s : Session}

theorem Ensures.of_after {a : Action α} {P : Session → Prop} (h : P (after a s)) :
    Ensures a s (fun _ t => P t) P := by
  unfold after at h
  unfold Ensures
  split <;> simp_all only

theorem Ensures.and {a : Action α} {ok ok' : α → Session → Prop} {failed failed' : Session → Prop}
    (h : Ensures a s ok failed) (h' : Ensures a s ok' failed') :
    Ensures a s (fun x t => ok x t ∧ ok' x t) fun t => failed t ∧ failed' t := by
  unfold Ensures at h h' ⊢
  split <;> simp_all only [and_self]

/-- A deduction by tactics alone, and what holds of its answer. -/
def Explores (a : Action α) (s : Session) (P : α → Session → Prop) : Prop :=
  Ensures a s (fun x t => Deduces (fun _ => True) s t ∧ P x t) (Deduces (fun _ => True) s)

theorem Explores.pure {x : α} {P : α → Session → Prop} (h : P x s) :
    Explores (Pure.pure x) s P := ⟨.refl, h⟩

theorem Explores.throw {e : Failure} {P : α → Session → Prop} :
    Explores (MonadExcept.throw e) s P := Deduces.refl

theorem Explores.bind {a : Action β} {k : β → Action α} {P : β → Session → Prop}
    {Q : α → Session → Prop} (ha : Explores a s P)
    (hk : ∀ x t, Deduces (fun _ => True) s t → P x t → Explores (k x) t Q) :
    Explores (a >>= k) s Q := by
  apply Ensures.bind ha
  rintro x t ⟨hst, hx⟩
  refine Ensures.mono (hk x t hst hx) ?_ fun u htu => hst.trans htu
  rintro y u ⟨htu, hy⟩
  exact ⟨hst.trans htu, hy⟩

/-- What is tried may fail, and the search goes on from there. -/
theorem Explores.tryCatch {a : Action α} {x : α} {P : α → Session → Prop} (ha : Explores a s P)
    (hx : ∀ t, Deduces (fun _ => True) s t → P x t) :
    Explores (MonadExcept.tryCatch a fun _ => Pure.pure x) s P := by
  refine Ensures.tryCatch ha ?_
  intro _ t hst
  exact ⟨hst, hx t hst⟩

end Outcomes

section Tactics
variable {s : Session} {r : Rule}

/-- The deduction is a tactic with a single conclusion. -/
def Enters (r : Rule) (a : Action Fact) : Prop :=
  ∀ s, Yields r a s ∧ ∃ t : Tactic, t.rule = r ∧ after a s = t.apply s

theorem Yields.proves {a : Action Fact} (h : Yields r a s) :
    Ensures a s (fun f t => t.Proves f) fun _ => True := by
  refine Ensures.mono h ?_ fun _ _ => trivial
  rintro f t ⟨u, p, i, d, -, -, -, rfl, rfl⟩
  exact proves_nextFact u p i d

theorem Enters.ensures {a : Action Fact} (h : Enters r a) (s : Session) :
    Ensures a s (fun f t => Deduces (· = r) s t ∧ t.Proves f) (Deduces (· = r) s) := by
  obtain ⟨hyields, t, hrule, happly⟩ := h s
  have hafter : Deduces (· = r) s (after a s) := happly ▸ .tactic t .refl hrule
  exact ((Ensures.of_after hafter).and hyields.proves).mono (fun _ _ h => h) fun _ h => h.1

/-- All conjuncts that a conjunction is split into count as proven. -/
theorem split_proves (p : Option Proposition) (s : Session) :
    Ensures (split p) s (fun fs t => ∀ f ∈ fs, t.Proves f) fun _ => True := by
  unfold split
  apply (requireConjuncts_reads s p).ensures_bind trivial
  rintro ⟨p, members⟩ ⟨hp, m, hstatement⟩
  have hloop : ∀ (rest : List Proposition) (t : Session), (∀ q ∈ rest, q ∈ members) →
      t.Proves p → Ensures (rest.mapM (conjunct p)) t
        (fun fs u => Extends (· = .conjunctionElim) t u ∧ ∀ f ∈ fs, u.Proves f) fun _ => True := by
    intro rest
    induction rest with
    | nil => exact fun t _ _ => ⟨.refl, by simp⟩
    | cons q rest ih =>
        intro t hrest hpt
        rw [List.mapM_cons]
        have hfirst := conjunct_yields t hpt hstatement (hrest q List.mem_cons_self)
        apply ((Ensures.of_after hfirst.left).and hfirst.proves).mono (fun _ _ h => h)
          (fun _ _ => trivial) |>.bind
        rintro f u ⟨htu, hf⟩
        apply (ih u (fun q hq => hrest q (List.mem_cons_of_mem _ hq)) (htu.proves hpt)).bind
        rintro fs v ⟨huv, hfs⟩
        refine .pure ⟨htu.trans huv, fun g hg => ?_⟩
        rcases List.mem_cons.mp hg with rfl | hg
        · exact huv.proves hf
        · exact hfs g hg
  exact (hloop members s (fun _ hq => hq) hp).mono (fun _ _ h => h.2) fun _ h => h

theorem split_ensures (p : Option Proposition) (s : Session) :
    Ensures (split p) s
      (fun fs t => Deduces (· = .conjunctionElim) s t ∧ ∀ f ∈ fs, t.Proves f)
      (Deduces (· = .conjunctionElim) s) := by
  have hafter : Deduces (· = .conjunctionElim) s (after (split p) s) := .tactic (.split p) .refl rfl
  exact ((Ensures.of_after hafter).and (split_proves p s)).mono (fun _ _ h => h) fun _ h => h.1

end Tactics

section Speculation
variable {s : Session}

theorem logOf_settled (s : Session) (keep : List FactId) (c : ScopeId) :
    (s.settled keep).logOf c = s.logOf c := by
  cases hspeculation : s.speculation with
  | none => rw [settled_of_none keep hspeculation]
  | some derived =>
      rw [logOf, logOf, scope?_settled keep hspeculation]
      cases s.scope? c with
      | none => rfl
      | some scope =>
          simp only [Option.map_some, Option.getD_some]
          split
          next => rfl
          next => rfl

theorem Proves.settled {derived keep : List FactId} {f : Fact} (h : s.Proves f)
    (hspeculation : s.speculation = some derived) (hneeded : f.id ∈ derived → f.id ∈ keep) :
    (s.settled keep).Proves f := by
  have hlists := (settled_sameContents s keep).lists h.lists
  refine proves_of_holds hlists (holds_settled hspeculation h.holds fun hmem => ?_)
  exact mem_supporting hmem (hneeded hmem)

/-- A speculation that started from `s` has got to `u`. -/
def Speculates (s u : Session) : Prop :=
  Deduces (fun _ => True) { s with speculation := some [] } u

/-- A speculation that only deduced something has been settled. -/
def Settles (s t : Session) : Prop := ∃ u keep, Speculates s u ∧ t = u.settled keep

/-- What a speculation has derived so far are the new entries, listed from the newest to the oldest.
-/
theorem Extends.derived {R : Rule → Prop} {u : Session}
    (h : Extends R { s with speculation := some [] } u) :
    ∃ derived, u.speculation = some derived ∧
      (∀ id, id ∈ derived ↔ s.ledger.size ≤ id.index ∧ id.index < u.ledger.size) ∧
      derived.Pairwise fun newer older => older.index < newer.index := by
  induction h with
  | refl => exact ⟨[], rfl, by simp, .nil⟩
  | aside _ _ _ _ ih => exact ih
  | @certify t p i d hst _ _ ih =>
      obtain ⟨derived, hderived, hids, hnewest⟩ := ih
      have hsize : s.ledger.size ≤ t.ledger.size := hst.entry.1
      refine ⟨⟨t.ledger.size⟩ :: derived, ?_, ?_, ?_⟩
      · rw [certified_speculation, hderived, Option.map_some]
      · intro id
        have hid : id = ⟨t.ledger.size⟩ ↔ id.index = t.ledger.size := by cases id; simp
        rw [certified_ledger, Array.size_push, List.mem_cons, hids, hid]
        omega
      · exact List.pairwise_cons.mpr ⟨fun id hid => ((hids id).mp hid).2, hnewest⟩

theorem Speculates.derived {u : Session} (h : Speculates s u) :
    ∃ derived, u.speculation = some derived ∧
      (∀ id, id ∈ derived ↔ s.ledger.size ≤ id.index ∧ id.index < u.ledger.size) ∧
      derived.Pairwise fun newer older => older.index < newer.index := h.extends.derived

/-- While speculating, nothing is put on record. -/
theorem Extends.unrecorded {R : Rule → Prop} {u : Session} (h : Extends R s u)
    (hs : s.speculation.isSome = true) :
    u.scopes = s.scopes ∧ u.stack = s.stack ∧ u.knowledge = s.knowledge ∧
      u.speculation.isSome = true := by
  induction h with
  | refl => exact ⟨rfl, rfl, rfl, hs⟩
  | aside _ _ _ _ ih => exact ih
  | @certify t p i d _ _ _ ih =>
      obtain ⟨derived, hderived⟩ := Option.isSome_iff_exists.mp ih.2.2.2
      rw [certified_eq_noted t p i d hderived]
      exact ⟨ih.1, ih.2.1, ih.2.2.1, rfl⟩

theorem Speculates.frame {u : Session} (h : Speculates s u) :
    u.scopes = s.scopes ∧ u.stack = s.stack ∧ u.knowledge = s.knowledge ∧
      u.speculation.isSome = true := h.extends.unrecorded rfl

theorem Coherent.speculating (h : s.Coherent) :
    Session.Traced { s with speculation := some [] } ∧
      Session.Accounted { s with speculation := some [] } := by
  have hcall : Call.apply s .speculateFrom = { s with speculation := some [] } := by
    simp [Call.apply, after, speculateFrom, modifyGet_run, h.quiet]
  constructor
  · rw [← hcall]
    exact h.traced.call .speculateFrom
  · exact h.accounted.speculating h.quiet

/-- A speculation that is settled is completed work. -/
theorem Settles.proceeds {t : Session} (h : Settles s t) (hs : s.Coherent) : Proceeds s t := by
  obtain ⟨u, keep, hu, rfl⟩ := h
  have hextends := hu.extends
  obtain ⟨derived, hderived, hnew⟩ := hextends.speculation.2 [] rfl
  rw [List.append_nil] at hderived
  have hcoherent : (u.settled keep).Coherent :=
    ⟨(hs.speculating.1.extended hextends).settled keep,
      (hs.speculating.2.extended hextends).settled keep, settled_speculation u keep⟩
  refine ⟨hcoherent, ?_, ?_, ?_, ?_⟩
  · rw [settled_stack, hextends.frame.1]
  · intro id e he
    obtain ⟨e', he', hcontent⟩ := hextends.contents id e he
    obtain ⟨e'', he'', hcontent'⟩ := (settled_sameContents u keep).entry he'
    exact ⟨e'', he'', hcontent'.trans hcontent⟩
  · intro f hf
    have hlt : f.id.index < s.ledger.size := hf.lists.index_lt
    refine (hextends.proves (f := f) hf).settled hderived fun hmem => ?_
    exact absurd (hnew f.id hmem) (Nat.not_le.mpr hlt)
  · intro c a ha
    have hlog : (u.settled keep).logOf c = u.logOf c := logOf_settled u keep c
    rw [assumptionsOf_congr hlog, hextends.frame.2] at ha
    exact .inl ha

theorem Settles.advances {t : Session} (h : Settles s t) (hs : s.Auditable)
    (hquiet : s.speculation = none) : Advances s t := by
  have hproceeds := h.proceeds (.of_auditable hs hquiet)
  have hsteady : ∀ (u : Session) (call : Call), (∀ c, ¬call.Retracts u c) → call.Careful u :=
    fun _ _ => Call.careful_of_not_retracts
  have hspeculating : Session.Auditable { s with speculation := some [] } := by
    have hcall : Call.apply s .speculateFrom = { s with speculation := some [] } := by
      simp [Call.apply, after, speculateFrom, modifyGet_run, hquiet]
    rw [← hcall]
    exact hs.call (hsteady _ _ fun c hc => by rcases hc with ⟨hc, -⟩ | hc <;> cases hc)
  obtain ⟨u, keep, hu, rfl⟩ := h
  have hsettle : Call.Careful u (.settle keep) :=
    hsteady _ _ fun c hc => by rcases hc with ⟨hc, -⟩ | hc <;> cases hc
  have hsettled : (u.settled keep).Auditable := (hu.auditable hspeculating).call hsettle
  exact hproceeds.advances hsettled

/-- Exploring speculatively comes to a settled speculation. -/
theorem speculate_settles {α : Type} {body : Action (α × List FactId)}
    {P : α × List FactId → Session → Prop} (hquiet : s.speculation = none)
    (hbody : Explores body { s with speculation := some [] } P) :
    Ensures (speculate body) s
      (fun x t => ∃ u keep, Speculates s u ∧ P (x, keep) u ∧ t = u.settled keep)
      fun _ => True := by
  have hspeculate : speculateFrom s = .ok true { s with speculation := some [] } := by
    simp [speculateFrom, modifyGet_run, hquiet]
  have houtermost : Ensures speculateFrom s
      (fun outermost t => outermost = true ∧ t = { s with speculation := some [] })
      fun _ => True := by
    unfold Ensures
    rw [hspeculate]
    exact ⟨rfl, rfl⟩
  unfold speculate
  apply houtermost.bind
  intro outermost t ht
  rw [ht.1, ht.2]
  apply (Ensures.mono hbody (fun _ _ h => h) fun _ _ => trivial).bind
  intro x u hu
  have hsettle : Ensures (settle x.2) u (fun _ v => v = u.settled x.2) fun _ => True :=
    .modify rfl
  dsimp only
  rw [if_pos rfl]
  apply hsettle.bind
  intro _ v hv
  exact .pure ⟨u, x.2, hu.1, hu.2, hv⟩

end Speculation

end Entailment.Session

import Entailment.Proofs.Eigenvariables

/-!
# Recorded dependencies are those of the derivation

Every entry carries the assumptions it depends on, computed when it was entered from what its
premises carried then. `TracesTo` finds assumptions without these records, by following the
justifications alone: an assumption leads to itself, and an inference passes on what its premises
lead to, except for what it discharges. After every run the two agree, although each tactic lists
the premises of its inference and the premises it takes dependencies from in two different places.

`Recorded` is the agreement at a single entry. It speaks about older entries, and about scopes that
are closed already, so nothing that happens later can undo it.
-/
namespace Entailment

/-- The premises whose assumptions an inference takes over. -/
def Inference.carriers (i : Inference FactId) : List FactId :=
  match i.rule with
  | .assumption | .postulate | .assumptionsCannotAllHold => []
  | .followedFrom | .closeScope => i.first.toList
  | _ => i.premises

theorem Inference.mem_premises_of_mem_carriers {i : Inference FactId} {j : FactId}
    (h : j ∈ i.carriers) : j ∈ i.premises := by
  unfold carriers at h
  split at h
  all_goals first
    | exact List.mem_append_left _ h
    | exact h
    | cases h

/-- The rules that take over the assumptions of all their premises. -/
def Rule.isPlain : Rule → Bool
  | .assumption | .followedFrom | .assumptionsCannotAllHold | .closeScope => false
  | _ => true

theorem Inference.carriers_of_isPlain {i : Inference FactId} (h : i.rule.isPlain = true)
    (hpostulate : i.rule = .postulate → i.premises = []) : i.carriers = i.premises := by
  unfold carriers
  split
  next hrule => rw [hrule] at h; cases h
  next hrule => exact (hpostulate hrule).symm
  next hrule => rw [hrule] at h; cases h
  next hrule => rw [hrule] at h; cases h
  next hrule => rw [hrule] at h; cases h
  next => rfl

theorem Concludes.isPlain {r : Rule} {ps : List Proposition} {p : Proposition}
    (h : Concludes r ps p) : r.isPlain = true := by
  cases h with
  | resolve hrule _ _ => rcases hrule with rfl | rfl <;> rfl
  | _ => rfl

theorem Concludes.eq_nil_of_postulate {ps : List Proposition} {p : Proposition}
    (h : Concludes .postulate ps p) : ps = [] := by
  cases h with
  | postulate => rfl
  | resolve hrule _ _ => rcases hrule with h | h <;> cases h

namespace Session

/-- The assumptions made in a scope. -/
def assumptionsOf (s : Session) (c : ScopeId) : List FactId :=
  (((s.scope? c).map Scope.assumptions).getD []).map Fact.id

/-- The assumptions that an inference discharges: those it names, or those of the scopes it
closes. -/
def discharged (s : Session) (i : Inference FactId) : List FactId :=
  match i.rule with
  | .followedFrom => i.others.filterMap Argument.premise?
  | .closeScope => i.closed.flatMap s.assumptionsOf
  | _ => []

theorem discharged_of_isPlain (s : Session) {i : Inference FactId} (h : i.rule.isPlain = true) :
    s.discharged i = [] := by
  unfold discharged
  split
  next hrule => rw [hrule] at h; cases h
  next hrule => rw [hrule] at h; cases h
  next => rfl

/-- An entry leads back to an assumption, by the justifications alone. -/
inductive TracesTo (s : Session) (a : FactId) : FactId → Prop
  | itself {e : Entry} : s.entry? a = some e → e.inference.rule = .assumption → TracesTo s a a
  | through {id j : FactId} {e : Entry} : s.entry? id = some e → j ∈ e.inference.carriers →
      a ∉ s.discharged e.inference → TracesTo s a j → TracesTo s a id

/-- The scope is there, and is closed. -/
def isClosed (s : Session) (c : ScopeId) : Bool := (s.scope? c).any Scope.closed

/-- What an entry says about its dependencies agrees with its justification. -/
structure Recorded (s : Session) (id : FactId) (e : Entry) : Prop where
  older : ∀ j ∈ e.inference.premises, j.index < id.index
  nodup : e.dependencies.Nodup
  exact : ∀ a, a ∈ e.dependencies ↔ (e.inference.rule = .assumption ∧ a = id) ∨
    (a ∉ s.discharged e.inference ∧ ∃ j ∈ e.inference.carriers, a ∈ s.dependencies j)
  closed : e.inference.rule = .closeScope → ∀ c ∈ e.inference.closed, s.isClosed c = true
  leaf : e.inference.rule = .postulate ∨ e.inference.rule = .assumption →
    e.inference.premises = []

/-- All entries are recorded, and scopes mark for export only what the ledger has. -/
structure Traced (s : Session) : Prop where
  recorded : ∀ id e, s.entry? id = some e → s.Recorded id e
  concluded : ∀ c scope, s.scope? c = some scope → ∀ f ∈ scope.conclusions, s.Lists f

section Lookup
variable {s t : Session}

theorem entry?_of_lt {id : FactId} (h : id.index < s.ledger.size) : ∃ e, s.entry? id = some e :=
  ⟨_, Array.getElem?_eq_getElem h⟩

theorem isClosed_eq_true {c : ScopeId} :
    s.isClosed c = true ↔ ∃ scope, s.scope? c = some scope ∧ scope.closed = true := by
  rw [isClosed, Option.any_eq_true]

theorem assumptionsOf_of_some {c : ScopeId} {scope : Scope} (h : s.scope? c = some scope) :
    s.assumptionsOf c = scope.assumptions.map Fact.id := by
  rw [assumptionsOf, h]
  rfl

theorem assumptionsOf_congr {c : ScopeId} (h : t.logOf c = s.logOf c) :
    t.assumptionsOf c = s.assumptionsOf c := by
  have hlog : ∀ u : Session, u.assumptionsOf c =
      (({ name := "", log := u.logOf c } : Scope).assumptions).map Fact.id := by
    intro u
    rw [assumptionsOf, logOf]
    cases u.scope? c with
    | none => rfl
    | some scope => rfl
  rw [hlog, hlog, h]

/-- Adding what is not there yet never repeats anything. -/
theorem nodup_union (ids : List FactId) : (s.union ids).Nodup := by
  have hadd : ∀ xs acc : List FactId, acc.Nodup →
      (xs.foldl (fun acc x => if x ∈ acc then acc else acc ++ [x]) acc).Nodup := by
    intro xs
    induction xs with
    | nil => exact fun _ h => h
    | cons x xs ih =>
        intro acc h
        rw [List.foldl_cons]
        apply ih
        split
        next => exact h
        next hx =>
          refine List.nodup_append.mpr ⟨h, by simp, fun y hy z hz heq => hx ?_⟩
          rw [← List.mem_singleton.mp hz, ← heq]
          exact hy
  have hall : ∀ ids acc : List FactId, acc.Nodup →
      (ids.foldl (fun acc id => (s.dependencies id).foldl
        (fun acc x => if x ∈ acc then acc else acc ++ [x]) acc) acc).Nodup := by
    intro ids
    induction ids with
    | nil => exact fun _ h => h
    | cons id ids ih => exact fun acc h => ih _ (hadd _ _ h)
  exact hall ids [] List.nodup_nil

end Lookup

/-- What `s` knows for good is the same in `t`: the contents of its entries, and the logs of its
closed scopes. -/
structure Retains (s t : Session) : Prop where
  entry : ∀ id e, s.entry? id = some e → ∃ e', t.entry? id = some e' ∧ e'.content = e.content
  scope : ∀ c, s.isClosed c = true → t.isClosed c = true ∧ t.logOf c = s.logOf c

section Retains
variable {s t : Session} {id : FactId} {e : Entry}

theorem Retains.of_eq (hledger : t.ledger = s.ledger) (hscopes : t.scopes = s.scopes) :
    Retains s t := by
  refine ⟨fun id e he => ⟨e, ?_, rfl⟩, fun c hc => ⟨?_, ?_⟩⟩
  · rw [Session.entry?, hledger]
    exact he
  · rw [isClosed, scope?, hscopes]
    exact hc
  · rw [logOf, scope?, hscopes, logOf, scope?]

theorem Retains.dependencies (h : Retains s t) (he : s.entry? id = some e) :
    t.dependencies id = s.dependencies id := by
  obtain ⟨e', he', hcontent⟩ := h.entry id e he
  have hsame : e'.dependencies = e.dependencies := congrArg (·.2.2) hcontent
  simp [Session.dependencies, he, he', hsame]

theorem Retains.discharged (h : Retains s t) {i : Inference FactId}
    (hclosed : i.rule = .closeScope → ∀ c ∈ i.closed, s.isClosed c = true) :
    t.discharged i = s.discharged i := by
  unfold Session.discharged
  split
  next => rfl
  next hrule =>
    apply List.flatMap_congr
    intro c hc
    exact assumptionsOf_congr (h.scope c (hclosed hrule c hc)).2
  next => rfl

theorem Recorded.retained {e' : Entry} (h : s.Recorded id e) (he : s.entry? id = some e)
    (ht : Retains s t) (hcontent : e'.content = e.content) : t.Recorded id e' := by
  obtain ⟨-, hinference, hdependencies⟩ : e'.statement = e.statement ∧
      e'.inference = e.inference ∧ e'.dependencies = e.dependencies := by
    simpa [Entry.content] using hcontent
  refine ⟨?_, ?_, fun a => ?_, ?_, ?_⟩
  · rw [hinference]
    exact h.older
  · rw [hdependencies]
    exact h.nodup
  · have hcarriers : ∀ j ∈ e.inference.carriers, t.dependencies j = s.dependencies j := by
      intro j hj
      have hlt : j.index < id.index := h.older j (Inference.mem_premises_of_mem_carriers hj)
      obtain ⟨entry, hentry⟩ := entry?_of_lt (Nat.lt_trans hlt (entry?_lt he))
      exact ht.dependencies hentry
    have hsame : (∃ j ∈ e.inference.carriers, a ∈ t.dependencies j) ↔
        ∃ j ∈ e.inference.carriers, a ∈ s.dependencies j := by
      constructor
      · rintro ⟨j, hj, ha⟩
        exact ⟨j, hj, hcarriers j hj ▸ ha⟩
      · rintro ⟨j, hj, ha⟩
        exact ⟨j, hj, (hcarriers j hj).symm ▸ ha⟩
    rw [hinference, hdependencies, ht.discharged h.closed, hsame]
    exact h.exact a
  · rw [hinference]
    exact fun hrule c hc => (ht.scope c (h.closed hrule c hc)).1
  · rw [hinference]
    exact h.leaf

theorem Retains.lists (h : Retains s t) {f : Fact} (hf : s.Lists f) : t.Lists f := by
  obtain ⟨e, he, hstatement⟩ := hf
  obtain ⟨e', he', hcontent⟩ := h.entry f.id e he
  exact ⟨e', he', (congrArg Prod.fst hcontent).trans hstatement⟩

/-- A session stays traced if every entry is an old one or recorded. -/
theorem Traced.grown (h : s.Traced) (ht : Retains s t)
    (hentry : ∀ id e, t.entry? id = some e → (s.entry? id).isSome ∨ t.Recorded id e)
    (hscope : ∀ c scope', t.scope? c = some scope' → ∀ f ∈ scope'.conclusions,
      t.Lists f ∨ ∃ scope, s.scope? c = some scope ∧ f ∈ scope.conclusions) : t.Traced := by
  constructor
  · intro id e he
    rcases hentry id e he with hold | hnew
    · obtain ⟨old, hold⟩ := Option.isSome_iff_exists.mp hold
      obtain ⟨e', he', hcontent⟩ := ht.entry id old hold
      obtain rfl : e = e' := Option.some.inj (he.symm.trans he')
      exact (h.recorded id old hold).retained hold ht hcontent
    · exact hnew
  · intro c scope' hscope' f hf
    rcases hscope c scope' hscope' f hf with hlists | ⟨scope, hold, hmem⟩
    · exact hlists
    · exact ht.lists (h.concluded c scope hold f hmem)

end Retains

section Operations
variable {s t : Session}

theorem Retains.push {new : Entry} (h : t.ledger = s.ledger.push new)
    (hscope : ∀ c, s.isClosed c = true → t.isClosed c = true ∧ t.logOf c = s.logOf c) :
    Retains s t :=
  ⟨fun _ e he => ⟨e, entry?_of_push_of_some h he, rfl⟩, hscope⟩

theorem retains_certified (s : Session) (p : Proposition) (i : Inference FactId)
    (d : List FactId) : Retains s (s.certified p i d) := by
  apply Retains.push (certified_ledger s p i d)
  intro c hc
  refine ⟨?_, logOf_certified s p i d c⟩
  obtain ⟨scope, hscope, hclosed⟩ := isClosed_eq_true.mp hc
  rw [isClosed, scope?_certified, hscope, Option.map_some, Option.any_some]
  split
  next => exact hclosed
  next => exact hclosed

theorem Traced.aside (h : s.Traced) (ht : s.Aside t) : t.Traced := by
  obtain ⟨_, _, _, rfl⟩ := ht
  exact h.grown (.of_eq rfl rfl) (fun id e he => .inl (Option.isSome_of_eq_some he))
    fun c scope hscope f hf => .inr ⟨scope, hscope, hf⟩

/-- A statement may be entered if it would be recorded in the session as it was before. -/
theorem Traced.certified {p : Proposition} {i : Inference FactId} {d : List FactId}
    (h : s.Traced) (hnew : s.Recorded (s.nextFact p).id ⟨p.strip, i, true, false, d⟩) :
    (s.certified p i d).Traced := by
  have hretains := retains_certified s p i d
  refine h.grown hretains (fun id e he => ?_) fun c scope' hscope' f hf => .inr ?_
  · rw [entry?_certified] at he
    split at he
    next hid =>
      cases he
      have hsame : id = (s.nextFact p).id := by
        cases id
        exact congrArg FactId.mk hid
      rw [hsame]
      refine .inr ⟨hnew.older, hnew.nodup, fun a => ?_, fun hrule c hc => ?_, hnew.leaf⟩
      · have hcarriers : ∀ j ∈ i.carriers,
            Session.dependencies (s.certified p i d) j = s.dependencies j := by
          intro j hj
          obtain ⟨e, he⟩ := entry?_of_lt
            (hnew.older j (Inference.mem_premises_of_mem_carriers hj))
          exact hretains.dependencies he
        have hexact := hnew.exact a
        rw [hretains.discharged hnew.closed]
        refine hexact.trans (or_congr_right (and_congr_right fun _ => ?_))
        exact exists_congr fun j => and_congr_right fun hj => by rw [hcarriers j hj]
      · exact (hretains.scope c (hnew.closed hrule c hc)).1
    next => exact .inl (Option.isSome_of_eq_some he)
  · rw [scope?_certified] at hscope'
    obtain ⟨scope, hscope, rfl⟩ := Option.map_eq_some_iff.mp hscope'
    refine ⟨scope, hscope, ?_⟩
    split at hf
    next => exact hf
    next => exact hf

theorem Lists.index_lt {f : Fact} (h : s.Lists f) : f.id.index < s.ledger.size := by
  obtain ⟨e, he, -⟩ := h
  exact entry?_lt he

/-- Whatever a tactic may enter takes over the assumptions of its premises, less those it
discharges. -/
theorem Derives.recorded {p : Proposition} {i : Inference FactId} {d : List FactId}
    (hd : s.Derives p i d) :
    s.Recorded (s.nextFact p).id ⟨p.strip, i, true, false, d⟩ := by
  cases hd with
  | @plain premises _ _ hconcludes hproves hpremises =>
      have hplain := hconcludes.isPlain
      have hrule : i.rule ≠ .assumption ∧ i.rule ≠ .closeScope := by
        constructor <;> intro heq <;> rw [heq] at hplain <;> cases hplain
      have hpostulate : i.rule = .postulate → i.premises = [] := by
        intro heq
        rw [heq] at hconcludes
        have hnone : premises = [] := List.map_eq_nil_iff.mp hconcludes.eq_nil_of_postulate
        exact List.eq_nil_iff_forall_not_mem.mpr fun j hj => by simp [hpremises, hnone] at hj
      refine ⟨fun j hj => ?_, nodup_union _, fun a => ?_, fun heq => absurd heq hrule.2,
        fun hleaf => hpostulate (hleaf.resolve_right hrule.1)⟩
      · obtain ⟨f, hf, rfl⟩ := List.mem_map.mp ((hpremises j).mp hj)
        exact (hproves f hf).lists.index_lt
      · simp only [mem_union, hrule.1, discharged_of_isPlain s hplain,
          Inference.carriers_of_isPlain hplain hpostulate, hpremises]
        simp
  | @followedFrom f first rest hf hassumes =>
      have hothers := filterMap_premise (first :: rest)
      have hpremises : ∀ g ∈ f :: first :: rest, s.Lists g := by
        intro g hg
        rcases List.mem_cons.mp hg with rfl | hg
        · exact hf.lists
        · exact (hassumes g hg).lists
      refine ⟨fun j hj => ?_, (nodup_union _).filter _, fun a => ?_,
        fun hscope => (by cases hscope), fun hleaf => by rcases hleaf with h | h <;> cases h⟩
      · rw [Inference.premises, hothers] at hj
        have hj : j ∈ (f :: first :: rest).map Fact.id := by simpa using hj
        obtain ⟨g, hg, rfl⟩ := List.mem_map.mp hj
        exact (hpremises g hg).index_lt
      · simp only [Inference.carriers, discharged, hothers]
        simp [mem_union, and_comm]
  | @assumptionsCannotAllHold f m hf _ _ =>
      refine ⟨fun j hj => ?_, List.nodup_nil, fun a => ?_,
        fun hscope => (by cases hscope), fun hleaf => by rcases hleaf with h | h <;> cases h⟩
      · have hj : j = f.id := by simpa [Inference.premises] using hj
        rw [hj]
        exact hf.lists.index_lt
      · simp [Inference.carriers]

theorem Traced.extended {R : Rule → Prop} (h : s.Traced) (ht : Extends R s t) : t.Traced := by
  induction ht with
  | refl => exact h
  | aside fresh warnings order _ ih => exact ih.aside ⟨fresh, warnings, order, rfl⟩
  | certify _ hd _ ih => exact ih.certified hd.recorded

theorem Traced.supposed (h : s.Traced) (p : Proposition) : (s.supposed p).Traced := by
  have hretains : Retains s (s.supposed p) := by
    apply Retains.push (supposed_ledger s p)
    intro c hc
    refine ⟨?_, logOf_supposed s p c⟩
    rw [isClosed, scope?, supposed_scopes]
    exact hc
  refine h.grown hretains (fun id e he => ?_) fun c scope hscope f hf => .inr ⟨scope, ?_, hf⟩
  · rw [entry?_supposed] at he
    split at he
    next hid =>
      cases he
      have hnew : id = ⟨s.ledger.size⟩ := by rw [← hid]
      rw [hnew]
      refine .inr ⟨?_, by simp, fun a => ?_, fun hscope => (by cases hscope), fun _ => rfl⟩
      · simp [Inference.premises]
      · simp [Inference.carriers]
    next => exact .inl (Option.isSome_of_eq_some he)
  · rw [scope?, supposed_scopes] at hscope
    exact hscope

/-- Records of an open scope may change, and those of a closed one except for its log. -/
theorem Traced.modifyScope {c : ScopeId} {g : Scope → Scope} (h : s.Traced)
    (hclosed : ∀ scope, (g scope).closed = scope.closed)
    (hlog : ∀ scope, s.scope? c = some scope → scope.closed = true → (g scope).log = scope.log)
    (hconclusions : ∀ scope, ∀ f ∈ (g scope).conclusions, f ∈ scope.conclusions ∨ s.Lists f) :
    (s.modifyScope c g).Traced := by
  have hretains : Retains s (s.modifyScope c g) := by
    refine ⟨fun _ e he => ⟨e, he, rfl⟩, fun d hd => ?_⟩
    rw [isClosed, logOf, scope?_modifyScope]
    split
    next hcd =>
      subst hcd
      obtain ⟨scope, hscope, hd⟩ := isClosed_eq_true.mp hd
      simp [hscope, hclosed, hd, hlog scope hscope hd, logOf]
    next => exact ⟨hd, rfl⟩
  refine h.grown hretains (fun id e he => .inl (Option.isSome_of_eq_some he)) ?_
  intro d scope' hscope' f hf
  rw [scope?_modifyScope] at hscope'
  split at hscope'
  next hcd =>
    subst hcd
    obtain ⟨scope, hscope, rfl⟩ := Option.map_eq_some_iff.mp hscope'
    rcases hconclusions scope f hf with hold | hnew
    · exact .inr ⟨scope, hscope, hold⟩
    · exact .inl hnew
  next => exact .inr ⟨scope', hscope', hf⟩

/-- Noting a supposition changes the log of an open scope. -/
theorem Traced.noted {c : ScopeId} {scope : Scope} (h : s.Traced) (hscope : s.scope? c = some scope)
    (hopen : scope.closed = false) (x : Supposition) : (s.noted c x).Traced := by
  refine h.modifyScope (fun _ => rfl) (fun scope' hscope' hclosed => ?_) fun _ f hf => .inl hf
  obtain rfl : scope = scope' := Option.some.inj (hscope.symm.trans hscope')
  rw [hopen] at hclosed
  cases hclosed

theorem Traced.opened (h : s.Traced) (name : String) : (s.opened name).Traced := by
  have hscope : ∀ c, (s.opened name).scope? c =
      if c.index = s.scopes.size then some { name } else s.scope? c := by
    intro c
    simp only [scope?, Session.opened, Array.getElem?_push]
  have hretains : Retains s (s.opened name) := by
    refine ⟨fun _ e he => ⟨e, he, rfl⟩, fun c hc => ⟨?_, logOf_opened name⟩⟩
    obtain ⟨scope, hsome, -⟩ := isClosed_eq_true.mp hc
    have hlt : c.index < s.scopes.size := (Array.getElem?_eq_some_iff.mp hsome).choose
    rw [isClosed, hscope, if_neg (Nat.ne_of_lt hlt)]
    exact hc
  refine h.grown hretains (fun id e he => .inl (Option.isSome_of_eq_some he)) ?_
  intro c scope hc f hf
  rw [hscope] at hc
  split at hc
  next =>
    cases hc
    cases hf
  next => exact .inr ⟨scope, hc, hf⟩

/-- Lowering flags and closing scopes leaves everything traced. -/
theorem Traced.lowered (h : s.Traced) (hentries : SameContents s t)
    (hscopes : ∀ c scope', t.scope? c = some scope' → ∃ scope, s.scope? c = some scope ∧
      scope'.conclusions = scope.conclusions)
    (hclosed : ∀ c, s.isClosed c = true → t.isClosed c = true ∧ t.logOf c = s.logOf c) :
    t.Traced := by
  refine h.grown ⟨fun id e he => hentries.entry he, hclosed⟩ (fun id e he => ?_) ?_
  · obtain ⟨e', he', -⟩ := hentries.symm.entry he
    exact .inl (Option.isSome_of_eq_some he')
  · intro c scope' hscope' f hf
    obtain ⟨scope, hscope, hconclusions⟩ := hscopes c scope' hscope'
    exact .inr ⟨scope, hscope, hconclusions ▸ hf⟩

theorem Traced.retract {c : ScopeId} {scope : Scope} (h : s.Traced)
    (hscope : s.scope? c = some scope) : (s.retract c).Traced := by
  refine h.lowered (retract_sameContents s c) ?_ fun d hd => ⟨?_, logOf_retract hscope⟩
  · intro d scope' hscope'
    obtain ⟨before, hbefore, -, hconclusions⟩ := (remembers_retract s c).2 d scope' hscope'
    exact ⟨before, hbefore, hconclusions⟩
  · obtain ⟨before, hbefore, hclosed⟩ := isClosed_eq_true.mp hd
    rw [isClosed, scope?_retract hscope, hbefore, Option.map_some, Option.any_some, hclosed,
      Bool.true_or]

theorem Traced.settled (h : s.Traced) (keep : List FactId) : (s.settled keep).Traced := by
  cases hspeculation : s.speculation with
  | none =>
      rw [settled_of_none keep hspeculation]
      exact h
  | some derived =>
      refine h.lowered (settled_sameContents s keep) ?_ fun c hc => ?_
      · intro c scope' hscope'
        obtain ⟨before, hbefore, -, hconclusions⟩ := (remembers_settled s keep).2 c scope' hscope'
        exact ⟨before, hbefore, hconclusions⟩
      · obtain ⟨before, hbefore, hclosed⟩ := isClosed_eq_true.mp hc
        rw [isClosed, logOf, logOf, scope?_settled keep hspeculation, hbefore]
        simp only [Option.map_some, Option.any_some, Option.getD_some]
        split
        next => exact ⟨hclosed, rfl⟩
        next => exact ⟨hclosed, rfl⟩

theorem Traced.exported {c : ScopeId} {scope : Scope} {statements : List (Fact × Proposition)}
    (h : s.Traced) (hclosed : s.isClosed c = true)
    (hassumptions : s.assumptionsOf c = scope.assumptions.map Fact.id)
    (hlists : ∀ x ∈ statements, s.Lists x.1) : (exported c scope s statements).Traced := by
  induction statements generalizing s with
  | nil => exact h
  | cons x statements ih =>
      obtain ⟨f, p⟩ := x
      have hf : s.Lists f := hlists (f, p) List.mem_cons_self
      obtain ⟨e, he, -⟩ := hf
      have hnew : s.Recorded (s.nextFact p).id
          ⟨p.strip, { rule := .closeScope, first := some f.id, closed := [c] }, true, false,
            (s.dependencies f.id).filter (· ∉ scope.assumptions.map Fact.id)⟩ := by
        refine ⟨fun j hj => ?_, ?_, fun a => ?_, fun _ d hd => ?_,
          fun hleaf => by rcases hleaf with h | h <;> cases h⟩
        · have hj : j = f.id := by simpa [Inference.premises] using hj
          rw [hj]
          exact entry?_lt he
        · have hnodup : (s.dependencies f.id).Nodup := by
            simpa [Session.dependencies, he] using (h.recorded _ e he).nodup
          exact hnodup.filter _
        · simp only [Inference.carriers, discharged, List.flatMap_cons, List.flatMap_nil,
            List.append_nil, hassumptions]
          simp [and_comm]
        · rw [List.mem_singleton.mp hd]
          exact hclosed
      have hretains := retains_certified s p
        { rule := .closeScope, first := some f.id, closed := [c] }
        ((s.dependencies f.id).filter (· ∉ scope.assumptions.map Fact.id))
      refine ih (h.certified hnew) (hretains.scope c hclosed).1 ?_ ?_
      · rw [assumptionsOf_congr (hretains.scope c hclosed).2, hassumptions]
      · exact fun y hy => hretains.lists (hlists y (List.mem_cons_of_mem _ hy))

/-- What is exported from a scope that has just been retracted. -/
theorem Traced.exported_retract {c : ScopeId} {scope : Scope}
    {statements : List (Fact × Proposition)} (h : s.Traced) (hscope : s.scope? c = some scope)
    (hlists : ∀ x ∈ statements, s.Lists x.1) :
    (Session.exported c scope (s.retract c) statements).Traced := by
  have hretracted : ∃ scope', (s.retract c).scope? c = some scope' ∧ scope'.closed = true ∧
      scope'.log = scope.log := by
    rw [scope?_retract hscope, hscope]
    exact ⟨_, rfl, by simp, rfl⟩
  obtain ⟨scope', hscope', hclosed, hlog⟩ := hretracted
  refine (h.retract hscope).exported ?_ ?_ fun x hx => ?_
  · exact isClosed_eq_true.mpr ⟨scope', hscope', hclosed⟩
  · rw [assumptionsOf_of_some hscope', Scope.assumptions, Scope.assumptions, hlog]
  · exact (retract_sameContents s c).lists (hlists x hx)

theorem Traced.lists_of_restates {c : ScopeId} {scope : Scope}
    {statements : List (Fact × Proposition)} (h : s.Traced) (hscope : s.scope? c = some scope)
    (hstatements : List.Forall₂ (Restates scope) (s.targets scope) statements) :
    ∀ x ∈ statements, s.Lists x.1 := by
  intro x hx
  exact lists_targets (h.concluded c scope hscope) (restates_of_mem hstatements hx).1

theorem Traced.closed {c : ScopeId} {scope : Scope} {statements : List (Fact × Proposition)}
    {results : List Fact} (h : s.Traced) (hscope : s.scope? c = some scope)
    (hstatements : List.Forall₂ (Restates scope) (s.targets scope) statements) :
    ((Session.exported c scope (s.retract c) statements).modifyScope c
      ({ · with results })).Traced := by
  have hexported := h.exported_retract hscope (h.lists_of_restates hscope hstatements)
  exact hexported.modifyScope (fun _ => rfl) (fun _ _ _ => rfl) fun _ f hf => .inl hf

/-- Every call leaves what is recorded traced. -/
theorem Traced.call (h : s.Traced) (call : Call) : (call.apply s).Traced := by
  have hchange := call.change s
  generalize call.apply s = t at hchange
  cases hchange with
  | aside ht => exact h.aside ht
  | tactic ht => exact h.extended ht
  | @postulate p =>
      have hd : s.Derives p { rule := .postulate } [] :=
        @Derives.plain s [] _ _ .postulate (by simp) (by simp [Inference.premises])
      exact h.certified hd.recorded
  | suppose _ => exact h.supposed _
  | @assumeIn _ c scope p _ hc =>
      have hscope : (s.supposed p).scope? c = some scope := by
        rw [scope?, supposed_scopes]
        exact hc.1
      exact (h.supposed p).noted hscope hc.2.1 _
  | openScope => exact h.opened _
  | @introduce _ t c scope v _ ht hc =>
      have hscope : t.scope? c = some scope := by
        obtain ⟨_, _, _, rfl⟩ := ht
        exact hc.1
      exact (h.aside ht).noted hscope hc.2.1 _
  | conclude _ hf =>
      refine h.modifyScope (fun _ => rfl) (fun _ _ _ => rfl) fun _ g hg => ?_
      rcases List.mem_append.mp hg with hold | hnew
      · exact .inl hold
      · rw [List.mem_singleton.mp hnew]
        exact .inr hf.lists
  | close hc hstatements => exact h.closed hc.1 hstatements
  | discard hscope _ => exact h.retract hscope
  | speculateFrom _ =>
      exact h.grown (.of_eq rfl rfl) (fun id e he => .inl (Option.isSome_of_eq_some he))
        fun c scope hscope f hf => .inr ⟨scope, hscope, hf⟩
  | settle => exact h.settled _

theorem Traced.initial : Traced {} :=
  ⟨fun id e he => by simp [Session.entry?] at he, fun c scope hscope => by simp [scope?] at hscope⟩

theorem Traced.run (h : s.Traced) (calls : List Call) : (run s calls).Traced := by
  induction calls generalizing s with
  | nil => exact h
  | cons call calls ih => exact ih (h.call call)

end Operations

section Exactness
variable {s : Session} {id a : FactId}

theorem Traced.tracesTo_of_mem (h : s.Traced) (ha : a ∈ s.dependencies id) : s.TracesTo a id := by
  -- Premises are older, so the index of the entry bounds the walk.
  induction hindex : id.index using Nat.strongRecOn generalizing id with
  | ind index ih =>
      subst hindex
      cases hentry : s.entry? id with
      | none => simp [Session.dependencies, hentry] at ha
      | some e =>
          have hrecorded := h.recorded id e hentry
          rcases (hrecorded.exact a).mp ((mem_dependencies hentry).mp ha) with
            ⟨hrule, rfl⟩ | ⟨hkept, j, hj, hdepends⟩
          · exact .itself hentry hrule
          · have hlt := hrecorded.older j (Inference.mem_premises_of_mem_carriers hj)
            exact .through hentry hj hkept (ih j.index hlt hdepends rfl)

theorem Traced.mem_of_tracesTo (h : s.Traced) (ha : s.TracesTo a id) : a ∈ s.dependencies id := by
  induction ha with
  | itself he hrule =>
      rw [mem_dependencies he, (h.recorded _ _ he).exact]
      exact .inl ⟨hrule, rfl⟩
  | through he hj hkept _ ih =>
      rw [mem_dependencies he, (h.recorded _ _ he).exact]
      exact .inr ⟨hkept, _, hj, ih⟩

theorem Traced.nodup (h : s.Traced) (id : FactId) : (s.dependencies id).Nodup := by
  cases hentry : s.entry? id with
  | none => simp [Session.dependencies, hentry]
  | some e => simpa [Session.dependencies, hentry] using (h.recorded id e hentry).nodup

end Exactness

/-- After every run, the dependencies recorded for an entry are without repetition the assumptions
that its derivation leads back to. -/
theorem dependencies_exact (calls : List Call) (id : FactId) :
    ((run {} calls).dependencies id).Nodup ∧
      ∀ a, a ∈ (run {} calls).dependencies id ↔ (run {} calls).TracesTo a id := by
  have htraced : (run {} calls).Traced := Traced.initial.run calls
  exact ⟨htraced.nodup id, fun a => ⟨htraced.tracesTo_of_mem, htraced.mem_of_tracesTo⟩⟩

end Session

end Entailment

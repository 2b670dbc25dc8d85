import Entailment.Proofs.Dependencies
import Entailment.Proofs.Generalisation

/-!
# What contradictions rest on

Three tactics make a contradiction out of premises that clash, and see to it that these rest on two
assumptions at least. A contradiction can then become part of another statement, when assumptions
are discharged or a scope is closed, and can be taken out of it again with fewer assumptions, or
with other ones. It can also be postulated or assumed outright. These are the only ways around the
two assumptions (`Smuggled`), as is shown for every run: what a rule concludes is a contradiction
only if a premise mentions one, unless it is one of the three tactics.
-/
namespace Entailment

namespace Proposition

mutual

/-- Whether a contradiction stands somewhere in a proposition. -/
def mentionsContradiction : Proposition → Bool
  | .relation _ _ _ => false
  | .not p _ | .quantified _ _ _ p _ => mentionsContradiction p
  | .junction _ ps _ => mentionContradiction ps
  | .implies a b _ | .iff a b _ => mentionsContradiction a || mentionsContradiction b
  | .contradiction _ => true

def mentionContradiction : List Proposition → Bool
  | [] => false
  | p :: ps => mentionsContradiction p || mentionContradiction ps

end

/-- Whether a contradiction stands below the top of a proposition. -/
def hidesContradiction (p : Proposition) : Bool := p.children.any mentionsContradiction

theorem mentionContradiction_eq_any (ps : List Proposition) :
    mentionContradiction ps = ps.any mentionsContradiction := by
  induction ps with
  | nil => rfl
  | cons p ps ih => rw [mentionContradiction, List.any_cons, ih]

theorem eq_contradiction_of_kind {p : Proposition} (h : p.kind = .contradiction) :
    ∃ m, p = .contradiction m := by
  cases p with
  | contradiction m => exact ⟨m, rfl⟩
  | junction c ps m => cases c <;> cases h
  | quantified q v domain p m => cases q <;> cases domain <;> cases h
  | _ => cases h

theorem mentionsContradiction_of_kind {p : Proposition} (h : p.kind = .contradiction) :
    p.mentionsContradiction = true := by
  obtain ⟨m, rfl⟩ := eq_contradiction_of_kind h
  rfl

theorem mentionsContradiction_of_mem {c : Connective} {p : Proposition} {ps : List Proposition}
    {m : Option FactId} (hp : p ∈ ps) (h : p.kind = .contradiction) :
    (junction c ps m).mentionsContradiction = true := by
  rw [mentionsContradiction, mentionContradiction_eq_any]
  exact List.any_eq_true.mpr ⟨p, hp, mentionsContradiction_of_kind h⟩

theorem mentionsContradiction_iff (p : Proposition) :
    p.mentionsContradiction = true ↔ p.kind = .contradiction ∨ p.hidesContradiction = true := by
  have hbelow : p.kind ≠ .contradiction → p.mentionsContradiction = p.hidesContradiction := by
    intro hkind
    cases p with
    | junction c ps m => exact mentionContradiction_eq_any ps
    | contradiction m => exact absurd rfl hkind
    | _ => simp [mentionsContradiction, hidesContradiction, children]
  by_cases hkind : p.kind = .contradiction
  · simp [hkind, mentionsContradiction_of_kind hkind]
  · simp [hkind, hbelow hkind]

@[simp] theorem kind_strip (p : Proposition) : p.strip.kind = p.kind := by
  cases p <;> rfl

theorem kind_of_replace {p : Proposition} {old new : Term} {paths : List Path}
    (h : (p.replace old new paths).kind = .contradiction) : p.kind = .contradiction := by
  obtain ⟨m, hp⟩ := eq_contradiction_of_kind h
  cases p with
  | contradiction m => rfl
  | quantified q v domain p m =>
      rw [replace] at hp
      split at hp <;> cases hp
  | _ => cases hp

theorem kind_of_apply {p : Proposition} {σ : Substitution}
    (h : (σ.apply p).kind = .contradiction) : p.kind = .contradiction := by
  obtain ⟨m, hp⟩ := eq_contradiction_of_kind h
  cases p with
  | contradiction m => rfl
  | _ => cases hp

theorem kind_of_unify {p q : Proposition} {vs : List Variable} {σ : Substitution}
    (h : p.unify? q vs = some σ) (hp : p.kind = .contradiction) : q.kind = .contradiction := by
  obtain ⟨m, rfl⟩ := eq_contradiction_of_kind hp
  cases q with
  | contradiction m => rfl
  | _ => cases h

theorem mentions_of_peel {p body : Proposition} {layers : List (Variable × Option Term)}
    (h : Session.peel p = (layers, body)) (hbody : body.mentionsContradiction = true) :
    p.mentionsContradiction = true := by
  fun_induction Session.peel p generalizing layers with
  | case1 v domain inner m layers' inner' hpeel ih =>
      cases h
      exact ih hpeel
  | case2 p _ =>
      cases h
      exact hbody

/-- A single conjunct or disjunct is a contradiction only if it was one before. -/
theorem kind_of_disjunction {first : Proposition} {rest : List Proposition}
    (h : (disjunction first rest).kind = .contradiction) : first.kind = .contradiction := by
  cases rest with
  | nil => exact h
  | cons second rest => cases h

end Proposition

/-- The rules that make a contradiction out of premises that clash. -/
def Rule.detectsClash : Rule → Bool
  | .contradicts | .resolve | .unitResolve | .resolveClauses => true
  | _ => false

open Proposition in
/-- All other rules arrive at a contradiction only where a premise mentions one. -/
theorem Concludes.mentions {r : Rule} {ps : List Proposition} {p : Proposition}
    (h : Concludes r ps p) (hp : p.kind = .contradiction) (hr : r.detectsClash = false) :
    r = .postulate ∨ ∃ q ∈ ps, q.mentionsContradiction = true := by
  have hmentions : p.mentionsContradiction = true := mentionsContradiction_of_kind hp
  cases h with
  | postulate => exact .inl rfl
  | @modusPonens q a _ m _ =>
      exact .inr ⟨.implies a p m, by simp, by simp [mentionsContradiction, hmentions]⟩
  | conjunctionElim hmem =>
      exact .inr ⟨_, List.mem_singleton_self _, mentionsContradiction_of_mem hmem hp⟩
  | resolve hrule _ _ => rcases hrule with rfl | rfl <;> cases hr
  | resolveClauses _ _ => cases hr
  | contradicts _ => cases hr
  | @exorElim q first ps rest i m _ hnegated =>
      cases rest with
      | nil =>
          have hfirst : first ∈ (ps.eraseIdx i).map fun c => Proposition.not c := by
            rw [hnegated]
            exact List.mem_singleton_self _
          obtain ⟨c, -, rfl⟩ := List.mem_map.mp hfirst
          cases hp
      | cons second rest => cases hp
  | doubleNegation =>
      exact .inr ⟨_, List.mem_singleton_self _, by simpa [mentionsContradiction] using hmentions⟩
  | inParticular =>
      have hinner := mentionsContradiction_of_kind (kind_of_replace hp)
      exact .inr ⟨_, List.mem_singleton_self _, by simpa [mentionsContradiction] using hinner⟩
  | inParticularIn =>
      have hinner := mentionsContradiction_of_kind (kind_of_replace hp)
      exact .inr ⟨_, List.mem_cons_self, by simpa [mentionsContradiction] using hinner⟩
  | @isSpecialCaseOf _ q body layers σ ms hpeel _ hσ _ =>
      refine .inr ⟨q, by simp, mentions_of_peel hpeel ?_⟩
      exact mentionsContradiction_of_kind (kind_of_unify hσ hp)
  | @quantifiedModusPonens _ q a b layers σ ms m hpeel _ _ _ _ =>
      have hb := mentionsContradiction_of_kind (kind_of_apply hp)
      exact .inr ⟨q, by simp, mentions_of_peel hpeel (by simp [mentionsContradiction, hb])⟩
  | @existentialElim v w set q a _ m m' m'' _ _ =>
      exact .inr ⟨.quantified .all w set (.implies a p m') m'', by simp,
        by simp [mentionsContradiction, hmentions]⟩
  | substitute =>
      have hbefore := mentionsContradiction_of_kind (kind_of_replace hp)
      exact .inr ⟨_, List.mem_cons_of_mem _ (List.mem_singleton_self _), hbefore⟩
  | _ => cases hp

namespace Layer

/-- Only around a contradiction, and only with variables that are left out, does a statement that is
restated outside of a scope become a contradiction. -/
theorem of_wrap_contradiction {l : Layer} {p q : Proposition} (h : l.wrap p = .ok q)
    (hq : q.kind = .contradiction) : p.kind = .contradiction ∧ ∃ v, l = .each v := by
  cases l with
  | each v =>
      rw [wrap] at h
      split_ifs at h
      · obtain rfl := Except.ok.inj h
        cases hq
      · obtain rfl := Except.ok.inj h
        exact ⟨hq, v, rfl⟩
  | eachIn v set =>
      rw [wrap] at h
      split_ifs at h
      obtain rfl := Except.ok.inj h
      cases hq
  | given first rest =>
      cases p with
      | contradiction m =>
          obtain rfl := Except.ok.inj h
          cases hq
      | _ =>
          obtain rfl := Except.ok.inj h
          cases hq

theorem of_foldrM_contradiction {layers : List Layer} {p q : Proposition}
    (h : layers.foldrM wrap p = .ok q) (hq : q.kind = .contradiction) :
    p.kind = .contradiction ∧ ∀ l ∈ layers, ∃ v, l = .each v := by
  induction layers generalizing q with
  | nil =>
      obtain rfl := Except.ok.inj h
      exact ⟨hq, by simp⟩
  | cons l layers ih =>
      rw [List.foldrM_cons] at h
      cases hinner : layers.foldrM wrap p with
      | error b => simp [hinner, bind, Except.bind] at h
      | ok inner =>
          rw [hinner] at h
          obtain ⟨hkind, heach⟩ := of_wrap_contradiction h hq
          obtain ⟨hp, hrest⟩ := ih hinner hkind
          exact ⟨hp, List.forall_mem_cons.mpr ⟨heach, hrest⟩⟩

/-- Every assumption gives rise to a layer of its own. -/
theorem assumed_notMem {log : List Supposition} (h : ∀ l ∈ ofLog log, ∃ v, l = .each v)
    (f : Fact) : Supposition.assumed f ∉ log := by
  fun_induction ofLog log with
  | case1 => simp
  | case2 v => simp
  | case3 v w rest ih =>
      have hrest := ih (List.forall_mem_cons.mp h).2
      simpa using hrest
  | case4 v g rest set hset ih =>
      obtain ⟨w, hw⟩ := h _ List.mem_cons_self
      cases hw
  | case5 v g rest hset ih =>
      have hrest := ih (List.forall_mem_cons.mp h).2
      simpa using hrest
  | case6 g rest p ps layers hlayers ih =>
      obtain ⟨w, hw⟩ := h _ List.mem_cons_self
      cases hw
  | case7 g rest hlayers ih =>
      obtain ⟨w, hw⟩ := h _ List.mem_cons_self
      cases hw

end Layer

theorem Scope.of_generalise_contradiction {c : Scope} {p q : Proposition}
    (h : c.generalise p = .ok q) (hq : q.kind = .contradiction) :
    p.kind = .contradiction ∧ c.assumptions = [] := by
  obtain ⟨hp, heach⟩ := Layer.of_foldrM_contradiction h hq
  refine ⟨by simpa using hp, List.filterMap_eq_nil_iff.mpr fun x hx => ?_⟩
  cases x with
  | introduced v => rfl
  | assumed f => exact absurd hx (Layer.assumed_notMem heach f)

namespace Session

/-- A contradiction that did not come from a clash: it was given outright, taken out of a statement
that mentions it, or restates another one of this kind. -/
inductive Smuggled (s : Session) : FactId → Prop
  | given {id : FactId} {e : Entry} : s.entry? id = some e →
      e.inference.rule = .postulate ∨ e.inference.rule = .assumption → Smuggled s id
  | unpacked {id j : FactId} {e premise : Entry} : s.entry? id = some e →
      j ∈ e.inference.premises → s.entry? j = some premise →
      premise.statement.hidesContradiction = true → Smuggled s id
  | restated {id j : FactId} {e premise : Entry} : s.entry? id = some e →
      j ∈ e.inference.premises → s.entry? j = some premise →
      premise.statement.kind = .contradiction → Smuggled s j → Smuggled s id

/-- There are at least two different ones. -/
def Several (ids : List FactId) : Prop := ∃ a ∈ ids, ∃ b ∈ ids, a ≠ b

theorem several_of_length {ids : List FactId} (h : 2 ≤ ids.length) (hnodup : ids.Nodup) :
    Several ids := by
  match ids, h, hnodup with
  | a :: b :: rest, _, hnodup =>
      have hne : a ≠ b := fun heq => (List.nodup_cons.mp hnodup).1 (by simp [heq])
      exact ⟨a, by simp, b, by simp, hne⟩

theorem Several.mono {ids ids' : List FactId} (h : Several ids) (hsub : ∀ a ∈ ids, a ∈ ids') :
    Several ids' := by
  obtain ⟨a, ha, b, hb, hne⟩ := h
  exact ⟨a, hsub a ha, b, hsub b hb, hne⟩

/-- Contradictions rest on two assumptions, unless they are smuggled. -/
def Grounded (s : Session) : Prop :=
  ∀ id e, s.entry? id = some e → e.statement.kind = .contradiction →
    Several e.dependencies ∨ s.Smuggled id

section Grounded
variable {s t : Session}

theorem Smuggled.retained {id : FactId} (h : s.Smuggled id)
    (ht : ∀ id e, s.entry? id = some e → ∃ e', t.entry? id = some e' ∧ e'.content = e.content) :
    t.Smuggled id := by
  induction h with
  | given he hrule =>
      obtain ⟨e', he', hcontent⟩ := ht _ _ he
      have hinference : e'.inference = _ := congrArg (·.2.1) hcontent
      exact .given he' (hinference ▸ hrule)
  | unpacked he hj hpremise hhides =>
      obtain ⟨e', he', hcontent⟩ := ht _ _ he
      obtain ⟨f', hf', hpremise'⟩ := ht _ _ hpremise
      have hinference : e'.inference = _ := congrArg (·.2.1) hcontent
      have hstatement : f'.statement = _ := congrArg Prod.fst hpremise'
      exact .unpacked he' (hinference ▸ hj) hf' (hstatement ▸ hhides)
  | restated he hj hpremise hkind _ ih =>
      obtain ⟨e', he', hcontent⟩ := ht _ _ he
      obtain ⟨f', hf', hpremise'⟩ := ht _ _ hpremise
      have hinference : e'.inference = _ := congrArg (·.2.1) hcontent
      have hstatement : f'.statement = _ := congrArg Prod.fst hpremise'
      exact .restated he' (hinference ▸ hj) hf' (hstatement ▸ hkind) ih

/-- A session stays grounded if every entry is an old one or grounded. -/
theorem Grounded.grown (h : s.Grounded)
    (ht : ∀ id e, s.entry? id = some e → ∃ e', t.entry? id = some e' ∧ e'.content = e.content)
    (hnew : ∀ id e, t.entry? id = some e → s.entry? id = none →
      e.statement.kind = .contradiction → Several e.dependencies ∨ t.Smuggled id) :
    t.Grounded := by
  intro id e he hkind
  cases hold : s.entry? id with
  | none => exact hnew id e he hold hkind
  | some old =>
      obtain ⟨e', he', hcontent⟩ := ht id old hold
      obtain rfl : e = e' := Option.some.inj (he.symm.trans he')
      have hstatement : e.statement = old.statement := congrArg Prod.fst hcontent
      have hdependencies : e.dependencies = old.dependencies := congrArg (·.2.2) hcontent
      rcases h id old hold (hstatement ▸ hkind) with htwo | hsmuggled
      · exact .inl (hdependencies ▸ htwo)
      · exact .inr (hsmuggled.retained ht)

theorem Grounded.sameContents (h : s.Grounded) (ht : SameContents s t) : t.Grounded := by
  refine h.grown (fun _ _ he => ht.entry he) fun id e he hnone => ?_
  obtain ⟨e', he', -⟩ := ht.symm.entry he
  rw [hnone] at he'
  cases he'

theorem Grounded.push {new : Entry} (h : s.Grounded) (ht : t.ledger = s.ledger.push new)
    (hnew : new.statement.kind = .contradiction →
      Several new.dependencies ∨ t.Smuggled ⟨s.ledger.size⟩) : t.Grounded := by
  refine h.grown (fun _ e he => ⟨e, entry?_of_push_of_some ht he, rfl⟩) fun id e he hnone => ?_
  rw [entry?_of_push ht, hnone] at he
  split at he
  next hid =>
    cases he
    obtain rfl : id = ⟨s.ledger.size⟩ := by
      cases id
      exact congrArg FactId.mk hid
    exact hnew
  next => cases he

/-- The new entry is fine if a premise mentions a contradiction, for the contradiction was there
before or is taken out of the premise. -/
theorem Grounded.derived {p : Proposition} {i : Inference FactId} {premises : List Fact}
    (h : s.Grounded) (hproves : ∀ f ∈ premises, s.Proves f)
    (hpremises : ∀ f ∈ premises, f.id ∈ i.premises)
    (hmentions : p.kind = .contradiction →
      ∃ f ∈ premises, f.statement.mentionsContradiction = true) :
    (s.certified p i (s.union (premises.map Fact.id))).Grounded := by
  refine h.push (certified_ledger _ _ _ _) fun hkind => ?_
  obtain ⟨f, hf, hmention⟩ := hmentions (by simpa using hkind)
  obtain ⟨e, he, hstatement, -⟩ := hproves f hf
  have hnew : Session.entry? (s.certified p i (s.union (premises.map Fact.id)))
      ⟨s.ledger.size⟩ = some ⟨p.strip, i, true, false, s.union (premises.map Fact.id)⟩ :=
    (entry?_certified s p i _ _).trans (if_pos rfl)
  have hold := entry?_of_push_of_some (certified_ledger s p i (s.union (premises.map Fact.id))) he
  rw [← hstatement] at hmention
  rcases (Proposition.mentionsContradiction_iff _).mp hmention with hcontradiction | hhides
  · rcases h f.id e he hcontradiction with htwo | hsmuggled
    · -- All assumptions of the premise are taken over.
      refine .inl (htwo.mono fun a ha => mem_union.mpr ⟨f.id, List.mem_map_of_mem hf, ?_⟩)
      exact (mem_dependencies he).mpr ha
    · refine .inr (.restated hnew (hpremises f hf) hold hcontradiction ?_)
      exact hsmuggled.retained (retains_certified s p i _).entry
  · exact .inr (.unpacked hnew (hpremises f hf) hold hhides)

theorem Grounded.derives {p : Proposition} {i : Inference FactId} {d : List FactId}
    (h : s.Grounded) (hd : s.Derives p i d) (hr : i.rule.detectsClash = false) :
    (s.certified p i d).Grounded := by
  cases hd with
  | @plain premises _ _ hconcludes hproves hpremises =>
      by_cases hrule : i.rule = .postulate
      · have hnew := (entry?_certified s p i (s.union (premises.map Fact.id))
          ⟨s.ledger.size⟩).trans (if_pos rfl)
        exact h.push (certified_ledger _ _ _ _) fun _ => .inr (.given hnew (.inl hrule))
      · refine h.derived hproves (fun f hf => (hpremises _).mpr (List.mem_map_of_mem hf)) ?_
        intro hkind
        obtain ⟨q, hq, hmentions⟩ := (hconcludes.mentions hkind hr).resolve_left hrule
        obtain ⟨f, hf, rfl⟩ := List.mem_map.mp hq
        exact ⟨f, hf, hmentions⟩
  | followedFrom hp hassumes => exact h.push (certified_ledger _ _ _ _) nofun
  | assumptionsCannotAllHold hc hstatement hlength =>
      exact h.push (certified_ledger _ _ _ _) nofun

theorem Grounded.aside (h : s.Grounded) (ht : s.Aside t) : t.Grounded := by
  obtain ⟨_, _, _, rfl⟩ := ht
  exact h.sameContents fun _ => rfl

theorem Grounded.extended {r : Rule} (h : s.Grounded) (ht : Extends (· = r) s t)
    (hr : r.detectsClash = false) : t.Grounded := by
  induction ht with
  | refl => exact h
  | aside fresh warnings order _ ih => exact ih.aside ⟨fresh, warnings, order, rfl⟩
  | certify _ hd hrule ih => exact ih.derives hd (hrule ▸ hr)

/-- However the deduction ends, contradictions are grounded. -/
def Grounds (a : Action Fact) (s : Session) : Prop := Ensures a s (fun _ t => t.Grounded) Grounded

theorem Grounded.contradiction {i : Inference FactId} {premises : List Fact} (h : s.Grounded)
    (rule : Rule) : Grounds (contradiction rule i premises) s := by
  unfold Session.contradiction
  refine .get_bind (.guard h fun hlength => .certify ?_)
  exact h.push (certified_ledger _ _ _ _) fun _ =>
    .inl (several_of_length (Nat.le_of_not_lt hlength) (nodup_union _))

theorem Grounded.contradicts (h : s.Grounded) (p q : Option Proposition) :
    Grounds (contradicts p q) s := by
  unfold Session.contradicts
  refine (require_reads _ p s).ensures_bind h fun p hp => ?_
  refine (require_reads _ q s).ensures_bind h fun q hq => ?_
  split
  next => exact h.contradiction _
  next => exact .refuse h

theorem Grounded.resolveBy (h : s.Grounded) (rule : Rule) (p : Option Proposition)
    (refutations : List (Option Proposition)) : Grounds (resolveBy rule p refutations) s := by
  unfold Session.resolveBy
  refine (require_reads _ p s).ensures_bind h fun p hp => ?_
  split
  next members m hstatement =>
    refine .guard h fun _ => (requireAll_reads _ _ s).ensures_bind h fun fs ⟨_, hfs⟩ => ?_
    refine (Reads.mapM fun f _ => refuted_reads s rule _ f).ensures_bind h fun ns _ => ?_
    refine (removeRefuted_reads s rule p ns.flatten members).ensures_bind h fun remaining hr => ?_
    split
    next => exact h.contradiction _
    next first rest =>
      refine .derive (h.derived (by simpa [hp] using hfs) ?_ fun hkind => ?_)
      · intro f hf
        rw [Inference.premises, filterMap_premise]
        simpa using List.mem_map_of_mem (f := Fact.id) hf
      · have hfirst : first ∈ members := by
          have hmem : first ∈ members.filter _ := hr ▸ List.mem_cons_self
          exact List.mem_of_mem_filter hmem
        refine ⟨p, List.mem_cons_self, ?_⟩
        rw [hstatement]
        exact Proposition.mentionsContradiction_of_mem hfirst
          (Proposition.kind_of_disjunction hkind)
  next => exact .refuse h

theorem mem_distinct {q : Proposition} {ps : List Proposition} (h : q ∈ distinct ps) : q ∈ ps := by
  have hfold : ∀ acc : List Proposition,
      q ∈ ps.foldl (fun acc p => if acc.any p.equal then acc else acc ++ [p]) acc →
      q ∈ acc ∨ q ∈ ps := by
    clear h
    induction ps with
    | nil => exact fun acc hq => .inl hq
    | cons p ps ih =>
        intro acc hq
        rw [List.foldl_cons] at hq
        rcases ih _ hq with hacc | hps
        · split at hacc
          next => exact .inl hacc
          next =>
            rcases List.mem_append.mp hacc with hacc | hp
            · exact .inl hacc
            · exact .inr (List.mem_singleton.mp hp ▸ List.mem_cons_self)
        · exact .inr (List.mem_cons_of_mem _ hps)
  exact (hfold [] h).resolve_left (by simp)

theorem mentions_of_literal {p q : Proposition} (hq : q ∈ literals p)
    (hkind : q.kind = .contradiction) : p.mentionsContradiction = true := by
  unfold literals at hq
  split at hq
  next members m => exact Proposition.mentionsContradiction_of_mem hq hkind
  next =>
    rw [← List.mem_singleton.mp hq]
    exact Proposition.mentionsContradiction_of_kind hkind

theorem Grounded.resolveClauses (h : s.Grounded) (lhs rhs : Option Proposition) :
    Grounds (resolveClauses lhs rhs) s := by
  unfold Session.resolveClauses
  refine (require_reads _ lhs s).ensures_bind h fun p hp => ?_
  refine (require_reads _ rhs s).ensures_bind h fun q hq => ?_
  dsimp only
  split
  next => exact .refuse h
  next i j hclash =>
    split
    next => exact h.contradiction _
    next first rest hsome =>
      refine .derive (h.derived (by simp [hp, hq]) ?_ fun hkind => ?_)
      · simp [Inference.premises, Argument.premise?]
      · have hfirst : first ∈
            (literals p.statement).eraseIdx i ++ (literals q.statement).eraseIdx j :=
          mem_distinct (hsome ▸ List.mem_cons_self)
        have hfirstKind := Proposition.kind_of_disjunction hkind
        rcases List.mem_append.mp hfirst with hleft | hright
        · exact ⟨p, by simp, mentions_of_literal (List.mem_of_mem_eraseIdx hleft) hfirstKind⟩
        · exact ⟨q, by simp, mentions_of_literal (List.mem_of_mem_eraseIdx hright) hfirstKind⟩

theorem Grounded.unitResolve (h : s.Grounded) (p refutation : Option Proposition) :
    Grounds (unitResolve p refutation) s := by
  unfold Session.unitResolve
  split
  next => exact h.resolveBy _ _ _
  next => exact h.resolveBy _ _ _
  next => exact .throw h

theorem Grounded.tactic (h : s.Grounded) (t : Tactic) : (t.apply s).Grounded := by
  cases t with
  | contradicts p q => exact Ensures.left (h.contradicts p q)
  | resolve p refutations => exact Ensures.left (h.resolveBy _ p refutations)
  | unitResolve p refutation => exact Ensures.left (h.unitResolve p refutation)
  | resolveClauses lhs rhs => exact Ensures.left (h.resolveClauses lhs rhs)
  | _ => exact h.extended (Tactic.apply_extends _ s) rfl

theorem Grounded.supposed (h : s.Grounded) (p : Proposition) : (s.supposed p).Grounded := by
  have hnew := (entry?_supposed s p ⟨s.ledger.size⟩).trans (if_pos rfl)
  exact h.push (supposed_ledger s p) fun _ => .inr (.given hnew (.inr rfl))

/-- A contradiction that leaves a scope leaves it with all its assumptions. -/
theorem Grounded.exported {c : ScopeId} {scope : Scope} {statements : List (Fact × Proposition)}
    (h : s.Grounded) (hlists : ∀ x ∈ statements, s.Lists x.1)
    (hrestates : ∀ x ∈ statements, Restates scope x.1 x) :
    (exported c scope s statements).Grounded := by
  induction statements generalizing s with
  | nil => exact h
  | cons x statements ih =>
      obtain ⟨f, p⟩ := x
      obtain ⟨hf, hlists⟩ := List.forall_mem_cons.mp hlists
      obtain ⟨hp, hrestates⟩ := List.forall_mem_cons.mp hrestates
      have hretains := retains_certified s p
        { rule := .closeScope, first := some f.id, closed := [c] }
        ((s.dependencies f.id).filter (· ∉ scope.assumptions.map Fact.id))
      refine ih (h.push (certified_ledger _ _ _ _) fun hkind => ?_)
        (fun y hy => hretains.lists (hlists y hy)) hrestates
      obtain ⟨e, he, hstatement⟩ := hf
      obtain ⟨hinner, hnone⟩ :=
        Scope.of_generalise_contradiction hp.2 (by simpa using hkind)
      have hcontradiction : e.statement.kind = .contradiction := by rw [hstatement, hinner]
      rcases h f.id e he hcontradiction with htwo | hsmuggled
      · refine .inl (htwo.mono fun a ha => ?_)
        simpa [hnone] using (mem_dependencies he).mpr ha
      · have hnew := (entry?_certified s p
          { rule := .closeScope, first := some f.id, closed := [c] }
          ((s.dependencies f.id).filter (· ∉ scope.assumptions.map Fact.id))
          ⟨s.ledger.size⟩).trans (if_pos rfl)
        refine .inr (.restated hnew (j := f.id) (by simp [Inference.premises])
          (entry?_of_push_of_some (certified_ledger _ _ _ _) he) hcontradiction ?_)
        exact hsmuggled.retained hretains.entry

/-- Every call leaves contradictions grounded. -/
theorem Grounded.call (h : s.Grounded) (htraced : s.Traced) (call : Call) :
    (call.apply s).Grounded := by
  by_cases htactic : ∃ t, call = .tactic t
  · obtain ⟨t, rfl⟩ := htactic
    exact h.tactic t
  · have hchange := call.change s
    generalize call.apply s = t at hchange
    cases hchange with
    | tactic _ => exact absurd ⟨_, rfl⟩ htactic
    | aside ht => exact h.aside ht
    | @postulate p =>
        have hd : s.Derives p { rule := .postulate } [] :=
          @Derives.plain s [] _ _ .postulate (by simp) (by simp [Inference.premises])
        exact h.derives hd rfl
    | suppose _ => exact h.supposed _
    | assumeIn _ _ => exact (h.supposed _).sameContents fun _ => rfl
    | openScope => exact h.sameContents fun _ => rfl
    | introduce _ ht _ => exact (h.aside ht).sameContents fun _ => rfl
    | conclude _ _ => exact h.sameContents fun _ => rfl
    | @close c scope statements results hc hstatements =>
        have hretracted : (s.retract c).Grounded := h.sameContents (retract_sameContents s c)
        have hlists := htraced.lists_of_restates hc.1 hstatements
        have hexported : (Session.exported c scope (s.retract c) statements).Grounded :=
          hretracted.exported (fun x hx => (retract_sameContents s c).lists (hlists x hx))
            fun x hx => (restates_of_mem hstatements hx).2
        exact hexported.sameContents fun _ => rfl
    | discard _ _ => exact h.sameContents (retract_sameContents s _)
    | speculateFrom _ => exact h.sameContents fun _ => rfl
    | settle => exact h.sameContents (settled_sameContents s _)

theorem Grounded.run (h : s.Grounded) (htraced : s.Traced) (calls : List Call) :
    (run s calls).Grounded := by
  induction calls generalizing s with
  | nil => exact h
  | cons call calls ih => exact ih (h.call htraced call) (htraced.call call)

end Grounded

theorem Grounded.initial : Grounded {} := fun id e he => by simp [Session.entry?] at he

/-- After every run, a contradiction rests on two assumptions at least, unless it was given outright
or taken out of a statement that mentions it. -/
theorem contradiction_rests_on_several (calls : List Call) {id : FactId} {e : Entry}
    (he : Session.entry? (run {} calls) id = some e) (hkind : e.statement.kind = .contradiction)
    (hclash : ¬(run {} calls).Smuggled id) : Several e.dependencies := by
  have hgrounded : (run {} calls).Grounded := Grounded.initial.run Traced.initial calls
  exact (hgrounded id e he hkind).resolve_right hclash

/-- `P` and `¬P` are assumed and contradict each other. One of them is discharged. -/
def dischargingRun : List Call :=
  [.assume (.not (.relation "P" [])), .assume (.relation "P" []),
    .tactic (.contradicts (some (.relation "P" [] (some ⟨1⟩)))
      (some (.not (.relation "P" []) (some ⟨0⟩)))),
    .tactic (.followedFrom (some (.contradiction (some ⟨2⟩)))
      [some (.relation "P" [] (some ⟨1⟩))])]

theorem contradiction_rests_on_several_dischargingRun :
    ∃ e, Session.entry? (run {} dischargingRun) ⟨2⟩ = some e ∧ Several e.dependencies := by
  refine ⟨_, rfl, @contradiction_rests_on_several dischargingRun ⟨2⟩ _ rfl rfl ?_⟩
  have hpremises : ∀ e, Session.entry? (run {} dischargingRun) ⟨2⟩ = some e →
      ∀ j ∈ e.inference.premises, ∀ premise,
        Session.entry? (run {} dischargingRun) j = some premise →
        premise.statement.mentionsContradiction = false := by
    intro e he j hj premise hpremise
    cases he
    have hj : j ∈ [(⟨1⟩ : FactId), ⟨0⟩] := hj
    rcases List.mem_pair.mp hj with rfl | rfl <;> cases hpremise <;> rfl
  intro hsmuggled
  cases hsmuggled with
  | given he hrule =>
      cases he
      rcases hrule with hrule | hrule <;> cases hrule
  | unpacked he hj hpremise hhides =>
      have hmentions := (Proposition.mentionsContradiction_iff _).mpr (.inr hhides)
      simp [hpremises _ he _ hj _ hpremise] at hmentions
  | restated he hj hpremise hkind _ =>
      have hmentions := Proposition.mentionsContradiction_of_kind hkind
      simp [hpremises _ he _ hj _ hpremise] at hmentions

/-- Then `P` turns out to hold anyway, and only the other assumption is left. -/
def reappearingRun : List Call :=
  dischargingRun ++ [.postulate (.relation "P" []),
    .tactic (.modusPonens (some (.relation "P" [] (some ⟨4⟩)))
      (some (.implies (.relation "P" []) .contradiction (some ⟨3⟩))))]

/-- A set is assumed to be empty, and that a variable is in it is discharged by closing a scope.
Then something turns out to be in the set. -/
def emptyingRun : List Call :=
  let y : Variable := ⟨1, "y"⟩
  let x : Variable := ⟨2, "x"⟩
  let inside (t : Term) : Proposition := .rel .element t (.const "S")
  let empty : Proposition := .quantified .all y none (.not (inside (.var y)))
  [.newVariable "y", .assume empty, .openScope "inner", .letVariable ⟨0⟩ "x",
    .assumeIn ⟨0⟩ (inside (.var x)),
    .tactic (.inParticular (some (empty.withMark (some ⟨0⟩))) (.var x) []),
    .tactic (.contradicts (some ((inside (.var x)).withMark (some ⟨1⟩)))
      (some (.not (inside (.var x)) (some ⟨2⟩)))),
    .close ⟨0⟩, .postulate (inside (.const "a")),
    .tactic (.inParticular
      (some (.quantified .all x (some (.const "S")) .contradiction (some ⟨4⟩))) (.const "a")
      [(inside (.const "a")).withMark (some ⟨5⟩)])]

/-- A contradiction comes back with one assumption less when it is taken out of the implication or
of the generalisation that discharging the assumption has made of it. -/
theorem contradiction_reappears :
    (∃ e, Session.entry? (run {} reappearingRun) ⟨5⟩ = some e ∧ e.holds = true ∧
      e.statement.kind = .contradiction ∧ e.dependencies = [⟨0⟩]) ∧
    ∃ e, Session.entry? (run {} emptyingRun) ⟨6⟩ = some e ∧ e.holds = true ∧
      e.statement.kind = .contradiction ∧ e.dependencies = [⟨0⟩] :=
  ⟨⟨_, rfl, rfl, rfl, rfl⟩, ⟨_, rfl, rfl, rfl, rfl⟩⟩

end Session

end Entailment

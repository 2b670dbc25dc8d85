import Entailment.Proofs.Run

/-!
# Nesting of scopes

The stack lists the open scopes, each of them once. A scope stands inside those that come after it
on the stack. Opening a scope puts it inside all others, and retracting one takes it out from where
it stands, so that the others keep their order.
-/
namespace Entailment.Session

section Stack
variable {l : List ScopeId} {b c d x : ScopeId}

theorem pair_sublist_cons :
    [d, c].Sublist (x :: l) ↔ (d = x ∧ c ∈ l) ∨ [d, c].Sublist l := by
  constructor
  · intro h
    cases h with
    | cons _ h => exact .inr h
    | cons_cons _ h => exact .inl ⟨rfl, List.singleton_sublist.mp h⟩
  · rintro (⟨rfl, hc⟩ | h)
    · exact (List.singleton_sublist.mpr hc).cons_cons d
    · exact h.cons x

theorem not_pair_sublist_head (hnodup : (x :: l).Nodup) : ¬[d, x].Sublist (x :: l) := by
  have hx : x ∉ l := (List.nodup_cons.mp hnodup).1
  intro h
  rcases pair_sublist_cons.mp h with ⟨-, hmem⟩ | hrest
  · exact hx hmem
  · exact hx (hrest.subset (by simp))

theorem pair_sublist_or (hc : c ∈ l) (hd : d ∈ l) (hne : c ≠ d) :
    [c, d].Sublist l ∨ [d, c].Sublist l := by
  induction l with
  | nil => cases hc
  | cons x l ih =>
      rw [pair_sublist_cons, pair_sublist_cons]
      rcases List.mem_cons.mp hc with hcx | hcl
      · rcases List.mem_cons.mp hd with hdx | hdl
        · exact absurd (hcx.trans hdx.symm) hne
        · exact .inl (.inl ⟨hcx, hdl⟩)
      · rcases List.mem_cons.mp hd with hdx | hdl
        · exact .inr (.inl ⟨hdx, hcl⟩)
        · exact (ih hcl hdl).imp .inr .inr

theorem pair_sublist_erase (hnodup : l.Nodup) (h : [d, c].Sublist l) (hd : d ≠ x) (hc : c ≠ x) :
    [d, c].Sublist (l.erase x) := by
  rw [hnodup.erase_eq_filter]
  have hfilter := h.filter (· != x)
  simpa [hd, hc] using hfilter

/-- What stands inside something has a scope directly around it, which is that something or stands
inside it too. -/
theorem enclosing?_of_pair (h : [c, b].Sublist l) :
    ∃ outer, enclosing? c l = some outer ∧ (outer = b ∨ [outer, b].Sublist l) := by
  induction l with
  | nil => cases h
  | cons x l ih =>
      rw [enclosing?]
      by_cases hx : x = c
      · rw [if_pos hx]
        have hb : b ∈ l := by
          rcases pair_sublist_cons.mp h with ⟨-, hb⟩ | hrest
          · exact hb
          · exact hrest.subset (by simp)
        cases l with
        | nil => cases hb
        | cons outer l =>
            refine ⟨outer, rfl, ?_⟩
            rcases List.mem_cons.mp hb with rfl | hb
            · exact .inl rfl
            · exact .inr ((pair_sublist_cons.mpr (.inl ⟨rfl, hb⟩)).cons x)
      · rw [if_neg hx]
        rcases pair_sublist_cons.mp h with ⟨rfl, -⟩ | hrest
        · exact absurd rfl hx
        · obtain ⟨outer, houter, hinside⟩ := ih hrest
          exact ⟨outer, houter, hinside.imp_right fun h => h.cons x⟩

theorem pair_of_enclosing? {outer : ScopeId} (h : enclosing? c l = some outer) :
    [c, outer].Sublist l := by
  induction l with
  | nil => cases h
  | cons x l ih =>
      rw [enclosing?] at h
      rw [pair_sublist_cons]
      by_cases hx : x = c
      · rw [if_pos hx] at h
        exact .inl ⟨hx.symm, List.mem_of_mem_head? h⟩
      · rw [if_neg hx] at h
        exact .inr (ih h)

/-- Nothing stands between a scope and the one directly around it. -/
theorem pair_sublist_of_enclosing? {outer : ScopeId} (hnodup : l.Nodup)
    (h : enclosing? c l = some outer) (hd : [d, outer].Sublist l) (hne : d ≠ c) :
    [d, c].Sublist l := by
  induction l with
  | nil => cases h
  | cons x l ih =>
      rw [enclosing?] at h
      by_cases hx : x = c
      · rw [if_pos hx] at h
        cases l with
        | nil => cases h
        | cons y l =>
            obtain rfl : y = outer := Option.some.inj h
            rcases pair_sublist_cons.mp hd with ⟨rfl, -⟩ | hrest
            · exact absurd hx hne
            · exact absurd hrest (not_pair_sublist_head hnodup.of_cons)
      · rw [if_neg hx] at h
        rw [pair_sublist_cons]
        have hc : c ∈ l := (pair_of_enclosing? h).subset (by simp)
        rcases pair_sublist_cons.mp hd with ⟨rfl, -⟩ | hrest
        · exact .inl ⟨rfl, hc⟩
        · exact .inr (ih hnodup.of_cons h hrest)

end Stack

/-- Both scopes are open, and `d` was opened inside `c`. -/
def Inside (s : Session) (d c : ScopeId) : Prop := [d, c].Sublist s.stack

/-- The stack lists the open scopes, each of them once. -/
structure Nested (s : Session) : Prop where
  nodup : s.stack.Nodup
  mem_stack : ∀ c, c ∈ s.stack ↔ (s.scope? c).map Scope.closed = some false

section Nested
variable {s t : Session} {b c d : ScopeId}

theorem Nested.of_open {scope : Scope} (h : s.Nested) (hscope : s.scope? c = some scope)
    (hopen : scope.closed = false) : c ∈ s.stack := by
  rw [h.mem_stack, hscope, Option.map_some, hopen]

theorem Nested.exists_scope (h : s.Nested) (hc : c ∈ s.stack) :
    ∃ scope, s.scope? c = some scope := by
  obtain ⟨scope, hscope, -⟩ := Option.map_eq_some_iff.mp ((h.mem_stack c).mp hc)
  exact ⟨scope, hscope⟩

theorem Nested.not_inside_head (h : s.Nested) (hc : s.stack.head? = some c) : ¬s.Inside d c := by
  obtain ⟨rest, hstack⟩ := List.head?_eq_some_iff.mp hc
  have hnodup := h.nodup
  rw [hstack] at hnodup
  rw [Inside, hstack]
  exact not_pair_sublist_head hnodup

theorem inside_head (hb : s.stack.head? = some b) (hc : c ∈ s.stack) :
    b = c ∨ s.Inside b c := by
  obtain ⟨rest, hstack⟩ := List.head?_eq_some_iff.mp hb
  rw [hstack] at hc
  rw [Inside, hstack]
  rcases List.mem_cons.mp hc with rfl | hrest
  · exact .inl rfl
  · exact .inr (pair_sublist_cons.mpr (.inl ⟨rfl, hrest⟩))

theorem Nested.congr (h : s.Nested) (hstack : t.stack = s.stack)
    (hclosed : ∀ c, (t.scope? c).map Scope.closed = (s.scope? c).map Scope.closed) : t.Nested := by
  refine ⟨hstack ▸ h.nodup, fun c => ?_⟩
  rw [hstack, hclosed, h.mem_stack]

theorem Nested.aside (h : s.Nested) (ht : s.Aside t) : t.Nested := by
  obtain ⟨_, _, _, rfl⟩ := ht
  exact ⟨h.nodup, h.mem_stack⟩

theorem Nested.certified (h : s.Nested) (p : Proposition) (i : Inference FactId)
    (d : List FactId) : (s.certified p i d).Nested := by
  refine h.congr (certified_stack s p i d) fun c => ?_
  rw [scope?_certified, Option.map_map]
  congr 1
  funext scope
  dsimp only [Function.comp_apply]
  split <;> rfl

theorem Nested.extended {R : Rule → Prop} (h : s.Nested) (ht : Extends R s t) : t.Nested := by
  induction ht with
  | refl => exact h
  | aside fresh warnings order _ ih => exact ih.aside ⟨fresh, warnings, order, rfl⟩
  | certify _ _ _ ih => exact ih.certified _ _ _

theorem Nested.supposed (h : s.Nested) (p : Proposition) : (s.supposed p).Nested := by
  refine h.congr (supposed_stack s p) fun c => ?_
  rw [scope?, supposed_scopes, scope?]

/-- Records that scopes keep about themselves have nothing to do with how they nest. -/
theorem Nested.modifyScope {g : Scope → Scope} (h : s.Nested) (c : ScopeId)
    (hg : ∀ scope, (g scope).closed = scope.closed) : (s.modifyScope c g).Nested := by
  refine h.congr rfl fun d => ?_
  rw [scope?_modifyScope]
  split
  next =>
    rw [Option.map_map]
    congr 1
    exact funext hg
  next => rfl

theorem Nested.opened (h : s.Nested) (name : String) : (s.opened name).Nested := by
  have hnew : ∀ c ∈ s.stack, c.index < s.scopes.size := by
    intro c hc
    obtain ⟨scope, hscope⟩ := h.exists_scope hc
    exact (Array.getElem?_eq_some_iff.mp hscope).choose
  refine ⟨List.nodup_cons.mpr ⟨?_, h.nodup⟩, fun c => ?_⟩
  · intro hmem
    exact Nat.lt_irrefl _ (hnew _ hmem)
  · have hscope : (s.opened name).scope? c =
        if c.index = s.scopes.size then some { name } else s.scope? c := by
      simp only [scope?, Session.opened, Array.getElem?_push]
    rw [hscope, Session.opened, List.mem_cons]
    by_cases hc : c.index = s.scopes.size
    · have heq : c = ⟨s.scopes.size⟩ := by
        rw [← hc]
      simp [heq]
    · have hne : c ≠ ⟨s.scopes.size⟩ := by
        rintro rfl
        exact hc rfl
      simp [hc, hne, h.mem_stack]

theorem Nested.retract {scope : Scope} (h : s.Nested) (hscope : s.scope? c = some scope) :
    (s.retract c).Nested := by
  refine ⟨?_, fun d => ?_⟩
  · rw [retract_stack hscope]
    exact h.nodup.erase c
  · rw [retract_stack hscope, scope?_retract hscope, h.nodup.mem_erase_iff, h.mem_stack,
      Option.map_map]
    by_cases hd : d = c
    · subst hd
      simp [hscope]
    · simp [hd, Ne.symm hd, Function.comp_def]

theorem Nested.mem_stack_retract {scope : Scope} (h : s.Nested) (hscope : s.scope? c = some scope) :
    d ∈ (s.retract c).stack ↔ d ≠ c ∧ d ∈ s.stack := by
  rw [retract_stack hscope]
  exact h.nodup.mem_erase_iff

theorem Nested.inside_retract {scope : Scope} (h : s.Nested) (hscope : s.scope? c = some scope) :
    (s.retract c).Inside d b ↔ s.Inside d b ∧ d ≠ c ∧ b ≠ c := by
  constructor
  · intro hdb
    have hd : d ∈ (s.retract c).stack := hdb.subset (by simp)
    have hb : b ∈ (s.retract c).stack := hdb.subset (by simp)
    rw [Inside, retract_stack hscope] at hdb
    have hbefore : s.Inside d b := hdb.trans List.erase_sublist
    exact ⟨hbefore, ((h.mem_stack_retract hscope).mp hd).1, ((h.mem_stack_retract hscope).mp hb).1⟩
  · rintro ⟨hdb, hd, hb⟩
    rw [Inside, retract_stack hscope]
    exact pair_sublist_erase h.nodup hdb hd hb

theorem Nested.settled (h : s.Nested) (keep : List FactId) : (s.settled keep).Nested := by
  cases hspeculation : s.speculation with
  | none =>
      rw [settled_of_none keep hspeculation]
      exact h
  | some derived =>
      refine h.congr (settled_stack s keep) fun c => ?_
      rw [scope?_settled keep hspeculation, Option.map_map]
      congr 1
      funext scope
      dsimp only [Function.comp_apply]
      split <;> rfl

theorem Nested.exported {scope : Scope} (h : s.Nested) (c : ScopeId)
    (statements : List (Fact × Proposition)) : (exported c scope s statements).Nested := by
  induction statements generalizing s with
  | nil => exact h
  | cons x statements ih =>
      obtain ⟨f, p⟩ := x
      exact ih (h.certified _ _ _)

/-- Every call keeps the stack in order. -/
theorem Nested.call (h : s.Nested) (call : Call) : (call.apply s).Nested := by
  have hchange := call.change s
  generalize call.apply s = t at hchange
  cases hchange with
  | aside ht => exact h.aside ht
  | tactic ht => exact h.extended ht
  | postulate => exact h.certified _ _ _
  | suppose _ => exact h.supposed _
  | assumeIn _ _ => exact (h.supposed _).modifyScope _ fun _ => rfl
  | openScope => exact h.opened _
  | introduce _ ht _ => exact (h.aside ht).modifyScope _ fun _ => rfl
  | conclude _ _ => exact h.modifyScope _ fun _ => rfl
  | close hinnermost _ =>
      exact ((h.retract hinnermost.1).exported _ _).modifyScope _ fun _ => rfl
  | discard hscope _ => exact h.retract hscope
  | speculateFrom _ => exact ⟨h.nodup, h.mem_stack⟩
  | settle => exact h.settled _

theorem Nested.initial : Nested {} :=
  ⟨List.nodup_nil, fun c => by simp [scope?]⟩

theorem Nested.run (h : s.Nested) (calls : List Call) : (run s calls).Nested := by
  induction calls generalizing s with
  | nil => exact h
  | cons call calls ih => exact ih (h.call call)

end Nested

end Entailment.Session

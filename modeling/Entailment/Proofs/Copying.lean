import Entailment.Proofs.Reading
import Entailment.Proposition.Unify

/-!
# Copies of propositions

A reader makes its own variables for the names that quantifiers bind, so what it reads is a copy
only up to these. Unification under the two lists of bound variables says how good a copy is
(`Copies`), and each construct of propositions carries copies of the parts to a copy of the whole.
For a quantifier the construction is checked once more, and it succeeds: a name that is bound around
a printable proposition is not bound inside it.
-/
namespace Entailment

namespace Reader
variable {ctx : Context} {env : Environment} {bound : List Variable}

theorem name_of_find? {vs : List Variable} {name : String} {v : Variable}
    (h : Environment.find? vs name = some v) : v.name = name := by
  simpa using List.find?_some h

theorem find?_cons (v : Variable) (vs : List Variable) (name : String) :
    Environment.find? (v :: vs) name =
      if v.name = name then some v else Environment.find? vs name := by
  by_cases h : v.name = name <;> simp [Environment.find?, h]

/-- In two lists with the same names, a name is found in the same place. -/
theorem findIdx?_of_find? {vs ws : List Variable} {name : String} {v : Variable}
    (hnames : ws.map Variable.name = vs.map Variable.name)
    (hv : Environment.find? vs name = some v) :
    ∃ w, Environment.find? ws name = some w ∧
      ∃ i, ws.findIdx? (· == w) = some i ∧ vs.findIdx? (· == v) = some i := by
  induction vs generalizing ws with
  | nil => cases hv
  | cons x vs ih =>
      cases ws with
      | nil => cases hnames
      | cons y ws =>
          rw [List.map_cons, List.map_cons, List.cons.injEq] at hnames
          rw [find?_cons] at hv
          rw [find?_cons, hnames.1]
          by_cases hx : x.name = name
          · rw [if_pos hx] at hv
            cases hv
            refine ⟨y, if_pos hx, 0, ?_, ?_⟩ <;> simp [List.findIdx?_cons]
          · rw [if_neg hx] at hv
            obtain ⟨w, hw, i, hws, hvs⟩ := ih hnames.2 hv
            have hyw : y ≠ w := by
              rintro rfl
              exact hx (hnames.1 ▸ name_of_find? hw)
            have hxv : x ≠ v := by
              rintro rfl
              exact hx (name_of_find? hv)
            refine ⟨w, (if_neg hx).trans hw, i + 1, ?_, ?_⟩
            · simp [List.findIdx?_cons, hyw, hws]
            · simp [List.findIdx?_cons, hxv, hvs]

theorem findIdx?_eq_none {vs : List Variable} {v : Variable}
    (h : Environment.find? vs v.name = none) : vs.findIdx? (· == v) = none := by
  rw [List.findIdx?_eq_none_iff]
  intro w hw
  rw [beq_eq_false_iff_ne]
  rintro rfl
  exact find?_eq_none.mp h (List.mem_map_of_mem hw)

theorem Context.Mirrors.name_target (h : ctx.Mirrors env bound) {v : Variable}
    (hv : env.resolve bound v.name = some v) : (ctx.target v).name = v.name := by
  have hresolve := h.resolve_eq_target hv
  rw [Context.resolve, Option.or_eq_some_iff] at hresolve
  rcases hresolve with hbound | ⟨-, hdeclared⟩
  · exact name_of_find? hbound
  · exact name_of_find? hdeclared

/-- A variable that is not bound around is read as itself. -/
theorem Context.Mirrors.target_eq_self (h : ctx.Mirrors env bound) {v : Variable}
    (hv : env.resolve bound v.name = some v) (hbound : Environment.find? bound v.name = none) :
    ctx.target v = v := by
  have hresolve := h.resolve_eq_target hv
  rw [Environment.resolve, hbound, Option.none_or] at hv
  rw [Context.resolve, (h.find?_eq_none_iff v.name).mpr hbound, h.environment, hv] at hresolve
  exact (Option.some.inj hresolve).symm

/-- The copy of a variable unifies with it: both are bound in the same place, or both are free and
the same. -/
theorem Context.Mirrors.unify_var (h : ctx.Mirrors env bound) {v : Variable}
    (hv : env.resolve bound v.name = some v) (σ : Substitution) :
    Unify.leaf .nothing ⟨ctx.bound, bound⟩ σ (.var (ctx.target v)) (.var v) = some σ := by
  cases hbound : Environment.find? bound v.name with
  | none =>
      have hleft := findIdx?_eq_none ((h.find?_eq_none_iff v.name).mpr hbound)
      have hright := findIdx?_eq_none hbound
      rw [h.target_eq_self hv hbound]
      simp [Unify.leaf, Binders.depth?, hleft, hright, Bindable.allows]
  | some w =>
      have hw : w = v := by
        rw [Environment.resolve, hbound] at hv
        exact Option.some.inj hv
      subst hw
      obtain ⟨u, hu, i, hleft, hright⟩ := findIdx?_of_find? h.names hbound
      have htarget : ctx.target w = u := by
        rw [Context.target, Context.resolve, hu]
        rfl
      rw [htarget]
      simp [Unify.leaf, Binders.depth?, hleft, hright]

end Reader

open Reader

section Terms
variable {ctx : Context} {env : Environment} {bound : List Variable}

theorem Term.resolve_of_occursIn {t : Term} {v : Variable} (h : t.isPrintable env bound = true)
    (hv : (Term.var v).occursIn t = true) : env.resolve bound v.name = some v := by
  induction t using Term.inductionOn with
  | var w =>
      have hw : w = v := by simpa [Term.occursIn] using hv
      subst hw
      simpa [Term.isPrintable] using h
  | const name => simp [Term.occursIn] at hv
  | num n => simp [Term.occursIn] at hv
  | app head args ih =>
      rw [Term.isPrintable, Term.arePrintable_eq_all, Bool.and_eq_true, List.all_eq_true] at h
      have harg : ∃ t ∈ args, (Term.var v).occursIn t = true := by simpa [Term.occursIn] using hv
      obtain ⟨t, ht, hvt⟩ := harg
      exact ih t ht (h.2 t ht) hvt

theorem Term.exists_of_occursIn_mapVariables {f : Variable → Variable} {t : Term} {w : Variable}
    (h : (Term.var w).occursIn (t.mapVariables f) = true) :
    ∃ v, (Term.var v).occursIn t = true ∧ f v = w := by
  induction t using Term.inductionOn with
  | var v =>
      refine ⟨v, by simp [Term.occursIn], ?_⟩
      simpa [Term.mapVariables, Term.occursIn] using h
  | const name => simp [Term.mapVariables, Term.occursIn] at h
  | num n => simp [Term.mapVariables, Term.occursIn] at h
  | app head args ih =>
      have harg : ∃ t ∈ args, (Term.var w).occursIn (t.mapVariables f) = true := by
        simpa [Term.mapVariables, Term.occursIn] using h
      obtain ⟨t, ht, hwt⟩ := harg
      obtain ⟨v, hv, hfv⟩ := ih t ht hwt
      refine ⟨v, ?_, hfv⟩
      rw [Term.occursIn, Term.occursInAny_eq_any, Bool.or_eq_true, List.any_eq_true]
      exact .inr ⟨t, ht, hv⟩

theorem Unify.terms_of_forall {binders : Binders} {f : Term → Term} {ts : List Term}
    (h : ∀ t ∈ ts, ∀ σ, Unify.term .nothing binders σ (f t) t = some σ) (σ : Substitution) :
    Unify.terms .nothing binders σ (ts.map f) ts = some σ := by
  induction ts with
  | nil => rfl
  | cons t ts ih =>
      rw [List.map_cons, Unify.terms, h t List.mem_cons_self]
      exact ih fun u hu => h u (List.mem_cons_of_mem _ hu)

/-- What is read for a printable term unifies with it. -/
theorem Term.unify_mapVariables {t : Term} (hmirrors : ctx.Mirrors env bound)
    (h : t.isPrintable env bound = true) (σ : Substitution) :
    Unify.term .nothing ⟨ctx.bound, bound⟩ σ (t.mapVariables ctx.target) t = some σ := by
  induction t using Term.inductionOn generalizing σ with
  | var v =>
      rw [Term.isPrintable, beq_iff_eq] at h
      exact hmirrors.unify_var h σ
  | const name => simp [Term.mapVariables, Unify.term, Unify.leaf, Binders.depth?]
  | num n => simp [Term.mapVariables, Unify.term, Unify.leaf, Binders.depth?]
  | app head args ih =>
      rw [Term.isPrintable, Term.arePrintable_eq_all, Bool.and_eq_true, List.all_eq_true] at h
      rw [Term.mapVariables, Term.mapVariablesList_eq_map, Unify.term, if_pos rfl]
      exact Unify.terms_of_forall (fun t ht => ih t ht (h.2 t ht)) σ

/-- With no quantifiers around, a printable term is read as it is. -/
theorem Term.mapVariables_eq_self {t : Term} (hmirrors : ctx.Mirrors env [])
    (h : t.isPrintable env [] = true) : t.mapVariables ctx.target = t := by
  induction t using Term.inductionOn with
  | var v =>
      rw [Term.isPrintable, beq_iff_eq] at h
      rw [Term.mapVariables, hmirrors.target_eq_self h rfl]
  | const name => rfl
  | num n => rfl
  | app head args ih =>
      rw [Term.isPrintable, Term.arePrintable_eq_all, Bool.and_eq_true, List.all_eq_true] at h
      rw [Term.mapVariables, Term.mapVariablesList_eq_map]
      have hargs : args.map (mapVariables ctx.target) = args.map id :=
        List.map_congr_left fun t ht => ih t ht (h.2 t ht)
      rw [hargs, List.map_id]

end Terms

namespace Proposition

/-- The second proposition is a copy of the first one that a reader makes under quantifiers, and
binds no other names. -/
structure Copies (ctx : Context) (bound : List Variable) (p copy : Proposition) : Prop where
  unify : ∀ σ, Unify.proposition .nothing ⟨ctx.bound, bound⟩ σ copy p = some σ
  binds : ∀ v, copy.binds v = true → ∃ w, p.binds w = true ∧ w.name = v.name

section Copies
variable {ctx : Context} {env : Environment} {bound : List Variable}
  {a a' b b' p p' : Proposition} (mark : Option FactId)

theorem Copies.relation {args : List Term} (hmirrors : ctx.Mirrors env bound)
    (h : ∀ t ∈ args, t.isPrintable env bound = true) (name : String) :
    Copies ctx bound (.relation name args mark)
      (.relation name (args.map (Term.mapVariables ctx.target))) where
  unify := by
    intro σ
    rw [Unify.proposition, if_pos rfl]
    exact Unify.terms_of_forall (fun t ht => Term.unify_mapVariables hmirrors (h t ht)) σ
  binds := nofun

theorem Copies.not (h : Copies ctx bound p p') : Copies ctx bound (.not p mark) (.not p') where
  unify := h.unify
  binds := h.binds

theorem Copies.implies (ha : Copies ctx bound a a') (hb : Copies ctx bound b b') :
    Copies ctx bound (.implies a b mark) (.implies a' b') where
  unify := by
    intro σ
    simp only [Unify.proposition, ha.unify, hb.unify]
  binds := by
    intro v hv
    rw [Proposition.binds, Bool.or_eq_true] at hv
    rcases hv with hv | hv
    · obtain ⟨w, hw, hname⟩ := ha.binds v hv
      exact ⟨w, by simp [Proposition.binds, hw], hname⟩
    · obtain ⟨w, hw, hname⟩ := hb.binds v hv
      exact ⟨w, by simp [Proposition.binds, hw], hname⟩

theorem Copies.iff (ha : Copies ctx bound a a') (hb : Copies ctx bound b b') :
    Copies ctx bound (.iff a b mark) (.iff a' b') where
  unify := by
    intro σ
    simp only [Unify.proposition, ha.unify, hb.unify]
  binds := (ha.implies mark hb).binds

theorem Copies.junction {c : Connective} {ps ps' : List Proposition}
    (h : List.Forall₂ (Copies ctx bound) ps ps') :
    Copies ctx bound (.junction c ps mark) (.junction c ps') where
  unify := by
    intro σ
    rw [Unify.proposition, if_pos rfl]
    induction h with
    | nil => rfl
    | cons hp _ ih =>
        rw [Unify.members, hp.unify]
        exact ih
  binds := by
    intro v hv
    simp only [Proposition.binds, bindsAny_eq_any] at hv ⊢
    induction h with
    | nil => cases hv
    | cons hp _ ih =>
        rw [List.any_cons, Bool.or_eq_true] at hv
        rcases hv with hv | hv
        · obtain ⟨w, hw, hname⟩ := hp.binds v hv
          exact ⟨w, by simp [hw], hname⟩
        · obtain ⟨w, hw, hname⟩ := ih hv
          exact ⟨w, by simp [hw], hname⟩

theorem Copies.quantified {q : Quantifier} {v v' : Variable} {domain domain' : Option Term}
    (hname : v'.name = v.name)
    (hdomain : ∀ σ, Unify.domain .nothing ⟨ctx.bound, bound⟩ σ domain' domain = some σ)
    (h : Copies { ctx with bound := v' :: ctx.bound } (v :: bound) p p') :
    Copies ctx bound (.quantified q v domain p mark) (.quantified q v' domain' p') where
  unify := by
    intro σ
    rw [Unify.proposition, if_pos rfl, hdomain]
    exact h.unify σ
  binds := by
    intro w hw
    rw [Proposition.binds, Bool.or_eq_true, beq_iff_eq] at hw
    rcases hw with rfl | hw
    · exact ⟨v, by simp [Proposition.binds], hname.symm⟩
    · obtain ⟨u, hu, hsame⟩ := h.binds w hw
      exact ⟨u, by simp [Proposition.binds, hu], hsame⟩

/-- What a printable proposition binds has a name that is not bound around it. -/
theorem find?_of_binds {v : Variable} (h : p.isPrintable env bound = true)
    (hv : p.binds v = true) : Environment.find? bound v.name = none := by
  induction p using Proposition.inductionOn generalizing bound with
  | relation name args mark => cases hv
  | not p mark ih => exact ih h hv
  | junction c ps mark ih =>
      rw [isPrintable, arePrintable_eq_all, List.all_eq_true] at h
      rw [Proposition.binds, bindsAny_eq_any, List.any_eq_true] at hv
      obtain ⟨p, hp, hv⟩ := hv
      exact ih p hp (h p hp) hv
  | implies a b mark iha ihb =>
      rw [isPrintable, Bool.and_eq_true] at h
      rw [Proposition.binds, Bool.or_eq_true] at hv
      rcases hv with hv | hv
      · exact iha h.1 hv
      · exact ihb h.2 hv
  | iff a b mark iha ihb =>
      rw [isPrintable, Bool.and_eq_true] at h
      rw [Proposition.binds, Bool.or_eq_true] at hv
      rcases hv with hv | hv
      · exact iha h.1 hv
      · exact ihb h.2 hv
  | quantified q w domain p mark ih =>
      simp only [isPrintable, Bool.and_eq_true, Option.isNone_iff_eq_none] at h
      obtain ⟨⟨⟨⟨-, hfree⟩, -⟩, -⟩, hbody⟩ := h
      rw [Proposition.binds, Bool.or_eq_true, beq_iff_eq] at hv
      rcases hv with rfl | hv
      · exact hfree
      · have hinner := ih hbody hv
        rw [find?_eq_none] at hinner ⊢
        exact fun hmem => hinner (List.mem_cons_of_mem _ hmem)
  | contradiction mark => cases h

/-- The construction of a copy from the parts that a reader gets for a quantified proposition passes
its checks. -/
theorem quantified?_copies {q : Quantifier} {v v' : Variable} {domain : Option Term}
    (hmirrors : ctx.Mirrors env bound)
    (hprintable : isPrintable env bound (.quantified q v domain p mark) = true)
    (hmade : isWellMade (.quantified q v domain p mark) = true) (hname : v'.name = v.name)
    (h : Copies { ctx with bound := v' :: ctx.bound } (v :: bound) p p') :
    ∃ copy, quantified? q (some v') (domain.map (Term.mapVariables ctx.target)) p' = .ok copy ∧
      Copies ctx bound (.quantified q v domain p mark) copy := by
  simp only [isPrintable, Bool.and_eq_true, Option.isNone_iff_eq_none] at hprintable
  obtain ⟨⟨⟨⟨-, hfree⟩, hsame⟩, hdomain⟩, hbody⟩ := hprintable
  simp only [isWellMade, Bool.and_eq_true] at hmade
  have hbinds : p'.binds v' = false := by
    by_contra hbinds
    rw [Bool.not_eq_false] at hbinds
    obtain ⟨w, hw, hwname⟩ := h.binds v' hbinds
    have hnone := find?_of_binds hbody hw
    rw [find?_cons, if_pos (hname.symm.trans hwname.symm)] at hnone
    cases hnone
  cases domain with
  | none =>
      refine ⟨.quantified q v' none p', ?_, .quantified mark hname (fun _ => rfl) h⟩
      simp [quantified?, hbinds]
  | some set =>
      have hmentions : (Term.var v').occursIn (set.mapVariables ctx.target) = false := by
        by_contra hmentions
        rw [Bool.not_eq_false] at hmentions
        obtain ⟨u, hu, htarget⟩ := Term.exists_of_occursIn_mapVariables hmentions
        have hresolve := Term.resolve_of_occursIn hdomain hu
        have huname : u.name = v.name := by
          rw [← hmirrors.name_target hresolve, htarget, hname]
        -- No quantifier around binds the name, so `u` is the declared variable, which is `v`.
        rw [huname, Environment.resolve, hfree, Option.none_or] at hresolve
        rw [hresolve] at hsame
        have huv : u = v := by simpa using hsame
        rw [huv] at hu
        simp [hu] at hmade
      refine ⟨.quantified q v' (some (set.mapVariables ctx.target)) p', ?_,
        .quantified mark hname (fun σ => Term.unify_mapVariables hmirrors hdomain σ) h⟩
      simp [quantified?, hbinds, hmentions]

end Copies

end Proposition

end Entailment

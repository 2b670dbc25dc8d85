import Entailment.Proofs.Interpretation
import Entailment.Proofs.Run
import Mathlib.Algebra.Order.Field.Basic
import Mathlib.Algebra.Order.Field.Rat
import Mathlib.Data.Fin.VecNotation
import Mathlib.Order.Max

/-!
# Chains of relations

A chain adds up its links to a direction and a strictness. What these say of the two ends of a chain
holds in every partial order in which the links hold. In a dense order without end points it is also
all that the links say: any two elements related in this way, or any two at all if the links run
both ways, are the ends of elements that the links relate. So a chain that does not give a relation
leaves room for ends that are not related by it.
-/
namespace Entailment

universe u

namespace Direction

def Relates {D : Type u} [PartialOrder D] (x y : D) : Direction → Prop
  | .level => x = y
  | .ascending => x ≤ y
  | .descending => y ≤ x

section Relates
variable {D : Type u} [PartialOrder D] {x y z : D} {d : Direction}

theorem relates_of_eq (h : x = y) : d.Relates x y := by
  cases d with
  | level => exact h
  | ascending => exact h.le
  | descending => exact h.ge

theorem relates_refl (x : D) : d.Relates x x := relates_of_eq rfl

theorem Relates.trans (hxy : d.Relates x y) (hyz : d.Relates y z) : d.Relates x z := by
  cases d with
  | level => exact Eq.trans hxy hyz
  | ascending => exact le_trans hxy hyz
  | descending => exact le_trans hyz hxy

theorem Relates.antisymm (hxy : d.Relates x y) (hyx : d.Relates y x) : x = y := by
  cases d with
  | level => exact hxy
  | ascending => exact le_antisymm hxy hyx
  | descending => exact le_antisymm hyx hxy

theorem Relates.eq_of_ne {d' : Direction} (h : d.Relates x y) (h' : d'.Relates x y)
    (hne : d ≠ d') : x = y := by
  cases d with
  | level => exact h
  | ascending =>
      cases d' with
      | level => exact h'
      | ascending => exact absurd rfl hne
      | descending => exact le_antisymm h h'
  | descending =>
      cases d' with
      | level => exact h'
      | ascending => exact le_antisymm h' h
      | descending => exact absurd rfl hne

/-- What a direction and a strictness say of two elements of an order. -/
def Holds (d : Direction) (strict : Bool) (x y : D) : Prop :=
  d.Relates x y ∧ (strict = true → x ≠ y)

end Relates

section Dense
variable {D : Type u} [LinearOrder D] {x z : D} {d : Direction}

theorem Relates.between [DenselyOrdered D] (h : d.Relates x z) (hne : x ≠ z) :
    ∃ y, d.Holds true x y ∧ d.Holds true y z := by
  cases d with
  | level => exact absurd h hne
  | ascending =>
      obtain ⟨y, hxy, hyz⟩ := exists_between (lt_of_le_of_ne h hne)
      exact ⟨y, ⟨hxy.le, fun _ => hxy.ne⟩, ⟨hyz.le, fun _ => hyz.ne⟩⟩
  | descending =>
      obtain ⟨y, hzy, hyx⟩ := exists_between (lt_of_le_of_ne h hne.symm)
      exact ⟨y, ⟨hyx.le, fun _ => hyx.ne'⟩, ⟨hzy.le, fun _ => hzy.ne'⟩⟩

/-- Whichever way a relation runs, it leads to each element from some other one. -/
theorem exists_before [NoMaxOrder D] [NoMinOrder D] (hd : d ≠ .level) (strict : Bool) (z : D) :
    ∃ y, d.Holds strict y z := by
  cases d with
  | level => exact absurd rfl hd
  | ascending =>
      obtain ⟨y, hy⟩ := exists_lt z
      exact ⟨y, hy.le, fun _ => hy.ne⟩
  | descending =>
      obtain ⟨y, hy⟩ := exists_gt z
      exact ⟨y, hy.le, fun _ => hy.ne'⟩

/-- What lies beyond two elements can be reached from one of them and left for the other. -/
theorem exists_turn [NoMaxOrder D] [NoMinOrder D] {d' : Direction} (hd : d ≠ .level)
    (hd' : d' ≠ .level) (hne : d ≠ d') (strict strict' : Bool) (x z : D) :
    ∃ y, d.Holds strict x y ∧ d'.Holds strict' y z := by
  cases d with
  | level => exact absurd rfl hd
  | ascending =>
      cases d' with
      | level => exact absurd rfl hd'
      | ascending => exact absurd rfl hne
      | descending =>
          obtain ⟨y, hy⟩ := exists_gt (max x z)
          obtain ⟨hx, hz⟩ := max_lt_iff.mp hy
          exact ⟨y, ⟨hx.le, fun _ => hx.ne⟩, ⟨hz.le, fun _ => hz.ne'⟩⟩
  | descending =>
      cases d' with
      | level => exact absurd rfl hd'
      | ascending =>
          obtain ⟨y, hy⟩ := exists_lt (min x z)
          obtain ⟨hx, hz⟩ := lt_min_iff.mp hy
          exact ⟨y, ⟨hx.le, fun _ => hx.ne'⟩, ⟨hz.le, fun _ => hz.ne⟩⟩
      | descending => exact absurd rfl hne

end Dense

end Direction

namespace Link

def Holds {D : Type u} [PartialOrder D] (l : Link) (x y : D) : Prop :=
  l.direction.Holds l.strict x y

section Members
variable {D : Type u} [PartialOrder D] {x y : D}

@[simp] theorem holds_level : Holds ⟨.level, false⟩ x y ↔ x = y := by
  simp [Holds, Direction.Holds, Direction.Relates]

@[simp] theorem holds_ascending : Holds ⟨.ascending, false⟩ x y ↔ x ≤ y := by
  simp [Holds, Direction.Holds, Direction.Relates]

@[simp] theorem holds_ascending_strict : Holds ⟨.ascending, true⟩ x y ↔ x < y := by
  simp [Holds, Direction.Holds, Direction.Relates, lt_iff_le_and_ne]

@[simp] theorem holds_descending : Holds ⟨.descending, false⟩ x y ↔ y ≤ x := by
  simp [Holds, Direction.Holds, Direction.Relates]

@[simp] theorem holds_descending_strict : Holds ⟨.descending, true⟩ x y ↔ y < x := by
  simp [Holds, Direction.Holds, Direction.Relates, lt_iff_le_and_ne, ne_comm]

end Members

/-- Nothing is strict without a direction. -/
def IsProper (l : Link) : Prop := l.direction = .level → l.strict = false

/-- The links lead from one element to another. -/
def Join {D : Type u} [PartialOrder D] : List Link → D → D → Prop
  | [], x, z => x = z
  | l :: ls, x, z => ∃ y, l.Holds x y ∧ Join ls y z

/-- The elements that links lead through. -/
theorem Join.elements {D : Type u} [PartialOrder D] {ls : List Link} {x z : D}
    (h : Join ls x z) :
    ∃ d : ℕ → D, d 0 = x ∧ d ls.length = z ∧
      ∀ i (hi : i < ls.length), ls[i].Holds (d i) (d (i + 1)) := by
  induction ls generalizing x with
  | nil => exact ⟨fun _ => x, rfl, h, by simp⟩
  | cons l ls ih =>
      obtain ⟨y, hl, hjoin⟩ := h
      obtain ⟨d, hfirst, hlast, hlinks⟩ := ih hjoin
      refine ⟨fun n => n.casesOn x d, rfl, hlast, ?_⟩
      intro i hi
      cases i with
      | zero => simpa [hfirst] using hl
      | succ i => exact hlinks i (by simpa using hi)

end Link

namespace Session.Chain

def Holds {D : Type u} [PartialOrder D] (c : Chain) (x y : D) : Prop :=
  c.direction.Holds c.strict x y

def IsProper (c : Chain) : Prop := c.direction = .level → c.strict = false

/-- A chain without links. -/
def empty : Chain := ⟨.level, false⟩

theorem empty_isProper : empty.IsProper := fun _ => rfl

/-- Whether a chain gives a relation between its ends: equalities give all that is not strict. -/
def Gives (c : Chain) (goal : Link) : Prop :=
  (c.direction = .level ∨ c.direction = goal.direction) ∧ (goal.strict = true → c.strict = true)

/-- The three ways in which a chain grows: by an equality, from equalities, and on its way. -/
theorem extend_cases {c c' : Chain} {l : Link} (h : c.extend l = some c') :
    c'.strict = (c.strict || l.strict) ∧
      ((l.direction = .level ∧ c'.direction = c.direction) ∨
        (c.direction = .level ∧ c'.direction = l.direction) ∨
          (l.direction = c.direction ∧ c'.direction = c.direction)) := by
  obtain ⟨direction, strict⟩ := c
  obtain ⟨direction', strict'⟩ := l
  cases direction <;> cases direction' <;> simp_all [extend] <;> simp [← h]

theorem extend_eq_none {c : Chain} {l : Link} (h : c.extend l = none) :
    c.direction ≠ .level ∧ l.direction ≠ .level ∧ c.direction ≠ l.direction := by
  obtain ⟨direction, strict⟩ := c
  obtain ⟨direction', strict'⟩ := l
  cases direction <;> cases direction' <;> simp_all [extend]

section Soundness
variable {D : Type u} [PartialOrder D] {c c' : Chain} {l : Link} {ls : List Link} {x y z : D}

/-- A longer chain relates all that its parts relate. -/
theorem relates_of_extend (h : c.extend l = some c') :
    (c.direction.Relates x y → c'.direction.Relates x y) ∧
      (l.direction.Relates x y → c'.direction.Relates x y) := by
  obtain ⟨-, ⟨hlevel, hd⟩ | ⟨hlevel, hd⟩ | ⟨hsame, hd⟩⟩ := extend_cases h
  · rw [hd, hlevel]
    exact ⟨id, Direction.relates_of_eq⟩
  · rw [hd, hlevel]
    exact ⟨Direction.relates_of_eq, id⟩
  · rw [hd, hsame]
    exact ⟨id, id⟩

theorem Holds.extend (hc : c.Holds x y) (hl : l.Holds y z) (h : c.extend l = some c') :
    c'.Holds x z := by
  have hfirst : c'.direction.Relates x y := (relates_of_extend h).1 hc.1
  have hsecond : c'.direction.Relates y z := (relates_of_extend h).2 hl.1
  refine ⟨hfirst.trans hsecond, ?_⟩
  intro hstrict hxz
  have hxy : x = y := hfirst.antisymm (hxz ▸ hsecond)
  rw [(extend_cases h).1, Bool.or_eq_true] at hstrict
  cases hstrict with
  | inl hstrict => exact hc.2 hstrict hxy
  | inr hstrict => exact hl.2 hstrict (hxy.symm.trans hxz)

/-- The ends of links that hold are related as the links add up to. -/
theorem Holds.foldlM {found : Chain} (hc : c.Holds x y) (hls : Link.Join ls y z)
    (h : ls.foldlM Chain.extend c = some found) : found.Holds x z := by
  induction ls generalizing c y with
  | nil =>
      obtain rfl : y = z := hls
      cases h
      exact hc
  | cons l ls ih =>
      obtain ⟨w, hl, hjoin⟩ := hls
      obtain ⟨c', hc', hfold⟩ := Option.bind_eq_some_iff.mp h
      exact ih (hc.extend hl hc') hjoin hfold

theorem Gives.holds {goal : Link} (hgives : c.Gives goal) (h : c.Holds x z) :
    goal.Holds x z := by
  obtain ⟨hdirection, hstrict⟩ := hgives
  refine ⟨?_, fun hgoal => h.2 (hstrict hgoal)⟩
  cases hdirection with
  | inl hlevel =>
      have heq : Direction.level.Relates x z := hlevel ▸ h.1
      exact Direction.relates_of_eq heq
  | inr hsame => exact hsame ▸ h.1

end Soundness

section Exactness
variable {D : Type u} [LinearOrder D] {c c' : Chain} {l : Link} {ls : List Link} {x z : D}

theorem IsProper.extend (hc : c.IsProper) (hl : l.IsProper) (h : c.extend l = some c') :
    c'.IsProper := by
  obtain ⟨hstrict, hcase⟩ := extend_cases h
  intro hlevel
  have hboth : c.direction = .level ∧ l.direction = .level := by
    obtain ⟨hl, hd⟩ | ⟨hc, hd⟩ | ⟨hsame, hd⟩ := hcase
    · exact ⟨hd ▸ hlevel, hl⟩
    · exact ⟨hc, hd ▸ hlevel⟩
    · exact ⟨hd ▸ hlevel, hsame.trans (hd ▸ hlevel)⟩
  rw [hstrict, hc hboth.1, hl hboth.2]
  rfl

/-- Elements that a longer chain relates have one between them that its parts relate to them. -/
theorem Holds.split [DenselyOrdered D] (hxz : c'.Holds x z) (hc : c.IsProper) (hl : l.IsProper)
    (h : c.extend l = some c') : ∃ y, c.Holds x y ∧ l.Holds y z := by
  obtain ⟨hstrict, hcase⟩ := extend_cases h
  have hleft (hcs : c.strict = false) (hd : c'.direction = l.direction) :
      ∃ y, c.Holds x y ∧ l.Holds y z := by
    refine ⟨x, ⟨Direction.relates_refl x, by simp [hcs]⟩, hd ▸ hxz.1, ?_⟩
    intro hls
    exact hxz.2 (by simp [hstrict, hls])
  have hright (hls : l.strict = false) (hd : c'.direction = c.direction) :
      ∃ y, c.Holds x y ∧ l.Holds y z := by
    refine ⟨z, ⟨hd ▸ hxz.1, ?_⟩, Direction.relates_refl z, by simp [hls]⟩
    intro hcs
    exact hxz.2 (by simp [hstrict, hcs])
  obtain ⟨hlevel, hd⟩ | ⟨hlevel, hd⟩ | ⟨hsame, hd⟩ := hcase
  · exact hright (hl hlevel) hd
  · exact hleft (hc hlevel) hd
  · cases hcs : c.strict with
    | false => exact hleft hcs (hd.trans hsame.symm)
    | true =>
        cases hls : l.strict with
        | false => exact hright hls hd
        | true =>
            -- Only here does it take a dense order.
            have hne : x ≠ z := hxz.2 (by simp [hstrict, hcs])
            obtain ⟨y, hxy, hyz⟩ := (hd ▸ hxz.1 : c.direction.Relates x z).between hne
            refine ⟨y, ?_, ?_⟩
            · rwa [Holds, hcs]
            · rwa [Link.Holds, hls, hsame]

variable [NoMaxOrder D] [NoMinOrder D]

/-- Links that run the other way can lead a chain back to any element. -/
theorem exists_turn (h : c.extend l = none) (x z : D) : ∃ y, c.Holds x y ∧ l.Holds y z := by
  obtain ⟨hc, hl, hne⟩ := extend_eq_none h
  exact Direction.exists_turn hc hl hne c.strict l.strict x z

theorem exists_join_to (hls : ∀ l ∈ ls, l.IsProper) (z : D) : ∃ y, Link.Join ls y z := by
  induction ls with
  | nil => exact ⟨z, rfl⟩
  | cons l ls ih =>
      obtain ⟨hl, hls⟩ := List.forall_mem_cons.mp hls
      obtain ⟨w, hjoin⟩ := ih hls
      by_cases hlevel : l.direction = .level
      · exact ⟨w, w, ⟨Direction.relates_refl w, by simp [hl hlevel]⟩, hjoin⟩
      · obtain ⟨y, hy⟩ := Direction.exists_before hlevel l.strict w
        exact ⟨y, w, hy, hjoin⟩

/-- In a dense order without end points, links can lead from one element to another if these are
related as the links add up to, and always if the links run both ways. -/
theorem exists_join [DenselyOrdered D] (hc : c.IsProper) (hls : ∀ l ∈ ls, l.IsProper)
    (h : ∀ found, ls.foldlM Chain.extend c = some found → found.Holds x z) :
    ∃ y, c.Holds x y ∧ Link.Join ls y z := by
  induction ls generalizing c with
  | nil => exact ⟨z, h c rfl, rfl⟩
  | cons l ls ih =>
      obtain ⟨hl, hrest⟩ := List.forall_mem_cons.mp hls
      rw [List.foldlM_cons] at h
      cases hextend : c.extend l with
      | none =>
          obtain ⟨w, hjoin⟩ := exists_join_to hrest z
          obtain ⟨y, hy, hlink⟩ := exists_turn hextend x w
          exact ⟨y, hy, w, hlink, hjoin⟩
      | some c' =>
          rw [hextend] at h
          obtain ⟨w, hw, hjoin⟩ := ih (hc.extend hl hextend) hrest h
          obtain ⟨y, hy, hlink⟩ := hw.split hc hl hextend
          exact ⟨y, hy, w, hlink, hjoin⟩

/-- A chain that does not give a relation leaves room for ends that are not related by it. -/
theorem exists_not_holds [Nonempty D] {goal : Link} (hgives : ¬c.Gives goal) :
    ∃ x z : D, c.Holds x z ∧ ¬goal.Holds x z := by
  obtain ⟨z⟩ := ‹Nonempty D›
  by_cases hstrict : goal.strict = true ∧ c.strict = false
  · refine ⟨z, z, ⟨Direction.relates_refl z, by simp [hstrict.2]⟩, ?_⟩
    intro hgoal
    exact hgoal.2 hstrict.1 rfl
  · have hdirection : ¬(c.direction = .level ∨ c.direction = goal.direction) := by
      intro hdirection
      exact hgives ⟨hdirection, by simpa using hstrict⟩
    obtain ⟨hlevel, hne⟩ := not_or.mp hdirection
    obtain ⟨x, hrelates, hxz⟩ := Direction.exists_before hlevel true z
    refine ⟨x, z, ⟨hrelates, fun _ => hxz rfl⟩, ?_⟩
    intro hgoal
    exact hxz rfl (hrelates.eq_of_ne hgoal.1 hne)

end Exactness
end Session.Chain

namespace Order
variable {o : Order}

/-- The names of the relations tell these apart. -/
def Distinct (o : Order) : Prop :=
  [o.equal, o.less, o.lessEqual, o.greater, o.greaterEqual].Nodup

instance (o : Order) : Decidable o.Distinct :=
  inferInstanceAs (Decidable [o.equal, o.less, o.lessEqual, o.greater, o.greaterEqual].Nodup)

/-- Whether a proposition is a binary relation of the order. -/
def covers (o : Order) (p : Proposition) : Bool := p.isBinary && (o.classify p.name).isSome

theorem isProper_of_classify {name : String} {l : Link} (h : o.classify name = some l) :
    l.IsProper := by
  unfold classify at h
  intro hlevel
  split_ifs at h <;> cases h <;> first | rfl | cases hlevel

theorem Distinct.classify (h : o.Distinct) :
    o.classify o.equal = some ⟨.level, false⟩ ∧ o.classify o.less = some ⟨.ascending, true⟩ ∧
      o.classify o.lessEqual = some ⟨.ascending, false⟩ ∧
        o.classify o.greater = some ⟨.descending, true⟩ ∧
          o.classify o.greaterEqual = some ⟨.descending, false⟩ := by
  simp only [Distinct, List.nodup_cons, List.mem_cons, not_or, List.not_mem_nil] at h
  unfold Order.classify
  grind

/-- Facts lead from one term to another, and contribute these links. -/
inductive Leads (o : Order) : Term → List Fact → List Link → Term → Prop
  | nil (a : Term) : Leads o a [] [] a
  | cons {a w b : Term} {f : Fact} {l : Link} {fs : List Fact} {ls : List Link} :
      f.statement.sides? = some (a, w) → o.classify f.statement.name = some l →
        Leads o w fs ls b → Leads o a (f :: fs) (l :: ls) b

theorem Leads.links {a b : Term} {fs : List Fact} {ls : List Link} (h : o.Leads a fs ls b) :
    List.Forall₂ (fun f l => o.classify f.statement.name = some l) fs ls := by
  induction h with
  | nil a => exact .nil
  | cons _ hl _ ih => exact .cons hl ih

theorem isProper_of_links {fs : List Fact} {ls : List Link}
    (h : List.Forall₂ (fun f l => o.classify f.statement.name = some l) fs ls) :
    ∀ l ∈ ls, l.IsProper := by
  induction h with
  | nil => simp
  | cons hl _ ih => exact List.forall_mem_cons.mpr ⟨isProper_of_classify hl, ih⟩

/-- Relations of the order between variables, each of which starts where the one before ends. -/
theorem exists_leads {x : ℕ → Variable} {fs : List Fact}
    (hcovers : ∀ f ∈ fs, o.covers f.statement = true)
    (hsides : ∀ i (hi : i < fs.length),
      fs[i].statement.sides? = some (.var (x i), .var (x (i + 1)))) :
    ∃ ls, o.Leads (.var (x 0)) fs ls (.var (x fs.length)) := by
  induction fs generalizing x with
  | nil => exact ⟨[], .nil _⟩
  | cons f fs ih =>
      obtain ⟨hf, hfs⟩ := List.forall_mem_cons.mp hcovers
      obtain ⟨ls, hleads⟩ := ih (x := fun i => x (i + 1)) hfs fun i hi =>
        hsides (i + 1) (Nat.succ_lt_succ hi)
      obtain ⟨-, hclassify⟩ := Bool.and_eq_true_iff.mp hf
      obtain ⟨l, hl⟩ := Option.isSome_iff_exists.mp hclassify
      exact ⟨l :: ls, .cons (hsides 0 (Nat.succ_pos _)) hl hleads⟩

end Order

namespace Interpretation
variable {D : Type u} [PartialOrder D] {I : Interpretation D} {o : Order}

/-- The relations of an order are read as those of the domain. -/
structure ReadsOrder (I : Interpretation D) (o : Order) : Prop where
  equal : ∀ x y, I.relation o.equal [x, y] ↔ x = y
  less : ∀ x y, I.relation o.less [x, y] ↔ x < y
  lessEqual : ∀ x y, I.relation o.lessEqual [x, y] ↔ x ≤ y
  greater : ∀ x y, I.relation o.greater [x, y] ↔ x > y
  greaterEqual : ∀ x y, I.relation o.greaterEqual [x, y] ↔ x ≥ y

theorem ReadsOrder.relation_iff (h : I.ReadsOrder o) {name : String} {l : Link}
    (hl : o.classify name = some l) (x y : D) : I.relation name [x, y] ↔ l.Holds x y := by
  unfold Order.classify at hl
  split_ifs at hl with hname hname hname hname hname <;> cases hl
  · simp [hname, h.equal]
  · simp [hname, h.less]
  · simp [hname, h.lessEqual]
  · simp [hname, h.greater]
  · simp [hname, h.greaterEqual]

theorem ReadsOrder.satisfies_iff (h : I.ReadsOrder o) {p : Proposition} {l : Link} {a b : Term}
    (hl : o.classify p.name = some l) (hsides : p.sides? = some (a, b)) (ρ : Variable → D) :
    I.Satisfies ρ p ↔ l.Holds (I.value ρ a) (I.value ρ b) := by
  unfold Proposition.sides? at hsides
  split at hsides
  next name lhs rhs m =>
    cases hsides
    rw [← h.relation_iff hl]
    simp [Satisfies, Proposition.name]
  next => cases hsides

/-- Facts that hold relate the values of the terms they lead through. -/
theorem ReadsOrder.join (h : I.ReadsOrder o) {ρ : Variable → D} {a b : Term} {fs : List Fact}
    {ls : List Link} (hleads : o.Leads a fs ls b) (hfs : ∀ f ∈ fs, I.Satisfies ρ f.statement) :
    Link.Join ls (I.value ρ a) (I.value ρ b) := by
  induction hleads with
  | nil a => rfl
  | cons hsides hl _ ih =>
      obtain ⟨hf, hfs⟩ := List.forall_mem_cons.mp hfs
      exact ⟨_, (h.satisfies_iff hl hsides ρ).mp hf, ih hfs⟩

/-- The interpretation that gives the relations of an order their meaning, and nothing else. -/
def ofOrder (o : Order) (d : D) : Interpretation D where
  constant _ := d
  number _ := d
  function _ _ := d
  relation name args :=
    match o.classify name, args with
    | some l, [x, y] => l.Holds x y
    | _, _ => False

theorem ofOrder_readsOrder (h : o.Distinct) (d : D) : (ofOrder o d).ReadsOrder o := by
  obtain ⟨hequal, hless, hlessEqual, hgreater, hgreaterEqual⟩ := h.classify
  constructor <;> intro x y
  · simp [ofOrder, hequal]
  · simp [ofOrder, hless]
  · simp [ofOrder, hlessEqual]
  · simp [ofOrder, hgreater]
  · simp [ofOrder, hgreaterEqual]

end Interpretation

namespace Session

section Walk
variable {o : Order} {acc found : Chain} {a b : Term} {f q : Fact} {chain fs : List Fact}
  {s : Session}

/-- Facts that lead from one term to another and add up to a chain. -/
def Follows (o : Order) (a : Term) (acc : Chain) (fs : List Fact) (b : Term) (found : Chain) :
    Prop :=
  ∃ ls, o.Leads a fs ls b ∧ ls.foldlM Chain.extend acc = some found

theorem follows_cons : Follows o a acc (f :: fs) b found ↔
    ∃ w l acc', f.statement.sides? = some (a, w) ∧ o.classify f.statement.name = some l ∧
      acc.extend l = some acc' ∧ Follows o w acc' fs b found := by
  constructor
  · intro h
    obtain ⟨_, hleads, hfold⟩ := h
    cases hleads with
    | @cons _ w _ _ l _ ls hsides hl hrest =>
        obtain ⟨acc', hacc, hfold⟩ := Option.bind_eq_some_iff.mp hfold
        exact ⟨w, l, acc', hsides, hl, hacc, ls, hrest, hfold⟩
  · intro h
    obtain ⟨w, l, acc', hsides, hl, hacc, ls, hrest, hfold⟩ := h
    exact ⟨l :: ls, .cons hsides hl hrest, Option.bind_eq_some_iff.mpr ⟨acc', hacc, hfold⟩⟩

theorem follows_nil : Follows o a acc [] b found ↔ a = b ∧ acc = found := by
  constructor
  · intro h
    obtain ⟨_, hleads, hfold⟩ := h
    cases hleads
    exact ⟨rfl, Option.some.inj hfold⟩
  · intro h
    obtain ⟨rfl, rfl⟩ := h
    exact ⟨[], .nil a, rfl⟩

/-- A deduction that finds the chain that facts add up to, or fails because there is none. -/
def Walks (action : Action Chain) (s : Session) (o : Order) (a : Term) (acc : Chain)
    (fs : List Fact) : Prop :=
  Ensures action s (fun found t => t = s ∧ ∃ b, Follows o a acc fs b found)
    fun _ => ∀ b found, ¬Follows o a acc fs b found

theorem extendChain_walks {w : Term} (hsides : f.statement.sides? = some (a, w))
    (h : ∀ acc, Walks (followChain o chain (some f) acc fs) s o w acc fs) :
    Walks (match o.classify f.statement.name with
      | none => refuse .transitive (.notInOrder f.statement.name) [f]
      | some l =>
        match acc.extend l with
        | none => refuse .transitive .mixedDirections chain
        | some acc => followChain o chain (some f) acc fs) s o a acc (f :: fs) := by
  split
  next hnone =>
    intro b found hfollows
    obtain ⟨_, l, _, _, hl, _⟩ := follows_cons.mp hfollows
    rw [hnone] at hl
    cases hl
  next l hl =>
    split
    next hnone =>
      intro b found hfollows
      obtain ⟨_, l', acc', _, hl', hacc, _⟩ := follows_cons.mp hfollows
      rw [hl] at hl'
      cases hl'
      rw [hnone] at hacc
      cases hacc
    next acc' hacc =>
      apply (h acc').mono
      · intro found t ⟨ht, b, hfollows⟩
        exact ⟨ht, b, follows_cons.mpr ⟨w, l, acc', hsides, hl, hacc, hfollows⟩⟩
      · intro _ hno b found hfollows
        obtain ⟨w', l', acc'', hsides', hl', hacc', hrest⟩ := follows_cons.mp hfollows
        rw [hsides] at hsides'
        rw [hl] at hl'
        cases hsides'
        cases hl'
        rw [hacc] at hacc'
        cases hacc'
        exact hno b found hrest

theorem followChain_walks {lhs : Term} (hq : q.statement.sides? = some (lhs, a)) :
    Walks (followChain o chain (some q) acc fs) s o a acc fs := by
  induction fs generalizing q lhs a acc with
  | nil => exact ⟨rfl, a, follows_nil.mpr ⟨rfl, rfl⟩⟩
  | cons f fs ih =>
      unfold followChain
      split
      next hnone =>
        intro b found hfollows
        obtain ⟨_, _, _, hsides, _⟩ := follows_cons.mp hfollows
        rw [hnone] at hsides
        cases hsides
      next lhs' rhs hsides =>
        by_cases heq : a = lhs'
        · subst heq
          simp only [hq, Option.map_some, ne_eq, not_true_eq_false, if_false]
          exact extendChain_walks hsides fun acc => ih hsides
        · simp only [hq, Option.map_some, ne_eq, Option.some.injEq, heq, not_false_eq_true, if_true]
          intro b found hfollows
          obtain ⟨_, _, _, hsides', _⟩ := follows_cons.mp hfollows
          rw [hsides] at hsides'
          cases hsides'
          exact heq rfl

theorem followChain_start_walks :
    Ensures (followChain o chain none acc (f :: fs)) s
      (fun found t => t = s ∧ ∃ a b, Follows o a acc (f :: fs) b found)
      fun _ => ∀ a b found, ¬Follows o a acc (f :: fs) b found := by
  unfold followChain
  split
  next hnone =>
    intro a b found hfollows
    obtain ⟨_, _, _, hsides, _⟩ := follows_cons.mp hfollows
    rw [hnone] at hsides
    cases hsides
  next lhs rhs hsides =>
    apply (extendChain_walks hsides fun acc => followChain_walks hsides).mono
    · intro found t ⟨ht, b, hfollows⟩
      exact ⟨ht, lhs, b, hfollows⟩
    · intro _ hno a b found hfollows
      obtain ⟨_, _, _, hsides', _⟩ := follows_cons.mp hfollows
      rw [hsides] at hsides'
      cases hsides'
      exact hno b found hfollows

theorem Follows.first (h : Follows o a acc (f :: fs) b found) :
    ∃ w, f.statement.sides? = some (a, w) := by
  obtain ⟨w, _, _, hsides, _⟩ := follows_cons.mp h
  exact ⟨w, hsides⟩

theorem Follows.last (h : Follows o a acc (f :: fs) b found) :
    ∃ w, ((f :: fs).getLast (by simp)).statement.sides? = some (w, b) := by
  induction fs generalizing a acc f with
  | nil =>
      obtain ⟨w, _, _, hsides, _, _, hrest⟩ := follows_cons.mp h
      obtain ⟨hw, -⟩ := follows_nil.mp hrest
      exact ⟨a, hw ▸ hsides⟩
  | cons g fs ih =>
      obtain ⟨_, _, _, _, _, _, hrest⟩ := follows_cons.mp h
      exact ih hrest

/-- Facts add up to one chain at most. -/
theorem Follows.unique {a' b' : Term} {found' : Chain} (h : Follows o a acc fs b found)
    (h' : Follows o a' acc fs b' found') : found = found' := by
  induction fs generalizing a a' acc with
  | nil =>
      rw [follows_nil] at h h'
      exact h.2.symm.trans h'.2
  | cons f fs ih =>
      obtain ⟨w, l, acc₁, hsides, hl, hacc, hrest⟩ := follows_cons.mp h
      obtain ⟨w', l', acc₂, hsides', hl', hacc', hrest'⟩ := follows_cons.mp h'
      rw [hl] at hl'
      cases hl'
      rw [hacc] at hacc'
      cases hacc'
      exact ih hrest hrest'

/-- Chaining derives the wanted relation between the first and the last term if the links add up to
a chain that gives it, and fails otherwise. -/
theorem transitiveIn_gives {want : String} {goal : Link} (hwant : o.classify want = some goal)
    (h : ∀ g ∈ f :: fs, s.Proves g) :
    Ensures (transitiveIn o want ((f :: fs).map (some ·.proposition))) s
      (fun r _ => ∃ a b found, Follows o a .empty (f :: fs) b found ∧ found.Gives goal ∧
        r.statement = .relation want [a, b])
      fun _ => ∀ a b found, Follows o a .empty (f :: fs) b found → ¬found.Gives goal := by
  unfold transitiveIn
  rw [hwant]
  simp only [List.map_cons, List.isEmpty_cons, Bool.false_eq_true, if_false]
  apply Ensures.of_run_eq _ (requireAll_bind_run h)
  have hwalk : Ensures (followChain o (f :: fs) none .empty (f :: fs)) s
      (fun found t => t = s ∧ ∃ a b, Follows o a .empty (f :: fs) b found)
      fun _ => ∀ a b found, Follows o a .empty (f :: fs) b found → ¬found.Gives goal := by
    apply followChain_start_walks.mono
    · intro found t hfound
      exact hfound
    · intro _ hno a b found hfollows
      exact absurd hfollows (hno a b found)
  apply hwalk.bind
  intro found t hfound
  obtain ⟨ht, a, b, hfollows⟩ := hfound
  subst ht
  by_cases hgives : found.Gives goal
  · obtain ⟨hdirection, hstrict⟩ := hgives
    obtain ⟨w, hfirst⟩ := hfollows.first
    obtain ⟨w', hlast⟩ := hfollows.last
    rw [if_neg, if_neg, if_neg]
    · rw [List.head?_cons, Option.bind_some, hfirst,
        List.getLast?_eq_some_getLast (List.cons_ne_nil f fs), Option.bind_some, hlast]
      exact .derive ⟨a, b, found, hfollows, ⟨hdirection, hstrict⟩, rfl⟩
    · simpa using hstrict
    · grind
    · grind
  · have hfails : ∀ a b found', Follows o a .empty (f :: fs) b found' → ¬found'.Gives goal := by
      intro a b found' hfollows'
      rwa [← hfollows.unique hfollows']
    split
    next => exact hfails
    next =>
      split
      next => exact hfails
      next =>
        split
        next => exact hfails
        next =>
          exfalso
          apply hgives
          constructor <;> grind

end Walk

section Countermodels
variable {o : Order} {goal : Link} {fs : List Fact} {want : String} {x : ℕ → Variable}

/-- Some ends that links leave room for are not related as wanted. -/
theorem exists_ends {ls : List Link}
    (hno : ∀ found, ls.foldlM Chain.extend .empty = some found → ¬found.Gives goal) :
    ∃ y z : ℚ, (∀ found, ls.foldlM Chain.extend .empty = some found → found.Holds y z) ∧
      ¬goal.Holds y z := by
  cases hfold : ls.foldlM Chain.extend .empty with
  | some found =>
      obtain ⟨y, z, hfound, hgoal⟩ := Chain.exists_not_holds (D := ℚ) (hno found hfold)
      refine ⟨y, z, ?_, hgoal⟩
      intro found' heq
      cases heq
      exact hfound
  | none =>
      have hother : ∃ c : Chain, ¬c.Gives goal := by
        cases hd : goal.direction with
        | level => exact ⟨⟨.ascending, true⟩, by simp [Chain.Gives, hd]⟩
        | ascending => exact ⟨⟨.descending, true⟩, by simp [Chain.Gives, hd]⟩
        | descending => exact ⟨⟨.ascending, true⟩, by simp [Chain.Gives, hd]⟩
      obtain ⟨c, hc⟩ := hother
      obtain ⟨y, z, -, hgoal⟩ := Chain.exists_not_holds (D := ℚ) hc
      exact ⟨y, z, nofun, hgoal⟩

/-- Links between different variables hold for some numbers that are not related as wanted, if they
do not add up to a chain that gives the wanted relation. -/
theorem exists_countermodel (hdistinct : o.Distinct) (hwant : o.classify want = some goal)
    (hcovers : ∀ f ∈ fs, o.covers f.statement = true) (hx : Set.InjOn x (Set.Iic fs.length))
    (hsides : ∀ i (hi : i < fs.length),
      fs[i].statement.sides? = some (.var (x i), .var (x (i + 1))))
    (hno : ∀ a b found, Follows o a .empty fs b found → ¬found.Gives goal) :
    ∃ (I : Interpretation ℚ) (ρ : Variable → ℚ), I.ReadsOrder o ∧
      (∀ f ∈ fs, I.Satisfies ρ f.statement) ∧
        ¬I.Satisfies ρ (.relation want [.var (x 0), .var (x fs.length)]) := by
  obtain ⟨ls, hleads⟩ := Order.exists_leads hcovers hsides
  have hlinks := hleads.links
  obtain ⟨y, z, hends, hgoal⟩ := exists_ends fun found hfound => hno _ _ _ ⟨ls, hleads, hfound⟩
  obtain ⟨y', hy', hjoin⟩ :=
    Chain.exists_join Chain.empty_isProper (Order.isProper_of_links hlinks) hends
  obtain rfl : y = y' := hy'.1
  obtain ⟨d, hfirst, hlast, hd⟩ := hjoin.elements
  have hreads := Interpretation.ofOrder_readsOrder hdistinct (0 : ℚ)
  let ρ : Variable → ℚ := fun v => d (Function.invFunOn x (Set.Iic fs.length) v)
  have hρ : ∀ i ≤ fs.length, ρ (x i) = d i := by
    intro i hi
    exact congrArg d (hx.leftInvOn_invFunOn hi)
  refine ⟨_, ρ, hreads, ?_, ?_⟩
  · intro f hf
    obtain ⟨i, hi, rfl⟩ := List.mem_iff_getElem.mp hf
    have hi' : i < ls.length := hlinks.length_eq ▸ hi
    have hl : o.classify fs[i].statement.name = some ls[i] := hlinks.get hi hi'
    rw [hreads.satisfies_iff hl (hsides i hi)]
    have hlink := hd i hi'
    rwa [← hρ i hi.le, ← hρ (i + 1) hi] at hlink
  · intro hwanted
    have hrelated : goal.Holds (ρ (x 0)) (ρ (x fs.length)) :=
      (hreads.relation_iff hwant _ _).mp hwanted
    rw [hρ 0 (Nat.zero_le _), hρ fs.length le_rfl, hfirst, hlinks.length_eq, hlast] at hrelated
    exact hgoal hrelated

end Countermodels

/-- Chaining is exact. What it derives from proven relations of an order is the wanted relation
between the first and the last term, and holds wherever the order is read as a partial order and all
links hold. If it fails on links that connect different variables, then there are a partial order
and values of the variables for which all links hold, but not the wanted relation between the first
and the last variable. -/
theorem transitiveIn_exact {o : Order} (hdistinct : o.Distinct) {want : String}
    (hwant : (o.classify want).isSome = true) {links : List Fact} (hne : links ≠ [])
    (hcovers : ∀ f ∈ links, o.covers f.statement = true) {s : Session}
    (hproven : ∀ f ∈ links, s.Proves f) :
    (∀ r s', transitiveIn o want (links.map (some ·.proposition)) s = .ok r s' →
      (∃ a a' b b', (links.head hne).statement.sides? = some (a, a') ∧
        (links.getLast hne).statement.sides? = some (b', b) ∧
          r.statement = .relation want [a, b]) ∧
      ∀ (D : Type u) [PartialOrder D] (I : Interpretation D) (ρ : Variable → D), I.ReadsOrder o →
        (∀ f ∈ links, I.Satisfies ρ f.statement) → I.Satisfies ρ r.statement) ∧
    ∀ x : ℕ → Variable, Set.InjOn x (Set.Iic links.length) →
      (∀ i (hi : i < links.length),
        links[i].statement.sides? = some (.var (x i), .var (x (i + 1)))) →
      ∀ e s', transitiveIn o want (links.map (some ·.proposition)) s = .error e s' →
        ∃ (D : Type) (_ : PartialOrder D) (I : Interpretation D) (ρ : Variable → D),
          I.ReadsOrder o ∧ (∀ f ∈ links, I.Satisfies ρ f.statement) ∧
            ¬I.Satisfies ρ (.relation want [.var (x 0), .var (x links.length)]) := by
  obtain ⟨goal, hgoal⟩ := Option.isSome_iff_exists.mp hwant
  cases links with
  | nil => exact absurd rfl hne
  | cons f fs =>
      have houtcome := transitiveIn_gives hgoal hproven
      constructor
      · intro r s' hrun
        obtain ⟨a, b, found, hfollows, hgives, hr⟩ := houtcome.answer hrun
        obtain ⟨a', hfirst⟩ := hfollows.first
        obtain ⟨b', hlast⟩ := hfollows.last
        refine ⟨⟨a, a', b, b', hfirst, hlast, hr⟩, ?_⟩
        intro D _ I ρ hreads hlinks
        obtain ⟨ls, hleads, hfold⟩ := hfollows
        have hjoin := hreads.join hleads hlinks
        have hempty : Chain.empty.Holds (I.value ρ a) (I.value ρ a) := ⟨rfl, nofun⟩
        have hfound : found.Holds (I.value ρ a) (I.value ρ b) := hempty.foldlM hjoin hfold
        rw [hr]
        exact (hreads.relation_iff hgoal _ _).mpr (hgives.holds hfound)
      · intro x hx hsides e s' hrun
        have hno : ∀ a b found, Follows o a .empty (f :: fs) b found → ¬found.Gives goal := by
          simpa only [Ensures, hrun] using houtcome
        obtain ⟨I, ρ, hreads, hlinks, hwrong⟩ :=
          exists_countermodel hdistinct hgoal hcovers hx hsides hno
        exact ⟨ℚ, inferInstance, I, ρ, hreads, hlinks, hwrong⟩

/-- The links `x < y` and `y ≤ z`. -/
def ascendingLinks : List Fact :=
  [⟨⟨0⟩, .rel .less (.var ⟨1, "x"⟩) (.var ⟨2, "y"⟩)⟩,
    ⟨⟨1⟩, .rel .lessEqual (.var ⟨2, "y"⟩) (.var ⟨3, "z"⟩)⟩]

/-- They give `x < z`, and leave room for different numbers `x` and `z`. -/
theorem transitiveIn_exact_ascending :
    let s := run {} (ascendingLinks.map (.postulate ·.statement))
    let chain (want : Relation) :=
      transitiveIn .numeric want.name (ascendingLinks.map (some ·.proposition)) s
    let relation (want : Relation) : Proposition :=
      .rel want (.var ⟨1, "x"⟩) (.var ⟨3, "z"⟩)
    (∃ r s', chain .less = .ok r s' ∧ r.statement = relation .less ∧
      ∀ (D : Type) [PartialOrder D] (I : Interpretation D) (ρ : Variable → D),
        I.ReadsOrder .numeric → (∀ f ∈ ascendingLinks, I.Satisfies ρ f.statement) →
          I.Satisfies ρ (relation .less)) ∧
    (∃ e s', chain .equal = .error e s') ∧
      ∃ (D : Type) (_ : PartialOrder D) (I : Interpretation D) (ρ : Variable → D),
        I.ReadsOrder .numeric ∧ (∀ f ∈ ascendingLinks, I.Satisfies ρ f.statement) ∧
          ¬I.Satisfies ρ (relation .equal) := by
  intro s chain relation
  have hdistinct : Order.numeric.Distinct := by decide
  have hcovers : ∀ f ∈ ascendingLinks, Order.numeric.covers f.statement = true := by decide
  have hproven : ∀ f ∈ ascendingLinks, s.Proves f := by
    intro f hf
    simp only [ascendingLinks, List.mem_cons, List.not_mem_nil, or_false] at hf
    rcases hf with rfl | rfl
    · exact ⟨_, rfl, rfl, rfl⟩
    · exact ⟨_, rfl, rfl, rfl⟩
  have hne : ascendingLinks ≠ [] := by decide
  have hless : (Order.numeric.classify Relation.less.name).isSome = true := by decide
  have hequal : (Order.numeric.classify Relation.equal.name).isSome = true := by decide
  refine ⟨⟨_, _, rfl, rfl, ?_⟩, ⟨_, _, rfl⟩, ?_⟩
  · exact ((transitiveIn_exact hdistinct hless hne hcovers hproven).1 _ _ rfl).2
  · let x : ℕ → Variable := fun i => ⟨i + 1, ["x", "y"].getD i "z"⟩
    have hx : Set.InjOn x (Set.Iic ascendingLinks.length) := by
      intro i _ j _ h
      exact Nat.succ.inj (congrArg Variable.id h)
    refine (transitiveIn_exact.{0} hdistinct hequal hne hcovers hproven).2 x hx ?_ _ _ rfl
    decide

end Session
end Entailment

import Cerebellum.Tableau
import Cerebellum.Transduce
import Cerebellum.Lib.Horn
import Mathlib.Data.Finset.Card

/-! The colours of a dependency graph: `propagate_rule_coloring` of
clara-cycle/src/transduction.rs, and the least fixed point it computes. -/
namespace Cerebellum.Transpile

section
variable {φ : Type}

/-- `term_functor_arity`. -/
def termFunctorArity : Term φ → Text × Nat
  | .atom s => (s, 0)
  | .compound functor args => (functor, args.length)
  | .var s => (s, 0)
  | _ => ("_".toList, 0)

/-- The map of functors to truth values. -/
@[ext] structure NodeColoring where
  values : Text → Option TruthValue

namespace NodeColoring

def insert (c : NodeColoring) (f : Text) (v : TruthValue) : NodeColoring :=
  ⟨Function.update c.values f (some v)⟩

/-- A positive goal of a meta-predicate is no condition, and a negative goal is none either. -/
def satisfied (c : NodeColoring) : BodyGoal φ → Bool
  | .negative _ => true
  | .positive t =>
    isMetaPredicate (termFunctorArity t).1 ||
      c.values (termFunctorArity t).1 == some .knownTrue

/-- One rule: the map behind it, and whether it has changed. -/
def visit (c : NodeColoring) (rule : PrologRule φ) : NodeColoring × Bool :=
  let head := (termFunctorArity rule.head).1
  if rule.body.isEmpty then (c, false)
  else if c.values head = some .knownTrue then (c, false)
  else if rule.body.all c.satisfied then (c.insert head .knownTrue, true)
  else (c, false)

/-- One turn of the loop. -/
def pass (c : NodeColoring) : List (PrologRule φ) → NodeColoring × Bool
  | [] => (c, false)
  | rule :: rules =>
    let (c, fired) := c.visit rule
    let (c, changed) := c.pass rules
    (c, fired || changed)

/-- The functors that are known to be true. -/
def known (c : NodeColoring) : Set Text := { f | c.values f = some .knownTrue }

/-- Values change to `KnownTrue` only. -/
instance : PartialOrder NodeColoring where
  le c d := ∀ f, d.values f = c.values f ∨ d.values f = some .knownTrue
  le_refl c f := .inl rfl
  le_trans c d e hcd hde f := by
    rcases hde f with h | h
    · rw [h]
      exact hcd f
    · exact .inr h
  le_antisymm c d hcd hdc := by
    ext1
    funext f
    rcases hcd f with h | h
    · exact h.symm
    · rcases hdc f with h' | h'
      · exact h'
      · rw [h, h']

theorem known_mono {c d : NodeColoring} (h : c ≤ d) : c.known ⊆ d.known := by
  intro f hf
  rcases h f with h | h
  · exact h.trans hf
  · exact h

theorem le_insert (c : NodeColoring) (f : Text) : c ≤ c.insert f .knownTrue := by
  intro g
  by_cases hg : g = f
  · exact .inr (by simp [insert, hg])
  · exact .inl (by simp [insert, hg])

/-- The conditions of a body. -/
def premises (body : List (BodyGoal φ)) : List Text :=
  body.filterMap fun
    | .negative _ => none
    | .positive t =>
      if isMetaPredicate (termFunctorArity t).1 then none else some (termFunctorArity t).1

theorem all_satisfied (c : NodeColoring) (body : List (BodyGoal φ)) :
    body.all c.satisfied ↔ ∀ f ∈ premises body, f ∈ c.known := by
  induction body with
  | nil => simp [premises]
  | cons g body ih =>
    have hcons : ∀ o : Option Text, premises (g :: body) = o.toList ++ premises body →
        (c.satisfied g ↔ ∀ f ∈ o, f ∈ c.known) →
        ((g :: body).all c.satisfied ↔ ∀ f ∈ premises (g :: body), f ∈ c.known) := by
      intro o hpremises hsat
      rw [List.all_cons, Bool.and_eq_true, hsat, ih, hpremises]
      simp [or_imp, forall_and]
    cases g with
    | negative t => exact hcons none rfl (by simp [satisfied])
    | positive t =>
      by_cases hmeta : isMetaPredicate (termFunctorArity t).1
      · exact hcons none (by simp [premises, hmeta]) (by simp [satisfied, hmeta])
      · refine hcons (some (termFunctorArity t).1) (by simp [premises, hmeta]) ?_
        simp [satisfied, hmeta, known]

/-- A rule with a body, as a Horn rule over functors. -/
def hornRule (rule : PrologRule φ) : Option (Horn.Rule Text) :=
  if rule.body.isEmpty then none
  else some ⟨(termFunctorArity rule.head).1, premises rule.body⟩

def hornRules (rules : List (PrologRule φ)) : List (Horn.Rule Text) := rules.filterMap hornRule

/-- A visit leaves a rule that does not ask for anything, or makes the head of one that does. -/
theorem visit_cases (c : NodeColoring) (rule : PrologRule φ) :
    (c.visit rule = (c, false) ∧ Horn.Closed (hornRules [rule]) c.known) ∨
      ∃ r, hornRule rule = some r ∧ (∀ f ∈ r.premises, f ∈ c.known) ∧ r.head ∉ c.known ∧
        c.visit rule = (c.insert r.head .knownTrue, true) := by
  have hrules : hornRules [rule] = (hornRule rule).toList := by
    cases h : hornRule rule <;> simp [hornRules, h]
  rw [hrules]
  by_cases hbody : rule.body.isEmpty
  · have hrule : hornRule rule = none := by simp only [hornRule, hbody, if_true]
    exact .inl ⟨by simp [visit, hbody], by simp [hrule, Horn.Closed]⟩
  have hrule : hornRule rule =
      some ⟨(termFunctorArity rule.head).1, premises rule.body⟩ := by simp [hornRule, hbody]
  rw [hrule]
  by_cases hhead : c.values (termFunctorArity rule.head).1 = some .knownTrue
  · refine .inl ⟨by simp [visit, hbody, hhead], fun r hr _ => ?_⟩
    rw [List.mem_singleton.mp hr]
    exact hhead
  by_cases hall : rule.body.all c.satisfied
  · refine .inr ⟨_, rfl, (all_satisfied c _).mp hall, hhead, ?_⟩
    simp [visit, hbody, hhead, hall]
  · refine .inl ⟨by simp [visit, hbody, hhead, hall], fun r hr hpremises => ?_⟩
    rw [List.mem_singleton.mp hr] at hpremises
    exact absurd ((all_satisfied c _).mpr hpremises) hall

theorem mem_hornRules {rules : List (PrologRule φ)} {rule : PrologRule φ} {r : Horn.Rule Text}
    (hmem : rule ∈ rules) (h : hornRule rule = some r) : r ∈ hornRules rules :=
  List.mem_filterMap.mpr ⟨rule, hmem, h⟩

theorem known_insert (c : NodeColoring) (f : Text) :
    (c.insert f .knownTrue).known = Set.insert f c.known := by
  ext g
  by_cases hg : g = f
  · simp [known, insert, hg, Set.insert]
  · simp [known, insert, hg, Set.insert]

theorem le_visit (c : NodeColoring) (rule : PrologRule φ) : c ≤ (c.visit rule).1 := by
  rcases visit_cases c rule with ⟨h, -⟩ | ⟨r, -, -, -, h⟩
  · rw [h]
  · rw [h]
    exact le_insert c r.head

theorem le_pass (c : NodeColoring) (rules : List (PrologRule φ)) : c ≤ (c.pass rules).1 := by
  induction rules generalizing c with
  | nil => exact le_refl c
  | cons rule rules ih => exact (le_visit c rule).trans (ih _)

/-- Whatever a pass makes true follows from the rules. -/
theorem known_pass (c : NodeColoring) (rules : List (PrologRule φ)) :
    (c.pass rules).1.known ⊆ Horn.Derived (hornRules rules) c.known := by
  induction rules generalizing c with
  | nil => exact fun f hf => .fact hf
  | cons rule rules ih =>
    have hvisit : (c.visit rule).1.known ⊆ Horn.Derived (hornRules (rule :: rules)) c.known := by
      rcases visit_cases c rule with ⟨h, -⟩ | ⟨r, hr, hpremises, -, h⟩
      · rw [h]
        exact fun f hf => .fact hf
      · rw [h, known_insert]
        rintro f (rfl | hf)
        · exact .rule (mem_hornRules (by simp) hr) fun k hk => .fact (hpremises k hk)
        · exact .fact hf
    intro f hf
    have hrules : hornRules rules ⊆ hornRules (rule :: rules) :=
      List.Sublist.subset (List.Sublist.filterMap _ (List.sublist_cons_self rule rules))
    exact Horn.Derived.trans hvisit ((ih _ hf).mono hrules (Set.Subset.refl _))

/-- A pass that changes nothing has found every rule satisfied. -/
theorem pass_unchanged {c : NodeColoring} {rules : List (PrologRule φ)}
    (h : (c.pass rules).2 = false) :
    (c.pass rules).1 = c ∧ Horn.Closed (hornRules rules) c.known := by
  induction rules generalizing c with
  | nil => exact ⟨rfl, fun r hr => by simp [hornRules] at hr⟩
  | cons rule rules ih =>
    simp only [pass, Bool.or_eq_false_iff] at h
    rcases visit_cases c rule with ⟨hvisit, hclosed⟩ | ⟨r, -, -, -, hvisit⟩
    · rw [hvisit] at h
      obtain ⟨heq, hrest⟩ := ih h.2
      refine ⟨by rw [pass, hvisit]; exact heq, fun r hr => ?_⟩
      have hsplit : hornRules (rule :: rules) = hornRules [rule] ++ hornRules rules :=
        List.filterMap_append (l := [rule])
      rw [hsplit] at hr
      exact (List.mem_append.mp hr).elim (hclosed r) (hrest r)
    · rw [hvisit] at h
      cases h.1

theorem visit_changed {c : NodeColoring} {rule : PrologRule φ} (h : (c.visit rule).2 = true) :
    (termFunctorArity rule.head).1 ∉ c.known ∧
      (termFunctorArity rule.head).1 ∈ (c.visit rule).1.known := by
  rcases visit_cases c rule with ⟨hvisit, -⟩ | ⟨r, hr, -, hhead, hvisit⟩
  · rw [hvisit] at h
    cases h
  · have hfunctor : r.head = (termFunctorArity rule.head).1 := by
      unfold hornRule at hr
      split at hr
      · cases hr
      · cases hr
        rfl
    rw [hvisit, known_insert, ← hfunctor]
    exact ⟨hhead, .inl rfl⟩

/-- A pass that changes the map makes the head of a rule true. -/
theorem pass_changed {c : NodeColoring} {rules : List (PrologRule φ)}
    (h : (c.pass rules).2 = true) :
    ∃ rule ∈ rules, (termFunctorArity rule.head).1 ∉ c.known ∧
      (termFunctorArity rule.head).1 ∈ (c.pass rules).1.known := by
  induction rules generalizing c with
  | nil => cases h
  | cons rule rules ih =>
    simp only [pass, Bool.or_eq_true] at h
    rcases h with h | h
    · obtain ⟨hno, hyes⟩ := visit_changed h
      exact ⟨rule, by simp, hno, known_mono (le_pass _ rules) hyes⟩
    · obtain ⟨rule', hmem, hno, hyes⟩ := ih h
      exact ⟨rule', by simp [hmem], fun hk => hno (known_mono (le_visit c rule) hk), hyes⟩

/-- The heads that are not known to be true. -/
def remaining (rules : List (PrologRule φ)) (c : NodeColoring) : Finset Text :=
  (rules.map fun rule => (termFunctorArity rule.head).1).toFinset.filter
    fun f => c.values f ≠ some .knownTrue

theorem remaining_pass {c : NodeColoring} {rules : List (PrologRule φ)}
    (h : (c.pass rules).2 = true) :
    (remaining rules (c.pass rules).1).card < (remaining rules c).card := by
  obtain ⟨rule, hmem, hno, hyes⟩ := pass_changed h
  refine Finset.card_lt_card ((Finset.ssubset_iff_of_subset ?_).mpr
    ⟨(termFunctorArity rule.head).1, ?_, ?_⟩)
  · exact Finset.monotone_filter_right _ fun f _ hf hk => hf (known_mono (le_pass c rules) hk)
  · exact Finset.mem_filter.mpr ⟨by simpa using ⟨rule, hmem, rfl⟩, hno⟩
  · exact fun hin => (Finset.mem_filter.mp hin).2 hyes

end NodeColoring

/-- `propagate_rule_coloring`. Every pass but the last makes one of the heads true. -/
def propagateRuleColoring (rules : List (PrologRule φ)) (coloring : NodeColoring) : NodeColoring :=
  if (coloring.pass rules).2 then propagateRuleColoring rules (coloring.pass rules).1
  else (coloring.pass rules).1
termination_by (NodeColoring.remaining rules coloring).card
decreasing_by exact NodeColoring.remaining_pass ‹_›

namespace NodeColoring

/-- What is true in the end is what follows from the rules; nothing else has changed. -/
theorem propagate_spec (rules : List (PrologRule φ)) (c : NodeColoring) :
    c ≤ propagateRuleColoring rules c ∧
      (propagateRuleColoring rules c).known = Horn.Derived (hornRules rules) c.known := by
  induction c using propagateRuleColoring.induct rules with
  | case1 c hchanged ih =>
    rw [propagateRuleColoring, if_pos hchanged]
    refine ⟨(le_pass c rules).trans ih.1, ih.2.trans (Set.Subset.antisymm ?_ ?_)⟩
    · exact fun f hf => Horn.Derived.trans (known_pass c rules) hf
    · exact fun f hf => hf.mono (List.Subset.refl _) (known_mono (le_pass c rules))
  | case2 c hunchanged =>
    obtain ⟨heq, hclosed⟩ := pass_unchanged (Bool.eq_false_iff.mpr hunchanged)
    rw [propagateRuleColoring, if_neg hunchanged, heq]
    refine ⟨le_refl c, ?_⟩
    ext f
    exact (Horn.derived_iff_of_closed hclosed).symm

/-- Every rule with a body whose conditions are known to be true has its head known so. -/
def Respects (c : NodeColoring) (rules : List (PrologRule φ)) : Prop :=
  ∀ rule ∈ rules, rule.body ≠ [] →
    (∀ t, .positive t ∈ rule.body → isMetaPredicate (termFunctorArity t).1 = false →
      c.values (termFunctorArity t).1 = some .knownTrue) →
    c.values (termFunctorArity rule.head).1 = some .knownTrue

theorem mem_premises {body : List (BodyGoal φ)} {f : Text} : f ∈ premises body ↔
    ∃ t, .positive t ∈ body ∧ isMetaPredicate (termFunctorArity t).1 = false ∧
      (termFunctorArity t).1 = f := by
  rw [premises, List.mem_filterMap]
  constructor
  · rintro ⟨g, hg, h⟩
    cases g with
    | negative t => cases h
    | positive t =>
      by_cases hmeta : isMetaPredicate (termFunctorArity t).1
      · simp [hmeta] at h
      · exact ⟨t, hg, by simpa using hmeta, by simpa [hmeta] using h⟩
  · rintro ⟨t, ht, hmeta, rfl⟩
    exact ⟨_, ht, by simp [hmeta]⟩

theorem respects_iff {c : NodeColoring} {rules : List (PrologRule φ)} :
    c.Respects rules ↔ Horn.Closed (hornRules rules) c.known := by
  constructor
  · intro h r hr hpremises
    obtain ⟨rule, hmem, hrule⟩ := List.mem_filterMap.mp hr
    unfold hornRule at hrule
    split at hrule
    · cases hrule
    · rename_i hbody
      cases hrule
      refine h rule hmem (by simpa using hbody) fun t ht hmeta => hpremises _ ?_
      exact mem_premises.mpr ⟨t, ht, hmeta, rfl⟩
  · intro h rule hmem hbody hconditions
    have hrule : hornRule rule = some ⟨(termFunctorArity rule.head).1, premises rule.body⟩ := by
      simp [hornRule, hbody]
    refine h _ (mem_hornRules hmem hrule) fun f hf => ?_
    obtain ⟨t, ht, hmeta, rfl⟩ := mem_premises.mp hf
    exact hconditions t ht hmeta

/-- Below everything that respects the rules. -/
theorem propagate_le {rules : List (PrologRule φ)} {c d : NodeColoring} (hle : c ≤ d)
    (hd : d.Respects rules) : propagateRuleColoring rules c ≤ d := by
  obtain ⟨hbelow, hknown⟩ := propagate_spec rules c
  intro f
  by_cases hf : f ∈ (propagateRuleColoring rules c).known
  · rw [hknown] at hf
    exact .inr (hf.least (known_mono hle) (respects_iff.mp hd))
  · -- a value that is not `KnownTrue` is the one at the start
    rcases hbelow f with h | h
    · rw [h]
      exact hle f
    · exact absurd h hf

/-- The loop ends in the least map above the first one that respects the rules, whatever the
order of the rules; another run changes nothing, and more known at the start is more known in
the end. -/
theorem propagateRuleColoring_least (rules : List (PrologRule φ)) (c : NodeColoring) :
    IsLeast { d | c ≤ d ∧ d.Respects rules } (propagateRuleColoring rules c) ∧
      (∀ rules', (∀ rule, rule ∈ rules' ↔ rule ∈ rules) →
        propagateRuleColoring rules' c = propagateRuleColoring rules c) ∧
      propagateRuleColoring rules (propagateRuleColoring rules c) =
        propagateRuleColoring rules c ∧
      ∀ d, c.known ⊆ d.known →
        (propagateRuleColoring rules c).known ⊆ (propagateRuleColoring rules d).known := by
  have hleast : ∀ (rules : List (PrologRule φ)) (c : NodeColoring),
      IsLeast { d | c ≤ d ∧ d.Respects rules } (propagateRuleColoring rules c) := by
    intro rules c
    obtain ⟨hbelow, hknown⟩ := propagate_spec rules c
    refine ⟨⟨hbelow, respects_iff.mpr ?_⟩, fun d hd => propagate_le hd.1 hd.2⟩
    rw [hknown]
    exact Horn.closed_derived _ _
  refine ⟨hleast rules c, fun rules' hsame => ?_, ?_, fun d hsub => ?_⟩
  · have hrespects : ∀ d : NodeColoring, d.Respects rules' ↔ d.Respects rules := fun d =>
      forall_congr' fun rule => imp_congr_left (hsame rule)
    refine (hleast rules' c).unique ?_
    simp only [hrespects]
    exact hleast rules c
  · exact le_antisymm (propagate_le (le_refl _) (hleast rules c).1.2) (hleast rules _).1.1
  · rw [(propagate_spec rules c).2, (propagate_spec rules d).2]
    exact fun f hf => hf.mono (List.Subset.refl _) hsub

end NodeColoring
end
end Cerebellum.Transpile

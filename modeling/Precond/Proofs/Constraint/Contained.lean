import Precond.Constraint.Refute
import Precond.Proofs.Constraint.Formula

/-! Constraints that have formulas. Their formulas are built whatever has been kept of other nodes,
and the goals that fail in a model can be told. -/

namespace Precond.Constr

/-- The action succeeds, whatever formulas are kept. -/
def Answers (x : Memoized α) : Prop := ∀ memo, ∃ r, x.run memo = .ok r

namespace Answers

theorem pure (a : α) : Answers (Pure.pure a) := fun memo => ⟨(a, memo), rfl⟩

theorem bind {x : Memoized α} {k : α → Memoized β} (hx : Answers x) (hk : ∀ a, Answers (k a)) :
    Answers (x >>= k) := by
  intro memo
  obtain ⟨⟨a, memo'⟩, ha⟩ := hx memo
  rw [StateT.run_bind, ha]
  exact hk a memo'

theorem lift {x : Except Fault α} (h : ∃ a, x = .ok a) : Answers (liftM x) := by
  obtain ⟨a, rfl⟩ := h
  exact fun memo => ⟨(a, memo), rfl⟩

theorem remember {id : Nat} {make : Memoized (Term .bool)} (h : Answers make) :
    Answers (Constr.remember id make) := by
  refine bind (fun memo => ⟨(memo, memo), rfl⟩) fun memo => ?_
  split
  · exact pure _
  · exact h.bind fun t => bind (fun memo => ⟨_, rfl⟩) fun _ => pure t

end Answers

/-- Terms are replaced by terms of their sorts. -/
def Sorted (pairs : List (SomeTerm × SomeTerm)) : Prop := ∃ swaps, Swap.ofPairs pairs = .ok swaps

theorem Sorted.of_sorts {pairs : List (SomeTerm × SomeTerm)} (h : ∀ p ∈ pairs, p.1.1 = p.2.1) :
    Sorted pairs := by
  induction pairs with
  | nil => exact ⟨[], rfl⟩
  | cons p pairs ih =>
    obtain ⟨swaps, hswaps⟩ := ih fun q hq => h q (List.mem_cons_of_mem _ hq)
    obtain ⟨⟨s, old⟩, s', new⟩ := p
    obtain rfl : s = s' := h _ List.mem_cons_self
    refine ⟨⟨old, new⟩ :: swaps, ?_⟩
    simp only [Swap.ofPairs, Swap.ofPair?, dite_true, hswaps]
    rfl

theorem Sorted.under {pairs : List (SomeTerm × SomeTerm)} (h : Sorted pairs) (t : Term .bool) :
    ∃ t', t.under pairs = .ok t' := by
  obtain ⟨swaps, hswaps⟩ := h
  refine ⟨t.replace swaps, ?_⟩
  rw [Term.under, hswaps]
  rfl

theorem formal_pairs {id : Nat} {body : Constr} {pairs : List (SomeTerm × SomeTerm)}
    (hbody : body.Formal) (h : ∀ p ∈ pairs, p.1.1 = p.2.1) : (subst id body pairs).Formal := by
  obtain ⟨t, ht⟩ := hbody
  obtain ⟨t', ht'⟩ := (Sorted.of_sorts h).under t
  exact ⟨t', by rw [plain, ht]; exact ht'⟩

theorem Formal.sorted {id : Nat} {body : Constr} {pairs : List (SomeTerm × SomeTerm)}
    (h : (subst id body pairs).Formal) : Sorted pairs := by
  obtain ⟨t, ht⟩ := h
  rw [plain] at ht
  obtain ⟨u, -, hu⟩ := bind_eq_ok ht
  obtain ⟨swaps, hs, -⟩ := bind_eq_ok hu
  exact ⟨swaps, hs⟩

mutual

theorem formula_answers : (c : Constr) → c.Formal → Answers c.formula
  | goal _ _ value _, _ => by
    rw [formula]
    exact .remember (.pure value)
  | c@(clause _ hyps goals), h => by
    rw [formula]
    refine .remember (.bind (formulas_answer hyps fun d hd => h.child (List.mem_append_left _ hd))
      fun hs => ?_)
    exact .bind (formulas_answer goals fun d hd => h.child (List.mem_append_right _ hd)) fun gs => .pure _
  | c@(branch _ _ _ yes no), h => by
    rw [formula]
    refine .remember (.bind (formula_answers yes (h.child List.mem_cons_self)) fun y => ?_)
    exact .bind (formula_answers no (h.child (List.mem_cons_of_mem _ List.mem_cons_self))) fun n => .pure _
  | c@(subst _ body pairs), h => by
    rw [formula]
    refine .remember (.bind (formula_answers body (h.child List.mem_cons_self)) fun t => ?_)
    exact .lift (h.sorted.under t)

theorem formulas_answer : (cs : List Constr) → (∀ c ∈ cs, c.Formal) → Answers (formulas cs)
  | [], _ => by
    rw [formulas]
    exact .pure _
  | c :: cs, h => by
    rw [formulas]
    refine .bind (formula_answers c (h c List.mem_cons_self)) fun t => ?_
    exact .bind (formulas_answer cs fun d hd => h d (List.mem_cons_of_mem _ hd)) fun ts => .pure _

end

theorem Formal.toFormula {c : Constr} (h : c.Formal) : ∃ t, c.toFormula = .ok t := by
  obtain ⟨⟨t, memo⟩, ht⟩ := formula_answers c h {}
  refine ⟨t, ?_⟩
  rw [Constr.toFormula, formulaWithMemo, ht]
  rfl

/-! ### Failed goals -/

variable {m : Model} {layers : Layers} (hl : ∀ pairs ∈ layers, Sorted pairs)

include hl in
theorem underAll_given (t : Term .bool) : ∃ t', underAll t layers = .ok t' := by
  induction layers generalizing t with
  | nil => exact ⟨t, rfl⟩
  | cons pairs layers ih =>
    obtain ⟨t', ht'⟩ := (hl pairs List.mem_cons_self).under t
    obtain ⟨t'', ht''⟩ := ih (fun p hp => hl p (List.mem_cons_of_mem _ hp)) t'
    refine ⟨t'', ?_⟩
    rw [underAll, List.foldlM_cons, ht']
    exact ht''

include hl in
theorem hypsHold_answers (hyps : List Constr) (h : ∀ c ∈ hyps, c.Formal) :
    Answers (hypsHold m layers hyps) := by
  induction hyps with
  | nil => exact .pure _
  | cons c cs ih =>
    refine .bind (formula_answers c (h c List.mem_cons_self)) fun t => ?_
    refine .bind (.lift (underAll_given hl t)) fun t' => ?_
    split
    · exact ih fun d hd => h d (List.mem_cons_of_mem _ hd)
    · exact .pure _

mutual

theorem refutedFrom_answers (path : List (String × Bool)) : (layers : Layers) →
    (∀ pairs ∈ layers, Sorted pairs) → (c : Constr) → c.Formal → Answers (c.refutedFrom m layers path)
  | layers, hl, goal _ name value tid, _ => by
    rw [refutedFrom]
    exact .bind (.lift (underAll_given hl value)) fun t => .pure _
  | layers, hl, c@(clause _ hyps goals), h => by
    rw [refutedFrom]
    refine .bind (hypsHold_answers hl hyps fun d hd => h.child (List.mem_append_left _ hd)) fun b => ?_
    split
    · exact refutedAmong_answers path layers hl goals fun d hd => h.child (List.mem_append_right _ hd)
    · exact .pure _
  | layers, hl, c@(branch _ jump cond yes no), h => by
    rw [refutedFrom]
    refine .bind (.lift (underAll_given hl cond)) fun t => ?_
    split
    · exact refutedFrom_answers _ layers hl yes (h.child List.mem_cons_self)
    · exact refutedFrom_answers _ layers hl no (h.child (List.mem_cons_of_mem _ List.mem_cons_self))
  | layers, hl, c@(subst _ body pairs), h => by
    rw [refutedFrom]
    exact refutedFrom_answers path (pairs :: layers) (List.forall_mem_cons.mpr ⟨h.sorted, hl⟩) body
      (h.child List.mem_cons_self)

theorem refutedAmong_answers (path : List (String × Bool)) : (layers : Layers) →
    (∀ pairs ∈ layers, Sorted pairs) → (cs : List Constr) → (∀ c ∈ cs, c.Formal) →
      Answers (refutedAmong m layers path cs)
  | _, _, [], _ => by
    rw [refutedAmong]
    exact .pure _
  | layers, hl, c :: cs, h => by
    rw [refutedAmong]
    refine .bind (refutedFrom_answers path layers hl c (h c List.mem_cons_self)) fun xs => ?_
    exact .bind (refutedAmong_answers path layers hl cs fun d hd => h d (List.mem_cons_of_mem _ hd))
      fun ys => .pure _

end

theorem Formal.refuted {c : Constr} (h : c.Formal) (m : Model) : ∃ goals, c.refuted m = .ok goals := by
  obtain ⟨⟨goals, memo⟩, hgoals⟩ := refutedFrom_answers (m := m) [] [] nofun c h {}
  refine ⟨goals, ?_⟩
  rw [Constr.refuted, StateT.run'_eq, hgoals]
  rfl

end Precond.Constr

import Precond.Proofs.Constraint.Formula
import Precond.Proofs.Env.Kept

/-! What a constraint says when one of its nodes says something else (`Constr.truthGiven`). Where the
node is not among hypotheses, what the constraint says is conjunctive in what the node says
(`Constr.Conjunctive`). -/

namespace Precond

/-- The pairs of a substitution that replaces constants are an update of the model. -/
theorem Swap.onConst_ofPairs {pairs : List (SomeTerm × SomeTerm)} {swaps : List Swap}
    (hc : ∀ p ∈ pairs, p.1.IsConst) (h : Swap.ofPairs pairs = .ok swaps) :
    swaps = Constr.swaps pairs ∧ ∀ w ∈ swaps, w.OnConst := by
  induction pairs generalizing swaps with
  | nil =>
    cases h
    exact ⟨rfl, nofun⟩
  | cons p pairs ih =>
    rw [Swap.ofPairs] at h
    split at h
    · rename_i w hw
      obtain ⟨ws, hws, h⟩ := bind_eq_ok h
      cases h
      obtain ⟨rfl, hall⟩ := ih (fun q hq => hc q (List.mem_cons_of_mem p hq)) hws
      refine ⟨by simp only [Constr.swaps, List.filterMap_cons, hw], fun v hv => ?_⟩
      rcases List.mem_cons.mp hv with rfl | hv
      · obtain ⟨⟨s, old⟩, ⟨s', new⟩⟩ := p
        obtain ⟨n, s'', he⟩ := hc _ List.mem_cons_self
        cases he
        rw [Swap.ofPair?] at hw
        split at hw
        · cases hw
          exact ⟨n, rfl⟩
        · cases hw
      · exact hall v hv
    · cases h

theorem Swap.ofPairs_sorts {pairs : List (SomeTerm × SomeTerm)} {swaps : List Swap}
    (h : Swap.ofPairs pairs = .ok swaps) : ∀ p ∈ pairs, p.2.1 = p.1.1 := by
  induction pairs generalizing swaps with
  | nil => exact nofun
  | cons p pairs ih =>
    rw [Swap.ofPairs] at h
    split at h
    · rename_i s hs
      obtain ⟨ws, hws, -⟩ := bind_eq_ok h
      intro q hq
      rcases List.mem_cons.mp hq with rfl | hq
      · obtain ⟨⟨s, old⟩, ⟨s', new⟩⟩ := q
        rw [Swap.ofPair?] at hs
        split at hs
        · assumption
        · cases hs
      · exact ih hws q hq
    · cases h

namespace Constr

variable {id n : Nat} {f g : Model → Bool} {m : Model} {name : String}

/-! ### Substitutions -/

/-- A substitution that has a formula updates the model for its body. -/
theorem truth_subst_pairs {body : Constr} {pairs : List (SomeTerm × SomeTerm)}
    (hc : ∀ p ∈ pairs, p.1.IsConst) (h : (subst id body pairs).Formal) (m : Model) :
    (subst id body pairs).truth m = body.truth (m.update (swaps pairs)) := by
  obtain ⟨t, ht⟩ := h
  rw [truth_of_plain ht]
  rw [plain] at ht
  obtain ⟨b, hb, ht⟩ := bind_eq_ok ht
  obtain ⟨ws, hws, ht⟩ := bind_eq_ok ht
  cases ht
  obtain ⟨rfl, hconst⟩ := Swap.onConst_ofPairs hc hws
  rw [truth_of_plain hb]
  exact Spine.eval_replace hconst m b

/-- A substitution that has a formula replaces terms by terms of the same sorts. -/
theorem Formal.sorts {body : Constr} {pairs : List (SomeTerm × SomeTerm)} (h : (subst id body pairs).Formal) :
    ∀ p ∈ pairs, p.2.1 = p.1.1 := by
  obtain ⟨t, ht⟩ := h
  rw [plain] at ht
  obtain ⟨_, -, ht⟩ := bind_eq_ok ht
  obtain ⟨ws, hws, -⟩ := bind_eq_ok ht
  exact Swap.ofPairs_sorts hws

/-- Whether a substitution has a formula is up to its pairs and its body. -/
theorem formal_subst_congr {id' : Nat} {body body' : Constr} {pairs : List (SomeTerm × SomeTerm)}
    (h : (subst id body pairs).Formal) (hbody : body.Formal → body'.Formal) :
    (subst id' body' pairs).Formal := by
  obtain ⟨t, ht⟩ := h
  rw [plain] at ht
  obtain ⟨b, hb, ht⟩ := bind_eq_ok ht
  obtain ⟨ws, hws, -⟩ := bind_eq_ok ht
  obtain ⟨b', hb'⟩ := hbody ⟨b, hb⟩
  refine ⟨b'.replace ws, ?_⟩
  rw [plain, hb']
  show Term.under b' pairs = _
  rw [Term.under, hws]
  rfl

/-! ### Another truth for a node -/

mutual

/-- What a constraint says about a model if the node with number `n` says what `f` tells. -/
def truthGiven (n : Nat) (f : Model → Bool) : Constr → Model → Bool
  | goal id _ value _, m => if id = n then f m else value.holds m
  | clause id hyps goals, m =>
    if id = n then f m else !truthsGiven n f hyps m || truthsGiven n f goals m
  | branch id _ cond yes no, m =>
    if id = n then f m else if cond.holds m then yes.truthGiven n f m else no.truthGiven n f m
  | subst id body pairs, m => if id = n then f m else body.truthGiven n f (m.update (swaps pairs))

def truthsGiven (n : Nat) (f : Model → Bool) : List Constr → Model → Bool
  | [], _ => true
  | c :: cs, m => c.truthGiven n f m && truthsGiven n f cs m

end

theorem truthGiven_self (c : Constr) (f : Model → Bool) (m : Model) : c.truthGiven c.id f m = f m := by
  cases c <;> exact if_pos rfl

/-- What the constraint says is conjunctive in what the node with number `n` says. -/
def Conjunctive (n : Nat) (c : Constr) : Prop := ∀ f g m,
  c.truthGiven n (fun m => f m && g m) m = (c.truthGiven n f m && c.truthGiven n g m)

/-- A stronger node makes a conjunctive constraint stronger. -/
theorem Conjunctive.mono {c : Constr} (hc : c.Conjunctive n) (h : ∀ m, f m = true → g m = true)
    (hf : c.truthGiven n f m = true) : c.truthGiven n g m = true := by
  have hfg : (fun m => f m && g m) = f := by
    funext m
    cases hfm : f m with
    | true => rw [h m hfm, Bool.and_self]
    | false => exact Bool.false_and _
  have hand := hc f g m
  rw [hfg, hf, Bool.true_and] at hand
  exact hand.symm

theorem Conjunctive.self (c : Constr) : c.Conjunctive c.id := fun f g m => by
  rw [truthGiven_self, truthGiven_self, truthGiven_self]

end Constr

end Precond

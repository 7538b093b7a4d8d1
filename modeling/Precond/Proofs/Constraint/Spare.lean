import Precond.Proofs.Constraint.Meaning

/-! Constraints some goals of which are taken for established. Goals to prove are told apart by their
names; what is a hypothesis stays as it is, so that such a constraint asks for less
(`Constr.holds_spare`). -/

namespace Precond.Constr

variable {p : String → Bool} {m : Model} {n : Nat}

mutual

/-- The constraint where goals to prove are established if `p` tells so of their names. -/
def spare (p : String → Bool) : Constr → Constr
  | goal id name value tid => goal id name (if p name then .truth true else value) tid
  | clause id hyps goals => clause id hyps (spares p goals)
  | branch id jump cond yes no => branch id jump cond (spare p yes) (spare p no)
  | subst id body pairs => subst id (spare p body) pairs

def spares (p : String → Bool) : List Constr → List Constr
  | [] => []
  | c :: cs => spare p c :: spares p cs

end

theorem spares_eq (p : String → Bool) (cs : List Constr) : spares p cs = cs.map (spare p) := by
  induction cs with
  | nil => rfl
  | cons c cs ih => rw [spares, ih, List.map_cons]

theorem allHold_eq (m : Model) (cs : List Constr) : allHold m cs = cs.all (·.holds m) := by
  induction cs with
  | nil => rfl
  | cons c cs ih => rw [allHold, ih, List.all_cons]

theorem holds_clause {hyps goals : List Constr} : (clause n hyps goals).holds m =
    (!hyps.all (·.holds m) || goals.all (·.holds m)) := by
  rw [holds, allHold_eq, allHold_eq]

theorem holds_spare_clause {hyps goals : List Constr} : ((clause n hyps goals).spare p).holds m =
    (!hyps.all (·.holds m) || goals.all fun c => (c.spare p).holds m) := by
  rw [spare, holds_clause, spares_eq, List.all_map]
  rfl

mutual

/-- Established goals leave less to prove. -/
theorem holds_spare : (c : Constr) → ∀ {m : Model}, c.holds m = true → (c.spare p).holds m = true
  | goal _ name value _, m, h => by
    rw [spare, holds]
    split
    · rfl
    · exact h
  | clause id hyps goals, m, h => by
    rw [holds, Bool.or_eq_true] at h
    rw [spare, holds, Bool.or_eq_true]
    exact h.imp_right (allHold_spares goals)
  | branch _ _ cond yes no, m, h => by
    rw [holds] at h
    rw [spare, holds]
    split at h
    · rename_i hc
      rw [if_pos hc]
      exact holds_spare yes h
    · rename_i hc
      rw [if_neg hc]
      exact holds_spare no h
  | subst _ body pairs, m, h => holds_spare body (m := m.update (swaps pairs)) h

theorem allHold_spares : (cs : List Constr) → ∀ {m : Model}, allHold m cs = true →
    allHold m (spares p cs) = true
  | [], _, _ => rfl
  | c :: cs, m, h => by
    rw [allHold, Bool.and_eq_true] at h
    rw [spares, allHold, Bool.and_eq_true]
    exact ⟨holds_spare c h.1, allHold_spares cs h.2⟩

end

mutual

/-- If no goal is established, the constraint stays as it is. -/
theorem spare_nothing (h : ∀ name, p name = false) : (c : Constr) → c.spare p = c
  | goal .. => by rw [spare, h, if_neg Bool.false_ne_true]
  | clause _ _ goals => by rw [spare, spares_nothing h goals]
  | branch _ _ _ yes no => by rw [spare, spare_nothing h yes, spare_nothing h no]
  | subst _ body _ => by rw [spare, spare_nothing h body]

theorem spares_nothing (h : ∀ name, p name = false) : (cs : List Constr) → spares p cs = cs
  | [] => rfl
  | c :: cs => by rw [spares, spare_nothing h c, spares_nothing h cs]

end

/-! ### Proper constraints -/

theorem part_iff {c d : Constr} : Part c d ↔ c = d ∨ ∃ e ∈ c.children, Part e d :=
  Relation.ReflTransGen.cases_head_iff

theorem Proper.of_children {c : Constr} (hc : ∀ id body pairs, c ≠ subst id body pairs)
    (h : ∀ d ∈ c.children, d.Proper) : c.Proper := by
  intro id body pairs hp
  rcases part_iff.mp hp with he | ⟨d, hd, hp⟩
  · exact absurd he (hc id body pairs)
  · exact h d hd id body pairs hp

theorem proper_goal (n : Nat) (name : String) (value : Term .bool) (tid : Option String) :
    (goal n name value tid).Proper := .of_children nofun nofun

theorem proper_clause {hyps goals : List Constr} (hh : ∀ c ∈ hyps, c.Proper)
    (hg : ∀ c ∈ goals, c.Proper) : (clause n hyps goals).Proper :=
  .of_children nofun fun d hd => (List.mem_append.mp hd).elim (hh d) (hg d)

theorem proper_branch {jump : String} {cond : Term .bool} {yes no : Constr} (hy : yes.Proper)
    (hn : no.Proper) : (branch n jump cond yes no).Proper := by
  refine .of_children nofun fun d hd => ?_
  rcases List.mem_cons.mp hd with rfl | hd
  · exact hy
  · exact List.mem_singleton.mp hd ▸ hn

theorem proper_subst {body : Constr} {pairs : List (SomeTerm × SomeTerm)} (h : body.Proper)
    (hp : Simultaneous pairs) : (subst n body pairs).Proper := by
  intro id body' pairs' hpart
  rcases part_iff.mp hpart with he | ⟨d, hd, hpart⟩
  · cases he
    exact hp
  · exact (List.mem_singleton.mp hd ▸ h) id body' pairs' hpart

end Precond.Constr

import Precond.Proofs.Walk.Levels
import Precond.Walk.Sub

/-! The settling of copies from a stack. A copy on top of a stack is settled first, in a bounded
number of steps and as by the recursion (`Walk.workOff_settle`): while it waits only copies below it
are settled, so that it is not settled itself before it is on top again. The walk of a subroutine comes
to its end, also from stacks (`Walk.visitSub_ends`): the levels that it is given are more than the copies
of blocks that can be above one another. -/

namespace Precond.Walk

open IR Precond.Flow Relation

variable {side : Side} {w : World} {s : Sub} {g : Graph} {levels m k : Nat} {past : List Copy}
  {t : String} {u : Unroll} {post : Constr} {settle : Settle} {succs : List String}
  {stack : List (String × Unroll)}

theorem pending_cons_kept {e : Env} {pre : Constr} (h : e.precond? t (g.restrict u t) = some pre) :
    pending e g u (t :: succs) = pending e g u succs :=
  List.filter_cons_of_neg (by simp [h])

theorem pending_cons_new {e : Env} (h : e.precond? t (g.restrict u t) = none) :
    pending e g u (t :: succs) = (t, g.restrict u t) :: pending e g u succs :=
  List.filter_cons_of_pos (by simp [h])

theorem pending_eq_nil {e : Env} :
    pending e g u succs = [] ↔ ∀ t ∈ succs, (e.precond? t (g.restrict u t)).isSome := by
  simp [pending, Option.isSome_iff_ne_none]

/-! ### One step -/

theorem workOff_kept {pre : Constr} (hkept : (w.env side).precond? t u = some pre) :
    workOff settle side g post (k + 1) ((t, u) :: stack) w =
      workOff settle side g post k stack w := by
  rw [workOff]
  change (if ((w.env side).precond? t u).isSome then _ else _ : Walk Unit) w = _
  rw [hkept]
  rfl

theorem workOff_waits (hnew : (w.env side).precond? t u = none)
    (hwait : pending (w.env side) g u (g.forward t) ≠ []) :
    workOff settle side g post (k + 1) ((t, u) :: stack) w =
      workOff settle side g post k
        (pending (w.env side) g u (g.forward t) ++ (t, u) :: stack) w := by
  rw [workOff]
  change (if ((w.env side).precond? t u).isSome then _ else _ : Walk Unit) w = _
  rw [hnew]
  cases hp : pending (w.env side) g u (g.forward t) with
  | nil => exact absurd hp hwait
  | cons c cs => rfl

theorem workOff_ready (hnew : (w.env side).precond? t u = none)
    (hready : pending (w.env side) g u (g.forward t) = []) :
    workOff settle side g post (k + 1) ((t, u) :: stack) w =
      (settleBlock settle (enterSub settle) side g post t u >>= fun _ =>
        workOff settle side g post k stack) w := by
  rw [workOff]
  change (if ((w.env side).precond? t u).isSome then _ else _ : Walk Unit) w = _
  rw [hnew, hready]
  rfl

/-! ### A copy on top of the stack -/

/-- A copy on top of the stack is settled first, as by `settle`, in at most `steps` steps. -/
def Works (settle settle' : Settle) (side : Side) (g : Graph) (post : Constr) (steps : Nat)
    (t : String) (u : Unroll) (w : World) : Prop :=
  ∃ j ≤ steps, ∀ k stack,
    workOff settle' side g post (j + k) ((t, g.restrict u t) :: stack) w =
      (settle side post t u >>= fun _ => workOff settle' side g post k stack) w

/-- The forward successors that wait on the stack are settled one by one; the others are settled
already. -/
theorem workOff_forward {e : Env} {steps : Nat} (h : Fits side w s g (m + 1) past t u)
    (he : e.Stays (Adds (TransGen g.Leads (g.copy u t))) (w.env side)) (hsuccs : succs ⊆ g.forward t)
    (hworks : ∀ {w' t' v}, Fits side w' s g m (g.copy u t :: past) t' v →
      Works (settleNode m) settle side g post steps t' v w') :
    ∃ j ≤ succs.length * steps, ∀ k stack,
      workOff settle side g post (j + k) (pending e g (g.restrict u t) succs ++ stack) w =
        (settleForward (settleNode m) side g post (g.restrict u t) succs >>= fun _ =>
          workOff settle side g post k stack) w := by
  induction succs generalizing w with
  | nil => exact ⟨0, Nat.zero_le _, fun k stack => by rw [Nat.zero_add]; rfl⟩
  | cons t' succs ih =>
    have ht := h.trail.forward (hsuccs List.mem_cons_self)
    have hrest : succs ⊆ g.forward t := fun x hx => hsuccs (List.mem_cons_of_mem t' hx)
    cases hpre : e.precond? t' (g.restrict (g.restrict u t) t') with
    | some pre =>
      have hkept := he.frame.kept hpre
      rw [← g.restrict_restrict] at hkept
      have hsettle : settleNode m side post t' _ w = .ok pre w := settleNode_kept (h.next ht) hkept
      obtain ⟨j, hj, hwork⟩ := ih h he hrest
      refine ⟨j, hj.trans (Nat.mul_le_mul_right _ (Nat.le_succ _)), fun k stack => ?_⟩
      rw [pending_cons_kept hpre, hwork, settleForward, bind_assoc, bind_of_ok hsettle]
    | none =>
      obtain ⟨j, hj, hwork⟩ := hworks (h.next ht)
      rw [g.restrict_restrict] at hwork
      cases hsettle : settleNode m side post t' (g.restrict (g.restrict u t) t') w with
      | error f w₁ =>
        refine ⟨j, hj.trans (Nat.le_mul_of_pos_left _ (Nat.succ_pos _)), fun k stack => ?_⟩
        rw [pending_cons_new hpre, List.cons_append, hwork, settleForward, bind_assoc,
          bind_of_error hsettle, bind_of_error hsettle]
      | ok pre w₁ =>
        have hw₁ := (((settleNode_settling m 0).below h ht).ends.of_ok hsettle).1
        obtain ⟨j', hj', hwork'⟩ := ih (h.stays hw₁) (he.trans hw₁) hrest
        refine ⟨j + j', ?_, fun k stack => ?_⟩
        · rw [List.length_cons, Nat.succ_mul, Nat.add_comm]
          exact Nat.add_le_add hj' hj
        · rw [pending_cons_new hpre, List.cons_append, Nat.add_assoc, hwork, settleForward,
            bind_assoc, bind_of_ok hsettle, bind_of_ok hsettle, hwork']

theorem settleForward_kept
    (h : ∀ t ∈ succs, ∃ pre, settle side post t (g.restrict u t) w = .ok pre w) :
    settleForward settle side g post u succs w = .ok () w := by
  induction succs with
  | nil => rfl
  | cons t succs ih =>
    obtain ⟨pre, hpre⟩ := h t List.mem_cons_self
    rw [settleForward, bind_of_ok hpre]
    exact ih fun t' ht' => h t' (List.mem_cons_of_mem t ht')

/-- A copy is not settled by the settling of its forward successors. When it is on top again none
of them waits. -/
theorem workOff_last {w₁ : World} (hs : Settling side m settle)
    (h : Fits side w s g (m + 1) past t u)
    (hnew : (w.env side).precond? t (g.restrict u t) = none)
    (hforward : settleForward (settleNode m) side g post (g.restrict u t) (g.forward t) w =
      .ok () w₁) :
    workOff settle side g post (k + 1) ((t, g.restrict u t) :: stack) w₁ =
      (settleBlock (settleNode m) (enterSub (settleNode m)) side g post t (g.restrict u t) >>=
        fun _ => workOff settle side g post k stack) w₁ := by
  obtain ⟨hstays, hall⟩ := (hs.forward h).ends.of_ok hforward
  have hnew₁ : (w₁.env side).precond? t (g.restrict u t) = none := by
    cases hpre : (w₁.env side).precond? t (g.restrict u t) with
    | none => rfl
    | some pre =>
      have hreached : g.Reached (g.copy u t) :=
        (h.trail.visited (Graph.searched_ofSub h.made) _ List.mem_cons_self).reached
      rcases hstays.frame.new hpre with hold | hcycle
      · exact absurd (hnew.symm.trans hold) nofun
      · exact absurd hcycle (Graph.Leads.acyclic (Graph.searched_ofSub h.made) hreached)
  rw [workOff_ready hnew₁ (pending_eq_nil.mpr hall)]
  exact bind_alike (hs.block (h.stays hstays)).same fun _ _ _ => rfl

theorem stepBound_succ (g : Graph) (m : Nat) :
    stepBound g (m + 1) = g.blocks.length * stepBound g m + 2 * stepBound g m := by
  rw [stepBound, Nat.pow_eq, Nat.pow_succ, Nat.mul_comm, Nat.add_mul]
  rfl

/-- A copy without a precondition waits for its forward successors and is settled then. -/
theorem workOff_new (hs : Settling side m settle) (h : Fits side w s g (m + 1) past t u)
    (hnew : (w.env side).precond? t (g.restrict u t) = none)
    (hworks : ∀ {w' t' v}, Fits side w' s g m (g.copy u t :: past) t' v →
      Works (settleNode m) settle side g post (stepBound g m) t' v w') :
    Works (settleNode (m + 1)) settle side g post (stepBound g (m + 1)) t u w := by
  have hsettle (k : Nat) (stack : List (String × Unroll)) :
      (settleNode (m + 1) side post t u >>= fun _ => workOff settle side g post k stack) w =
      (settleForward (settleNode m) side g post (g.restrict u t) (g.forward t) >>= fun _ =>
        settleBlock (settleNode m) (enterSub (settleNode m)) side g post t (g.restrict u t) >>=
          fun _ => workOff settle side g post k stack) w := by
    rw [← bind_assoc]
    refine bind_alike ?_ fun _ _ _ => rfl
    rw [settleNode_succ h.graph, hnew]
  have hpos : 0 < stepBound g m := Nat.pow_pos (Nat.succ_pos _)
  have hbound := stepBound_succ g m
  by_cases hwait : pending (w.env side) g (g.restrict u t) (g.forward t) = []
  · have hforward : settleForward (settleNode m) side g post (g.restrict u t) (g.forward t) w =
        .ok () w := by
      refine settleForward_kept fun t' ht' => ?_
      obtain ⟨pre, hkept⟩ := Option.isSome_iff_exists.mp (pending_eq_nil.mp hwait t' ht')
      rw [← g.restrict_restrict] at hkept
      exact ⟨pre, settleNode_kept (h.next (h.trail.forward ht')) hkept⟩
    refine ⟨1, by omega, fun k stack => ?_⟩
    rw [hsettle, bind_of_ok hforward, Nat.add_comm, workOff_last hs h hnew hforward]
  · obtain ⟨j, hj, hwork⟩ := workOff_forward h (.refl (w.env side)) (List.Subset.refl (g.forward t))
      hworks
    have hforward : (g.forward t).length ≤ g.blocks.length :=
      (List.length_filter_le ..).trans (Graph.length_succsOf_le h.made t)
    refine ⟨j + 2, ?_, fun k stack => ?_⟩
    · have hmul := Nat.mul_le_mul_right (stepBound g m) hforward
      omega
    · rw [hsettle, show j + 2 + k = j + (k + 1) + 1 by omega, workOff_waits hnew hwait, hwork]
      exact bind_alike rfl fun _ w₁ hw₁ => workOff_last hs h hnew hw₁

/-- A copy that fits is settled from the stack as by `settleNode`. -/
theorem workOff_settle (hs : Settling side levels settle) (hm : m ≤ levels + 1)
    (h : Fits side w s g m past t u) :
    Works (settleNode m) settle side g post (stepBound g m) t u w := by
  induction m generalizing w past t u with
  | zero => exact absurd h.budget_lt (Nat.not_lt_zero _)
  | succ m ih =>
    cases hpre : (w.env side).precond? t (g.restrict u t) with
    | some pre =>
      refine ⟨1, Nat.pow_pos (Nat.succ_pos _), fun k stack => ?_⟩
      rw [Nat.add_comm, workOff_kept hpre, bind_of_ok (settleNode_kept h hpre)]
    | none =>
      exact workOff_new (hs.le (Nat.le_of_succ_le_succ hm)) h hpre fun hfit =>
        ih (Nat.le_of_succ_le hm) hfit

@[simp] theorem workOff_nil : workOff settle side g post k [] = pure () := by
  cases k <;> rfl

theorem settleStacked_succ {more : Nat} (hgraph : (w.env side).frame.graph = some g) :
    settleStacked more (levels + 1) side post t u w =
      (do
        workOff (settleStacked more levels) side g post (stepBound g (levels + 1) + more)
          [(t, g.restrict u t)]
        present ((← env side).precond? t (g.restrict u t))) w := by
  rw [settleStacked]
  change (present (w.env side).frame.graph >>= _) w = _
  rw [hgraph]
  rfl

/-- Copies that fit are settled from stacks as by `settleNode`. -/
theorem settleStacked_settling (more levels : Nat) :
    Settling side levels (settleStacked more levels) := by
  induction levels with
  | zero => exact ⟨fun h => absurd h.budget_lt (Nat.not_lt_zero _)⟩
  | succ levels ih =>
    refine ⟨fun {w s g past t u post} h => ?_⟩
    have hends : Outcome (SettledAt side g t u w) (· ≠ .outOfFuel)
        (settleNode (levels + 1) side post t u) w := ((settleNode_settling _ 0).agree h).ends
    have hworks : Works (settleNode (levels + 1)) (settleStacked more levels) side g post
        (stepBound g (levels + 1)) t u w := workOff_settle ih (Nat.le_refl _) h
    obtain ⟨j, hj, hwork⟩ := hworks
    obtain ⟨k, hk⟩ := Nat.exists_eq_add_of_le (hj.trans (Nat.le_add_right _ more))
    refine ⟨?_, hends⟩
    rw [settleStacked_succ h.graph, hk]
    calc _
      _ = ((settleNode (levels + 1) side post t u >>= fun _ => pure ()) >>= fun _ =>
            env side >>= fun e => present (e.precond? t (g.restrict u t))) w :=
        bind_alike ((hwork k []).trans (by rw [workOff_nil])) fun _ _ _ => rfl
      _ = settleNode (levels + 1) side post t u w := by
        rw [bind_assoc]
        cases hsettle : settleNode (levels + 1) side post t u w with
        | ok pre w₁ =>
          rw [bind_of_ok hsettle]
          change present ((w₁.env side).precond? t (g.restrict u t)) w₁ = _
          rw [(hends.of_ok hsettle).2]
          rfl
        | error f w₁ => exact bind_of_error hsettle

/-! ### The walk ends -/

/-- The levels of the walk of a subroutine are enough, for each way to settle copies. -/
theorem visitSub_agree (side : Side) (post : Constr) (sub : Sub) (w : World) {settle : Settle}
    (hs : Settling side (depthBound (w.env side) sub) settle) :
    Agree (Staying (fun _ _ => True) side w) (visitSub side post sub)
      (enterSub settle side post sub) w := by
  have hvisit : visitSub side post sub w =
      enterSub (settleNode (depthBound (w.env side) sub)) side post sub w := rfl
  have h : Agree (Staying (fun _ _ => True) side w)
      (enterSub (settleNode (depthBound (w.env side) sub)) side post sub)
      (enterSub settle side post sub) w := hs.enter (budget_lt_depthBound (w.env side) sub).le
  refine ⟨h.same.trans hvisit.symm, ?_⟩
  rw [Outcome, hvisit]
  exact h.ends

/-- The walk of a subroutine ends, with a precondition or with a fault of its own: it does not run
out of the levels it is given. More levels make no difference, nor do stacks of copies of blocks
instead of the recursion along forward edges, with as many steps more as one likes. The searches that
make the graphs end as well: longer searches find the same. -/
theorem visitSub_ends (side : Side) (post : Constr) (sub : Sub) (w : World) :
    ((∃ pre w', visitSub side post sub w = .ok pre w') ∨
      ∃ f w', visitSub side post sub w = .error f w' ∧ f ≠ .outOfFuel) ∧
    (∀ more, enterSub (settleNode (depthBound (w.env side) sub + more)) side post sub w =
      visitSub side post sub w) ∧
    (∀ more steps,
      enterSub (settleStacked steps (depthBound (w.env side) sub + more)) side post sub w =
        visitSub side post sub w) ∧
    ∀ s more, (Graph.ofSub s).map (Graph.searchLonger more) = Graph.ofSub s := by
  refine ⟨?_, fun more => ?_, fun more steps => ?_, Graph.ofSub_searchLonger⟩
  · have hends := (visitSub_agree side post sub w (settleNode_settling _ 0)).ends
    cases h : visitSub side post sub w with
    | ok pre w' => exact .inl ⟨pre, w', rfl⟩
    | error f w' => exact .inr ⟨f, w', rfl, hends.of_error h⟩
  · exact (visitSub_agree side post sub w (settleNode_settling _ more)).same
  · exact (visitSub_agree side post sub w ((settleStacked_settling steps _).le (Nat.le_add_right _ more))).same

end Precond.Walk

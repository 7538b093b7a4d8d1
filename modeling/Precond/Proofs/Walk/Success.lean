import Precond.Proofs.Walk.Keeps

/-! Walks that succeed, taken forwards: a sequence succeeds where its first action does and the
rest succeeds from there. Preconditions that are kept cannot be looked up by evaluation, since
strings are hashed; a block is walked where nothing is kept for it (`Succeeds.settle`,
`Succeeds.block`). -/

namespace Precond.Walk

open IR Precond.Flow

/-- The action succeeds, and what it gives has a property. -/
def Succeeds (act : Walk α) (w : World) (P : α → World → Prop) : Prop :=
  ∃ a w', act w = .ok a w' ∧ P a w'

variable {side : Side} {w w' : World} {post : Constr} {t : String} {u : Unroll} {a : α}
  {act : Walk α} {f : Env → Env} {P : α → World → Prop}

theorem Succeeds.now (h : act w = .ok a w') (hP : P a w') : Succeeds act w P := ⟨a, w', h, hP⟩

theorem Succeeds.bind {k : α → Walk β} {P : β → World → Prop}
    (h : Succeeds act w fun a w' => Succeeds (k a) w' P) : Succeeds (act >>= k) w P := by
  obtain ⟨a, w₁, ha, b, w₂, hb, hP⟩ := h
  exact ⟨b, w₂, (bind_of_ok ha).trans hb, hP⟩

/-- A first action that can be evaluated. -/
theorem Succeeds.step {k : α → Walk β} {P : β → World → Prop} (h : act w = .ok a w')
    (hk : Succeeds (k a) w' P) : Succeeds (act >>= k) w P := .bind (.now h hk)

theorem Succeeds.mono {Q : α → World → Prop} (h : Succeeds act w P) (hPQ : ∀ a w', P a w' → Q a w') :
    Succeeds act w Q :=
  let ⟨a, w', ha, hP⟩ := h
  ⟨a, w', ha, hPQ a w' hP⟩

/-- Actions one after the other that keep what each of them needs. -/
theorem Succeeds.mapM {I : World → Prop} {xs : List β} {f : β → Walk α} (hw : I w)
    (h : ∀ x ∈ xs, ∀ w, I w → Succeeds (f x) w fun _ w' => I w') :
    Succeeds (xs.mapM f) w fun _ w' => I w' := by
  induction xs generalizing w with
  | nil => exact .now rfl hw
  | cons x xs ih =>
    rw [List.mapM_cons]
    refine .bind ((h x List.mem_cons_self w hw).mono fun a w₁ h₁ => .bind ?_)
    exact (ih h₁ fun y hy => h y (List.mem_cons_of_mem x hy)).mono fun as w₂ h₂ => .now rfl h₂

theorem Succeeds.restoring
    (h : Succeeds act w fun a w' => P a (w'.setEnv side (f (w'.env side)))) :
    Succeeds (restoring side f act) w P := by
  obtain ⟨a, w₁, ha, hP⟩ := h
  refine ⟨a, _, ?_, hP⟩
  unfold Walk.restoring
  rw [ha]

theorem Succeeds.guard (assumes verifies : List Hook) (post : Constr) (w : World) :
    Succeeds (Walk.guard assumes verifies post) w fun _ _ => True := by
  unfold Walk.guard
  split
  · exact .now rfl True.intro
  · have hgoals (hooks : List Hook) (w : World) :
        Succeeds (hooks.mapM fun h => mkGoal h.name h.term none) w fun _ _ => True :=
      .mapM True.intro fun _ _ _ _ => .now rfl True.intro
    refine .bind ((hgoals assumes w).mono fun hyps w₁ _ => .bind ?_)
    exact (hgoals verifies w₁).mono fun goals w₂ _ => .now rfl True.intro

/-- A subroutine whose graph is known and whose variables are sorted. -/
theorem Succeeds.enter {settle : Settle} {s : Sub} {g : Graph} {vs : List Var} {P : Constr → World → Prop}
    (hg : Graph.ofSub s = .ok g) (hv : sortByName s.vars = vs)
    (h : Succeeds (do
      modifyEnv side fun e => { e with attached := true }
      for v in vs do
        let _ ← on side (Env.mkVar v)
      let before := (← env side).frame
      let root := some (s.tid, post.id)
      let kept := if before.root = root then before.preconds else {}
      modifyEnv side fun e =>
        { e with frame := { e.frame with
            preconds := kept, root, graph := some g, retPost := some post } }
      Walk.restoring side
        (fun e =>
          { e with frame := { e.frame with graph := before.graph, retPost := before.retPost } })
        (settle side post g.entry [])) w P) : Succeeds (enterSub settle side post s) w P := by
  rw [enterSub, hv, hg]
  exact h

/-- A subroutine whose variables have been bound. -/
theorem Succeeds.opened {settle : Settle} {s : Sub} {g : Graph} {x : PUnit} {w₁ : World}
    {P : Constr → World → Prop} (hg : Graph.ofSub s = .ok g)
    (hb : bindVars side s (attached w side) = .ok x w₁)
    (h : Succeeds (settle side post g.entry []) (Walk.opened w₁ side s post g)
      fun c w' => P c (closed w₁ side w')) : Succeeds (enterSub settle side post s) w P := by
  obtain ⟨c, w', hc, hP⟩ := h
  refine ⟨c, closed w₁ side w', ?_, hP⟩
  rw [enterSub_of_ok settle post hg hb, opening_eq, hc]

theorem Succeeds.settle {fuel : Nat} {g : Graph} {P : Constr → World → Prop}
    (hg : (w.env side).frame.graph = some g)
    (hn : (w.env side).precond? t (g.restrict u t) = none)
    (h : Succeeds (do
      settleForward (settleNode fuel) side g post (g.restrict u t) (g.forward t)
      settleBlock (settleNode fuel) (enterSub (settleNode fuel)) side g post t
        (g.restrict u t)) w P) :
    Succeeds (settleNode (fuel + 1) side post t u) w P := by
  rw [settleNode]
  refine .step rfl ?_
  rw [hg]
  refine .step rfl (.step rfl ?_)
  rw [hn]
  exact h

/-- A copy of a block whose precondition is kept. -/
theorem Succeeds.settled {fuel : Nat} {g : Graph} {c : Constr} {P : Constr → World → Prop}
    (hg : (w.env side).frame.graph = some g)
    (hc : (w.env side).precond? t (g.restrict u t) = some c) (hP : P c w) :
    Succeeds (settleNode (fuel + 1) side post t u) w P := by
  rw [settleNode]
  refine .step rfl ?_
  rw [hg]
  refine .step rfl (.step rfl ?_)
  rw [hc]
  exact .now rfl hP

theorem Succeeds.block {expand : Expand} {b : Blk} {P : Constr → World → Prop}
    (hn : (w.env side).precond? b.tid (w.env side).frame.unroll = none)
    (h : Succeeds (do
      modifyEnv side fun e => { e with frame := { e.frame with block := some b.tid } }
      let pre ← visitElts expand side post b.elts
      modifyEnv side fun e => e.addPrecond b.tid e.frame.unroll pre
      return pre) w P) : Succeeds (visitBlock expand side post b) w P := by
  rw [visitBlock]
  refine .step rfl ?_
  dsimp only
  rw [hn]
  exact h

/-- A successor whose precondition is kept. -/
theorem Succeeds.kept {settle : Settle} {g : Graph} {x : String} {xs : List String} {c : Constr}
    {P : Table String Constr → World → Prop} (hb : g.isBackEdge t x = false)
    (hc : (w.env side).precond? x (g.restrict u x) = some c)
    (h : Succeeds (do return (x, c) :: (← successorPres settle side g post t u xs)) w P) :
    Succeeds (successorPres settle side g post t u (x :: xs)) w P := by
  rw [successorPres, hb]
  refine .step rfl ?_
  rw [hc]
  exact h

/-- A callee that has blocks and is not being expanded already. -/
theorem Succeeds.inline {expand : Expand} {c : Sub} {P : Constr → World → Prop}
    (hblks : c.blks.isEmpty = false) (hc : (w.env side).inlining.contains c.tid = false)
    (h : Succeeds (do
      modifyEnv side fun e => { e with inlining := c.tid :: e.inlining }
      Walk.restoring side (fun e => { e with inlining := e.inlining.drop 1 })
        (inFrame side (expand side post c))) w P) :
    Succeeds (inlineCall expand side c post t) w P := by
  rw [inlineCall, hblks]
  refine .step rfl ?_
  rw [hc]
  exact h

theorem precond?_empty {e : Env} (h : e.frame.preconds = {}) (t : String) (u : Unroll) :
    e.precond? t u = none := by
  rw [Env.precond?, h]
  exact Std.HashMap.getElem?_empty ..

theorem precond?_insert {e : Env} {kept : Std.HashMap (String × Unroll) Constr}
    {k : String × Unroll} {c : Constr} (h : e.frame.preconds = kept.insert k c) (t : String)
    (u : Unroll) : e.precond? t u = if k = (t, u) then some c else kept[(t, u)]? := by
  rw [Env.precond?, h, Std.HashMap.getElem?_insert]
  simp only [beq_iff_eq]

end Precond.Walk

import Precond.Proofs.Walk.Keeps

/-! Where a walk is, is told by the frame of the subroutine that is walked and by the callees that are
being expanded. Both nest like a stack: a walk that ends, with a result or with a fault, has taken back
what it has entered, in each subroutine that encloses it (`visitSub_nests`). -/

namespace Precond

open IR Precond.Flow

variable {w w₁ w₂ : World} {side : Side} {P : Side → Env}

namespace World

/-- No walk has moved, and what was bound stands for the same. -/
structure Unmoved (w w' : World) : Prop where
  before : w.Before w'
  frame (side : Side) : (w'.env side).frame = (w.env side).frame
  inlining (side : Side) : (w'.env side).inlining = (w.env side).inlining

/-- A walk of one program is back in the subroutine where it began, and that of the other program has
not moved. What the walk keeps of the settled copies of blocks may differ. -/
structure Returned (side : Side) (w w' : World) : Prop where
  before : w.Before w'
  graph : (w'.env side).frame.graph = (w.env side).frame.graph
  retPost : (w'.env side).frame.retPost = (w.env side).frame.retPost
  other : side' ≠ side → (w'.env side').frame = (w.env side').frame
  inlining (side' : Side) : (w'.env side').inlining = (w.env side').inlining

theorem Kept.unmoved {R : Side → String → CallRule → Prop} (h : w.Kept R (fun _ => Eq) w₁) :
    w.Unmoved w₁ :=
  ⟨h.before, fun side => (h.env side).frame.symm, fun side => (h.env side).inlining⟩

end World

namespace Walk

/-- To expand a callee changes no frame but the one that it is given. -/
theorem expands_any (n : Nat) : Keeps.Expands (.any P) side (enterSub (settleNode n)) :=
  fun post _ hs => .enterSub fun _ hg => ⟨_, settleNode_fills n hs hg post _ _⟩

/-- A callee is expanded in a frame of its own, which is left in the end. -/
theorem inlineCall_rests (n : Nat) (callee : Sub) (after : Constr) (tid : String) :
    Keeps.Rests (.any P) (inlineCall (enterSub (settleNode n)) side callee after tid) := by
  unfold inlineCall
  apply Keeps.ite
  · exact (Keeps.note ..).bind fun _ => .pure _
  refine .env fun e _ => Keeps.ite ((Keeps.note ..).bind fun _ => .env fun e _ => ?_) ?_
  · split
    · exact .summarize (.inl True.intro) ..
    · exact .throw _
  · exact .nesting (expands_any n after callee True.intro) _

/-- To bind the variables of a subroutine leaves the frame as it is. -/
theorem bindVars_frame {s : Sub} {a : PUnit} (h : bindVars side s (attached w side) = .ok a w₁) :
    (w₁.env side).frame = (w.env side).frame := by
  have hattached : w.Kept (Scope.any fun side => (w.env side).policy).rule (fun _ => Eq)
      (attached w side) := .setEnv (.of_core rfl rfl rfl rfl)
  have hbound := (Steady.bindVars s).toKeeps.of_ok (hattached.under w.under_any) h
  exact ((hattached.trans hbound).env side).frame.symm

theorem closed_place {f : Frame} (h : (w.env side).frame = f) (w₁ : World) :
    ((closed w side w₁).env side).frame.graph = f.graph ∧
      ((closed w side w₁).env side).frame.retPost = f.retPost := by
  rw [closed, World.env_setEnv, h]
  exact ⟨rfl, rfl⟩

/-- A subroutine is left as it has been entered. Where it fails before it is entered, nothing has been
set; otherwise graph and postcondition are set back behind the settling of its blocks. -/
theorem enterSub_place (side : Side) (n : Nat) (post : Constr) (s : Sub) (w : World) :
    ((ending (enterSub (settleNode n) side post s) w).env side).frame.graph =
        (w.env side).frame.graph ∧
      ((ending (enterSub (settleNode n) side post s) w).env side).frame.retPost =
        (w.env side).frame.retPost := by
  cases hrun : enterSub (settleNode n) side post s w with
  | ok c w₁ =>
    obtain ⟨g, a, w₂, w₃, -, hb, -, rfl⟩ := enterSub_inv hrun
    rw [ending_of_ok hrun]
    exact closed_place (bindVars_frame hb) w₃
  | error f w₁ =>
    rw [ending_of_error hrun]
    rcases enterSub_error w.under_any hrun with hrest | ⟨g, a, w₂, w₃, -, hb, -, rfl⟩
    · rw [(hrest.env side).frame]
      exact ⟨rfl, rfl⟩
    · exact closed_place (bindVars_frame hb) w₃

theorem enterSub_returned (side : Side) (n : Nat) (post : Constr) (s : Sub) (w : World) :
    w.Returned side (ending (enterSub (settleNode n) side post s) w) := by
  have hx : Keeps (.any fun side => (w.env side).policy) (At side fun _ _ => True)
      (enterSub (settleNode n) side post s) := expands_any n post s True.intro
  have hk := hx.kept w.under_any
  obtain ⟨hgraph, hret⟩ := enterSub_place side n post s w
  refine ⟨hk.before, hgraph, hret, fun {side'} hne => ?_, fun side' => (hk.env side').inlining⟩
  have hframe := (hk.env side').frame
  rw [at_of_ne hne] at hframe
  exact hframe.symm

/-- However the walk of a subroutine ends, it is back where it began, and so is each expansion of a
callee at any depth below it: the frame that encloses the callee is the one that was left. What a
variable, a snapshot, a flag or a function stood for, it stands for. -/
theorem visitSub_nests (side : Side) (post : Constr) (s : Sub) (w : World) :
    w.Returned side (ending (visitSub side post s) w) ∧
      ∀ n callee after tid (w₁ : World),
        w₁.Unmoved (ending (inlineCall (enterSub (settleNode n)) side callee after tid) w₁) := by
  constructor
  · have hvisit : visitSub side post s w =
        enterSub (settleNode (depthBound (w.env side) s)) side post s w := rfl
    rw [ending, hvisit]
    exact enterSub_returned side _ post s w
  · intro n callee after tid w₁
    exact ((inlineCall_rests n callee after tid).kept w₁.under_any).unmoved

end Walk

end Precond

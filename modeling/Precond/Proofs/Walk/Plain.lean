import Precond.Proofs.Walk.Keeps

/-! The walk that keeps no preconditions. The precondition of a copy of a block is made anew from those
of the copies that it leads to, each time it is asked for (`Walk.plainNode`). Like the walk that keeps
them, it leaves the frame of its caller as it is (`Walk.plainNode_fills`). -/

namespace Precond.Walk

open IR Precond.Flow

/-- The preconditions of forward successors, in order. -/
def aheadPres (settle : Settle) (side : Side) (g : Graph) (post : Constr) (u : Unroll) :
    List String → Walk (Table String Constr)
  | [] => return []
  | s :: rest => do
    let pre ← settle side post s (g.restrict u s)
    return (s, pre) :: (← aheadPres settle side g post u rest)

/-- The preconditions of successors: behind a back edge, and of the forward ones. -/
def edgePres (settle : Settle) (side : Side) (g : Graph) (post : Constr) (tid : String)
    (u : Unroll) (ahead : Table String Constr) : List String → Walk (Table String Constr)
  | [] => return []
  | s :: rest => do
    let pre ← if g.isBackEdge tid s then loopPre settle side post s u else present (ahead.lookup s)
    return (s, pre) :: (← edgePres settle side g post tid u ahead rest)

/-- A block at the place of a copy of it. -/
def plainBlock (expand : Expand) (side : Side) (g : Graph) (targets : Table String Constr)
    (tid : String) (u : Unroll) (after : Constr) : Walk Constr := do
  let b ← present (g.blocks.lookup tid)
  modifyEnv side fun e =>
    { e with frame := { e.frame with targets, pred := g.predFor tid u, unroll := u } }
  visitElts expand side after b.elts

/-- The copies of the blocks of a subroutine are gone through. -/
abbrev plainOpening (settle : Settle) (side : Side) (post : Constr) (g : Graph) : Walk Constr := do
  let before := (← env side).frame
  modifyEnv side fun e => { e with frame := { e.frame with graph := some g, retPost := some post } }
  restoring side
    (fun e => { e with frame := { e.frame with graph := before.graph, retPost := before.retPost } })
    (settle side post g.entry [])

/-- Walk a subroutine from the postcondition at its return, keeping no preconditions. -/
def enterPlain (settle : Settle) : Expand := fun side post sub => do
  modifyEnv side fun e => { e with attached := true }
  let g ← Graph.ofSub sub
  bindVars side sub
  plainOpening settle side post g

/-- The precondition of a copy of a block, from those of the copies that it leads to. The first
argument bounds the depth. -/
def plainNode : Nat → Settle
  | 0, _, _, _, _ => throw .outOfFuel
  | fuel + 1, side, post, tid, u => do
    let g ← present (← env side).frame.graph
    let u := g.restrict u tid
    let ahead ← aheadPres (plainNode fuel) side g post u (g.forward tid)
    let targets ← edgePres (plainNode fuel) side g post tid u ahead (g.succsOf tid)
    let after ← trailing side g targets tid
    plainBlock (enterPlain (plainNode fuel)) side g targets tid u after

variable {side : Side} {g : Graph} {post : Constr} {w : World}

theorem plainNode_succ (hgraph : (w.env side).frame.graph = some g) (fuel : Nat) (tid : String)
    (u : Unroll) : plainNode (fuel + 1) side post tid u w = (do
      let ahead ← aheadPres (plainNode fuel) side g post (g.restrict u tid) (g.forward tid)
      let targets ← edgePres (plainNode fuel) side g post tid (g.restrict u tid) ahead (g.succsOf tid)
      let after ← trailing side g targets tid
      plainBlock (enterPlain (plainNode fuel)) side g targets tid (g.restrict u tid) after) w := by
  rw [plainNode]
  change (present (w.env side).frame.graph >>= _) w = _
  rw [hgraph]
  rfl

/-- The world in which the copies of the blocks of a subroutine are gone through. -/
def plainOpened (w : World) (side : Side) (post : Constr) (g : Graph) : World :=
  w.setEnv side { w.env side with frame := { (w.env side).frame with
    graph := some g, retPost := some post } }

theorem plainOpening_eq (settle : Settle) (side : Side) (post : Constr) (g : Graph) (w : World) :
    plainOpening settle side post g w =
      match settle side post g.entry [] (plainOpened w side post g) with
      | .ok c w₁ => .ok c (closed w side w₁)
      | .error f w₁ => .error f (closed w side w₁) := by
  show restoring side (fun e => { e with frame := { e.frame with
    graph := (w.env side).frame.graph, retPost := (w.env side).frame.retPost } })
    (settle side post g.entry []) (plainOpened w side post g) = _
  rw [restoring]
  cases settle side post g.entry [] (plainOpened w side post g) <;> rfl

theorem enterPlain_of_ok (settle : Settle) (post : Constr) {s : Sub} (hg : Graph.ofSub s = .ok g)
    {a : PUnit} {w₁ : World} (hb : bindVars side s (attached w side) = .ok a w₁) :
    enterPlain settle side post s w = plainOpening settle side post g w₁ := by
  rw [enterPlain, hg]
  exact bind_of_ok hb

/-! ### What is kept -/

variable {S : Scope} {B : Copy → Prop} {settle : Settle} {t : String} {u : Unroll} {s : Sub}

namespace Fills

theorem aheadPres {succs : List String}
    (h : ∀ s ∈ succs, Fills S side g B (settle side post s (g.restrict u s))) :
    Fills S side g B (Walk.aheadPres settle side g post u succs) := by
  induction succs with
  | nil => exact rests (.pure _)
  | cons s succs ih =>
    exact (h s List.mem_cons_self).bind fun _ =>
      (ih fun s' hs => h s' (List.mem_cons_of_mem s hs)).bind fun _ => rests (.pure _)

theorem edgePres {succs : List String} {ahead : Table String Constr}
    (h : ∀ s ∈ succs, g.isBackEdge t s →
      Fills S side g B (settle side post s (u.withCount s (u.count s + 1)))) :
    Fills S side g B (Walk.edgePres settle side g post t u ahead succs) := by
  induction succs with
  | nil => exact rests (.pure _)
  | cons s succs ih =>
    have hrest := ih fun s' hs => h s' (List.mem_cons_of_mem s hs)
    rw [Walk.edgePres]
    split
    · rename_i hback
      exact (loopPre (h s List.mem_cons_self hback)).bind fun _ => hrest.bind fun _ => rests (.pure _)
    · exact (rests (.present _)).bind fun _ => hrest.bind fun _ => rests (.pure _)

theorem plainBlock {expand : Expand} (hx : Keeps.Expands S side expand) (hs : S.body side s)
    (hg : Graph.ofSub s = .ok g) (targets : Table String Constr) (t : String) (u : Unroll)
    (after : Constr) : Fills S side g B (Walk.plainBlock expand side g targets t u after) := by
  refine ⟨fun {w} hw hgraph => ?_⟩
  rw [Walk.plainBlock, ending_bind]
  cases hb : g.blocks.lookup t with
  | none => exact .refl w
  | some b =>
    obtain ⟨hmem, -⟩ := block_mem hg hb
    have hplace : w.Kept S.rule (At side (Filled B)) (placedAt w side g targets t u) :=
      placed rfl rfl rfl rfl
    exact hplace.trans ((rests (.visitElts hx hs hmem (fun _ he => he) after)).kept
      (hplace.under hw) (by rw [placedAt, World.env_setEnv]; exact hgraph))

end Fills

/-- The walk of a subroutine that keeps no preconditions keeps all but its frame. -/
theorem Keeps.enterPlain
    (h : ∀ g, Graph.ofSub s = .ok g → ∃ B, Fills S side g B (settle side post g.entry [])) :
    Keeps S (At side fun _ _ => True) (Walk.enterPlain settle side post s) := by
  have hplace {e : Env} {f : Frame} {attached : Bool} :
      e.Kept (S.rule side) (At side (fun _ _ => True) side) { e with frame := f, attached } := by
    rw [at_self]
    exact .of_core rfl rfl rfl True.intro
  rw [Walk.enterPlain]
  refine (modifyEnv fun e => hplace).bind fun _ => ?_
  cases hg : Graph.ofSub s with
  | error f => exact throw f
  | ok g =>
  obtain ⟨B, hB⟩ := h g hg
  refine (steady (.bindVars s)).bind fun _ => ⟨fun {w} hw => ?_⟩
  have hopened : w.Kept S.rule (At side fun _ _ => True) (plainOpened w side post g) := .setEnv hplace
  have hend : ending (plainOpening settle side post g) w =
      closed w side (ending (settle side post g.entry []) (plainOpened w side post g)) := by
    rw [ending, ending, plainOpening_eq]
    cases settle side post g.entry [] (plainOpened w side post g) <;> rfl
  have hsettle := hB.kept (hopened.under hw) (by rw [plainOpened, World.env_setEnv])
  rw [hend]
  refine hopened.trans ((hsettle.mono fun side' f f' hf => ?_).trans (.setEnv hplace))
  unfold At at hf ⊢
  split
  · trivial
  · rename_i hne
    rwa [if_neg hne] at hf

/-- The walk of a copy that keeps no preconditions fills nothing. -/
theorem plainNode_fills (n : Nat) (hs : S.body side s) (hg : Graph.ofSub s = .ok g) (post : Constr)
    (t : String) (u : Unroll) :
    Fills S side g (fun _ => False) (plainNode n side post t u) := by
  induction n generalizing s g post t u with
  | zero => exact .rests (.throw _)
  | succ n ih =>
    have hx : Keeps.Expands S side (enterPlain (plainNode n)) := fun post c hc =>
      .enterPlain fun g' hg' => ⟨_, ih hc hg' post _ _⟩
    refine ⟨fun {w} hw hgraph => ?_⟩
    rw [ending, plainNode_succ hgraph, ← ending]
    refine Fills.kept (g := g) (.bind (.aheadPres fun s' _ => ih hs hg post s' _) fun ahead =>
      .bind (.edgePres fun s' _ _ => ih hs hg post s' _) fun targets =>
        .bind (.rests (Fills.trailing targets t)) fun after => ?_) hw hgraph
    exact .plainBlock hx hs hg targets t _ after

end Precond.Walk

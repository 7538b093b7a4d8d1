import Precond.Proofs.Walk.Keeps
import Precond.Walk.Sub

/-! Walks with a record of what they do with the copies of the blocks of a subroutine: which copies
are settled, for which of them the elements of the block are gone through, and whether something is
looked up that is not there. A walk with a record is the walk with stacks, step by step, and without
its record it is just that walk (`Walk.Record.enterSub_erase`). The record is of one subroutine; a
callee that is expanded is walked without one. -/

namespace Precond.Walk

open IR Precond.Flow

/-- A copy of a block, by the context in which it is settled. -/
abbrev Key := String × Unroll

inductive Event
  /-- A copy is settled, and its block is visited in the environment. -/
  | settle (key : Key) (e : Env)
  /-- The elements of the block are gone through for the copy. -/
  | fold (key : Key)
  /-- Something that must be there is not. -/
  | missing

/-- A world with what has been done so far, the latest first. -/
abbrev Recorded := World × List Event

/-- A walk that keeps a record, also when it ends in a fault. -/
abbrev Recorder := EStateM Fault Recorded

/-- The copies for which the elements of their blocks have been gone through. -/
def folds (log : List Event) : List Key :=
  log.filterMap fun
    | .fold key => some key
    | _ => none

namespace Record

/-- A walk of which nothing is recorded. -/
def quietly (act : Walk α) : Recorder α := fun r =>
  match act r.1 with
  | .ok a w => .ok a (w, r.2)
  | .error f w => .error f (w, r.2)

def note (ev : Event) : Recorder Unit := modify fun r => (r.1, ev :: r.2)

/-- What must be there. -/
def demand : Option α → Recorder α
  | some a => return a
  | none => do
    note .missing
    throw .missingEntry

abbrev Settle := Side → Constr → String → Unroll → Recorder Constr

def loopPre (settle : Settle) (side : Side) (post : Constr) (header : String) (u : Unroll) :
    Recorder Constr := do
  let bound := (← quietly (env side)).unrollBound
  let depth := u.count header + 1
  if bound ≤ depth then
    quietly do
      on side (Env.note .loopBound header
        ("back-edge cut after " ++ toString bound ++ " unrolling(s)"))
      trivial
  else settle side post header (u.withCount header depth)

def successorPres (settle : Settle) (side : Side) (g : Graph) (post : Constr) (tid : String)
    (u : Unroll) : List String → Recorder (Table String Constr)
  | [] => return []
  | s :: rest => do
    let pre ← if g.isBackEdge tid s then loopPre settle side post s u
      else demand ((← quietly (env side)).precond? s (g.restrict u s))
    return (s, pre) :: (← successorPres settle side g post tid u rest)

def trailing (side : Side) (g : Graph) (targets : Table String Constr) (tid : String) :
    Recorder Constr := do
  match (g.fallthrough.lookup tid).join with
  | some next => demand (targets.lookup next)
  | none => demand (← quietly (env side)).frame.retPost

/-- The elements of the block are gone through if nothing is kept for the copy that the walk is
at. -/
def visitBlock (expand : Expand) (side : Side) (post : Constr) (b : Blk) : Recorder Constr := fun r =>
  let e := r.1.env side
  match e.precond? b.tid e.frame.unroll with
  | some _ => quietly (Walk.visitBlock expand side post b) r
  | none => quietly (Walk.visitBlock expand side post b) (r.1, .fold (b.tid, e.frame.unroll) :: r.2)

/-- Visit the block of a copy with the preconditions of what the copy leads to. -/
def visitCopy (expand : Expand) (side : Side) (g : Graph) (targets : Table String Constr)
    (after : Constr) (tid : String) (u : Unroll) (b : Blk) : Recorder Constr := do
  quietly (modifyEnv side fun e =>
    { e with frame := { e.frame with targets, pred := g.predFor tid u, unroll := u } })
  note (.settle (tid, u) (← quietly (env side)))
  visitBlock expand side after b

def settleBlock (settle : Settle) (expand : Expand) (side : Side) (g : Graph) (post : Constr)
    (tid : String) (u : Unroll) : Recorder Constr := do
  let targets ← successorPres settle side g post tid u (g.succsOf tid)
  let after ← trailing side g targets tid
  let b ← demand (g.blocks.lookup tid)
  visitCopy expand side g targets after tid u b

def workOff (settle : Settle) (expand : Expand) (side : Side) (g : Graph) (post : Constr) :
    Nat → List Key → Recorder Unit
  | _, [] => return ()
  | 0, _ :: _ => throw .outOfFuel
  | fuel + 1, (t, u) :: stack => do
    let e ← quietly (env side)
    if (e.precond? t u).isSome then workOff settle expand side g post fuel stack
    else match pending e g u (g.forward t) with
      | [] =>
        let _ ← settleBlock settle expand side g post t u
        workOff settle expand side g post fuel stack
      | c :: cs => workOff settle expand side g post fuel (c :: cs ++ (t, u) :: stack)

/-- Settle a copy of a block from a stack; callees are expanded without a record. -/
def settleStacked (more : Nat) : Nat → Settle
  | 0, _, _, _, _ => throw .outOfFuel
  | levels + 1, side, post, tid, u => do
    let g ← demand (← quietly (env side)).frame.graph
    let u := g.restrict u tid
    workOff (settleStacked more levels) (Walk.enterSub (Walk.settleStacked more levels)) side g post
      (stepBound g (levels + 1) + more) [(tid, u)]
    demand ((← quietly (env side)).precond? tid u)

/-- The frame is opened, and closed however the settling ends. -/
def opening (settle : Settle) (side : Side) (post : Constr) (s : Sub) (g : Graph) :
    Recorder Constr := fun r =>
  match settle side post g.entry [] (opened r.1 side s post g, r.2) with
  | .ok c r₁ => .ok c (closed r.1 side r₁.1, r₁.2)
  | .error f r₁ => .error f (closed r.1 side r₁.1, r₁.2)

def enterSub (settle : Settle) (side : Side) (post : Constr) (s : Sub) : Recorder Constr := do
  quietly (modifyEnv side fun e => { e with attached := true })
  let g ← quietly (liftM (Graph.ofSub s))
  quietly (bindVars side s)
  opening settle side post s g

section

variable {expand : Expand} {side : Side} {post c : Constr} {b : Blk} {r : Recorded} {g : Graph}
  {targets : Table String Constr} {u : Unroll}

theorem visitBlock_of_kept (h : (r.1.env side).precond? b.tid (r.1.env side).frame.unroll = some c) :
    visitBlock expand side post b r = .ok c r := by
  dsimp only [visitBlock]
  rw [h]
  dsimp only [quietly]
  rw [visitBlock_eq, h]

theorem visitBlock_of_new (h : (r.1.env side).precond? b.tid (r.1.env side).frame.unroll = none) :
    visitBlock expand side post b r = quietly (Walk.visitBlock expand side post b)
      (r.1, .fold (b.tid, (r.1.env side).frame.unroll) :: r.2) := by
  dsimp only [visitBlock]
  rw [h]

theorem placedAt_unroll (w : World) (t : String) :
    ((placedAt w side g targets t u).env side).frame.unroll = u := by
  rw [placedAt, World.env_setEnv]

theorem placedAt_precond? (w : World) (t t' : String) (u' : Unroll) :
    ((placedAt w side g targets t u).env side).precond? t' u' = (w.env side).precond? t' u' := by
  rw [placedAt, World.env_setEnv]
  rfl

/-- What is known where the block of a copy is visited. -/
abbrev settling (side : Side) (g : Graph) (targets : Table String Constr) (t : String) (u : Unroll)
    (r : Recorded) : Recorded :=
  (placedAt r.1 side g targets t u, .settle (t, u) ((placedAt r.1 side g targets t u).env side) :: r.2)

theorem visitCopy_of_kept (h : (r.1.env side).precond? b.tid u = some c) :
    visitCopy expand side g targets post b.tid u b r = .ok c (settling side g targets b.tid u r) := by
  refine visitBlock_of_kept (r := settling side g targets b.tid u r) ?_
  rw [placedAt_unroll, placedAt_precond?, h]

theorem visitCopy_of_new (h : (r.1.env side).precond? b.tid u = none) :
    visitCopy expand side g targets post b.tid u b r = quietly (Walk.visitBlock expand side post b)
      ((settling side g targets b.tid u r).1, .fold (b.tid, u) :: (settling side g targets b.tid u r).2) := by
  refine (visitBlock_of_new (r := settling side g targets b.tid u r) ?_).trans ?_
  · rw [placedAt_unroll, placedAt_precond?, h]
  · rw [placedAt_unroll]

end

theorem quietly_bind_ok {act : Walk α} {k : α → Recorder β} {r : Recorded} {a : α} {w : World}
    (h : act r.1 = .ok a w) : (quietly act >>= k) r = k a (w, r.2) := by
  change EStateM.bind (quietly act) k r = _
  rw [EStateM.bind, quietly, h]

theorem quietly_bind_error {act : Walk α} {k : α → Recorder β} {r : Recorded} {f : Fault} {w : World}
    (h : act r.1 = .error f w) : (quietly act >>= k) r = .error f (w, r.2) := by
  change EStateM.bind (quietly act) k r = _
  rw [EStateM.bind, quietly, h]

/-- A walk of a subroutine fails before a frame is opened, or it goes on in the frame. -/
theorem enterSub_run (settle : Settle) (side : Side) (post : Constr) (s : Sub) (r : Recorded) :
    (∃ f w, enterSub settle side post s r = .error f (w, r.2)) ∨
      ∃ g a w, Graph.ofSub s = .ok g ∧ bindVars side s (attached r.1 side) = .ok a w ∧
        enterSub settle side post s r = opening settle side post s g (w, r.2) := by
  rw [enterSub, quietly_bind_ok (w := attached r.1 side) rfl]
  cases hg : Graph.ofSub s with
  | error f => exact .inl ⟨f, _, quietly_bind_error rfl⟩
  | ok g =>
    rw [quietly_bind_ok (a := g) (w := attached r.1 side) rfl]
    rcases hb : bindVars side s (attached r.1 side) with ⟨a, w⟩ | ⟨f, w⟩
    · exact .inr ⟨g, a, w, rfl, rfl, quietly_bind_ok hb⟩
    · exact .inl ⟨f, w, quietly_bind_error hb⟩

/-! ### Without the record -/

def erase : EStateM.Result Fault Recorded α → EStateM.Result Fault World α
  | .ok a r => .ok a r.1
  | .error f r => .error f r.1

/-- Without its record the first walk is the second one. -/
structure Plays (rec : Recorder α) (act : Walk α) : Prop where
  same (r : Recorded) : erase (rec r) = act r.1

namespace Plays

variable {side : Side} {g : Graph} {post : Constr} {t : String} {u : Unroll} {expand : Expand}

theorem pure (a : α) : Plays (Pure.pure a) (Pure.pure a) := ⟨fun _ => rfl⟩

theorem throw (f : Fault) : Plays (MonadExcept.throw f : Recorder α) (MonadExcept.throw f) :=
  ⟨fun _ => rfl⟩

theorem quietly (act : Walk α) : Plays (Record.quietly act) act := by
  refine ⟨fun r => ?_⟩
  rw [Record.quietly]
  cases act r.1 <;> rfl

theorem demand (o : Option α) : Plays (Record.demand o) (present o) := by
  cases o <;> exact ⟨fun _ => rfl⟩

theorem bind {rec : Recorder α} {act : Walk α} {k : α → Recorder β} {k' : α → Walk β}
    (h : Plays rec act) (hk : ∀ a, Plays (k a) (k' a)) : Plays (rec >>= k) (act >>= k') := by
  refine ⟨fun r => ?_⟩
  have hr : erase (rec r) = act r.1 := h.same r
  change erase (EStateM.bind rec k r) = EStateM.bind act k' r.1
  rw [EStateM.bind, EStateM.bind, ← hr]
  cases rec r with
  | ok a r' => exact (hk a).same r'
  | error f r' => rfl

theorem ite {c : Prop} [Decidable c] {rec rec' : Recorder α} {act act' : Walk α}
    (h : Plays rec act) (h' : Plays rec' act') :
    Plays (if c then rec else rec') (if c then act else act') := by
  split
  · exact h
  · exact h'

/-- One way of settling copies is the other without its record. -/
def Settles (settle : Settle) (settle' : Walk.Settle) : Prop :=
  ∀ side post t u, Plays (settle side post t u) (settle' side post t u)

variable {settle : Settle} {settle' : Walk.Settle}

theorem loopPre (h : Settles settle settle') :
    Plays (Record.loopPre settle side post t u) (Walk.loopPre settle' side post t u) :=
  (quietly _).bind fun _ => .ite (quietly _) (h ..)

theorem successorPres (h : Settles settle settle') (succs : List String) :
    Plays (Record.successorPres settle side g post t u succs)
      (Walk.successorPres settle' side g post t u succs) := by
  induction succs with
  | nil => exact pure _
  | cons s succs ih =>
    have hrest (pre : Constr) : Plays (do
        return (s, pre) :: (← Record.successorPres settle side g post t u succs)) (do
        return (s, pre) :: (← Walk.successorPres settle' side g post t u succs)) :=
      ih.bind fun _ => pure _
    rw [Record.successorPres, Walk.successorPres]
    split
    · exact (loopPre h).bind hrest
    · exact (quietly _).bind fun _ => (demand _).bind hrest

theorem trailing (targets : Table String Constr) :
    Plays (Record.trailing side g targets t) (Walk.trailing side g targets t) := by
  unfold Record.trailing Walk.trailing
  cases (g.fallthrough.lookup t).join with
  | some next => exact demand _
  | none => exact (quietly _).bind fun _ => demand _

theorem visitBlock (b : Blk) :
    Plays (Record.visitBlock expand side post b) (Walk.visitBlock expand side post b) := by
  refine ⟨fun r => ?_⟩
  cases h : (r.1.env side).precond? b.tid (r.1.env side).frame.unroll with
  | some c =>
    rw [visitBlock_of_kept h, visitBlock_eq, h]
    rfl
  | none =>
    rw [visitBlock_of_new h]
    exact (quietly _).same (r.1, _)

theorem settleBlock (h : Settles settle settle') :
    Plays (Record.settleBlock settle expand side g post t u)
      (Walk.settleBlock settle' expand side g post t u) := by
  refine (successorPres h _).bind fun targets => (trailing targets).bind fun after => ?_
  refine (demand _).bind fun b => (quietly _).bind fun _ => ⟨fun r => ?_⟩
  exact (visitBlock b).same (r.1, .settle (t, u) (r.1.env side) :: r.2)

theorem workOff (h : Settles settle settle') (fuel : Nat) (stack : List Key) :
    Plays (Record.workOff settle (Walk.enterSub settle') side g post fuel stack)
      (Walk.workOff settle' side g post fuel stack) := by
  induction fuel generalizing stack with
  | zero =>
    cases stack with
    | nil => exact pure _
    | cons k stack => exact throw _
  | succ fuel ih =>
    obtain - | ⟨⟨t, u⟩, stack⟩ := stack
    · exact pure _
    refine (quietly _).bind fun e => .ite (ih _) ?_
    cases pending e g u (g.forward t) with
    | nil => exact (settleBlock h).bind fun _ => ih _
    | cons c cs => exact ih _

theorem settleStacked (more levels : Nat) :
    Settles (Record.settleStacked more levels) (Walk.settleStacked more levels) := by
  induction levels with
  | zero => exact fun _ _ _ _ => throw _
  | succ levels ih =>
    intro side post t u
    refine (quietly _).bind fun e => (demand _).bind fun g => ?_
    exact (workOff ih _ _).bind fun _ => (quietly _).bind fun _ => demand _

end Plays

/-- Without its record a walk with a record is the walk with stacks. -/
theorem enterSub_erase (more levels : Nat) (side : Side) (post : Constr) (s : Sub) (r : Recorded) :
    erase (enterSub (settleStacked more levels) side post s r) =
      Walk.enterSub (Walk.settleStacked more levels) side post s r.1 := by
  have hopening (g : Graph) : Plays (opening (settleStacked more levels) side post s g)
      (Walk.opening (Walk.settleStacked more levels) side post s g) := by
    refine ⟨fun r => ?_⟩
    rw [opening, opening_eq, ← (Plays.settleStacked more levels side post g.entry []).same (_, r.2)]
    cases settleStacked more levels side post g.entry [] (opened r.1 side s post g, r.2) <;> rfl
  rw [enterSub_eq]
  refine ((Plays.quietly _).bind fun _ => ?_).same r
  exact (Plays.quietly _).bind fun g => (Plays.quietly _).bind fun _ => hopening g

end Record

end Precond.Walk

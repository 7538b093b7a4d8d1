import Precond.Proofs.Walk.Keeps

/-! The settling of a copy of a block in two parts: first what is around the copy is settled, and then
the block is visited. A copy is not settled by what is settled around it (`Walk.surroundings_new`). -/

namespace Precond.Walk

open IR Precond.Flow Relation

variable {S : Scope} {side : Side} {g : Graph} {w w₁ w₂ : World} {t : String} {u : Unroll} {c : Constr}

/-- The preconditions that the elements of a copy of a block start from: of the successors, and behind
the last jump. -/
def surroundings (settle : Settle) (side : Side) (g : Graph) (post : Constr) (t : String)
    (u : Unroll) : Walk (Table String Constr × Constr) := do
  settleForward settle side g post u (g.forward t)
  let targets ← successorPres settle side g post t u (g.succsOf t)
  return (targets, ← trailing side g targets t)

/-! ### Blocks -/

section

variable {P : Copy → Prop} {expand : Expand} {s : Sub} {b : Blk} {targets : Table String Constr} {after : Constr}

/-- The place of the elements of a copy of a block. -/
def elements (w : World) (side : Side) (g : Graph) (targets : Table String Constr) (t : String)
    (u : Unroll) (b : Blk) : World :=
  w.setEnv side { w.env side with frame := { (w.env side).frame with
    targets, pred := g.predFor t u, unroll := u, block := some b.tid } }

theorem entered_placedAt :
    entered (placedAt w side g targets t u) side b = elements w side g targets t u b := by
  cases side <;> rfl

theorem elements_frame : ((elements w side g targets t u b).env side).frame =
    { (w.env side).frame with targets, pred := g.predFor t u, unroll := u, block := some b.tid } := by
  rw [elements, World.env_setEnv]

theorem elements_kept : w.Kept S.rule (At side (Filled P))
    (elements w side g targets t u b) := Fills.placed rfl rfl rfl rfl

/-- A block that has not been visited for the copy is visited. -/
theorem visitBlock_new (expand : Expand) (after : Constr) (b : Blk)
    (hnew : (w.env side).precond? b.tid u = none) :
    visitBlock expand side after b (placedAt w side g targets t u) =
      match visitElts expand side after b.elts (elements w side g targets t u b) with
      | .ok pre w₁ => .ok pre
          (w₁.setEnv side ((w₁.env side).addPrecond b.tid (w₁.env side).frame.unroll pre))
      | .error f w₁ => .error f w₁ := by
  rw [visitBlock_eq]
  have hkept : ((placedAt w side g targets t u).env side).precond? b.tid
      ((placedAt w side g targets t u).env side).frame.unroll = none := by
    rw [placedAt, World.env_setEnv]
    exact hnew
  rw [hkept]
  exact entered_placedAt (b := b) ▸ rfl

/-- What is kept after a block has been visited. -/
theorem visitBlock_inv (hx : Keeps.Expands S side expand) (hs : S.body side s) (hb : b ∈ s.blks)
    (hw : w.Under S) (hnew : (w.env side).precond? b.tid u = none)
    (h : visitBlock expand side after b (placedAt w side g targets t u) = .ok c w₁) :
    ∃ w₂, visitElts expand side after b.elts (elements w side g targets t u b) = .ok c w₂ ∧
      (elements w side g targets t u b).Kept S.rule (fun _ => Eq) w₂ ∧
      w₁ = w₂.setEnv side ((w₂.env side).addPrecond b.tid u c) := by
  rw [visitBlock_new _ _ _ hnew] at h
  cases hrun : visitElts expand side after b.elts (elements w side g targets t u b) with
  | error f w₂ =>
    rw [hrun] at h
    cases h
  | ok pre w₂ =>
    rw [hrun] at h
    cases h
    have hw₂ := (Keeps.visitElts hx hs hb (fun _ he => he) after).of_ok ((elements_kept (P := fun _ => True)).under hw) hrun
    have hf : (w₂.env side).frame = _ := (hw₂.env side).frame.symm.trans elements_frame
    exact ⟨w₂, rfl, hw₂, by rw [hf]⟩

/-- After a block has been visited its precondition is kept, and what has been kept before. -/
theorem visitBlock_precond (hx : Keeps.Expands S side expand) (hs : S.body side s) (hb : b ∈ s.blks)
    (hw : w.Under S) (hnew : (w.env side).precond? b.tid u = none)
    (h : visitBlock expand side after b (placedAt w side g targets t u) = .ok c w₁) :
    w.Kept S.rule (At side (Filled fun _ => True)) w₁ ∧ ∀ t' u', (w₁.env side).precond? t' u' =
      if (b.tid, u) = (t', u') then some c else (w.env side).precond? t' u' := by
  obtain ⟨w₂, -, hw₂, rfl⟩ := visitBlock_inv hx hs hb hw hnew h
  have hf : (w₂.env side).frame = _ := (hw₂.env side).frame.symm.trans elements_frame
  refine ⟨elements_kept.trans ((hw₂.mono fun side' _ _ hf => hf ▸ refl_of (At side _ side') _).trans
    (Fills.added ?_ True.intro)), fun t' u' => ?_⟩
  · rw [Env.precond?, hf]
    exact hnew
  · rw [World.env_setEnv, Env.precond?, Env.addPrecond]
    dsimp only
    rw [Std.HashMap.getElem?_insert, hf]
    simp only [beq_iff_eq]
    rfl

/-- A visit that fails keeps nothing new. -/
theorem visitBlock_fails (hx : Keeps.Expands S side expand) (hs : S.body side s) (hb : b ∈ s.blks)
    (hw : w.Under S) {f : Fault} (hnew : (w.env side).precond? b.tid u = none)
    (h : visitBlock expand side after b (placedAt w side g targets t u) = .error f w₁) :
    w.Kept S.rule (At side (Filled P)) w₁ ∧
      ∀ t' u', (w₁.env side).precond? t' u' = (w.env side).precond? t' u' := by
  rw [visitBlock_new _ _ _ hnew] at h
  have hw₁ : (elements w side g targets t u b).Kept S.rule (fun _ => Eq) w₁ := by
    cases hrun : visitElts expand side after b.elts (elements w side g targets t u b) with
    | error f' w₂ =>
      rw [hrun] at h
      cases h
      exact (Keeps.visitElts hx hs hb (fun _ he => he) after).of_error ((elements_kept (P := P)).under hw) hrun
    | ok pre w₂ =>
      rw [hrun] at h
      cases h
  refine ⟨elements_kept.trans (hw₁.mono fun side' _ _ hf => hf ▸ refl_of (At side _ side') _),
    fun t' u' => ?_⟩
  rw [Env.precond?, ← (hw₁.env side).frame, elements_frame]
  rfl

end

/-! ### Copies -/

variable {n : Nat} {s : Sub} {post : Constr}

/-- A copy of a block that has not been settled is settled. -/
theorem settleNode_new (hgraph : (w.env side).frame.graph = some g)
    (hnew : (w.env side).precond? t (g.restrict u t) = none) :
    settleNode (n + 1) side post t u w =
      (surroundings (settleNode n) side g post t (g.restrict u t) >>= fun p => do
        let b ← present (g.blocks.lookup t)
        modifyEnv side fun e => { e with frame := { e.frame with
          targets := p.1, pred := g.predFor t (g.restrict u t), unroll := g.restrict u t } }
        visitBlock (enterSub (settleNode n)) side p.2 b) w := by
  rw [settleNode_succ hgraph, hnew]
  simp only [surroundings, settleBlock, bind_assoc, pure_bind]

/-- A copy is settled: its precondition has been kept, or it is settled now. -/
theorem settleNode_split (hgraph : (w.env side).frame.graph = some g)
    (h : settleNode (n + 1) side post t u w = .ok c w₂) :
    ((w.env side).precond? t (g.restrict u t) = some c ∧ w₂ = w) ∨
      (w.env side).precond? t (g.restrict u t) = none ∧ ∃ targets after w₁ b,
        surroundings (settleNode n) side g post t (g.restrict u t) w = .ok (targets, after) w₁ ∧
        g.blocks.lookup t = some b ∧ visitBlock (enterSub (settleNode n)) side after b
          (placedAt w₁ side g targets t (g.restrict u t)) = .ok c w₂ := by
  cases hkept : (w.env side).precond? t (g.restrict u t) with
  | some c' =>
    rw [settleNode_succ hgraph, hkept] at h
    cases h
    exact .inl ⟨rfl, rfl⟩
  | none =>
    rw [settleNode_new hgraph hkept] at h
    obtain ⟨⟨targets, after⟩, w₁, hsur, h⟩ := bind_ok h
    cases hb : g.blocks.lookup t with
    | none =>
      rw [hb] at h
      cases h
    | some b =>
      rw [hb] at h
      exact .inr ⟨rfl, targets, after, w₁, b, hsur, rfl, h⟩

/-- The settling of a copy fails around it, or in its block. -/
theorem settleNode_failed {f : Fault} (hgraph : (w.env side).frame.graph = some g)
    (h : settleNode (n + 1) side post t u w = .error f w₂) :
    (w.env side).precond? t (g.restrict u t) = none ∧
      (surroundings (settleNode n) side g post t (g.restrict u t) w = .error f w₂ ∨ ∃ targets after w₁,
        surroundings (settleNode n) side g post t (g.restrict u t) w = .ok (targets, after) w₁ ∧
        (w₂ = w₁ ∨ ∃ b, g.blocks.lookup t = some b ∧ visitBlock (enterSub (settleNode n)) side after b
          (placedAt w₁ side g targets t (g.restrict u t)) = .error f w₂)) := by
  cases hkept : (w.env side).precond? t (g.restrict u t) with
  | some c' =>
    rw [settleNode_succ hgraph, hkept] at h
    cases h
  | none =>
    refine ⟨rfl, ?_⟩
    rw [settleNode_new hgraph hkept] at h
    rcases bind_error h with hsur | ⟨⟨targets, after⟩, w₁, hsur, h⟩
    · exact .inl hsur
    refine .inr ⟨targets, after, w₁, hsur, ?_⟩
    cases hb : g.blocks.lookup t with
    | none =>
      rw [hb] at h
      cases h
      exact .inl rfl
    | some b =>
      rw [hb] at h
      exact .inr ⟨b, rfl, h⟩

/-- Around a copy only copies that it leads to are settled. -/
theorem surroundings_fills (n : Nat) (hs : S.body side s) (hg : Graph.ofSub s = .ok g)
    (post : Constr) (t : String) (u : Unroll) : Fills S side g (TransGen g.Leads (g.copy u t))
      (surroundings (settleNode n) side g post t (g.restrict u t)) := by
  refine (Fills.settleForward fun s' hs' => ?_).bind fun _ => (Fills.successorPres fun s' hs' hb => ?_).bind
    fun _ => (Fills.rests (Fills.trailing ..)).bind fun _ => .rests (.pure _)
  · exact (settleNode_fills n hs hg post s' _).mono fun c hc => .head' (Graph.Leads.forward hs') hc
  · exact (settleNode_fills n hs hg post s' _).mono fun c hc => .head' (Graph.Leads.back hs' hb) hc

/-- A copy is not settled by what is settled around it. -/
theorem surroundings_new {p : Table String Constr × Constr}
    (hs : S.body side s) (hg : Graph.ofSub s = .ok g) (hreach : g.Reached (g.copy u t))
    (hw : w.Under S) (hgraph : (w.env side).frame.graph = some g)
    (hnew : (w.env side).precond? t (g.restrict u t) = none)
    (h : surroundings (settleNode n) side g post t (g.restrict u t) w = .ok p w₁) :
    (w₁.env side).precond? t (g.restrict u t) = none := by
  have hf := (((surroundings_fills n hs hg post t u).of_ok hw hgraph h).env side).frame
  rw [at_self] at hf
  cases hpre : (w₁.env side).precond? t (g.restrict u t) with
  | none => rfl
  | some c =>
    rcases hf.new hpre with hold | hcycle
    · exact absurd (hnew.symm.trans hold) nofun
    · exact absurd hcycle (Graph.Leads.acyclic (Graph.searched_ofSub hg) hreach)

/-! ### Subroutines -/

theorem visitSub_kept (hs : S.body side s) :
    Keeps S (At side fun _ _ => True) (visitSub side post s) := by
  refine .env fun e _ => .enterSub fun g hg => ⟨_, settleNode_fills _ hs hg post _ _⟩

/-- The walk of a subroutine fails before the frame is opened, or the frame is for the subroutine and
the postcondition in the end. -/
theorem visitSub_root (hs : S.body side s) (hw : w.Under S) :
    (w.Kept S.rule (fun _ => Eq) (ending (visitSub side post s) w) ∧
      ∀ c w₁, visitSub side post s w ≠ .ok c w₁) ∨
    ((ending (visitSub side post s) w).env side).frame.root = some (s.tid, post.id) := by
  have hroot {g : Graph} {a : PUnit} {w₂ w₃ : World} (hg : Graph.ofSub s = .ok g)
      (hb : bindVars side s (attached w side) = .ok a w₂)
      (hend : ending (settleNode (depthBound (w.env side) s) side post g.entry [])
        (opened w₂ side s post g) = w₃) :
      ((closed w₂ side w₃).env side).frame.root = some (s.tid, post.id) := by
    have hu : (attached w side).Under S := hw.setEnv rfl rfl
    have hu₂ : (opened w₂ side s post g).Under S :=
      (((Steady.bindVars s).toKeeps.of_ok hu hb).under hu).setEnv rfl rfl
    have hf := (hend ▸ (settleNode_fills (depthBound (w.env side) s) hs hg post g.entry []).kept hu₂
      (by rw [opened, World.env_setEnv])).env side |>.frame
    rw [at_self] at hf
    rw [closed, World.env_setEnv, hf.root, opened, World.env_setEnv]
  cases h : visitSub side post s w with
  | ok c w₁ =>
    have h' : enterSub (settleNode (depthBound (w.env side) s)) side post s w = .ok c w₁ := h
    obtain ⟨g, a, w₂, w₃, hg, hb, hrun, rfl⟩ := enterSub_inv h'
    rw [ending_of_ok h]
    exact .inr (hroot hg hb (ending_of_ok hrun))
  | error f w₁ =>
    have h' : enterSub (settleNode (depthBound (w.env side) s)) side post s w = .error f w₁ := h
    rw [ending_of_error h]
    rcases enterSub_error hw h' with hw₁ | ⟨g, a, w₂, w₃, hg, hb, hrun, rfl⟩
    · exact .inl ⟨hw₁, fun _ _ hc => by cases hc⟩
    · exact .inr (hroot hg hb (ending_of_error hrun))

end Precond.Walk

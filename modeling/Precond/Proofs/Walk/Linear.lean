import Precond.Proofs.Exact.Basic
import Precond.Proofs.Walk.Around

/-! Blocks of definitions. A block without phis and jumps that is visited by itself gets the precondition
of its definitions if no precondition is kept for it (`Walk.visitBlockAlone_ok`), and so it does as the
only block of a subroutine (`Walk.visitSub_single`). -/

namespace Precond

open IR Precond.Flow

/-- The block has definitions only. -/
structure IR.Blk.Linear (b : Blk) : Prop where
  phis : b.phis = []
  jumps : b.jumps = []

/-- The subroutine whose only block is this one. -/
def IR.Blk.alone (b : Blk) (name tid : String) : Sub := ⟨name, tid, none, [], [b]⟩

namespace IR.Blk.Linear

variable {b : Blk} {name tid : String}

theorem elts (h : b.Linear) : b.elts = b.defs.map .define := by
  rw [Blk.elts, h.phis, h.jumps, List.map_nil, List.map_nil, List.nil_append, List.append_nil]

theorem closed (h : b.Linear) : (b.alone name tid).closed := by
  simp [Sub.closed, Sub.simple, Blk.alone, h.phis, h.jumps]

theorem callFree (h : b.Linear) : (b.alone name tid).callFree := by
  simp [Sub.callFree, Blk.alone, h.jumps]

/-- Control does not come back. -/
theorem loopFree (h : b.Linear) : LoopFree (b.alone name tid) := by
  obtain ⟨t, phis, defs, jumps⟩ := b
  cases h.jumps
  refine .of_rank (fun _ => 0) fun g hg e he x hx => ?_
  cases Option.mem_def.mp hg
  cases List.mem_singleton.mp he
  cases hx

/-- The run of the subroutine executes the definitions. -/
theorem assigns (h : b.Linear) {subs : List Sub} {σ σ' : Store} {trace : List String}
    (hr : Runs subs (b.alone name tid) b.tid σ trace (.returned σ')) : Assigns b.defs σ σ' := by
  have hat : (b.alone name tid).at? b.tid = some (b, none) := by
    simp [Sub.at?, Blk.alone, follow]
  have hleaves {way : Way} {τ : Store} (hl : (b.alone name tid).Leaves b.tid σ way τ) :
      way = .out ∧ Assigns b.defs σ τ := by
    obtain ⟨hb, hl⟩ := hl
    cases hat.symm.trans hb
    cases hl with
    | jump _ ht =>
      rw [h.jumps] at ht
      cases ht
    | last ha => exact ⟨rfl, ha⟩
  cases hr with
  | out hl => exact (hleaves hl).2
  | goto hl | tail hl | call hl => cases (hleaves hl).1

end IR.Blk.Linear

namespace Walk

variable {side : Side} {w w' : World} {b : Blk} {post pre : Constr} {K : Constr → Prop}

theorem visitBlockAlone_eq (side : Side) (post : Constr) (b : Blk) (w : World) :
    visitBlockAlone side post b w = visitBlock expandAny side post b (attached w side) := rfl

/-- A block for which no precondition is kept gets the precondition of its elements, which is kept from
then on. -/
theorem visitBlockAlone_inv
    (hnew : (w.env side).precond? b.tid (w.env side).frame.unroll = none)
    (h : visitBlockAlone side post b w = .ok pre w') :
    ∃ w₁, visitElts expandAny side post b.elts (entered (attached w side) side b) = .ok pre w₁ ∧
      w' = w₁.setEnv side ((w₁.env side).addPrecond b.tid (w₁.env side).frame.unroll pre) := by
  rw [visitBlockAlone_eq, visitBlock_eq] at h
  rw [attached, World.env_setEnv] at h
  rw [show Env.precond? { w.env side with attached := true } b.tid (w.env side).frame.unroll = none from
    hnew] at h
  dsimp only at h
  cases hrun : visitElts expandAny side post b.elts (entered (attached w side) side b) with
  | error f w₁ =>
    rw [attached] at hrun
    rw [hrun] at h
    cases h
  | ok c w₁ =>
    rw [attached] at hrun
    rw [hrun] at h
    cases h
    exact ⟨w₁, rfl, rfl⟩

/-- A precondition that is kept is given for every postcondition. -/
theorem visitBlockAlone_kept
    (hkept : (w.env side).precond? b.tid (w.env side).frame.unroll = some pre) :
    visitBlockAlone side post b w = .ok pre (attached w side) := by
  rw [visitBlockAlone_eq, visitBlock_eq, attached, World.env_setEnv]
  rw [show Env.precond? { w.env side with attached := true } b.tid (w.env side).frame.unroll =
    some pre from hkept]

/-- The precondition of a block of definitions. -/
theorem visitBlockAlone_ok (hb : b.Linear) (hd : Default side w) (hK : Constr.Ledger K w.nodes)
    (hpost : K post) (hnew : (w.env side).precond? b.tid (w.env side).frame.unroll = none)
    (h : visitBlockAlone side post b w = .ok pre w') :
    ∃ K', Walked side False K K' w w' ∧ K' pre ∧
      (w'.env side).frame.unroll = (w.env side).frame.unroll ∧
      (w'.env side).precond? b.tid (w.env side).frame.unroll = some pre ∧
      ∀ V, Table.Grows (w'.env side).vars V → Separate V → ∀ m, Before V b.defs pre post m := by
  obtain ⟨w₁, hrun, rfl⟩ := visitBlockAlone_inv hnew h
  have hstart : Walked side False K K w (entered (attached w side) side b) :=
    (Walked.setEnv (.of_frame False _ _ _ _)).trans (.setEnv (.of_frame False _ _ _ _))
  rw [hb.elts] at hrun
  obtain ⟨K', hw, hstays, hk, hbefore⟩ := visitDefs_ok False (C := fun _ => False)
    ((hd.ready hK nofun).walked hstart) hpost hrun
  have hunroll : (w₁.env side).frame.unroll = (w.env side).frame.unroll := by
    rw [hstays.frame, entered, World.env_setEnv, attached, World.env_setEnv]
  refine ⟨K', (hstart.trans hw).trans (.setEnv (.of_frame False _ _ _ _)), hk, ?_, ?_,
    fun V hV => hbefore V ?_⟩
  · rw [World.env_setEnv]
    exact hunroll
  · rw [World.env_setEnv, Env.precond?, Env.addPrecond]
    dsimp only
    rw [hunroll]
    exact Std.HashMap.getElem?_insert_self
  · rwa [World.env_setEnv] at hV

/-- The precondition of a subroutine that has one block, of definitions. -/
theorem visitSub_single {name tid : String} (hb : b.Linear) (hd : Default side w)
    (hK : Constr.Ledger K w.nodes) (hpost : K post)
    (hroot : (w.env side).frame.root ≠ some (tid, post.id))
    (h : visitSub side post (b.alone name tid) w = .ok pre w') :
    ∃ K', Walked side False K K' w w' ∧ K' pre ∧
      ∀ V, Table.Grows (w'.env side).vars V → Separate V → ∀ m, Before V b.defs pre post m := by
  obtain ⟨K', g, hg, he⟩ := visitSub_ok (.callFree hb.closed hb.callFree)
    (hd.ready hK (C := fun _ => False) nofun) hpost rfl (fun hr => absurd hr hroot)
    (fun _ hg => LoopFree.uncut hb.loopFree hg) h
  have hg' := Graph.of_ofSub hg
  refine ⟨K', he.walked, he.pre, fun V hV hsep m => ?_⟩
  have hentry : b.tid = g.entry := Option.some.inj hg'.entry
  cases he.good V hV hsep m with
  | returns ho hr htruth => exact ⟨_, ho, hb.assigns (hentry ▸ hr), htruth⟩
  | strays hr =>
    obtain ⟨σ, hσ⟩ := hr.returned
      (fun c hc => Sub.callFree_calls hb.callFree hc ▸ hb.closed) (Sub.at?_entry hg'.entry)
    cases hσ
  | cut _ _ ho => exact absurd ho ((hb.loopFree g hg).not_overruns hg')

end Walk

end Precond

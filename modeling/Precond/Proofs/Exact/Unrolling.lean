import Precond.Proofs.Constraint.Refute
import Precond.Proofs.Exact.Basic
import Precond.Proofs.Walk.Success

/-! Bounded unrolling is exact within the bound. A precondition that is false in a model is refuted
by the run from there, and where the run stays within the bound the precondition is true just if
the postcondition is true at the end (`Walk.visitSub_unrolled`). A jump is crossed in each copy of the
loop that it is in, and what is reported of a failed goal tells of the last copy only. -/

namespace Precond.Walk

open IR Precond.Flow

variable {side : Side} {w w' : World} {s : Sub} {post pre : Constr} {F : Term .bool}

/-- The walk of a subroutine that has jumps to its own blocks and returns only, with loops of any
shape. -/
theorem visitSub_unrolled (hs : s.closed) (hc : s.callFree) (hk : s.known)
    (hstart : Start side w s post F) (h : visitSub side post s w = .ok pre w') :
    ∃ φ g, pre.toFormula = .ok φ ∧ Graph.ofSub s = .ok g ∧
      (∀ v ∈ s.vars, ((w'.env side).vars.lookup v).isSome) ∧ ∀ m,
        (φ.holds m = false → ∃ σ, s.Ends (w.env side).subs (w'.state side m) σ ∧
          F.holds (w'.after side m σ) = false) ∧
        ∀ trace σ, Runs (w.env side).subs s g.entry (w'.state side m) trace (.returned σ) →
          g.Within (w.env side).unrollBound trace → φ.holds m = F.holds (w'.after side m σ) := by
  have hready := hstart.ready hstart.ledger (C := fun _ => False) nofun
  obtain ⟨K, g, hg, he⟩ := visitSub_ok (.callFree hs hc) hready .refl rfl
    (fun hroot => absurd hroot hstart.root) (fun _ _ _ _ _ => True.intro) h
  obtain ⟨φ, hφ, hφm⟩ := (he.walked.ledger hstart.ledger).formula he.pre
  refine ⟨φ, g, hφ, hg, fun v hv => he.vars hv, fun m => ?_⟩
  have hgood := he.good _ (.refl _) (he.walked.later.named hstart.named).separate m
  have hbelow : s.KnownBelow (w.env side).subs := Sub.known_below hc hk
  have hentry : (s.at? g.entry).isSome := Sub.at?_entry (Graph.of_ofSub hg).entry
  rw [hφm]
  refine ⟨fun hfalse => ?_, fun trace σ hruns hwithin => ?_⟩
  · -- what is false is neither cut nor strays
    cases hgood with
    | returns ho hr hb =>
      refine ⟨_, hr.ends hbelow (Graph.of_ofSub hg).entry, ?_⟩
      rw [World.after, Model.withStore_store ho, ← hstart.fresh.truth hstart.formula, ← hb, hfalse]
    | strays hr =>
      obtain ⟨σ, hσ⟩ := hr.returned (fun c hc' => Sub.callFree_calls hc hc' ▸ hs) hentry
      cases hσ
    | cut htrue => cases hfalse.symm.trans htrue
  · obtain ⟨trace', σ', hr, hb⟩ | ⟨trace', x, hr⟩ := hgood.uncut fun past hp =>
      hwithin.not_overruns (Graph.of_ofSub hg) (hp.isPrefix hbelow hruns)
    · cases (hruns.unique hbelow hr).2
      rw [hb, hstart.fresh.truth hstart.formula]
      rfl
    · cases (hruns.unique hbelow hr).2

/-- A register is counted down until it is zero. -/
def countdown : Sub where
  name := "countdown"
  tid := "@countdown"
  addr := none
  args := []
  blks := [{
    tid := "%loop"
    phis := []
    defs := [⟨⟨"R0", .word 32⟩, .bin .sub (.var ⟨"R0", .word 32⟩) (.lit 1#32), "%dec"⟩]
    jumps := [⟨.goto (.direct "%loop"), .bin .ne (.var ⟨"R0", .word 32⟩) (.lit 0#32), "%back"⟩,
      ⟨.ret (.direct "%exit"), .always, "%ret"⟩] }]

/-- The register is zero. -/
def zero : Term .bool := .eq (.const "R0" (.bv 32)) (.numeral 32 0)

/-- Loops are walked twice. -/
def twice : World where
  orig := { Env.start .arm [countdown] with unrollBound := 2 }
  mod := Env.start .arm []
  nodes := 1
  translations := 0

theorem countdown_rounds (name : String) (value : Term .bool) :
    Succeeds (visitSub .orig (.goal 0 name value none) countdown) twice fun pre _ =>
      pre = Constr.rounds (.goal 0 name value none) := by
  have hvars : sortByName countdown.vars = [⟨"R0", .word 32⟩] := by
    rw [show countdown.vars = [⟨"R0", .word 32⟩] by decide]
    simp [sortByName]
  refine .step rfl (.enter (Graph.ofSub_lap rfl rfl) hvars ?_)
  refine .step rfl (.step rfl (.step rfl (.step rfl (.restoring ?_))))
  refine .settle rfl (precond?_empty rfl ..) (.step rfl (.bind ?_))
  -- the second copy of the loop, behind which the back edge is cut
  refine .bind (.step rfl (.settle rfl (precond?_empty rfl ..) (.step rfl ?_)))
  refine .step rfl (.step rfl (.step rfl (.step rfl ?_)))
  refine .block (precond?_empty rfl ..) (.now rfl ?_)
  dsimp only [World.setEnv, World.env, Env.addPrecond]
  -- the first copy
  refine .now rfl (.step rfl (.step rfl (.step rfl (.block ?_ (.now rfl rfl)))))
  rw [precond?_insert rfl, if_neg (by intro hk; cases hk)]
  exact Std.HashMap.getElem?_empty ..

theorem countdown_visited :
    Succeeds (visitSub .orig (.goal 0 "zero" zero none) countdown) twice fun _ _ => True := by
  obtain ⟨pre, w', h, -⟩ := countdown_rounds "zero" zero
  exact ⟨pre, w', h, True.intro⟩

theorem visitSub_unrolled_countdown :
    ∃ pre w' φ g, visitSub .orig (.goal 0 "zero" zero none) countdown twice = .ok pre w' ∧
      pre.toFormula = .ok φ ∧ Graph.ofSub countdown = .ok g ∧ ∀ m,
        (φ.holds m = false → ∃ σ, countdown.Ends [countdown] (w'.state .orig m) σ ∧
          zero.holds (w'.after .orig m σ) = false) ∧
        ∀ trace σ, Runs [countdown] countdown g.entry (w'.state .orig m) trace (.returned σ) →
          g.Within 2 trace → φ.holds m = zero.holds (w'.after .orig m σ) := by
  obtain ⟨pre, w', h, -⟩ := countdown_visited
  have hstart : Start .orig twice countdown (.goal 0 "zero" zero none) zero :=
    .goal (.fresh rfl rfl rfl) rfl (by decide)
  obtain ⟨φ, g, hφ, hg, -, hm⟩ := visitSub_unrolled (by decide) (by decide) (by decide) hstart h
  exact ⟨pre, w', φ, g, h, hφ, hg, hm⟩

/-- The jump back is crossed in each of the two copies of the loop. It is taken in the first copy, and
what is reported is that it is not taken in the second one. -/
theorem countdown_path : ∃ pre w' r way, visitSub .orig Constr.one countdown twice = .ok pre w' ∧
    pre.refuted Constr.two = .ok [r] ∧ Constr.Leads Constr.two [] pre way r ∧ ("%back", true) ∈ way ∧
      r.path.lookup "%back" = some false := by
  obtain ⟨_, w', h, rfl⟩ := countdown_rounds "one" (.eq Constr.counted (.numeral 32 1))
  exact ⟨_, w', Constr.unmet, _, h, Constr.rounds_refuted, Constr.rounds_crossed, List.mem_cons_self, rfl⟩

end Precond.Walk

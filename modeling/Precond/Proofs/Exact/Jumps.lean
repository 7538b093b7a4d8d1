import Precond.Proofs.Exact.Conditions
import Precond.Proofs.Walk.Forcing
import Precond.Proofs.Walk.Success

/-! Exactness of jumps that are forced and of jumps that lead nowhere.

For a subroutine without loops and calls the precondition is true in a state just if the run from there
takes each jump that it comes to as the path tells, if the path tells of the jump, and the postcondition
is true where the run returns (`Walk.visitSub_reach`).

The walk takes what follows a goto to a name that no block has for what holds behind it, and does not
note that it does so: without loops and calls nothing is ever noted. Its precondition is exact just where
the run does not take such a jump (`Walk.visitSub_unnoted`). -/

namespace Precond.Walk

open IR Precond.Flow

variable {side : Side} {w w' : World} {s : Sub} {post pre : Constr} {F : Term .bool}

/-! ### Forced jumps -/

/-- A walk without side rules in which jumps may be forced, for a postcondition with a formula. No
preconditions for it are kept yet. -/
structure Directed (side : Side) (w : World) (s : Sub) (post : Constr) (F : Term .bool) : Prop where
  named : (w.env side).Named
  sideRules : (w.env side).sideRules = []
  root : (w.env side).frame.root ≠ some (s.tid, post.id)
  fresh : post.Fresh w.nodes
  formula : post.toFormula = .ok F

/-- The precondition of a straight subroutine with forced jumps is exact: it is true in a state just if
the choices of the run from there obey the path, and the postcondition is true where the run returns. -/
theorem visitSub_reach (hs : s.Straight) (hw : Directed side w s post F)
    (h : visitSub side post s w = .ok pre w') :
    ∃ F', pre.toFormula = .ok F' ∧ ∀ m, ∃ cs σ, s.Decisions (w'.state side m) cs σ ∧
      s.Ends (w.env side).subs (w'.state side m) σ ∧
      (F'.holds m = true ↔ Obeys (w.env side).reach cs ∧ F.holds (w'.after side m σ) = true) := by
  have hdirect (b : Blk) (hb : b ∈ s.blks) : b.Direct := direct_of_straight hs hb
  have hlocal : ∀ r ∈ (w.env side).sideRules, r.isLocal := by
    rw [hw.sideRules]
    nofun
  obtain ⟨F', e, d, hpre, hF', he, hsep, hroute⟩ := visitSub_tells
    (A := routes side (w.env side).reach s post) hdirect hs.loopFree hlocal hw.named hw.root hw.fresh
    hw.formula ⟨rfl, hw.sideRules⟩ (fun S hS g hg => routes_inductive hS hg hdirect hs.closed) h
  refine ⟨F', hpre, fun m => ?_⟩
  obtain ⟨cs, m', ho, hch, ht⟩ := hroute.2 _ (.refl _) hsep m
  obtain ⟨trace, hrun⟩ := hch.runs (w.env side).subs
  refine ⟨cs, m'.store (w'.env side).vars, ⟨⟨e, he, hch⟩, fun he' hch' => ?_⟩,
    hrun.ends (Sub.known_below hs.callFree hs.known) he, ?_⟩
  · cases he.symm.trans he'
    exact hch.unique hs.known hch'
  · rw [Constr.truth_of_plain hF' m] at ht
    rw [ht, World.after, Model.withStore_store ho, hw.fresh.truth hw.formula m']

theorem visitSub_reach_dereferencing : ∃ pre w' F',
    visitSub .orig (.goal 0 "nulled" nulled none) dereferencing directed = .ok pre w' ∧
      pre.toFormula = .ok F' ∧ ∀ m, ∃ cs σ, dereferencing.Decisions (w'.state .orig m) cs σ ∧
        dereferencing.Ends [dereferencing] (w'.state .orig m) σ ∧
        (F'.holds m = true ↔
          Obeys [("%if", true)] cs ∧ nulled.holds (w'.after .orig m σ) = true) := by
  obtain ⟨pre, w', h, -⟩ := dereferencing_walked (.inr rfl)
  have hdirected : Directed .orig directed dereferencing (.goal 0 "nulled" nulled none) nulled :=
    ⟨.of_empty rfl, rfl, nofun, .goal (by decide) .., Constr.toFormula_goal ..⟩
  obtain ⟨F', hF', hm⟩ := visitSub_reach dereferencing_straight hdirected h
  exact ⟨pre, w', F', h, hF', hm⟩

/-! ### Gotos to nowhere -/

/-- The walk of a subroutine without loops whose gotos lead anywhere. -/
theorem visitSub_unnoted (hs : s.simple fun _ => true) (hc : s.callFree) (hloop : LoopFree s)
    (hstart : Start side w s post F) (h : visitSub side post s w = .ok pre w') :
    (w'.env side).weakenings = (w.env side).weakenings ∧
      ∃ φ g, pre.toFormula = .ok φ ∧ Graph.ofSub s = .ok g ∧ ∀ m,
        ((∃ trace σ, Runs (w.env side).subs s g.entry (w'.state side m) trace (.returned σ) ∧
            φ.holds m = F.holds (w'.after side m σ)) ∨
          s.Strays (w.env side).subs (w'.state side m)) ∧
        (s.known → ((∃ σ, s.Ends (w.env side).subs (w'.state side m) σ ∧
            φ.holds m = F.holds (w'.after side m σ)) ↔
          ¬ s.Strays (w.env side).subs (w'.state side m))) := by
  have hready := hstart.ready hstart.ledger (C := fun _ => False) nofun
  obtain ⟨K, g, hg, he⟩ := visitSub_ok (.callFree hs hc) hready .refl rfl
    (fun hroot => absurd hroot hstart.root) (fun _ hg => LoopFree.uncut hloop hg) h
  obtain ⟨φ, hφ, hφm⟩ := (he.walked.ledger hstart.ledger).formula he.pre
  have hentry := (Graph.of_ofSub hg).entry
  refine ⟨he.walked.later.weakenings.resolve_right id, φ, g, hφ, hg, fun m => ?_⟩
  have hruns : (∃ trace σ, Runs (w.env side).subs s g.entry (w'.state side m) trace (.returned σ) ∧
      φ.holds m = F.holds (w'.after side m σ)) ∨ s.Strays (w.env side).subs (w'.state side m) := by
    obtain ⟨trace, σ, hr, hb⟩ | ⟨trace, x, hr⟩ :=
      (he.good _ (.refl _) (he.walked.later.named hstart.named).separate m).uncut
        fun _ _ => (hloop g hg).not_overruns (Graph.of_ofSub hg)
    · refine .inl ⟨trace, σ, hr, ?_⟩
      rw [hφm, hb, hstart.fresh.truth hstart.formula]
      rfl
    · exact .inr (.mk hentry hr)
  refine ⟨hruns, fun hk => ⟨?_, fun hstray => ?_⟩⟩
  · rintro ⟨σ, hσ, -⟩
    exact hσ.not_strays
  · obtain ⟨trace, σ, hr, hb⟩ := hruns.resolve_right hstray
    exact ⟨σ, hr.ends (Sub.known_below hc hk) hentry, hb⟩

/-- A jump to nowhere. -/
def adrift : Sub where
  name := "adrift"
  tid := "@adrift"
  addr := none
  args := []
  blks := [⟨"%only", [], [], [⟨.goto (.direct "%nowhere"), .always, "%lost"⟩]⟩]

def alone : World where
  orig := Env.start .arm [adrift]
  mod := Env.start .arm []
  nodes := 1
  translations := 0

/-- The register is ten. -/
def ten : Term .bool := .eq (.const "R0" (.bv 32)) (.numeral 32 10)

theorem adrift_strays (σ : Store) : adrift.Strays [adrift] σ := by
  have htakes : Takes σ [⟨.goto (.direct "%nowhere"), .always, "%lost"⟩]
      (some ⟨.goto (.direct "%nowhere"), .always, "%lost"⟩) := .this (.lit (by decide)) rfl
  exact .mk rfl (.goto (.mk rfl (.jump .nil htakes rfl)) (.stray rfl))

theorem adrift_visited :
    Succeeds (visitSub .orig (.goal 0 "ten" ten none) adrift) alone fun pre _ =>
      pre.toFormula = .ok ten := by
  have hvars : sortByName adrift.vars = [] := by
    rw [show adrift.vars = [] by decide]
    simp [sortByName]
  refine .step rfl (.enter (Graph.ofSub_lone rfl rfl) hvars ?_)
  refine .step rfl (.step rfl (.step rfl (.step rfl (.restoring ?_))))
  refine .settle rfl (precond?_empty rfl ..) (.step rfl (.step rfl ?_))
  refine .step rfl (.step rfl (.step rfl (.block (precond?_empty rfl ..) (.now rfl ?_))))
  exact Constr.toFormula_goal ..

theorem visitSub_unnoted_adrift :
    ∃ pre w' φ g, visitSub .orig (.goal 0 "ten" ten none) adrift alone = .ok pre w' ∧
      (w'.env .orig).weakenings = [] ∧ pre.toFormula = .ok φ ∧ Graph.ofSub adrift = .ok g ∧
      ∀ m, adrift.Strays [adrift] (w'.state .orig m) ∧
        ¬ ∃ σ, adrift.Ends [adrift] (w'.state .orig m) σ ∧
          φ.holds m = ten.holds (w'.after .orig m σ) := by
  obtain ⟨pre, w', h, -⟩ := adrift_visited
  have hstart : Start .orig alone adrift (.goal 0 "ten" ten none) ten :=
    .goal (.fresh rfl rfl rfl) rfl (by decide)
  obtain ⟨hnone, φ, g, hφ, hg, hm⟩ := visitSub_unnoted (by decide) (by decide)
    (.of_rank (fun _ => 0) (by decide)) hstart h
  refine ⟨pre, w', φ, g, h, hnone, hφ, hg, fun m => ⟨adrift_strays _, fun hends => ?_⟩⟩
  exact ((hm m).2 (by decide)).mp hends (adrift_strays _)

end Precond.Walk

import Precond.Proofs.Run.Closed
import Precond.Proofs.Walk.Sub

/-! Where exactness is stated: the states that models give the variables of an environment
(`World.state`), and walks that start without special policies (`Walk.Start`). -/

namespace Precond

open IR Precond.Flow

/-- The state of a program in a model: the values of the terms of its variables. -/
def World.state (w : World) (side : Side) (m : Model) : Store := m.store (w.env side).vars

/-- The model in which the variables of a program have got the values of a state. -/
def World.after (w : World) (side : Side) (m : Model) (σ : Store) : Model :=
  m.withStore (w.env side).vars σ

/-- The graph of the subroutine has no cycles. -/
def Flow.LoopFree (s : Sub) : Prop := ∀ g, Graph.ofSub s = .ok g → g.Acyclic

/-- A graph whose edges go down has no cycles. -/
theorem Flow.LoopFree.of_rank {s : Sub} (rank : String → Nat)
    (h : ∀ g ∈ (Graph.ofSub s).toOption, ∀ e ∈ g.succs, ∀ b ∈ e.2, rank b < rank e.1) :
    LoopFree s :=
  fun g hg => .of_rank rank (h g (by rw [hg]; rfl))

/-- A subroutine of assignments, returns and gotos to its own blocks, without loops. -/
structure IR.Sub.Straight (s : Sub) : Prop where
  closed : s.closed
  callFree : s.callFree
  known : s.known
  loopFree : LoopFree s

namespace Walk

/-- There are neither side rules nor forced jumps, and each variable has a constant of its own. -/
structure Default (side : Side) (w : World) : Prop where
  named : (w.env side).Named
  reach : (w.env side).reach = []
  sideRules : (w.env side).sideRules = []

/-- No preconditions of the subroutine are kept for a given constraint, or for one that is still to
be built. -/
def Unkept (side : Side) (K : Constr → Prop) (s : Sub) (w : World) : Prop :=
  ∀ n, (w.env side).frame.root = some (s.tid, n) → n < w.nodes ∧ ∀ c, K c → c.id ≠ n

/-- A walk for a postcondition with a formula. No preconditions for it are kept yet. -/
structure Start (side : Side) (w : World) (s : Sub) (post : Constr) (F : Term .bool) : Prop
    extends Default side w where
  root : (w.env side).frame.root ≠ some (s.tid, post.id)
  fresh : post.Fresh w.nodes
  formula : post.toFormula = .ok F

variable {side : Side} {w w' : World} {s : Sub} {post pre : Constr} {F : Term .bool}
  {subs : List Sub} {K : Constr → Prop} {C : Sub → Prop}

theorem Default.ready (h : Default side w) (hK : Constr.Ledger K w.nodes)
    (hC : ∀ c, C c → (w.env side).Inlines c) : Ready side (w.env side).subs C K w where
  ledger := hK
  named := h.named
  subs := rfl
  reach := h.reach
  sideRules := h.sideRules
  inlines hc := hC _ hc

/-- An environment that has just been set up. -/
theorem Default.fresh (hv : (w.env side).vars = []) (hr : (w.env side).reach = [])
    (hs : (w.env side).sideRules = []) : Default side w := ⟨.of_empty hv, hr, hs⟩

theorem Unkept.fresh (h : (w.env side).frame.root = none) : Unkept side K s w := by
  intro n hn
  rw [h] at hn
  cases hn

theorem Unkept.root {c : Constr} (h : Unkept side K s w) (hc : K c) :
    (w.env side).frame.root ≠ some (s.tid, c.id) :=
  fun hr => (h _ hr).2 c hc rfl

theorem Unkept.later {K' : Constr → Prop} (h : Unkept side K s w)
    (hr : (w'.env side).frame.root = (w.env side).frame.root) (hn : w.nodes ≤ w'.nodes)
    (hf : ∀ c, K' c → K c ∨ w.nodes ≤ c.id) : Unkept side K' s w' := by
  intro n hroot
  obtain ⟨hlt, hne⟩ := h n (hr ▸ hroot)
  refine ⟨hlt.trans_le hn, fun c hc heq => ?_⟩
  rcases hf c hc with hc | hc
  · exact hne c hc heq
  · omega

/-- A walk for a goal in an environment that has just been set up. -/
theorem Start.goal {id : Nat} {name : String} {tid : Option String} (hd : Default side w)
    (hroot : (w.env side).frame.root = none) (hid : id < w.nodes) :
    Start side w s (.goal id name F tid) F where
  toDefault := hd
  root := by rw [hroot]; nofun
  fresh := .goal hid F tid
  formula := Constr.toFormula_goal id name F tid

theorem Default.later {cuts : Prop} (h : Default side w)
    (hl : (w.env side).Later cuts (w'.env side)) : Default side w' where
  named := hl.named h.named
  reach := hl.reach.trans h.reach
  sideRules := hl.sideRules.trans h.sideRules

theorem Start.ledger (h : Start side w s post F) : Constr.Ledger (Constr.Part post) w.nodes :=
  h.fresh.ledger h.formula

/-- A subroutine without calls is walked by itself. -/
theorem Domain.callFree {own : String → Bool} (hs : s.simple own) (hc : s.callFree) :
    Domain subs (fun _ c => c = s) (fun _ => False) where
  phis := by
    rintro _ _ b rfl hb
    exact Sub.simple_phis hs hb
  jumps := by
    rintro _ _ b j rfl hb hj
    obtain ⟨way, hway, -⟩ := Sub.simple_jumps hs hb hj
    exact ⟨way, hway, fun f back hf => absurd (hf ▸ hway) (Sub.callFree_way? hc hb hj f back)⟩
  acyclic := nofun

/-- The run of a faithful precondition that is nowhere cut returns or strays. -/
theorem Faithful.uncut {V : Table Var SomeTerm} {g : Graph} {bound : Int} {ret : Constr}
    {t : String} {u : Unroll} {m : Model} {b : Bool} (h : Faithful V subs s g bound ret t u m b)
    (hcut : ∀ trace, Reaches subs s t (m.store V) trace → ¬ g.Overruns bound u trace) :
    (∃ trace σ, Runs subs s t (m.store V) trace (.returned σ) ∧ b = ret.truth (m.withStore V σ)) ∨
      ∃ trace x, Runs subs s t (m.store V) trace (.strayed x) := by
  cases h with
  | returns ho hr hb => exact .inl ⟨_, _, hr, by rw [Model.withStore_store ho]; exact hb⟩
  | strays hr => exact .inr ⟨_, _, hr⟩
  | cut _ hr ho => exact absurd ho (hcut _ hr)

/-- Where there are no cycles, and control goes on at blocks of the own subroutine only, the
precondition of a subroutine is the postcondition at the end of the run. -/
theorem Entered.ends {cuts : Prop} {K' : Constr → Prop} {g : Graph}
    (he : Entered side cuts subs s post K K' w w' g pre) (hg : Graph.ofSub s = .ok g)
    (hloop : LoopFree s) (hk : s.KnownBelow subs)
    (hs : ∀ c, Relation.ReflTransGen (Sub.Calls subs) s c → c.closed) {V : Table Var SomeTerm}
    (hV : Table.Grows (w'.env side).vars V) (hsep : Separate V) (m : Model) :
    ∃ σ, s.Ends subs (m.store V) σ ∧ pre.truth m = post.truth (m.withStore V σ) := by
  have hg' := Graph.of_ofSub hg
  obtain ⟨trace, σ, hr, hb⟩ | ⟨trace, x, hr⟩ := (he.good V hV hsep m).uncut
    fun _ _ => (hloop g hg).not_overruns hg'
  · exact ⟨σ, hr.ends hk hg'.entry, hb⟩
  · obtain ⟨σ, hσ⟩ := hr.returned hs (Sub.at?_entry hg'.entry)
    cases hσ

theorem LoopFree.uncut (hloop : LoopFree s) {g : Graph} (hg : Graph.ofSub s = .ok g)
    (a b : String) : ¬ g.isBackEdge a b := by
  rw [(hloop g hg).isBackEdge (Graph.of_ofSub hg)]
  exact Bool.false_ne_true

/-- The walk of a straight subroutine. -/
theorem visitSub_straight (hs : s.Straight) (hd : Default side w) (hK : Constr.Ledger K w.nodes)
    (hpost : K post) (hroot : (w.env side).frame.root ≠ some (s.tid, post.id))
    (h : visitSub side post s w = .ok pre w') :
    ∃ K', Walked side False K K' w w' ∧ K' pre ∧
      ∀ V, Table.Grows (w'.env side).vars V → Separate V → ∀ m, ∃ σ,
        s.Ends (w.env side).subs (m.store V) σ ∧ pre.truth m = post.truth (m.withStore V σ) := by
  obtain ⟨K', g, hg, he⟩ := visitSub_ok (.callFree hs.closed hs.callFree)
    (hd.ready hK (C := fun _ => False) nofun) hpost rfl (fun hr => absurd hr hroot)
    (fun _ hg => LoopFree.uncut hs.loopFree hg) h
  refine ⟨K', he.walked, he.pre, fun V hV hsep m => ?_⟩
  exact he.ends hg hs.loopFree (Sub.known_below hs.callFree hs.known)
    (fun c hc => Sub.callFree_calls hs.callFree hc ▸ hs.closed) hV hsep m

end Walk

end Precond

import Mathlib.Algebra.Order.BigOperators.Group.List
import Precond.Proofs.Walk.Agree
import Precond.Walk.Sub

/-! How many levels a walk needs. Above the settling of a copy of a block there are other copies of
blocks of the subroutine, all different; below it there are copies in callees that are not being
expanded yet. While a copy fits (`Walk.Fits`), more levels make no difference
(`Walk.settleNode_agree`). -/

namespace Precond

open IR Precond.Flow Relation

theorem Flow.Graph.restrict_restrict (g : Graph) (u : Unroll) (t : String) :
    g.restrict (g.restrict u t) t = g.restrict u t := by
  simp [restrict, List.filter_filter]

namespace Walk

/-! ### Levels and copies -/

/-- How many copies of blocks there can be in callees that are not being expanded yet. -/
def budget (e : Env) : Nat :=
  ((e.subs.filter fun c => !e.inlining.contains c.tid).map (copyBound e.unrollBound)).sum

theorem budget_stays {F : Frame → Frame → Prop} {e e' : Env} (h : e.Stays F e') :
    budget e' = budget e := by
  rw [budget, budget, h.subs, h.unrollBound, h.inlining]

theorem sum_filter_le (f : Sub → Nat) (p : Sub → Bool) (cs : List Sub) :
    ((cs.filter p).map f).sum ≤ (cs.map f).sum :=
  (List.filter_sublist.map f).sum_le_sum fun _ _ => Nat.zero_le _

/-- A callee that is expanded is no longer counted. -/
theorem budget_expand {e e' : Env} {c : Sub} (hc : c ∈ e.subs) (hin : c.tid ∉ e.inlining)
    (hsubs : e'.subs = e.subs) (hbound : e'.unrollBound = e.unrollBound)
    (hinlining : e'.inlining = c.tid :: e.inlining) :
    copyBound e'.unrollBound c + budget e' ≤ budget e := by
  rw [budget, budget, hbound, hsubs, hinlining]
  obtain ⟨before, behind, hsplit⟩ := List.append_of_mem hc
  have hnew : ∀ cs : List Sub, cs.filter (fun d => !(c.tid :: e.inlining).contains d.tid) =
      (cs.filter fun d => !e.inlining.contains d.tid).filter fun d => d.tid != c.tid := by
    intro cs
    rw [List.filter_filter]
    refine List.filter_congr fun d _ => ?_
    rw [List.contains_cons, Bool.not_or]
    rfl
  have hb := sum_filter_le (copyBound e.unrollBound) (fun d => d.tid != c.tid)
    (before.filter fun d => !e.inlining.contains d.tid)
  have hr := sum_filter_le (copyBound e.unrollBound) (fun d => d.tid != c.tid)
    (behind.filter fun d => !e.inlining.contains d.tid)
  rw [hsplit, hnew, List.filter_append, List.filter_append,
    List.filter_cons_of_pos (by simpa using hin), List.filter_cons_of_neg (by simp)]
  simp only [List.map_append, List.map_cons, List.sum_append, List.sum_cons]
  omega

theorem trail_length_le {g : Graph} {s : Sub} (hg : Graph.ofSub s = .ok g) {bound : Int}
    {trail : List Copy} (ht : g.Trail (max bound.toNat 1) trail) :
    trail.length ≤ copyBound bound s := by
  have hblocks : g.blocks.length ≤ s.blks.length := Graph.length_blocks_le hg
  have hbelow : max bound.toNat 1 ≤ bound.toNat + 2 := by omega
  calc trail.length
    _ ≤ g.blocks.length * max bound.toNat 1 ^ g.blocks.length :=
      ht.length_le (Graph.searched_ofSub hg)
    _ ≤ s.blks.length * (bound.toNat + 2) ^ s.blks.length :=
      Nat.mul_le_mul hblocks ((Nat.pow_le_pow_left hbelow _).trans
        (Nat.pow_le_pow_right (Nat.succ_pos _) hblocks))
    _ ≤ copyBound bound s := Nat.mul_le_mul_right _ (Nat.le_succ _)

theorem budget_lt_depthBound (e : Env) (s : Sub) :
    copyBound e.unrollBound s + budget e < depthBound e s := by
  have hsum (n : Nat) (cs : List Sub) : cs.foldl (fun n c => n + copyBound e.unrollBound c) n =
      n + (cs.map (copyBound e.unrollBound)).sum := by
    induction cs generalizing n with
    | nil => rfl
    | cons c cs ih => rw [List.foldl_cons, ih, List.map_cons, List.sum_cons, Nat.add_assoc]
  have hbudget : budget e ≤ (e.subs.map (copyBound e.unrollBound)).sum := sum_filter_le ..
  rw [depthBound, hsum, List.map_cons, List.sum_cons]
  omega

/-- The levels are enough for a copy of a block of `s` that is met below the copies `past`. -/
structure Fits (side : Side) (w : World) (s : Sub) (g : Graph) (levels : Nat) (past : List Copy)
    (t : String) (u : Unroll) : Prop where
  graph : (w.env side).frame.graph = some g
  made : Graph.ofSub s = .ok g
  trail : g.Trail (max (w.env side).unrollBound.toNat 1) (g.copy u t :: past)
  enough : copyBound (w.env side).unrollBound s + budget (w.env side) < levels + (past.length + 1)

variable {side : Side} {w w' : World} {s : Sub} {g : Graph} {levels : Nat} {past : List Copy}
  {t t' : String} {u v : Unroll} {post : Constr}

namespace Fits

theorem budget_lt (h : Fits side w s g levels past t u) : budget (w.env side) < levels := by
  have hlength : past.length + 1 ≤ copyBound (w.env side).unrollBound s :=
    trail_length_le h.made h.trail
  have henough := h.enough
  omega

theorem stays {B : Copy → Prop} (h : Fits side w s g levels past t u)
    (hw : (w.env side).Stays (Adds B) (w'.env side)) : Fits side w' s g levels past t u where
  graph := hw.frame.graph.trans h.graph
  made := h.made
  trail := hw.unrollBound ▸ h.trail
  enough := by
    rw [hw.unrollBound, budget_stays hw]
    exact h.enough

/-- A copy that is met below one that fits. -/
theorem next (h : Fits side w s g (levels + 1) past t u)
    (ht : g.Trail (max (w.env side).unrollBound.toNat 1) (g.copy v t' :: g.copy u t :: past)) :
    Fits side w s g levels (g.copy u t :: past) t' v where
  graph := h.graph
  made := h.made
  trail := ht
  enough := by
    have henough := h.enough
    rw [List.length_cons]
    omega

theorem more (h : Fits side w s g levels past t u) (n : Nat) :
    Fits side w s g (levels + n) past t u where
  graph := h.graph
  made := h.made
  trail := h.trail
  enough := by
    have henough := h.enough
    omega

theorem entry (hgraph : (w.env side).frame.graph = some g) (hg : Graph.ofSub s = .ok g)
    (h : copyBound (w.env side).unrollBound s + budget (w.env side) ≤ levels) :
    Fits side w s g levels [] g.entry [] :=
  ⟨hgraph, hg, Graph.trail_entry (by omega), by rw [List.length_nil]; omega⟩

end Fits

/-! ### The parts of a walk -/

variable {settle settle' : Settle} {B : Copy → Prop} {succs : List String}

theorem settleForward_agree
    (h : ∀ s ∈ succs, ∀ w', (w.env side).Stays (Adds B) (w'.env side) →
      Agree (fun pre w'' => (w'.env side).Stays (Adds B) (w''.env side) ∧
          (w''.env side).precond? s (g.restrict u s) = some pre)
        (settle side post s (g.restrict u s)) (settle' side post s (g.restrict u s)) w') :
    Agree (fun _ w' => (w.env side).Stays (Adds B) (w'.env side) ∧
        ∀ s ∈ succs, ((w'.env side).precond? s (g.restrict u s)).isSome)
      (settleForward settle side g post u succs) (settleForward settle' side g post u succs) w := by
  induction succs generalizing w with
  | nil => exact .pure ⟨.refl _, nofun⟩
  | cons s succs ih =>
    refine (h s List.mem_cons_self w (.refl _)).bind fun pre w₁ ⟨hw₁, hpre⟩ => ?_
    refine (ih fun t ht w₂ hw₂ => ?_).mono fun _ w₂ ⟨hw₂, hrest⟩ => ⟨hw₁.trans hw₂, fun t ht => ?_⟩
    · exact h t (List.mem_cons_of_mem s ht) w₂ (hw₁.trans hw₂)
    · rcases List.mem_cons.mp ht with rfl | ht
      · exact Option.isSome_of_eq_some (hw₂.frame.kept hpre)
      · exact hrest t ht

/-- A header is come back to once more alike, wherever what is kept is kept still. -/
structure LapsAlike (settle settle' : Settle) (side : Side) (B : Copy → Prop) (post : Constr)
    (header : String) (u : Unroll) (w : World) : Prop where
  agree {w' : World} : (w.env side).Stays (Adds B) (w'.env side) →
    (u.count header + 1 : Nat) < (w.env side).unrollBound →
    Agree (Staying (Adds B) side w')
      (settle side post header (u.withCount header (u.count header + 1)))
      (settle' side post header (u.withCount header (u.count header + 1))) w'

theorem LapsAlike.stays {header : String} {w₁ : World}
    (h : LapsAlike settle settle' side B post header u w)
    (hw₁ : (w.env side).Stays (Adds B) (w₁.env side)) :
    LapsAlike settle settle' side B post header u w₁ := by
  refine ⟨fun hw' hcut => h.agree (hw₁.trans hw') ?_⟩
  rw [← hw₁.unrollBound]
  exact hcut

theorem loopPre_agree {header : String} (h : LapsAlike settle settle' side B post header u w) :
    Agree (Staying (Adds B) side w) (loopPre settle side post header u)
      (loopPre settle' side post header u) w := by
  refine .env ?_
  dsimp only
  split
  · exact ((Prompt.on (.note ..) side).bind fun _ => .trivial).agree w
  · rename_i hcut
    exact h.agree (.refl _) (Int.not_le.mp hcut)

theorem successorPres_agree
    (h : ∀ s ∈ succs, g.isBackEdge t s → LapsAlike settle settle' side B post s u w) :
    Agree (Staying (Adds B) side w) (successorPres settle side g post t u succs)
      (successorPres settle' side g post t u succs) w := by
  induction succs generalizing w with
  | nil => exact (Prompt.pure []).agree w
  | cons s succs ih =>
    have hrest {w₁ : World} (hw₁ : (w.env side).Stays (Adds B) (w₁.env side)) :
        Agree (Staying (Adds B) side w₁) (successorPres settle side g post t u succs)
          (successorPres settle' side g post t u succs) w₁ :=
      ih fun s' hs' hback => (h s' (List.mem_cons_of_mem s hs') hback).stays hw₁
    have hpure (a : Table String Constr) (w₂ : World) :
        Agree (Staying (Adds B) side w₂) (Pure.pure a) (Pure.pure a) w₂ := (Prompt.pure a).agree w₂
    rw [successorPres, successorPres]
    split
    · rename_i hback
      have hpre := loopPre_agree (h s List.mem_cons_self hback)
      exact hpre.seq fun pre w₁ hw₁ => (hrest hw₁).seq fun pres w₂ _ => hpure _ w₂
    · refine ((Prompt.env side).agree w).seq fun e w₁ hw₁ => ?_
      refine ((Prompt.present _).agree w₁).seq fun pre w₂ hw₂ => ?_
      exact (hrest (hw₁.trans hw₂)).seq fun pres w₃ _ => hpure _ w₃

theorem prompt_trailing {F : Fault → Prop} [Admits F] (side : Side) (g : Graph)
    (targets : Table String Constr) (t : String) : Prompt F (trailing side g targets t) := by
  unfold trailing
  split
  · exact .present _
  · exact (Prompt.env side).bind fun _ => .present _

theorem prompt_ofSub (s : Sub) : Term.Prompt (Graph.ofSub s) := by
  unfold Graph.ofSub
  split
  · exact .error ⟨nofun, nofun⟩
  · exact .ok _

theorem prompt_mkVars {F : Fault → Prop} [Admits F] (side : Side) (vs : List Var) :
    Prompt F (forIn vs PUnit.unit fun v _ => do
      let _ ← on side (Env.mkVar v)
      pure (ForInStep.yield PUnit.unit)) := by
  induction vs with
  | nil => exact .pure _
  | cons v vs ih =>
    simp only [List.forIn_cons, bind_assoc, pure_bind]
    exact (Prompt.on (.mkVar v) side).bind fun _ => ih

/-- A block whose forward successors are settled. -/
theorem settleBlock_agree {expand expand' : Expand}
    (hx : ExpandsAlike side expand expand' (w.env side))
    (hblock : ∀ b, g.blocks.lookup t = some b → b.tid = t) (hB : B (t, u.count))
    (h : ∀ s ∈ g.succsOf t, g.isBackEdge t s → LapsAlike settle settle' side B post s u w) :
    Agree (fun pre w' => (w.env side).Stays (Adds B) (w'.env side) ∧
        (w'.env side).precond? t u = some pre)
      (settleBlock settle expand side g post t u) (settleBlock settle' expand' side g post t u)
      w := by
  refine (successorPres_agree h).bind fun targets w₁ hw₁ => ?_
  refine .after (prompt_trailing side g targets t) fun after w₂ hw₂ => .present fun b hb => ?_
  replace hw₂ := hw₁.trans hw₂.stays
  refine .modifyEnv ?_
  set w₃ := w₂.setEnv side { w₂.env side with
    frame := { (w₂.env side).frame with targets, pred := g.predFor t u, unroll := u } } with hw₃
  have henv : w₃.env side = { w₂.env side with
      frame := { (w₂.env side).frame with targets, pred := g.predFor t u, unroll := u } } :=
    World.env_setEnv ..
  have hstays : (w.env side).Stays (Adds B) (w₃.env side) := by
    rw [henv]
    exact hw₂.trans ⟨rfl, rfl, rfl, rfl, id, .inl⟩
  have hat : B (b.tid, (w₃.env side).frame.unroll.count) := by
    rw [hblock b hb, henv]
    exact hB
  refine (visitBlock_agree (hx.stays hstays) after b hat).mono fun pre w₄ ⟨hw₄, hkept⟩ => ?_
  refine ⟨hstays.trans hw₄, ?_⟩
  rw [hblock b hb, henv] at hkept
  exact hkept

/-- A subroutine is entered with a graph of its own. -/
theorem enterSub_agree
    (h : ∀ g w', Graph.ofSub s = .ok g → (w'.env side).frame.graph = some g →
      (w'.env side).unrollBound = (w.env side).unrollBound →
      budget (w'.env side) = budget (w.env side) →
      Agree (Staying (fun _ _ => True) side w') (settle side post g.entry [])
        (settle' side post g.entry []) w') :
    Agree (Staying (fun _ _ => True) side w) (enterSub settle side post s)
      (enterSub settle' side post s) w := by
  refine .after (.modifyEnv (fun e => ?_) side) fun _ w₁ hw₁ => ?_
  · exact ⟨rfl, rfl, rfl, rfl⟩
  refine .lift (prompt_ofSub s) fun g hg => .after (prompt_mkVars side _) fun _ w₂ hw₂ => ?_
  have hw : (w.env side).Still (w₂.env side) := (hw₁.trans hw₂) side
  have hframe (f : Frame) : (w.env side).Stays (fun _ _ => True) { w₂.env side with frame := f } :=
    ⟨hw.subs, hw.unrollBound, hw.inlining, True.intro⟩
  refine .env (.modifyEnv (.restoring ?_))
  refine (h g _ hg ?_ ?_ ?_).mono fun _ w₃ hw₃ => ?_
  · rw [World.env_setEnv]
  · rw [World.env_setEnv]
    exact hw.unrollBound
  · rw [World.env_setEnv]
    exact budget_stays (hframe _)
  · rw [Staying, World.env_setEnv] at hw₃
    rw [Staying, World.env_setEnv]
    exact ⟨hw₃.subs.trans hw.subs, hw₃.unrollBound.trans hw.unrollBound,
      hw₃.inlining.trans hw.inlining, True.intro⟩

/-! ### Copies that fit -/

/-- A copy is settled: its precondition is kept, and apart from it those of copies below. -/
def SettledAt (side : Side) (g : Graph) (t : String) (u : Unroll) (w : World) (pre : Constr)
    (w' : World) : Prop :=
  (w.env side).Stays (Adds (ReflTransGen g.Leads (g.copy u t))) (w'.env side) ∧
    (w'.env side).precond? t (g.restrict u t) = some pre

/-- Copies that fit are settled as `settleNode` does. -/
structure Settling (side : Side) (levels : Nat) (settle : Settle) : Prop where
  agree {w : World} {s : Sub} {g : Graph} {past : List Copy} {t : String} {u : Unroll}
    {post : Constr} : Fits side w s g levels past t u →
    Agree (SettledAt side g t u w) (settleNode levels side post t u) (settle side post t u) w

namespace Settling

variable (hs : Settling side levels settle)

include hs

theorem enter (h : copyBound (w.env side).unrollBound s + budget (w.env side) ≤ levels) :
    Agree (Staying (fun _ _ => True) side w) (enterSub (settleNode levels) side post s)
      (enterSub settle side post s) w := by
  refine enterSub_agree fun g w₁ hg hgraph hbound hbudget => ?_
  refine (hs.agree (.entry hgraph hg ?_)).mono fun _ _ h => h.1.mono fun _ _ _ => True.intro
  rw [hbound, hbudget]
  exact h

theorem expands {e : Env} (h : budget e ≤ levels) :
    ExpandsAlike side (enterSub (settleNode levels)) (enterSub settle) e := by
  refine ⟨fun {post c w} hc hin hsubs hbound hinlining => hs.enter ?_⟩
  exact (budget_expand hc hin hsubs hbound hinlining).trans h

/-- Copies that a copy leads to are settled apart from it. -/
theorem below (h : Fits side w s g (levels + 1) past t u)
    (ht : g.Trail (max (w.env side).unrollBound.toNat 1) (g.copy v t' :: g.copy u t :: past)) :
    Agree (fun pre w' => (w.env side).Stays (Adds (TransGen g.Leads (g.copy u t))) (w'.env side) ∧
        (w'.env side).precond? t' (g.restrict v t') = some pre)
      (settleNode levels side post t' v) (settle side post t' v) w := by
  refine (hs.agree (h.next ht)).mono fun pre w' ⟨hw', hpre⟩ => ⟨hw'.mono fun f f' hf => ?_, hpre⟩
  exact hf.mono fun c hc => .head' ht.leads hc

theorem forward (h : Fits side w s g (levels + 1) past t u) :
    Agree (fun _ w' => (w.env side).Stays (Adds (TransGen g.Leads (g.copy u t))) (w'.env side) ∧
        ∀ t' ∈ g.forward t, ((w'.env side).precond? t' (g.restrict (g.restrict u t) t')).isSome)
      (settleForward (settleNode levels) side g post (g.restrict u t) (g.forward t))
      (settleForward settle side g post (g.restrict u t) (g.forward t)) w := by
  refine settleForward_agree fun t' ht' w₁ hw₁ => ?_
  have h₁ : Fits side w₁ s g (levels + 1) past t u := h.stays hw₁
  refine (hs.below h₁ (h₁.trail.forward ht')).mono fun pre w₂ ⟨hw₂, hpre⟩ => ⟨hw₂, ?_⟩
  rwa [g.restrict_restrict] at hpre

theorem block (h : Fits side w s g (levels + 1) past t u) :
    Agree (SettledAt side g t u w)
      (settleBlock (settleNode levels) (enterSub (settleNode levels)) side g post t (g.restrict u t))
      (settleBlock settle (enterSub settle) side g post t (g.restrict u t)) w := by
  have hx := hs.expands (Nat.le_of_lt_succ h.budget_lt)
  refine settleBlock_agree hx (fun b hb => ?_) .refl fun t' hedge hback => ⟨?_⟩
  · exact (Graph.of_ofSub h.made).tid_of_lookup hb
  · intro w₁ hw₁ hcut
    have h₁ : Fits side w₁ s g (levels + 1) past t u := h.stays hw₁
    have hcut : (g.restrict u t).count t' + 1 < max (w₁.env side).unrollBound.toNat 1 := by
      rw [hw₁.unrollBound]
      omega
    refine (hs.below h₁ (h₁.trail.back hedge hback hcut)).mono fun pre w₂ ⟨hw₂, _⟩ => ?_
    exact hw₂.mono fun f f' hf => hf.mono fun c hc => hc.to_reflTransGen

end Settling

theorem settleNode_succ (hgraph : (w.env side).frame.graph = some g) :
    settleNode (levels + 1) side post t u w =
      (match (w.env side).precond? t (g.restrict u t) with
        | some c => Pure.pure c
        | none => do
          settleForward (settleNode levels) side g post (g.restrict u t) (g.forward t)
          settleBlock (settleNode levels) (enterSub (settleNode levels)) side g post t
            (g.restrict u t)) w := by
  rw [settleNode]
  change (present (w.env side).frame.graph >>= _) w = _
  rw [hgraph]
  rfl

/-- The levels are enough for a copy that fits: more make no difference. -/
theorem settleNode_settling (levels more : Nat) : Settling side levels (settleNode (levels + more)) := by
  induction levels with
  | zero => exact ⟨fun h => absurd h.budget_lt (Nat.not_lt_zero _)⟩
  | succ levels ih =>
    refine ⟨fun {w s g past t u post} h => ?_⟩
    rw [Nat.succ_add, settleNode, settleNode]
    refine .env (.present fun g' hg' => ?_)
    obtain rfl : g = g' := Option.some.inj (h.graph.symm.trans hg')
    refine .env ?_
    split
    · exact .pure ⟨.refl _, ‹_›⟩
    refine (ih.forward h).bind fun _ w₁ ⟨hw₁, _⟩ => ?_
    refine (ih.block (h.stays hw₁)).mono fun pre w₂ ⟨hw₂, hpre⟩ => ⟨?_, hpre⟩
    exact (hw₁.mono fun f f' hf => hf.mono fun c hc => hc.to_reflTransGen).trans hw₂

theorem settleNode_kept {pre : Constr} (h : Fits side w s g levels past t u)
    (hkept : (w.env side).precond? t (g.restrict u t) = some pre) :
    settleNode levels side post t u w = .ok pre w := by
  obtain ⟨levels, rfl⟩ := Nat.exists_eq_succ_of_ne_zero (Nat.ne_zero_of_lt h.budget_lt)
  rw [settleNode_succ h.graph, hkept]
  rfl

theorem Settling.le (hs : Settling side levels settle) (h : n ≤ levels) : Settling side n settle := by
  obtain ⟨more, rfl⟩ := Nat.exists_eq_add_of_le h
  refine ⟨fun {w s g past t u post} hfit => ?_⟩
  exact ((settleNode_settling n more).agree hfit).trans (hs.agree (hfit.more more))

end Walk

end Precond

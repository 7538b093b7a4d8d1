import Precond.Proofs.Walk.Alike

/-! Subroutines walked in lockstep. Two walks with the same tables and the same unroll bound settle the
same copies of blocks: if what they start from is related, so is what they keep and what they come to
(`Walk.Lockstep.settleNode`, `Walk.enterSub_lockstep`). -/

namespace Precond

open IR Precond.Flow

/-- Two frames in the graph of a subroutine, with related constraints at its return. -/
structure Twin.Opened (T : Twin) (K : Constr → Prop) (g : Graph) (w v : World) : Prop where
  graph : (w.env T.side).frame.graph = some g
  graph' : (v.env T.side).frame.graph = some g
  retPost : Option.Rel (T.Held K) (w.env T.side).frame.retPost (v.env T.side).frame.retPost

/-- Two frames in the graph of a subroutine keep related preconditions. -/
structure Twin.Framed (T : Twin) (K : Constr → Prop) (g : Graph) (w v : World) : Prop
    extends Opened T K g w v where
  precond (t : String) (u : Unroll) :
    Option.Rel (T.Held K) ((w.env T.side).precond? t u) ((v.env T.side).precond? t u)

/-- Tables with related constraints at the same names. -/
def Twin.Listed (T : Twin) (K : Constr → Prop) (ts ts' : Table String Constr) : Prop :=
  List.Forall₂ (fun p q => p.1 = q.1 ∧ T.Held K p.2 q.2) ts ts'

namespace Twin

variable {T : Twin} {K K₁ : Constr → Prop} {g : Graph} {w v w₁ v₁ : World}
  {ts ts' : Table String Constr}

theorem Listed.mono (h : T.Listed K ts ts') (hK : ∀ c, K c → K₁ c) : T.Listed K₁ ts ts' :=
  h.imp fun _ _ hp => ⟨hp.1, hp.2.mono hK⟩

theorem Listed.lookup (h : T.Listed K ts ts') (t : String) :
    Option.Rel (T.Held K) (ts.lookup t) (ts'.lookup t) := Table.lookup_forall₂ h t

theorem Opened.step {A : (Constr → Prop) → α → β → Prop} {a : α} {b : β} {z : Option World}
    (ho : T.Opened K g w v) (h : T.Step z A K w v a w₁ b v₁ K₁) : T.Opened K₁ g w₁ v₁ where
  graph := by rw [h.frame, ho.graph]
  graph' := by rw [h.frame', ho.graph']
  retPost := by
    rw [h.frame, h.frame']
    exact Held.option ho.retPost h.grows

/-- What is kept is related still. -/
theorem Framed.step {A : (Constr → Prop) → α → β → Prop} {a : α} {b : β} {z : Option World}
    (hf : T.Framed K g w v) (h : T.Step z A K w v a w₁ b v₁ K₁) : T.Framed K₁ g w₁ v₁ where
  toOpened := hf.toOpened.step h
  precond t u := by
    rw [Env.precond?, Env.precond?, h.frame, h.frame']
    exact Held.option (hf.precond t u) h.grows

/-- The walks are at other places of the frames. -/
theorem Opened.placed (ho : T.Opened K g w v) {f f' : Frame}
    (hg : f.graph = (w.env T.side).frame.graph) (hg' : f'.graph = (v.env T.side).frame.graph)
    (hr : f.retPost = (w.env T.side).frame.retPost) (hr' : f'.retPost = (v.env T.side).frame.retPost) :
    T.Opened K g (w.setEnv T.side { w.env T.side with frame := f })
      (v.setEnv T.side { v.env T.side with frame := f' }) where
  graph := by rw [World.env_setEnv, hg, ho.graph]
  graph' := by rw [World.env_setEnv, hg', ho.graph']
  retPost := by
    rw [World.env_setEnv, World.env_setEnv, hr, hr']
    exact ho.retPost

theorem Framed.placed (hf : T.Framed K g w v) {f f' : Frame}
    (hp : f.preconds = (w.env T.side).frame.preconds) (hp' : f'.preconds = (v.env T.side).frame.preconds)
    (hg : f.graph = (w.env T.side).frame.graph) (hg' : f'.graph = (v.env T.side).frame.graph)
    (hr : f.retPost = (w.env T.side).frame.retPost) (hr' : f'.retPost = (v.env T.side).frame.retPost) :
    T.Framed K g (w.setEnv T.side { w.env T.side with frame := f })
      (v.setEnv T.side { v.env T.side with frame := f' }) where
  toOpened := hf.toOpened.placed hg hg' hr hr'
  precond t u := by
    rw [World.env_setEnv, World.env_setEnv, Env.precond?, Env.precond?, hp, hp']
    exact hf.precond t u

/-- Related preconditions are kept for one more copy. -/
theorem Framed.add (hf : T.Framed K g w v) {c c' : Constr} (hc : T.Held K c c') (b : String)
    (u : Unroll) : T.Framed K g (w.setEnv T.side ((w.env T.side).addPrecond b u c))
      (v.setEnv T.side ((v.env T.side).addPrecond b u c')) where
  graph := by rw [World.env_setEnv]; exact hf.graph
  graph' := by rw [World.env_setEnv]; exact hf.graph'
  retPost := by
    rw [World.env_setEnv, World.env_setEnv]
    exact hf.retPost
  precond t u' := by
    have h := hf.precond t u'
    rw [Env.precond?, Env.precond?] at h
    rw [World.env_setEnv, World.env_setEnv, Env.precond?, Env.precond?, Env.addPrecond, Env.addPrecond,
      Std.HashMap.getElem?_insert, Std.HashMap.getElem?_insert]
    split
    · exact .some hc
    · exact h

end Twin

namespace Walk

variable {T : Twin} {K K₁ : Constr → Prop} {g : Graph} {w v w₁ v₁ : World}
  {A : (Constr → Prop) → α → β → Prop} {B : (Constr → Prop) → γ → δ → Prop}

/-- If the first action succeeds, so does the second, with the same tables; what the frames keep and
what the actions give is related. -/
structure Lockstep (T : Twin) (g : Graph) (A : (Constr → Prop) → α → β → Prop) (x : Walk α)
    (x' : Walk β) (K : Constr → Prop) : Prop where
  run {w v : World} {a : α} {w₁ : World} : T.Linked none K w v → T.Framed K g w v →
    x w = .ok a w₁ → ∃ b v₁ K₁, x' v = .ok b v₁ ∧ (∀ c, K c → K₁ c) ∧ T.Linked none K₁ w₁ v₁ ∧
      T.Framed K₁ g w₁ v₁ ∧ A K₁ a b

namespace Lockstep

theorem pure {a : α} {b : β} (h : A K a b) :
    Lockstep T g A (Pure.pure a) (Pure.pure b) K := by
  refine ⟨fun hl hf ha => ?_⟩
  cases ha
  exact ⟨b, _, K, rfl, fun _ hc => hc, hl, hf, h⟩

theorem throw (f : Fault) {x' : Walk β} : Lockstep T g A (MonadExcept.throw f) x' K :=
  ⟨fun _ _ ha => nomatch ha⟩

theorem bind {x : Walk α} {x' : Walk β} {k : α → Walk γ} {k' : β → Walk δ}
    (hx : Lockstep T g A x x' K)
    (hk : ∀ K₁ a b, (∀ c, K c → K₁ c) → A K₁ a b → Lockstep T g B (k a) (k' b) K₁) :
    Lockstep T g B (x >>= k) (x' >>= k') K := by
  refine ⟨fun {w v c w₂} hl hf hc => ?_⟩
  obtain ⟨a, w₁, ha, h₁⟩ := bind_ok hc
  obtain ⟨b, v₁, K₁, hb, hK₁, hl₁, hf₁, hA⟩ := hx.run hl hf ha
  obtain ⟨d, v₂, K₂, hd, hK₂, hl₂, hf₂, hB⟩ := (hk K₁ a b hK₁ hA).run hl₁ hf₁ h₁
  exact ⟨d, v₂, K₂, (bind_of_ok hb).trans hd, fun c hc => hK₂ c (hK₁ c hc), hl₂, hf₂, hB⟩

theorem alike {x : Walk α} {x' : Walk β}
    (h : ∀ w v, T.Linked none K w v → T.Framed K g w v → Alike T none A x (fun _ => x') K w v) :
    Lockstep T g A x x' K := by
  refine ⟨fun {w v a w₁} hl hf ha => ?_⟩
  obtain ⟨b, v₁, K₁, ⟨m, hm⟩, hstep⟩ := (h w v hl hf).run a w₁ ha True.intro
  exact ⟨b, v₁, K₁, hm m (Nat.le_refl m), hstep.grows, hstep.linked, hf.step hstep, hstep.result⟩

theorem present {o o' : Option Constr} (h : Option.Rel (T.Held K) o o') :
    Lockstep T g T.Held (Walk.present o) (Walk.present o') K := by
  cases h with
  | some h => exact pure h
  | none => exact throw _

/-- What is looked up among what is kept. -/
theorem env {k k' : Env → Walk Constr}
    (h : ∀ w v, T.Linked none K w v → T.Framed K g w v →
      Lockstep T g T.Held (k (w.env T.side)) (k' (v.env T.side)) K) :
    Lockstep T g T.Held (Walk.env T.side >>= k) (Walk.env T.side >>= k') K :=
  ⟨fun {w v _ _} hl hf ha => (h w v hl hf).run hl hf ha⟩

/-! ### The parts of a walk -/

variable {settle : Settle} {post post' : Constr} {u : Unroll} {t : String} {succs : List String}
  {targets targets' : Table String Constr}

theorem settleForward
    (h : ∀ K, ∀ s ∈ succs, Lockstep T g T.Held (settle T.side post s (g.restrict u s))
      (settle T.side post' s (g.restrict u s)) K) :
    Lockstep T g (fun _ _ _ => True) (Walk.settleForward settle T.side g post u succs)
      (Walk.settleForward settle T.side g post' u succs) K := by
  induction succs generalizing K with
  | nil => exact pure True.intro
  | cons s succs ih =>
    exact (h K s List.mem_cons_self).bind fun K₁ _ _ _ _ =>
      ih fun K s' hs => h K s' (List.mem_cons_of_mem s hs)

theorem loopPre (hbound : T.bound' = T.bound) {header : String}
    (h : Lockstep T g T.Held
      (settle T.side post header (u.withCount header (u.count header + 1)))
      (settle T.side post' header (u.withCount header (u.count header + 1))) K) :
    Lockstep T g T.Held (Walk.loopPre settle T.side post header u)
      (Walk.loopPre settle T.side post' header u) K := by
  refine env fun w v hl hf => ?_
  rw [hl.bound, hl.bound', hbound]
  dsimp only
  split
  · refine alike fun w₁ v₁ hl₁ _ => ?_
    exact .after hl₁ (.on (.note ..)) (fun _ => .mkGoal ..) fun _ w₂ v₂ _ h₂ => .makes h₂.linked (.mkGoal ..)
  · exact h

theorem successorPres
    (hbound : T.bound' = T.bound)
    (h : ∀ K, ∀ s ∈ succs, g.isBackEdge t s →
      Lockstep T g T.Held (settle T.side post s (u.withCount s (u.count s + 1)))
        (settle T.side post' s (u.withCount s (u.count s + 1))) K) :
    Lockstep T g T.Listed (Walk.successorPres settle T.side g post t u succs)
      (Walk.successorPres settle T.side g post' t u succs) K := by
  induction succs generalizing K with
  | nil => exact pure .nil
  | cons s succs ih =>
    have hrest (K₁ : Constr → Prop) (c c' : Constr) (hc : T.Held K₁ c c') :
        Lockstep T g T.Listed (do return (s, c) :: (← Walk.successorPres settle T.side g post t u succs))
          (do return (s, c') :: (← Walk.successorPres settle T.side g post' t u succs)) K₁ :=
      (ih fun K s' hs => h K s' (List.mem_cons_of_mem s hs)).bind fun K₂ _ _ hK₂ hl =>
        pure (.cons ⟨rfl, hc.mono hK₂⟩ hl)
    rw [Walk.successorPres, Walk.successorPres]
    split
    · rename_i hback
      exact (loopPre hbound (h K s List.mem_cons_self hback)).bind fun K₁ c c' _ hc => hrest K₁ c c' hc
    · have hpre : Lockstep T g T.Held (do Walk.present ((← Walk.env T.side).precond? s (g.restrict u s)))
          (do Walk.present ((← Walk.env T.side).precond? s (g.restrict u s))) K :=
        env fun w v _ hf => present (hf.precond s _)
      exact hpre.bind fun K₁ c c' _ hc => hrest K₁ c c' hc

theorem trailing (h : T.Listed K targets targets') (t : String) :
    Lockstep T g T.Held (Walk.trailing T.side g targets t) (Walk.trailing T.side g targets' t) K := by
  unfold Walk.trailing
  split
  · exact present (h.lookup _)
  · exact env fun w v _ hf => present hf.retPost

end Lockstep

section

variable {expand expand' : Expand} {settle : Settle} {s : Sub} {b : Blk} {post post' c : Constr}
  {u : Unroll} {t : String} (hx : T.Expanded none expand fun _ => expand') (hs : T.scope.body T.side s)

include hx hs

theorem visitBlock_lockstep (hb : b ∈ s.blks) (hl : T.Linked none K w v) (hf : T.Framed K g w v)
    (hp : T.Placed K w v) (hu : (v.env T.side).frame.unroll = (w.env T.side).frame.unroll)
    (hpost : T.Held K post post') (h : visitBlock expand T.side post b w = .ok c w₁) :
    ∃ c' v₁ K₁, visitBlock expand' T.side post' b v = .ok c' v₁ ∧ (∀ c, K c → K₁ c) ∧
      T.Linked none K₁ w₁ v₁ ∧ T.Framed K₁ g w₁ v₁ ∧ T.Held K₁ c c' := by
  rw [visitBlock_eq] at h ⊢
  rw [hu]
  have hkept := hf.precond b.tid (w.env T.side).frame.unroll
  revert h hkept
  cases (w.env T.side).precond? b.tid (w.env T.side).frame.unroll <;>
    cases (v.env T.side).precond? b.tid (w.env T.side).frame.unroll <;> intro h hkept
  case some.some d d' =>
    cases h
    cases hkept with
    | some hkept => exact ⟨_, _, K, rfl, fun _ hc => hc, hl, hf, hkept⟩
  case none.some => cases hkept
  case some.none => cases hkept
  case none.none =>
  have hl₀ : T.Linked none K (entered w T.side b) (entered v T.side b) :=
    hl.setEnv rfl rfl (hl.inlining T.side) rfl rfl
  have hp₀ : T.Placed K (entered w T.side b) (entered v T.side b) := by
    constructor <;> rw [entered, entered, World.env_setEnv, World.env_setEnv]
    · exact hp.retPost
    · exact hp.target
    · exact hp.pred
  have hrun : Alike T none T.Held (visitElts expand T.side post b.elts)
      (fun _ => visitElts expand' T.side post' b.elts) K (entered w T.side b) (entered v T.side b) :=
    .visitElts hx hs hb (fun _ he => he) hl₀ hp₀ hpost
  cases helts : visitElts expand T.side post b.elts (entered w T.side b) with
  | error f w₂ =>
    rw [helts] at h
    cases h
  | ok pre w₂ =>
  obtain ⟨pre', v₂, K₁, ⟨m, hm⟩, hstep⟩ := hrun.run pre w₂ helts True.intro
  rw [helts] at h
  cases h
  have hunroll : (v₂.env T.side).frame.unroll = (w₂.env T.side).frame.unroll := by
    rw [hstep.frame, hstep.frame', entered, entered, World.env_setEnv, World.env_setEnv]
    exact hu
  have hf₀ : T.Framed K g (entered w T.side b) (entered v T.side b) :=
    hf.placed rfl rfl rfl rfl rfl rfl
  have hf₂ : T.Framed K₁ g w₂ v₂ := hf₀.step hstep
  dsimp only
  rw [show visitElts expand' T.side post' b.elts (entered v T.side b) = _ from hm m (Nat.le_refl m)]
  refine ⟨_, _, K₁, rfl, hstep.grows, ?_, ?_, hstep.result⟩
  · exact hstep.linked.setEnv rfl rfl (hstep.linked.inlining _) rfl rfl
  · rw [hunroll]
    exact hf₂.add hstep.result ..

/-- A block whose forward successors are settled. -/
theorem settleBlock_lockstep (hg : Graph.ofSub s = .ok g) (hbound : T.bound' = T.bound)
    (h : ∀ K, ∀ s ∈ g.succsOf t, g.isBackEdge t s →
      Lockstep T g T.Held (settle T.side post s (u.withCount s (u.count s + 1)))
        (settle T.side post' s (u.withCount s (u.count s + 1))) K) :
    Lockstep T g T.Held (settleBlock settle expand T.side g post t u)
      (settleBlock settle expand' T.side g post' t u) K := by
  refine (Lockstep.successorPres hbound h).bind fun K₁ targets targets' _ ht => ?_
  refine (Lockstep.trailing ht t).bind fun K₂ after after' hK₂ hafter => ?_
  cases hb : g.blocks.lookup t with
  | none => exact .throw _
  | some b =>
  refine ⟨fun {w v c w₁} hl hf hc => ?_⟩
  have hl₀ : T.Linked none K₂ (placedAt w T.side g targets t u) (placedAt v T.side g targets' t u) :=
    hl.setEnv rfl rfl (hl.inlining _) rfl rfl
  have hf₀ : T.Framed K₂ g (placedAt w T.side g targets t u) (placedAt v T.side g targets' t u) :=
    hf.placed rfl rfl rfl rfl rfl rfl
  have hp₀ : T.Placed K₂ (placedAt w T.side g targets t u) (placedAt v T.side g targets' t u) := by
    refine ⟨hf₀.retPost, ?_, ?_⟩ <;> rw [placedAt, placedAt, World.env_setEnv, World.env_setEnv]
    exact (ht.mono hK₂).lookup
  have hu : ((placedAt v T.side g targets' t u).env T.side).frame.unroll =
      ((placedAt w T.side g targets t u).env T.side).frame.unroll := by
    rw [placedAt, placedAt, World.env_setEnv, World.env_setEnv]
  exact visitBlock_lockstep hx hs (block_mem hg hb).1 hl₀ hf₀ hp₀ hu hafter hc

end

/-- What the frames keep for a subroutine and related postconditions is related. -/
structure Stored (T : Twin) (K : Constr → Prop) (s : Sub) (post post' : Constr) (w v : World) :
    Prop where
  root : (w.env T.side).frame.root = some (s.tid, post.id) ↔
    (v.env T.side).frame.root = some (s.tid, post'.id)
  precond : (w.env T.side).frame.root = some (s.tid, post.id) → ∀ t u,
    Option.Rel (T.Held K) ((w.env T.side).precond? t u) ((v.env T.side).precond? t u)

theorem Stored.fresh {s : Sub} {post post' : Constr}
    (hr : (w.env T.side).frame.root ≠ some (s.tid, post.id))
    (hr' : (v.env T.side).frame.root ≠ some (s.tid, post'.id)) : Stored T K s post post' w v :=
  ⟨⟨fun h => absurd h hr, fun h => absurd h hr'⟩, fun h => absurd h hr⟩

/-- A subroutine for which the frames keep related preconditions. -/
theorem enterSub_lockstep {settle : Settle} {s : Sub} {post post' c : Constr}
    (hset : ∀ K g, Graph.ofSub s = .ok g →
      Lockstep T g T.Held (settle T.side post g.entry []) (settle T.side post' g.entry []) K)
    (hl : T.Linked none K w v) (hpost : T.Held K post post') (hkept : Stored T K s post post' w v)
    (h : enterSub settle T.side post s w = .ok c w₁) :
    ∃ c' v₁ K₁, enterSub settle T.side post' s v = .ok c' v₁ ∧ (∀ c, K c → K₁ c) ∧
      T.Linked none K₁ w₁ v₁ ∧ T.Held K₁ c c' ∧ ∀ t u,
        Option.Rel (T.Held K₁) ((w₁.env T.side).precond? t u) ((v₁.env T.side).precond? t u) := by
  obtain ⟨g, a, w₂, w₃, hg, hb, hrun, rfl⟩ := enterSub_inv h
  have hl₀ : T.Linked none K (attached w T.side) (attached v T.side) :=
    hl.setEnv rfl rfl (hl.inlining _) rfl rfl
  obtain ⟨a', v₂, K₂, ⟨m, hm⟩, hbind⟩ := (Alike.steady hl₀ (.bindVars s)).run _ _ hb True.intro
  have hl₂ : T.Linked none K₂ (opened w₂ T.side s post g) (opened v₂ T.side s post' g) :=
    hbind.linked.setEnv rfl rfl (hbind.linked.inlining _) rfl rfl
  have hf₂ : T.Framed K₂ g (opened w₂ T.side s post g) (opened v₂ T.side s post' g) := by
    refine ⟨⟨?_, ?_, ?_⟩, fun t u => ?_⟩
    · rw [opened, World.env_setEnv]
    · rw [opened, World.env_setEnv]
    · rw [opened, opened, World.env_setEnv, World.env_setEnv]
      exact .some (hpost.mono hbind.grows)
    · rw [opened, opened, World.env_setEnv, World.env_setEnv, Env.precond?, Env.precond?, hbind.frame,
        hbind.frame', attached, attached, World.env_setEnv, World.env_setEnv]
      dsimp only
      by_cases hroot : (w.env T.side).frame.root = some (s.tid, post.id)
      · rw [if_pos hroot, if_pos (hkept.root.mp hroot)]
        exact Twin.Held.option (hkept.precond hroot t u) hbind.grows
      · rw [if_neg hroot, if_neg fun hroot' => hroot (hkept.root.mpr hroot'), Std.HashMap.getElem?_empty]
        exact .none
  obtain ⟨c', v₃, K₃, hv₃, hK₃, hl₃, hf₃, hc'⟩ := (hset K₂ g hg).run hl₂ hf₂ hrun
  refine ⟨c', closed v₂ T.side v₃, K₃, ?_, fun c hc => hK₃ c (hbind.grows c hc), ?_, hc', fun t u => ?_⟩
  · rw [enterSub_of_ok settle post' hg (hm m (Nat.le_refl m)), opening_eq, hv₃]
  · exact hl₃.setEnv rfl rfl (hl₃.inlining _) rfl rfl
  · rw [closed, closed, World.env_setEnv, World.env_setEnv]
    exact hf₃.precond t u

/-- Bodies of callees are expanded in lockstep. -/
theorem expanded_lockstep {n : Nat}
    (h : ∀ {s g}, T.scope.body T.side s → Graph.ofSub s = .ok g → ∀ post post' t u K,
      Lockstep T g T.Held (settleNode n T.side post t u) (settleNode n T.side post' t u) K) :
    T.Expanded none (enterSub (settleNode n)) fun _ => enterSub (settleNode n) where
  expands post c hc := .enterSub fun g hg => ⟨_, settleNode_fills n hc hg post _ _⟩
  run {K w v w₁ post post' c s} hs hl hpost hr hr' hc _ := by
    obtain ⟨c', v₁, K₁, hv, hK, hl₁, hc, -⟩ := enterSub_lockstep
      (fun K g hg => h hs hg post post' _ _ K) hl hpost (.fresh (by rw [hr]; nofun) (by rw [hr']; nofun)) hc
    exact ⟨c', v₁, K₁, .of_ok hv, hK, hl₁, hc⟩

/-- Settling a copy of a block comes to related preconditions. -/
theorem settleNode_lockstep (hbound : T.bound' = T.bound) (n : Nat) {s : Sub}
    (hs : T.scope.body T.side s) (hg : Graph.ofSub s = .ok g) (post post' : Constr) (t : String)
    (u : Unroll) (K : Constr → Prop) :
    Lockstep T g T.Held (settleNode n T.side post t u) (settleNode n T.side post' t u) K := by
  induction n generalizing s g post post' t u K with
  | zero => exact .throw _
  | succ n ih =>
    have hx := expanded_lockstep ih
    refine ⟨fun {w v c w₁} hl hf h => ?_⟩
    rw [settleNode_succ hf.graph] at h
    rw [settleNode_succ hf.graph']
    have hkept := hf.precond t (g.restrict u t)
    revert h hkept
    cases (w.env T.side).precond? t (g.restrict u t) <;>
      cases (v.env T.side).precond? t (g.restrict u t) <;> intro h hkept
    case none.some => cases hkept
    case some.none => cases hkept
    case some.some =>
      cases h
      cases hkept with
      | some hkept => exact ⟨_, _, K, rfl, fun _ hc => hc, hl, hf, hkept⟩
    case none.none =>
      refine Lockstep.run ?_ hl hf h
      refine (Lockstep.settleForward fun K s' _ => ih hs hg post post' s' _ K).bind fun K₁ _ _ _ _ => ?_
      exact settleBlock_lockstep hx hs hg hbound fun K s' _ _ => ih hs hg post post' s' _ K

/-- Two walks of a subroutine in lockstep. -/
theorem visitSub_lockstep (hbound : T.bound' = T.bound) {s : Sub} {post post' c : Constr}
    (hs : T.scope.body T.side s) (hl : T.Linked none K w v) (hpost : T.Held K post post')
    (hkept : Stored T K s post post' w v) (h : visitSub T.side post s w = .ok c w₁) :
    ∃ c' v₁ K₁, visitSub T.side post' s v = .ok c' v₁ ∧ (∀ c, K c → K₁ c) ∧
      T.Linked none K₁ w₁ v₁ ∧ T.Held K₁ c c' ∧ ∀ t u,
        Option.Rel (T.Held K₁) ((w₁.env T.side).precond? t u) ((v₁.env T.side).precond? t u) := by
  have hdepth : depthBound (v.env T.side) s = depthBound (w.env T.side) s := by
    have hsubs : (v.env T.side).policy.subs = (w.env T.side).policy.subs := by
      rw [hl.under'.policy, hl.under.policy]
    rw [depthBound, depthBound, hl.bound, hl.bound', hbound]
    rw [show (v.env T.side).subs = (w.env T.side).subs from hsubs]
  obtain ⟨c', v₁, K₁, hv, hrest⟩ := enterSub_lockstep
    (fun K g hg => settleNode_lockstep hbound _ hs hg post post' _ _ K) hl hpost hkept h
  refine ⟨c', v₁, K₁, ?_, hrest⟩
  rw [← hdepth] at hv
  exact hv

/-- A walk with itself: all that is told is that constraints are numbered. -/
def numbering (policy : Side → Env) (side : Side) (bound : Int) : Twin where
  scope := .any policy
  side := side
  constants := False
  numbered := True
  low := 0
  bound := bound
  bound' := bound
  rel _ _ := True
  goal _ := True.intro
  clause _ _ _ := True.intro
  branch _ _ _ := True.intro
  subst _ _ _ := True.intro

/-- The constraints of a walk have numbers of their own. -/
theorem visitSub_register {K : Constr → Prop} {side : Side} {s : Sub} {post c : Constr} {w w₁ : World}
    (hK : Constr.Register K w.nodes) (hpost : K post)
    (hroot : (w.env side).frame.root ≠ some (s.tid, post.id)) (h : visitSub side post s w = .ok c w₁) :
    ∃ K₁, (∀ c, K c → K₁ c) ∧ Constr.Register K₁ w₁.nodes ∧ K₁ c := by
  let T := numbering (fun side => (w.env side).policy) side (w.env side).unrollBound
  have hw : w.Under T.scope := ⟨fun _ => rfl, fun _ => True.intro⟩
  have hl : T.Linked none K w w := {
    under := hw
    under' := hw
    settled := fun _ => rfl
    tied := World.Same.refl w
    inlining := fun _ => rfl
    register := fun _ => hK
    low := Nat.zero_le _
    constant := fun h => h.elim
    bound := rfl
    bound' := rfl }
  obtain ⟨_, _, K₁, -, hgrows, hl₁, hheld, -⟩ := visitSub_lockstep (T := T) rfl True.intro hl
    ⟨hpost, True.intro⟩ (.fresh hroot hroot) h
  exact ⟨K₁, hgrows, hl₁.register True.intro, hheld.node⟩

end Walk

end Precond

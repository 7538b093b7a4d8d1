import Precond.Proofs.Walk.Around
import Precond.Proofs.Walk.Lockstep

/-! Registers of constraints through the walk of a subroutine. However it ends, what its frame keeps are
constraints of a register that has grown from the one before (`Walk.visitSub_files`). -/

namespace Precond

open IR Precond.Flow

/-- Nothing is said of the constraints of two walks. -/
def Twin.alone (S : Scope) (side : Side) (bound : Int) : Twin where
  scope := S
  side := side
  constants := False
  numbered := True
  low := 0
  bound := bound
  bound' := bound
  rel _ _ := True
  goal _ := True.intro
  clause _ _ _ := True.intro
  branch _ _ _ := True.intro
  subst _ _ _ := True.intro

namespace Walk

variable {S : Scope} {side : Side} {bound : Int} {g : Graph} {K K₁ : Constr → Prop} {w w₁ : World}
  {t : String} {u : Unroll}

/-- What the frame of a walk keeps are constraints of a register. -/
structure Filed (S : Scope) (side : Side) (bound : Int) (g : Graph) (K : Constr → Prop) (w : World) :
    Prop where
  under : w.Under S
  unrollBound : (w.env side).unrollBound = bound
  register : Constr.Register K w.nodes
  graph : (w.env side).frame.graph = some g
  retPost (c : Constr) : (w.env side).frame.retPost = some c → K c
  precond (t : String) (u : Unroll) (c : Constr) : (w.env side).precond? t u = some c → K c

/-- Wherever an action fails, what is kept are constraints of a register. -/
structure Files (S : Scope) (side : Side) (bound : Int) (g : Graph) (x : Walk α) : Prop where
  fails {K : Constr → Prop} {w : World} {f : Fault} {w₁ : World} : Filed S side bound g K w →
    x w = .error f w₁ → ∃ K₁, (∀ c, K c → K₁ c) ∧ Filed S side bound g K₁ w₁

theorem held_option {o : Option Constr} (h : ∀ c, o = some c → K c) :
    Option.Rel ((Twin.alone S side bound).Held K) o o := by
  cases o with
  | none => exact .none
  | some c => exact .some ⟨h c rfl, True.intro⟩

theorem node_of_rel {o o' : Option Constr} (h : Option.Rel ((Twin.alone S side bound).Held K) o o')
    (c : Constr) (hc : o = some c) : K c := by
  cases h with
  | some h =>
    cases hc
    exact h.node
  | none => cases hc

theorem linked_alone (hw : w.Under S) (hb : (w.env side).unrollBound = bound)
    (hK : Constr.Register K w.nodes) : (Twin.alone S side bound).Linked none K w w where
  under := hw
  under' := hw
  settled _ := rfl
  tied := World.Same.refl w
  inlining _ := rfl
  register _ := hK
  low := Nat.zero_le _
  constant := False.elim
  bound := hb
  bound' := hb

theorem Filed.framed (h : Filed S side bound g K w) : (Twin.alone S side bound).Framed K g w w where
  graph := h.graph
  graph' := h.graph
  retPost := held_option h.retPost
  precond t u := held_option (h.precond t u)

/-- Where an action succeeds, what is kept are constraints of a register, too. -/
theorem Filed.after {A : (Constr → Prop) → α → α → Prop} {x : Walk α} {a : α}
    (h : Filed S side bound g K w) (hx : Lockstep (Twin.alone S side bound) g A x x K)
    (ha : x w = .ok a w₁) : ∃ K₁, (∀ c, K c → K₁ c) ∧ Filed S side bound g K₁ w₁ ∧ A K₁ a a := by
  obtain ⟨b, v₁, K₁, hb, hK₁, hl₁, hf₁, hA⟩ :=
    hx.run (linked_alone h.under h.unrollBound h.register) h.framed ha
  cases ha.symm.trans hb
  exact ⟨K₁, hK₁, ⟨hl₁.under, hl₁.bound, hl₁.register True.intro, hf₁.graph,
    node_of_rel hf₁.retPost, fun t u => node_of_rel (hf₁.precond t u)⟩, hA⟩

/-- What keeps nothing new, with the register as it is. -/
theorem Filed.stays {F : Side → Frame → Frame → Prop} (h : Filed S side bound g K w)
    (hw : w.Kept S.rule F w₁) (hg : (w₁.env side).frame.graph = (w.env side).frame.graph)
    (hr : (w₁.env side).frame.retPost = (w.env side).frame.retPost)
    (hp : ∀ t u, (w₁.env side).precond? t u = (w.env side).precond? t u) :
    Filed S side bound g K w₁ where
  under := hw.under h.under
  unrollBound := (hw.env side).unrollBound.trans h.unrollBound
  register := h.register.mono hw.nodes
  graph := hg.trans h.graph
  retPost c hc := h.retPost c (hr ▸ hc)
  precond t u c hc := h.precond t u c (hp t u ▸ hc)

namespace Files

variable {A : (Constr → Prop) → α → α → Prop} {x : Walk α}

theorem rests (hx : Keeps.Rests S x) : Files S side bound g x := by
  refine ⟨fun {K w f w₁} h hf => ⟨K, fun _ hc => hc, ?_⟩⟩
  have hw := hx.of_error h.under hf
  have hframe : (w₁.env side).frame = (w.env side).frame := (hw.env side).frame.symm
  exact h.stays hw (by rw [hframe]) (by rw [hframe]) fun t u => by rw [Env.precond?, hframe]; rfl

theorem bind {k : α → Walk β} (hx : Files S side bound g x)
    (hrun : ∀ K, Lockstep (Twin.alone S side bound) g A x x K) (hk : ∀ a, Files S side bound g (k a)) :
    Files S side bound g (x >>= k) := by
  refine ⟨fun h hf => ?_⟩
  rcases bind_error hf with hf | ⟨a, w₁, ha, hf⟩
  · exact hx.fails h hf
  · obtain ⟨K₁, hK₁, h₁, -⟩ := h.after (hrun _) ha
    obtain ⟨K₂, hK₂, h₂⟩ := (hk a).fails h₁ hf
    exact ⟨K₂, fun c hc => hK₂ c (hK₁ c hc), h₂⟩

theorem ite {p : Prop} [Decidable p] {y : Walk α} (hx : Files S side bound g x)
    (hy : Files S side bound g y) : Files S side bound g (if p then x else y) := by
  split
  · exact hx
  · exact hy

variable {settle : Settle} {post : Constr} {succs : List String}

theorem settleForward (h : ∀ s ∈ succs, Files S side bound g (settle side post s (g.restrict u s)))
    (hrun : ∀ K, ∀ s ∈ succs, Lockstep (Twin.alone S side bound) g (Twin.alone S side bound).Held
      (settle side post s (g.restrict u s)) (settle side post s (g.restrict u s)) K) :
    Files S side bound g (Walk.settleForward settle side g post u succs) := by
  induction succs with
  | nil => exact rests (.pure _)
  | cons s succs ih =>
    exact (h s List.mem_cons_self).bind (hrun · s List.mem_cons_self) fun _ =>
      ih (fun s' hs' => h s' (List.mem_cons_of_mem s hs')) fun K s' hs' =>
        hrun K s' (List.mem_cons_of_mem s hs')

theorem loopPre {header : String}
    (h : Files S side bound g (settle side post header (u.withCount header (u.count header + 1)))) :
    Files S side bound g (Walk.loopPre settle side post header u) := by
  refine ⟨fun {K w f w₁} hF hf => ?_⟩
  have hcut : Files S side bound g (do
      on side (Env.note .loopBound header ("back-edge cut after " ++
        toString (w.env side).unrollBound ++ " unrolling(s)"))
      trivial) := rests ((Keeps.note ..).bind fun _ => .mkGoal ..)
  exact (hcut.ite (p := (w.env side).unrollBound ≤ ↑(u.count header + 1)) h).fails hF hf

theorem successorPres
    (h : ∀ s ∈ succs, g.isBackEdge t s →
      Files S side bound g (settle side post s (u.withCount s (u.count s + 1))))
    (hrun : ∀ K, ∀ s ∈ succs, g.isBackEdge t s → Lockstep (Twin.alone S side bound) g
      (Twin.alone S side bound).Held (settle side post s (u.withCount s (u.count s + 1)))
      (settle side post s (u.withCount s (u.count s + 1))) K) :
    Files S side bound g (Walk.successorPres settle side g post t u succs) := by
  induction succs with
  | nil => exact rests (.pure _)
  | cons s succs ih =>
    have hrest := ih (fun s' hs' => h s' (List.mem_cons_of_mem s hs')) fun K s' hs' =>
      hrun K s' (List.mem_cons_of_mem s hs')
    have hlast (c : Constr) : Files S side bound g
        (do return (s, c) :: (← Walk.successorPres settle side g post t u succs)) :=
      hrest.bind (fun K => Lockstep.successorPres (T := Twin.alone S side bound) rfl
        fun K s' hs' => hrun K s' (List.mem_cons_of_mem s hs')) fun _ => rests (.pure _)
    rw [Walk.successorPres]
    split
    · rename_i hback
      exact (loopPre (h s List.mem_cons_self hback)).bind
        (fun K => Lockstep.loopPre (T := Twin.alone S side bound) rfl (hrun K s List.mem_cons_self hback))
        hlast
    · have hpre (K : Constr → Prop) : Lockstep (Twin.alone S side bound) g (Twin.alone S side bound).Held
          (do Walk.present ((← Walk.env side).precond? s (g.restrict u s)))
          (do Walk.present ((← Walk.env side).precond? s (g.restrict u s))) K :=
        Lockstep.env (T := Twin.alone S side bound) fun w v _ hf => .present (hf.precond s _)
      have hrests : Keeps.Rests S (do Walk.present ((← Walk.env side).precond? s (g.restrict u s))) :=
        .env fun _ _ => .present _
      exact (rests hrests).bind hpre hlast

end Files

section

variable {settle : Settle} {post : Constr}

/-- Around a copy all that is kept are constraints of a register. -/
theorem surroundings_lockstep
    (hforward : ∀ K, ∀ s ∈ g.forward t, Lockstep (Twin.alone S side bound) g
      (Twin.alone S side bound).Held (settle side post s (g.restrict u s))
      (settle side post s (g.restrict u s)) K)
    (hback : ∀ K, ∀ s ∈ g.succsOf t, g.isBackEdge t s → Lockstep (Twin.alone S side bound) g
      (Twin.alone S side bound).Held (settle side post s (u.withCount s (u.count s + 1)))
      (settle side post s (u.withCount s (u.count s + 1))) K) :
    Lockstep (Twin.alone S side bound) g (fun _ _ _ => True)
      (surroundings settle side g post t u) (surroundings settle side g post t u) K := by
  refine (Lockstep.settleForward hforward).bind fun K₁ _ _ _ _ => ?_
  refine (Lockstep.successorPres (T := Twin.alone S side bound) rfl hback).bind fun K₂ ts ts' _ hts => ?_
  exact (Lockstep.trailing hts t).bind fun K₃ _ _ _ _ => .pure True.intro

theorem surroundings_files
    (hforward : ∀ s ∈ g.forward t, Files S side bound g (settle side post s (g.restrict u s)))
    (hback : ∀ s ∈ g.succsOf t, g.isBackEdge t s →
      Files S side bound g (settle side post s (u.withCount s (u.count s + 1))))
    (hforward' : ∀ K, ∀ s ∈ g.forward t, Lockstep (Twin.alone S side bound) g
      (Twin.alone S side bound).Held (settle side post s (g.restrict u s))
      (settle side post s (g.restrict u s)) K)
    (hback' : ∀ K, ∀ s ∈ g.succsOf t, g.isBackEdge t s → Lockstep (Twin.alone S side bound) g
      (Twin.alone S side bound).Held (settle side post s (u.withCount s (u.count s + 1)))
      (settle side post s (u.withCount s (u.count s + 1))) K) :
    Files S side bound g (surroundings settle side g post t u) :=
  (Files.settleForward hforward hforward').bind (fun _ => Lockstep.settleForward hforward') fun _ =>
    (Files.successorPres hback hback').bind
      (fun _ => Lockstep.successorPres (T := Twin.alone S side bound) rfl hback') fun _ =>
      .rests ((Fills.trailing ..).bind fun _ => .pure _)

end

variable {s : Sub} {post c : Constr} {f : Fault}

/-- Wherever the settling of a copy fails, what is kept are constraints of a register. -/
theorem settleNode_files (n : Nat) (hs : S.body side s) (hg : Graph.ofSub s = .ok g)
    (hreach : g.Reached (g.copy u t)) : Files S side bound g (settleNode n side post t u) := by
  induction n generalizing s g post t u with
  | zero => exact .rests (.throw _)
  | succ n ih =>
  have hrun (K t u) : Lockstep (Twin.alone S side bound) g (Twin.alone S side bound).Held
      (settleNode n side post t u) (settleNode n side post t u) K :=
    settleNode_lockstep (T := Twin.alone S side bound) rfl n hs hg post post t u K
  have hfiles : Files S side bound g (surroundings (settleNode n) side g post t (g.restrict u t)) :=
    surroundings_files (fun s' hs' => ih hs hg (hreach.trans (.single (Graph.Leads.forward hs'))))
      (fun s' hs' hb => ih hs hg (hreach.trans (.single (Graph.Leads.back hs' hb))))
      (fun K s' _ => hrun K s' _) fun K s' _ _ => hrun K s' _
  refine ⟨fun {K w f w₂} hF h => ?_⟩
  obtain ⟨hnew, h⟩ := settleNode_failed hF.graph h
  rcases h with hsur | ⟨targets, after, w₁, hsur, h⟩
  · exact hfiles.fails hF hsur
  obtain ⟨K₁, hK₁, hF₁, -⟩ := hF.after
    (surroundings_lockstep (fun K s' _ => hrun K s' _) fun K s' _ _ => hrun K s' _) hsur
  rcases h with rfl | ⟨b, hb, hvisit⟩
  · exact ⟨K₁, hK₁, hF₁⟩
  obtain ⟨hmem, htid⟩ := block_mem hg hb
  have hnew₁ := surroundings_new hs hg hreach hF.under hF.graph hnew hsur
  have hx : Keeps.Expands S side (enterSub (settleNode n)) := fun post c hc =>
    .enterSub fun g hg => ⟨_, settleNode_fills n hc hg post _ _⟩
  obtain ⟨hw₂, hprecond⟩ := visitBlock_fails (P := fun _ => True) hx hs hmem hF₁.under (htid ▸ hnew₁) hvisit
  have hframe := (hw₂.env side).frame
  rw [at_self] at hframe
  exact ⟨K₁, hK₁, hF₁.stays hw₂ hframe.graph hframe.retPost hprecond⟩

/-- Wherever the walk of a subroutine fails, what its frame keeps are constraints of a register. -/
theorem enterSub_files {settle : Settle}
    (hset : ∀ g, Graph.ofSub s = .ok g →
      Files S side (w.env side).unrollBound g (settle side post g.entry []))
    (hw : w.Under S) (hK : Constr.Register K w.nodes) (hpost : K post)
    (hkept : ∀ t u c, (w.env side).precond? t u = some c → K c)
    (h : enterSub settle side post s w = .error f w₁) : ∃ K₁, (∀ c, K c → K₁ c) ∧
      Constr.Register K₁ w₁.nodes ∧ ∀ t u c, (w₁.env side).precond? t u = some c → K₁ c := by
  rcases enterSub_error hw h with h | ⟨g, a, w₂, w₃, hg, hb, hrun, rfl⟩
  · refine ⟨K, fun _ hc => hc, hK.mono h.nodes, fun t u c hc => hkept t u c ?_⟩
    rwa [Env.precond?, ← (h.env side).frame] at hc
  have hw₂ : (attached w side).Kept S.rule (fun _ => Eq) w₂ :=
    (Steady.bindVars s).toKeeps.of_ok (hw.setEnv rfl rfl) hb
  have hF₂ : Filed S side (w.env side).unrollBound g K (opened w₂ side s post g) := {
    under := (hw₂.under (hw.setEnv rfl rfl)).setEnv rfl rfl
    unrollBound := by
      rw [opened, World.env_setEnv]
      refine (hw₂.env side).unrollBound.trans ?_
      rw [attached, World.env_setEnv]
    register := by
      rw [opened, World.nodes_setEnv]
      refine hK.mono (Nat.le_trans (Nat.le_of_eq ?_) hw₂.nodes)
      rw [attached, World.nodes_setEnv]
    graph := by rw [opened, World.env_setEnv]
    retPost := fun c hc => by
      rw [opened, World.env_setEnv] at hc
      cases hc
      exact hpost
    precond := fun t u c hc => by
      rw [opened, World.env_setEnv, Env.precond?, ← (hw₂.env side).frame, attached, World.env_setEnv] at hc
      dsimp only at hc
      split at hc
      · exact hkept t u c hc
      · rw [Std.HashMap.getElem?_empty] at hc
        cases hc }
  obtain ⟨K₁, hK₁, hF₃⟩ := (hset g hg).fails hF₂ hrun
  refine ⟨K₁, hK₁, ?_, fun t u c hc => hF₃.precond t u c ?_⟩
  · rw [closed, World.nodes_setEnv]
    exact hF₃.register
  · rwa [closed, World.env_setEnv] at hc

/-- However the walk of a subroutine ends, what its frame keeps are constraints of a register, and so
is what the walk comes to. -/
theorem visitSub_files (hs : S.body side s) (hw : w.Under S) (hK : Constr.Register K w.nodes)
    (hpost : K post) (hkept : ∀ t u c, (w.env side).precond? t u = some c → K c) :
    ∃ K₁, (∀ c, K c → K₁ c) ∧ Constr.Register K₁ (ending (visitSub side post s) w).nodes ∧
      (∀ t u c, ((ending (visitSub side post s) w).env side).precond? t u = some c → K₁ c) ∧
      ∀ c w₁, visitSub side post s w = .ok c w₁ → K₁ c := by
  cases h : visitSub side post s w with
  | ok c w₁ =>
    rw [ending_of_ok h]
    obtain ⟨c', v₁, K₁, hc', hK₁, hl₁, hheld, hp₁⟩ := visitSub_lockstep
      (T := Twin.alone S side (w.env side).unrollBound) rfl hs (linked_alone hw rfl hK) ⟨hpost, True.intro⟩
      ⟨Iff.rfl, fun _ t u => held_option (hkept t u)⟩ h
    cases h.symm.trans hc'
    refine ⟨K₁, hK₁, hl₁.register True.intro, fun t u => node_of_rel (hp₁ t u), fun c w₂ hc => ?_⟩
    cases hc
    exact hheld.node
  | error f w₁ =>
    rw [ending_of_error h]
    have h' : enterSub (settleNode (depthBound (w.env side) s)) side post s w = .error f w₁ := h
    obtain ⟨K₁, hK₁, hreg, hkept₁⟩ := enterSub_files
      (fun g hg => settleNode_files _ hs hg .refl) hw hK hpost hkept h'
    exact ⟨K₁, hK₁, hreg, hkept₁, fun _ _ hc => nomatch hc⟩

end Walk

end Precond

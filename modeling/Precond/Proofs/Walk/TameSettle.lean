import Precond.Proofs.Walk.Stack
import Precond.Proofs.Run.Closed
import Precond.Proofs.Walk.TameSub

/-! The copies of the blocks of a subroutine are settled in a tame way. What has been settled stays
settled, so that the forward successors of a copy have preconditions when it is settled itself; and a
block that control runs into is a successor, since it has a name. -/

namespace Precond.Walk

open IR Precond.Flow

variable {P : Side → Env} {F : Fault → Prop} {side : Side} {g : Graph} {s : Sub} {t : String}
  {u : Unroll} {post : Constr} {w w₁ w₂ : World}

/-! ### Graphs of safe subroutines -/

structure SafeGraph (p : Env) (g : Graph) : Prop where
  entry : (g.blocks.lookup g.entry).isSome
  succs {t x : String} : x ∈ g.succsOf t → (g.blocks.lookup x).isSome
  behind {t x : String} : (g.fallthrough.lookup t).join = some x → x ∈ g.succsOf t
  elts {t : String} {b : Blk} : g.blocks.lookup t = some b → b.tid = t ∧ ∀ e ∈ b.elts, Tame.Sound p e

theorem SafeGraph.of_sub {p : Env} (hs : s ∈ p.subs) (hp : p.Safe) (hg : Graph.ofSub s = .ok g) :
    SafeGraph p g := by
  have hof := Graph.of_ofSub hg
  have hsafe := hp.subs s hs
  simp only [Sub.safeUnder, Bool.and_eq_true, List.all_eq_true, bne_iff_ne] at hsafe
  obtain ⟨hvars, hblks⟩ := hsafe
  refine ⟨?_, fun {t x} hx => ?_, fun {t x} hx => ?_, fun {t b} hb => ⟨hof.tid_of_lookup hb, fun e he => ?_⟩⟩
  · exact Table.mem_keys_iff.mp (hof.mem_keys.mpr (Sub.at?_entry hof.entry))
  · rw [hof.succsOf] at hx
    cases hat : s.at? t with
    | none =>
      rw [hat] at hx
      cases hx
    | some q =>
      rw [hat] at hx
      have hmem := (List.mem_filter.mp (List.mem_eraseDups.mp hx)).2
      exact Table.mem_keys_iff.mp (List.contains_iff_mem.mp hmem)
  · exact hof.behind_mem (fun c hc => (hblks c hc).1) hx
  · obtain ⟨hmem, -⟩ := block_mem hg hb
    refine ⟨fun x hx => (hblks b hmem).2 e he x hx, fun v hv => hvars v ?_⟩
    exact List.mem_eraseDups.mpr (List.mem_append_right _ (List.mem_flatMap.mpr
      ⟨b, hmem, List.mem_flatMap.mpr ⟨e, he, hv⟩⟩))

/-! ### Actions inside a graph -/

/-- The walk is in the graph of a subroutine, with a constraint for its return. -/
structure Afoot (P : Side → Env) (side : Side) (g : Graph) (w : World) : Prop where
  fits : w.Fits P
  graph : (w.env side).frame.graph = some g
  retPost : (w.env side).frame.retPost.isSome

/-- The walk is still in the graph, and what has been settled is settled. -/
structure Advances (P : Side → Env) (side : Side) (g : Graph) (w w' : World) : Prop
    extends Afoot P side g w' where
  kept {t : String} {u : Unroll} : (w.env side).precond? t u = some c →
    (w'.env side).precond? t u = some c

theorem Advances.refl (h : Afoot P side g w) : Advances P side g w w := ⟨h, id⟩

theorem Advances.trans (h₁ : Advances P side g w w₁) (h₂ : Advances P side g w₁ w₂) :
    Advances P side g w w₂ := ⟨h₂.toAfoot, fun h => h₂.kept (h₁.kept h)⟩

theorem World.Fits.under (h : w.Fits P) : w.Under (Scope.any P) :=
  ⟨fun side => (h side).policy, fun _ => True.intro⟩

theorem Advances.of_kept {B : Copy → Prop} (hw : Afoot P side g w) (hw₁ : w₁.Fits P)
    (hk : w.Kept (Scope.any P).rule (At side (Filled B)) w₁) : Advances P side g w w₁ := by
  have hf := (hk.env side).frame
  rw [at_self] at hf
  refine ⟨⟨hw₁, hf.graph.trans hw.graph, ?_⟩, fun h => hf.kept h⟩
  rw [hf.retPost]
  exact hw.retPost

/-- Inside a graph the action ends inside it, with a result of which `Q` holds or with a fault of
which `F` holds, and settled copies stay settled. -/
structure Persists (P : Side → Env) (F : Fault → Prop) (side : Side) (g : Graph)
    (Q : α → World → Prop) (x : Walk α) (w : World) : Prop where
  outcome : Afoot P side g w → Outcome (fun a w' => Advances P side g w w' ∧ Q a w') F x w

namespace Persists

variable {Q R : α → World → Prop} {x : Walk α}

theorem pure {a : α} (h : Q a w) : Persists P F side g Q (Pure.pure a) w :=
  ⟨fun hin => .pure ⟨.refl hin, h⟩⟩

theorem bind {S : β → World → Prop} {k : α → Walk β} (hx : Persists P F side g Q x w)
    (hk : ∀ a w', Advances P side g w w' → Q a w' → Persists P F side g S (k a) w') :
    Persists P F side g S (x >>= k) w := by
  refine ⟨fun hin => (hx.outcome hin).bind fun a w₁ ⟨h₁, hQ⟩ => ?_⟩
  exact ((hk a w₁ h₁ hQ).outcome h₁.toAfoot).mono (fun b w₂ h₂ => ⟨h₁.trans h₂.1, h₂.2⟩) fun _ => id

theorem mono (h : Persists P F side g Q x w) (hQ : ∀ a w', Q a w' → R a w') :
    Persists P F side g R x w :=
  ⟨fun hin => (h.outcome hin).mono (fun a w' h' => ⟨h'.1, hQ a w' h'.2⟩) fun _ => id⟩

/-- A tame action that leaves what has been settled. -/
theorem of_tame {Q : α → Prop} {B : Copy → Prop} (h : Tame P F Q x)
    (hfills : Fills (Scope.any P) side g B x) : Persists P F side g (fun a _ => Q a) x w := by
  refine ⟨fun hin => (h.outcome hin.fits).seen.mono (fun a w' ⟨ha, hw', hQ⟩ => ⟨?_, hQ⟩) fun _ => id⟩
  exact .of_kept hin hw' (hfills.of_ok (World.Fits.under hin.fits) hin.graph ha)

theorem env {k : Env → Walk α} (h : Persists P F side g Q (k (w.env side)) w) :
    Persists P F side g Q (Walk.env side >>= k) w := ⟨fun hin => h.outcome hin⟩

variable {settle : Settle}

/-- The copy has a precondition. -/
abbrev Ready (side : Side) (g : Graph) (u : Unroll) (t : String) (w : World) : Prop :=
  ∃ c, (w.env side).precond? t (g.restrict u t) = some c

theorem Ready.follows (h : Ready side g u t w) (hw : Advances P side g w w₁) : Ready side g u t w₁ :=
  let ⟨c, hc⟩ := h
  ⟨c, hw.kept hc⟩

theorem settleForward {succs : List String}
    (h : ∀ x ∈ succs, ∀ w, Persists P F side g (fun _ w' => Ready side g u x w')
      (settle side post x (g.restrict u x)) w) :
    Persists P F side g (fun _ w' => ∀ x ∈ succs, Ready side g u x w')
      (Walk.settleForward settle side g post u succs) w := by
  induction succs generalizing w with
  | nil => exact .pure nofun
  | cons x succs ih =>
    refine (h x List.mem_cons_self w).bind fun _ w₁ _ hx => ?_
    have hrest := ih (w := w₁) fun y hy => h y (List.mem_cons_of_mem x hy)
    refine ⟨fun hin => (hrest.outcome hin).mono (fun _ w₂ ⟨h₂, hys⟩ => ⟨h₂, ?_⟩) fun _ => id⟩
    exact List.forall_mem_cons.mpr ⟨hx.follows h₂, hys⟩

theorem present {o : Option α} (h : ∃ a, o = some a ∧ Q a w) :
    Persists P F side g Q (Walk.present o) w := by
  obtain ⟨a, rfl, ha⟩ := h
  exact .pure ha

/-- The preconditions of successors, all of which there are. -/
def Listed (succs : List String) (targets : Table String Constr) : Prop :=
  (∀ x ∈ succs, ∃ c, targets.lookup x = some c) ∧ ∀ x c, targets.lookup x = some c → c.Formal

theorem Listed.cons {succs : List String} {targets : Table String Constr} {x : String} {c : Constr}
    (h : Listed succs targets) (hc : c.Formal) : Listed (x :: succs) ((x, c) :: targets) := by
  refine ⟨fun y hy => ?_, fun y d hy => ?_⟩
  · rw [List.lookup_cons]
    cases hyx : y == x with
    | true => exact ⟨c, rfl⟩
    | false => exact h.1 y ((List.mem_cons.mp hy).resolve_left fun he => by simp [he] at hyx)
  · rw [List.lookup_cons] at hy
    cases hyx : y == x with
    | true =>
      rw [hyx] at hy
      cases hy
      exact hc
    | false =>
      rw [hyx] at hy
      exact h.2 y d hy

theorem trailing (hg : SafeGraph (P side) g) {targets : Table String Constr}
    (h : Listed (g.succsOf t) targets) :
    Persists P F side g (fun c _ => c.Formal) (Walk.trailing side g targets t) w := by
  unfold Walk.trailing
  split
  · rename_i next hnext
    obtain ⟨c, hc⟩ := h.1 next (hg.behind hnext)
    exact present ⟨c, hc, h.2 _ _ hc⟩
  · refine ⟨fun hin => ?_⟩
    obtain ⟨c, hc⟩ := Option.isSome_iff_exists.mp hin.retPost
    exact (env (present ⟨c, hc, (hin.fits side).frame.retPost hc⟩)).outcome hin

variable [Bears F]

theorem loopPre {header : String}
    (h : ∀ w, Persists P F side g (fun c _ => c.Formal)
      (settle side post header (u.withCount header (u.count header + 1))) w) :
    Persists P F side g (fun c _ => c.Formal) (Walk.loopPre settle side post header u) w := by
  refine env ?_
  dsimp only
  split
  · exact of_tame (B := fun _ => False) ((Tame.note ..).bind fun _ _ => .trivial)
      (.rests ((Keeps.note ..).bind fun _ => .mkGoal ..))
  · exact h w

theorem successorPres {succs : List String} (hready : ∀ x ∈ succs, g.isBackEdge t x = false →
      Ready side g u x w)
    (h : ∀ x ∈ succs, g.isBackEdge t x = true → ∀ w, Persists P F side g (fun c _ => c.Formal)
      (settle side post x (u.withCount x (u.count x + 1))) w) :
    Persists P F side g (fun targets _ => Listed succs targets)
      (Walk.successorPres settle side g post t u succs) w := by
  induction succs generalizing w with
  | nil => exact .pure ⟨nofun, nofun⟩
  | cons x succs ih =>
    have hrest {c : Constr} (hc : c.Formal) {w₁ : World} (hw₁ : Advances P side g w w₁) :
        Persists P F side g (fun targets _ => Listed (x :: succs) targets) (do
          return (x, c) :: (← Walk.successorPres settle side g post t u succs)) w₁ := by
      refine (ih (fun y hy hb => (hready y (List.mem_cons_of_mem x hy) hb).follows hw₁)
        fun y hy => h y (List.mem_cons_of_mem x hy)).bind fun targets w₂ _ htargets => ?_
      exact .pure (htargets.cons hc)
    rw [Walk.successorPres]
    split
    · rename_i hb
      exact (loopPre (h x List.mem_cons_self hb)).bind fun c w₁ hw₁ hc => hrest hc hw₁
    · rename_i hb
      obtain ⟨c, hc⟩ := hready x List.mem_cons_self (Bool.eq_false_iff.mpr hb)
      have hpresent : Persists P F side g (fun c _ => c.Formal)
          (do Walk.present ((← Walk.env side).precond? x (g.restrict u x))) w :=
        ⟨fun hin => (env (present ⟨c, hc, (hin.fits side).frame.preconds hc⟩)).outcome hin⟩
      exact hpresent.bind fun c w₁ hw₁ hc => hrest hc hw₁

/-- A block is settled for the copy that the walk is at. -/
theorem visitBlock [Policed P] {expand : Expand} {b : Blk} (hx : Tame.Expands P F side expand)
    (hkeeps : Keeps.Expands (Scope.any P) side expand) (hs : b ∈ s.blks)
    (hb : ∀ e ∈ b.elts, Tame.Sound (P side) e) (hpost : post.Formal)
    (hu : (w.env side).frame.unroll = u) :
    Persists P F side g (fun c w' => c.Formal ∧ (w'.env side).precond? b.tid u = some c)
      (Walk.visitBlock expand side post b) w := by
  refine ⟨fun hin => ?_⟩
  have hkept := Fills.visitBlock (B := fun _ => True) hkeeps True.intro hs post hu True.intro
    (World.Fits.under hin.fits)
  rw [ending, visitBlock_eq, hu] at hkept
  rw [Outcome, visitBlock_eq, hu]
  cases hpre : (w.env side).precond? b.tid u with
  | some c => exact ⟨.refl hin, (hin.fits side).frame.preconds hpre, hpre⟩
  | none =>
  rw [hpre] at hkept
  dsimp only at hkept ⊢
  have hentered : (entered w side b).Fits P :=
    hin.fits.setEnv ((hin.fits side).of_core rfl ⟨(hin.fits side).frame.preconds,
      (hin.fits side).frame.targets, (hin.fits side).frame.retPost⟩)
  have helts := (Tame.visitElts hx hb hpost).outcome hentered
  have hrest := (Keeps.visitElts hkeeps True.intro hs (fun _ he => he) post).kept
    (World.Fits.under hentered)
  rw [Outcome] at helts
  rw [ending] at hrest
  cases hrun : Walk.visitElts expand side post b.elts (entered w side b) with
  | error f w₁ =>
    rw [hrun] at helts
    exact helts
  | ok pre w₁ =>
  rw [hrun] at helts hrest hkept
  obtain ⟨hw₁, hformal⟩ := helts
  -- the elements have left the walk at the copy
  have hu₁ : (w₁.env side).frame.unroll = u := by
    have hframe := (hrest.env side).frame
    rw [entered, World.env_setEnv] at hframe
    exact hframe ▸ hu
  dsimp only at hkept ⊢
  rw [hu₁] at hkept ⊢
  refine ⟨.of_kept hin (hw₁.setEnv ?_) hkept, hformal, ?_⟩
  · refine (hw₁ side).of_core rfl ⟨fun {c k} hk => ?_, (hw₁ side).frame.targets, (hw₁ side).frame.retPost⟩
    dsimp only [Env.addPrecond] at hk
    rw [Std.HashMap.getElem?_insert] at hk
    split at hk
    · cases hk
      exact hformal
    · exact (hw₁ side).frame.preconds hk
  · rw [World.env_setEnv, Env.precond?, Env.addPrecond, Std.HashMap.getElem?_insert_self]

theorem settleBlock [Policed P] {expand : Expand} (hx : Tame.Expands P F side expand)
    (hkeeps : Keeps.Expands (Scope.any P) side expand) (hs : s ∈ (P side).subs)
    (hg : Graph.ofSub s = .ok g) (ht : (g.blocks.lookup t).isSome)
    (hready : ∀ x ∈ g.forward t, Ready side g u x w)
    (h : ∀ x ∈ g.succsOf t, g.isBackEdge t x = true → ∀ w, Persists P F side g (fun c _ => c.Formal)
      (settle side post x (u.withCount x (u.count x + 1))) w) :
    Persists P F side g (fun c w' => c.Formal ∧ (w'.env side).precond? t u = some c)
      (Walk.settleBlock settle expand side g post t u) w := by
  have hsafe := SafeGraph.of_sub hs (Policed.safe side) hg
  have hforward : ∀ x ∈ g.succsOf t, g.isBackEdge t x = false → Ready side g u x w :=
    fun x hx hb => hready x (List.mem_filter.mpr ⟨hx, by simp [hb]⟩)
  refine (successorPres hforward h).bind fun targets w₁ _ htargets => ?_
  refine (trailing hsafe htargets).bind fun after w₂ hw₂ hafter => ?_
  obtain ⟨b, hb⟩ := Option.isSome_iff_exists.mp ht
  obtain ⟨htid, helts⟩ := hsafe.elts hb
  refine ⟨fun hin => ?_⟩
  rw [hb]
  -- the walk comes to the copy of the block
  set w₃ := placedAt w₂ side g targets t u with hw₃
  have hplaced : Advances P side g w₂ w₃ := by
    refine ⟨⟨hin.fits.setEnv ?_, ?_, ?_⟩, fun h => ?_⟩
    · exact (hin.fits side).of_core rfl ⟨(hin.fits side).frame.preconds,
        fun h => htargets.2 _ _ h, (hin.fits side).frame.retPost⟩
    all_goals rw [hw₃, placedAt, World.env_setEnv]
    · exact hin.graph
    · exact hin.retPost
    · exact h
  have hvisit := (visitBlock (g := g) (u := u) (w := w₃) hx hkeeps (block_mem hg hb).1 helts hafter
    (by rw [hw₃, placedAt, World.env_setEnv])).outcome hplaced.toAfoot
  rw [htid] at hvisit
  exact hvisit.mono (fun c w₄ h => ⟨hplaced.trans h.1, h.2⟩) fun _ => id

end Persists

/-! ### Subroutines -/

/-- A fault that may end a walk of so many levels. -/
def Bounded (f : Fault) : Prop := f.Contained ∨ f = .outOfFuel

instance : Bears Bounded := ⟨.inl⟩

variable [Policed P]

/-- Whatever settles copies in the graphs of safe subroutines makes the walk of subroutines tame. -/
theorem enterSub_tame [Bears F] {settle : Settle} (hs : s ∈ (P side).subs) (hpost : post.Formal)
    (h : ∀ g, Graph.ofSub s = .ok g → ∀ w, Persists P F side g (fun c _ => c.Formal)
      (settle side post g.entry []) w) :
    Tame P F Constr.Formal (enterSub settle side post s) := by
  rw [enterSub_eq]
  refine (Tame.modifyEnv fun e he => ?_).bind fun _ _ => ?_
  · exact he.of_core rfl he.frame
  cases hg : Graph.ofSub s with
  | error f =>
    refine Tame.throw ?_
    unfold Graph.ofSub at hg
    split at hg <;> cases hg
    exact True.intro
  | ok g =>
  have hbind : Tame P F (fun _ => True) (bindVars side s) := by
    have hvars : ∀ v ∈ sortByName s.vars, v.sorted :=
      fun v hv => Tame.sub_vars hs v (List.mem_mergeSort.mp hv)
    unfold bindVars
    revert hvars
    induction sortByName s.vars with
    | nil => exact fun _ => .pure True.intro
    | cons v vs ih =>
      intro hvars
      simp only [List.forIn_cons, bind_assoc, pure_bind]
      exact (Tame.mkVar (hvars v List.mem_cons_self)).bind fun _ _ =>
        ih fun v' hv' => hvars v' (List.mem_cons_of_mem v hv')
  refine hbind.bind fun _ _ => ⟨fun {w} hw => ?_⟩
  have hopened : Afoot P side g (opened w side s post g) := by
    refine ⟨hw.setEnv ((hw side).of_core rfl ⟨fun {c k} hk => ?_, (hw side).frame.targets, fun h => ?_⟩),
      ?_, ?_⟩
    · dsimp only at hk
      split at hk
      · exact (hw side).frame.preconds hk
      · rw [Std.HashMap.getElem?_empty] at hk
        cases hk
    · cases h
      exact hpost
    all_goals rw [opened, World.env_setEnv]
    rfl
  have hrun := (h g hg _).outcome hopened
  rw [Outcome] at hrun ⊢
  rw [opening_eq]
  cases hend : settle side post g.entry [] (opened w side s post g) with
  | error f w₁ =>
    rw [hend] at hrun
    exact hrun
  | ok c w₁ =>
    rw [hend] at hrun
    obtain ⟨hw₁, hc⟩ := hrun
    refine ⟨hw₁.fits.setEnv ((hw₁.fits side).of_core rfl ?_), hc⟩
    exact ⟨(hw₁.fits side).frame.preconds, (hw₁.fits side).frame.targets, (hw side).frame.retPost⟩

/-- A copy is settled after its forward successors. -/
theorem settleNode_persists (n : Nat) {s : Sub} {g : Graph} (hs : s ∈ (P side).subs)
    (hg : Graph.ofSub s = .ok g) (hpost : post.Formal) {t : String} (ht : (g.blocks.lookup t).isSome)
    (u : Unroll) (w : World) : Persists P Bounded side g
      (fun c w' => c.Formal ∧ (w'.env side).precond? t (g.restrict u t) = some c)
      (settleNode n side post t u) w := by
  induction n generalizing s g post t u w with
  | zero => exact ⟨fun _ => .throw (.inr rfl)⟩
  | succ n ih =>
    have hsafe := SafeGraph.of_sub hs (Policed.safe side) hg
    have hx : Tame.Expands P Bounded side (enterSub (settleNode n)) := fun post c hpost hc =>
      enterSub_tame hc hpost fun g' hg' w' =>
        (ih hc hg' hpost (SafeGraph.of_sub hc (Policed.safe side) hg').entry [] w').mono fun _ _ h => h.1
    have hkeeps : Keeps.Expands (Scope.any P) side (enterSub (settleNode n)) := fun post c hc =>
      .enterSub fun g' hg' => ⟨_, settleNode_fills n hc hg' post _ _⟩
    refine ⟨fun hin => ?_⟩
    rw [Outcome, settleNode_succ hin.graph, ← Outcome]
    cases hpre : (w.env side).precond? t (g.restrict u t) with
    | some c => exact .pure ⟨.refl hin, (hin.fits side).frame.preconds hpre, hpre⟩
    | none =>
      have hforward : Persists P Bounded side g
          (fun _ w' => ∀ x ∈ g.forward t, Persists.Ready side g (g.restrict u t) x w')
          (settleForward (settleNode n) side g post (g.restrict u t) (g.forward t)) w :=
        .settleForward fun x hx w' =>
          (ih hs hg hpost (hsafe.succs (List.mem_of_mem_filter hx)) _ w').mono fun c w'' h =>
            ⟨c, by rw [← g.restrict_restrict]; exact h.2⟩
      refine (hforward.bind fun _ w₁ _ hready => ?_).outcome hin
      exact Persists.settleBlock hx hkeeps hs hg ht hready fun x hx hb w' =>
        (ih hs hg hpost (hsafe.succs hx) _ w').mono fun _ _ h => h.1

/-- The walk of a safe subroutine is tame. -/
theorem visitSub_tame (hs : s ∈ (P side).subs) (hpost : post.Formal) :
    Tame P Fault.Contained Constr.Formal (visitSub side post s) := by
  refine ⟨fun {w} hw => ?_⟩
  have hvisit : visitSub side post s w =
      enterSub (settleNode (depthBound (w.env side) s)) side post s w := rfl
  have hrun := (enterSub_tame (F := Bounded) hs hpost fun g hg w' => (settleNode_persists
    (depthBound (w.env side) s) hs hg hpost (SafeGraph.of_sub hs (Policed.safe side) hg).entry [] w').mono
      fun _ _ h => h.1).outcome hw
  rw [Outcome, ← hvisit, ← Outcome] at hrun
  refine .intro (fun c w' hc => hrun.of_ok hc) fun f w' hf => ?_
  rcases (visitSub_ends side post s w).1 with ⟨pre, w₁, hok⟩ | ⟨f', w₁, herror, hne⟩
  · cases hok.symm.trans hf
  · cases herror.symm.trans hf
    exact (hrun.of_error hf).resolve_right hne

end Precond.Walk

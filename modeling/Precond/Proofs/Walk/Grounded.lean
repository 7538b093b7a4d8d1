import Precond.Proofs.Walk.Hooks
import Precond.Proofs.Walk.Keeps

/-! No variable is met that stands for nothing (`Walk.visitSub_resolves`). When a subroutine is entered,
also a callee at whatever depth, all its variables get terms, and from then on tables only grow; the
value of a `let` stands for its variable only meanwhile, and the variable gets back what it stood for.
What an expression, and a condition on its parts, reads from its surroundings is thus always there. -/

namespace Precond

open IR Precond.Flow

/-- A fault other than that a variable stands for nothing. -/
def Fault.Resolved (f : Fault) : Prop := ∀ name, f ≠ .translation (.unbound name)

instance : Admits Fault.Resolved := ⟨And.right⟩

/-- The variables that a rule reads itself. The rules on accesses and divisions only read what the
expression reads that they are about. -/
def SideRule.vars : SideRule → List Var
  | custom _ _ _ cond _ => cond.freeVars
  | nonNull .. | validAccess .. | nonZeroDivisor | offsetRead .. => []

/-- A phi mentions what its values read. -/
theorem IR.Phi.value_vars {p : Phi} {x : String × Exp} (hx : x ∈ p.values) :
    x.2.freeVars ⊆ (Elt.phi p).vars :=
  fun _ hv => List.mem_cons_of_mem _ (List.mem_flatMap.mpr ⟨x, hx, hv⟩)

namespace Walk

theorem accessed_vars {access : Access} {e addr : Exp} {size : Int}
    (h : accessed? access e = some (addr, size)) : addr.freeVars ⊆ e.freeVars := by
  cases accessed?_eq_some.mp h with
  | load => exact List.subset_append_right ..
  | store => exact fun _ hv => List.mem_append_left _ (List.mem_append_right _ hv)

/-! ### Ground -/

/-- What is known of the place of a walk: its side rules, the graph it is in, and variables that stand
for terms, among them those that the rules read. -/
structure Ground where
  rules : List SideRule
  graph : Option Graph
  vars : List Var
  covers {r : SideRule} : r ∈ rules → r.vars ⊆ vars

/-- Further variables stand for terms. -/
def Ground.bind (G : Ground) (vs : List Var) : Ground :=
  { G with
    vars := vs ++ G.vars
    covers := fun hr => List.Subset.trans (G.covers hr) (List.subset_append_right ..) }

/-- The walk is in another graph. -/
def Ground.at (G : Ground) (g : Option Graph) : Ground := { G with graph := g }

structure Grounded (side : Side) (G : Ground) (w : World) : Prop where
  rules : (w.env side).sideRules = G.rules
  graph : (w.env side).frame.graph = G.graph
  bound {v : Var} : v ∈ G.vars → ∃ t, (w.env side).vars.lookup v = some t

variable {side : Side} {G G' : Ground} {w w₁ : World}

namespace Grounded

theorem kept {R : Side → String → CallRule → Prop} (h : Grounded side G w)
    (hw : w.Kept R (fun _ => Eq) w₁) : Grounded side G w₁ where
  rules := by
    have hp : (w₁.env side).policy.sideRules = (w.env side).policy.sideRules := by
      rw [(hw.env side).policy]
    exact hp.trans h.rules
  graph := (congrArg Frame.graph (hw.env side).frame).symm.trans h.graph
  bound hv := let ⟨t, ht⟩ := h.bound hv; ⟨t, (hw.env side).vars _ _ ht⟩

/-- The walk is at another place, perhaps in another graph, and fewer variables are known to stand for
terms. -/
theorem moved (h : Grounded side G w) {e : Env} (he : e.sideRules = (w.env side).sideRules)
    (hvars : e.vars = (w.env side).vars) (hr : G.rules = G'.rules) (hg : e.frame.graph = G'.graph)
    (hv : G'.vars ⊆ G.vars) : Grounded side G' (w.setEnv side e) := by
  refine ⟨?_, ?_, fun {v} hu => ?_⟩ <;> rw [World.env_setEnv]
  · exact he.trans (h.rules.trans hr)
  · exact hg
  · rw [hvars]
    exact h.bound (hv hu)

theorem stays (h : Grounded side G w) {e : Env} (he : e.sideRules = (w.env side).sideRules)
    (hvars : e.vars = (w.env side).vars) (hg : e.frame.graph = (w.env side).frame.graph) :
    Grounded side G (w.setEnv side e) :=
  h.moved he hvars rfl (hg.trans h.graph) fun _ hv => hv

theorem put (h : Grounded side G w) (u : Var) (t : SomeTerm) :
    Grounded side (G.bind [u]) (put w side u t) := by
  refine ⟨?_, ?_, fun {v} hv => ?_⟩ <;> rw [Walk.put, World.env_setEnv]
  · exact h.rules
  · exact h.graph
  · by_cases hu : v = u
    · exact ⟨t, hu ▸ Table.lookup_put_self ..⟩
    · obtain ⟨t', ht'⟩ := h.bound ((List.mem_cons.mp hv).resolve_left hu)
      exact ⟨t', (Table.lookup_put_of_ne _ _ hu).trans ht'⟩

/-- A variable is given back what it stood for. -/
theorem restored (h : Grounded side G w) {u : Var} (h₁ : Grounded side (G.bind [u]) w₁) :
    Grounded side G (w₁.setEnv side
      (Env.restoreVar u ((w.env side).vars.lookup u) (w₁.env side))) := by
  refine ⟨?_, ?_, fun {v} hv => ?_⟩ <;> rw [World.env_setEnv]
  · rw [Env.restoreVar_vars]
    exact h₁.rules
  · rw [Env.restoreVar_vars]
    exact h₁.graph
  · rw [Env.lookup_restoreVar]
    split
    · rename_i hu
      exact hu ▸ h.bound hv
    · exact h₁.bound (List.mem_append_right _ hv)

end Grounded

/-! ### Actions -/

/-- From the ground on the action meets no variable that stands for nothing, and comes back to the
ground. -/
structure Resolves (side : Side) (G : Ground) (x : Walk α) : Prop where
  ends {w : World} : Grounded side G w →
    Outcome (fun _ w' => Grounded side G w') Fault.Resolved x w

namespace Resolves

/-- An action that translates nothing. -/
theorem of {x : Walk α} (hx : Prompt Fault.Resolved x)
    (hk : ∀ policy, Keeps.Rests (Scope.any policy) x) : Resolves side G x := by
  refine ⟨fun {w} hw => ?_⟩
  have hunder : w.Under (Scope.any fun s => (w.env s).policy) := ⟨fun _ => rfl, fun _ => True.intro⟩
  exact .intro (fun _ _ ha => hw.kept ((hk _).of_ok hunder ha)) fun _ _ hf => (hx.ends w).of_error hf

theorem pure (a : α) : Resolves side G (Pure.pure a : Walk α) := ⟨fun hw => .pure hw⟩

theorem throw {f : Fault} (hf : f.Resolved) : Resolves side G (MonadExcept.throw f : Walk α) :=
  ⟨fun _ => .throw hf⟩

theorem bind {x : Walk α} {k : α → Walk β} (hx : Resolves side G x)
    (hk : ∀ a, Resolves side G (k a)) : Resolves side G (x >>= k) :=
  ⟨fun hw => (hx.ends hw).bind fun a _ hw' => (hk a).ends hw'⟩

theorem ite {c : Prop} [Decidable c] {x y : Walk α} (hx : Resolves side G x)
    (hy : Resolves side G y) : Resolves side G (if c then x else y) := by
  split
  · exact hx
  · exact hy

theorem env {k : Env → Walk α} (h : ∀ e : Env, e.sideRules = G.rules → e.frame.graph = G.graph →
    Resolves side G (k e)) : Resolves side G (Walk.env side >>= k) :=
  ⟨fun {w} hw => (h (w.env side) hw.rules hw.graph).ends hw⟩

theorem lift {x : Except Fault α} (hx : Term.Prompt x) : Resolves side G (liftM x : Walk α) :=
  .of (.lift hx) fun _ => .lift x

/-- What is there is used. -/
theorem present {o : Option α} {k : α → Walk β} (h : ∀ a, o = some a → Resolves side G (k a)) :
    Resolves side G (Walk.present o >>= k) := by
  cases o with
  | some a => exact h a rfl
  | none => exact ⟨fun _ => .throw (Admits.own ⟨nofun, nofun⟩)⟩

theorem mkVar (side' : Side) (v : Var) : Resolves side G (Walk.on side' (Env.mkVar v)) :=
  .of (.on (.mkVar v) side') fun _ => .steady (.mkVar v)

theorem getVar {v : Var} (hv : v ∈ G.vars) : Resolves side G (Walk.on side (Env.getVar v)) := by
  refine ⟨fun hw => ?_⟩
  obtain ⟨t, ht⟩ := hw.bound hv
  rw [Outcome, Walk.on, Env.getVar_of_lookup ht]
  exact hw.stays rfl rfl rfl

theorem note (kind : WeakeningKind) (tid detail : String) :
    Resolves side G (Walk.on side (Env.note kind tid detail)) :=
  .of (.on (.note ..) side) fun _ => .note ..

theorem guard (assumes verifies : List Hook) (post : Constr) :
    Resolves side G (Walk.guard assumes verifies post) := .of (.guard ..) fun _ => .guard ..

/-- The walk goes to another place in the same graph. -/
theorem move {f : Env → Env} {k : Unit → Walk α} (hk : Resolves side G (k ()))
    (hr : ∀ e : Env, (f e).sideRules = e.sideRules) (hv : ∀ e : Env, (f e).vars = e.vars)
    (hg : ∀ e : Env, (f e).frame.graph = e.frame.graph) :
    Resolves side G (Walk.modifyEnv side f >>= k) :=
  ⟨fun hw => hk.ends (hw.stays (hr _) (hv _) (hg _))⟩

theorem binding {v : Var} {t : SomeTerm} {x : Walk α} (h : Resolves side (G.bind [v]) x) :
    Resolves side G (Walk.binding side v t x) := by
  refine ⟨fun {w} hw => ?_⟩
  rw [Outcome, binding_eq, ← Outcome]
  exact .restoring ((h.ends (hw.put v t)).mono (fun _ _ h₁ => hw.restored h₁) fun _ hf => hf)

/-! ### Translation -/

/-- A condition is asked for each part of the expression, under the values that stand there. -/
theorem translateWith {watch : Exp → Walk (List Hook)} {rules : List SideRule}
    (hw : ∀ {G : Ground} {e : Exp}, G.rules = rules → e.freeVars ⊆ G.vars → Resolves side G (watch e))
    {e : Exp} (hG : G.rules = rules) (he : e.freeVars ⊆ G.vars) :
    Resolves side G (Walk.translateWith side watch e) := by
  induction e generalizing G with
  | var v =>
    exact (hw hG he).bind fun _ => (getVar (he List.mem_cons_self)).bind fun _ => pure _
  | lit x =>
    exact (hw hG he).bind fun _ => .of (.ite (.fail ⟨nofun, nofun⟩) (.pure _)) fun _ =>
      .ite (.throw _) (.pure _)
  | bin op l r ihl ihr =>
    obtain ⟨hl, hr⟩ := List.append_subset.mp he
    exact (hw hG he).bind fun _ => (ihl hG hl).bind fun _ => (ihr hG hr).bind fun _ =>
      (lift (.binary ..)).bind fun _ => pure _
  | un op a ih =>
    exact (hw hG he).bind fun _ => (ih hG he).bind fun _ => (lift (.unary ..)).bind fun _ => pure _
  | cast kind width a ih =>
    exact (hw hG he).bind fun _ => (ih hG he).bind fun _ => (lift (.castTo ..)).bind fun _ => pure _
  | load mem addr endian size ihm iha =>
    obtain ⟨hm, ha⟩ := List.append_subset.mp he
    exact (hw hG he).bind fun _ => (ihm hG hm).bind fun _ => (iha hG ha).bind fun _ =>
      (lift (.load ..)).bind fun _ => pure _
  | store mem addr value endian size ihm iha ihv =>
    obtain ⟨hma, hv⟩ := List.append_subset.mp he
    obtain ⟨hm, ha⟩ := List.append_subset.mp hma
    exact (hw hG he).bind fun _ => (ihm hG hm).bind fun _ => (iha hG ha).bind fun _ =>
      (ihv hG hv).bind fun _ => (lift (.storeWord ..)).bind fun _ => pure _
  | ite cond yes no ihc ihy ihn =>
    obtain ⟨hcy, hn⟩ := List.append_subset.mp he
    obtain ⟨hc, hy⟩ := List.append_subset.mp hcy
    exact (hw hG he).bind fun _ => (ihc hG hc).bind fun _ => (ihy hG hy).bind fun _ =>
      (ihn hG hn).bind fun _ => (lift (.choose ..)).bind fun _ => pure _
  | extract hi lo a ih =>
    exact (hw hG he).bind fun _ => (ih hG he).bind fun _ => (lift (.extractBits ..)).bind fun _ =>
      pure _
  | concat l r ihl ihr =>
    obtain ⟨hl, hr⟩ := List.append_subset.mp he
    exact (hw hG he).bind fun _ => (ihl hG hl).bind fun _ => (lift (.word ..)).bind fun _ =>
      (ihr hG hr).bind fun _ => (lift (.concatWords ..)).bind fun _ => pure _
  | letIn v value body ihv ihb =>
    obtain ⟨hv, hb⟩ := List.append_subset.mp he
    -- what the body reads is the variable itself, or is read from the surroundings
    have hbody : body.freeVars ⊆ (G.bind [v]).vars := fun u hu => by
      by_cases huv : u = v
      · exact huv ▸ List.mem_cons_self
      · exact List.mem_cons_of_mem _ (hb (List.mem_filter.mpr ⟨hu, decide_eq_true huv⟩))
    exact (hw hG he).bind fun _ => (ihv hG hv).bind fun _ => (binding (ihb hG hbody)).bind fun _ =>
      pure _
  | unknown text type =>
    refine (hw hG he).bind fun _ => (of (.on (.fresh ..) side) fun _ => ?_).bind fun _ => pure _
    exact .steady (.on (.fresh True.intro ..))

theorem translate {e : Exp} (he : e.freeVars ⊆ G.vars) : Resolves side G (Walk.translate side e) :=
  (translateWith (fun _ _ => pure _) rfl he).bind fun _ => pure _

theorem condition {e : Exp} (he : e.freeVars ⊆ G.vars) : Resolves side G (Walk.condition side e) :=
  (translate he).bind fun _ => lift (.condition _)

theorem sideCondition {e : Exp} {rule : SideRule} (hr : rule.vars ⊆ G.vars)
    (he : e.freeVars ⊆ G.vars) : Resolves side G (Walk.sideCondition side e rule) := by
  have hsized {x : Exp} (hx : x.freeVars ⊆ e.freeVars)
      {k : ((w : Nat) × Term (.bv w)) → Walk (Option Hook)} (hk : ∀ a, Resolves side G (k a)) :
      Resolves side G (do k (← (← Walk.translate side x).sized)) :=
    (translate (List.Subset.trans hx he)).bind fun t => (lift (.sized t)).bind hk
  unfold Walk.sideCondition
  split
  · split
    · exact pure _
    · exact hsized (accessed_vars ‹_›) fun _ => pure _
  · split
    · exact pure _
    · exact hsized (accessed_vars ‹_›) fun _ => env fun _ _ _ => pure _
  · split
    · exact ite (hsized (List.subset_append_right ..) fun _ => pure _) (pure _)
    · exact pure _
  · split
    · obtain ⟨hmem, haddr⟩ := List.append_subset.mp he
      refine (translate haddr).bind fun _ => (translate hmem).bind fun _ =>
        (lift (.load ..)).bind fun _ => (mkVar .mod _).bind fun _ => ?_
      refine .of (.ite (.fail ⟨nofun, nofun⟩) ?_) fun _ => .ite (.throw _) ?_
      · exact (Prompt.lift (.as ..)).bind fun _ => (Prompt.lift (.load ..)).bind fun _ =>
          (Prompt.lift (.eq ..)).bind fun _ => .pure _
      · exact (Keeps.lift _).bind fun _ => (Keeps.lift _).bind fun _ => (Keeps.lift _).bind fun _ =>
          .pure _
    · exact pure _
  · exact ite ((condition hr).bind fun _ => pure _) (pure _)

theorem sideConditions {e : Exp} (he : e.freeVars ⊆ G.vars) {rules : List SideRule}
    (hr : ∀ r ∈ rules, r.vars ⊆ G.vars) : Resolves side G (Walk.sideConditions side rules e) := by
  induction rules with
  | nil => exact pure _
  | cons rule rules ih =>
    exact (sideCondition (hr rule List.mem_cons_self) he).bind fun _ =>
      (ih fun r hr' => hr r (List.mem_cons_of_mem _ hr')).bind fun _ => pure _

theorem translateChecked {e : Exp} (he : e.freeVars ⊆ G.vars) :
    Resolves side G (Walk.translateChecked side e) := by
  refine (of .countTranslation fun _ => .steady .countTranslation).bind fun _ =>
    env fun e' hrules _ => ?_
  refine translateWith (fun {G'} _ hG' he' => ?_) hrules.symm he
  exact sideConditions he' fun r hr => G'.covers (hG' ▸ hr)

/-! ### Blocks -/

theorem assign {rhs : Exp} (he : rhs.freeVars ⊆ G.vars) (post : Constr) (lhs : Var) :
    Resolves side G (Walk.assign side post lhs rhs) := by
  refine (translateChecked he).bind fun _ => (mkVar side lhs).bind fun _ => ?_
  refine .of (.ite (.fail ⟨nofun, nofun⟩) ?_) fun _ => .replaced ..
  exact (Prompt.guard ..).bind fun _ => (Prompt.substitute ..).bind fun _ => .guard ..

theorem visitPhi {p : Phi} (hp : (Elt.phi p).vars ⊆ G.vars) (post : Constr) :
    Resolves side G (Walk.visitPhi side post p) := by
  refine env fun e _ _ => ?_
  split
  · rename_i value hv
    obtain ⟨pred, -, hpred⟩ := Option.bind_eq_some_iff.mp hv
    have hmem : (pred, value) ∈ p.values := List.mem_reverse.mp (Table.mem_of_lookup hpred)
    exact assign (List.Subset.trans (IR.Phi.value_vars hmem) hp) ..
  · exact (note ..).bind fun _ => assign (List.Subset.trans (IR.Phi.value_vars (List.head_mem _)) hp) ..

theorem targetPre (l : Label) (default : Constr) : Resolves side G (Walk.targetPre side l default) :=
  .of (.targetPre ..) fun _ => .targetPre ..

theorem returnPre (post : Constr) : Resolves side G (Walk.returnPre side post) :=
  .of (.returnPre ..) fun _ => .returnPre post

theorem forceJump {j : Jump} (hj : j.cond.freeVars ⊆ G.vars) (post : Constr) (target : String)
    (taken : Bool) : Resolves side G (Walk.forceJump side post j target taken) := by
  refine (condition hj).bind fun _ => ite ?_ ?_
  · exact (targetPre ..).bind fun _ => .of ((Prompt.mkGoal ..).bind fun _ => .mkClause ..) fun _ =>
      (Keeps.mkGoal ..).bind fun _ => .mkClause ..
  · exact .of ((Prompt.mkGoal ..).bind fun _ => .mkClause ..) fun _ =>
      (Keeps.mkGoal ..).bind fun _ => .mkClause ..

theorem branched {j : Jump} (hj : j.cond.freeVars ⊆ G.vars) (after post : Constr) :
    Resolves side G (Walk.branched side after post j) :=
  ite (pure _) ((translateChecked hj).bind fun _ => (lift (.condition _)).bind fun _ =>
    (of (.mkBranch ..) fun _ => .mkBranch ..).bind fun _ => guard ..)

theorem summarize (rule : CallRule) (callee : Sub) (post : Constr) (tid : String) :
    Resolves side G (Walk.summarize side rule callee post tid) :=
  .of (.summarize ..) fun _ => .summarize (.inl True.intro) ..

/-- The body of a callee is walked in a frame of its own, and the frame is there again behind it. -/
theorem nesting {x : Walk α} (hx : Resolves side G x) (tid : String) :
    Resolves side G (Walk.nesting side tid x) := by
  refine ⟨fun {w} hw => ?_⟩
  have hin : Grounded side G (inside w side tid) := hw.stays rfl rfl rfl
  have hend := hx.ends hin
  rw [Outcome] at hend ⊢
  rw [nesting_eq]
  cases hrun : x (inside w side tid) with
  | error f w₁ =>
    rw [hrun] at hend
    exact hend
  | ok a w₁ =>
    rw [hrun] at hend
    exact hend.moved rfl rfl rfl hw.graph fun _ hv => hv

section

variable {expand : Expand} (hx : ∀ post c, Resolves side G (expand side post c))

include hx

theorem inlineCall (callee : Sub) (after : Constr) (tid : String) :
    Resolves side G (Walk.inlineCall expand side callee after tid) := by
  unfold Walk.inlineCall
  split
  · exact (note ..).bind fun _ => pure _
  refine env fun _ _ _ => ite ((note ..).bind fun _ => env fun _ _ _ => ?_) (nesting (hx after _) _)
  split
  · exact summarize ..
  · exact throw nofun

theorem called (target : Label) (after : Constr) (tid : String) :
    Resolves side G (Walk.called expand side after tid target) := by
  have handled (callee : Sub) : Resolves side G (dispatch expand side after tid callee) := by
    refine (of (.on (.handler callee) side) fun _ => .steady (.on (.handler fun _ _ => True.intro))).bind
      fun h => ?_
    split
    · exact inlineCall hx ..
    · exact summarize ..
  cases target with
  | indirect => exact (note ..).bind fun _ => pure _
  | direct name =>
    refine env fun e _ _ => ?_
    split
    · exact handled _
    · exact (note ..).bind fun _ => handled _

theorem visitCall (target : Label) (ret : Option Label) (post : Constr) (tid : String) :
    Resolves side G (Walk.visitCall expand side post tid target ret) := by
  cases ret with
  | none => exact (returnPre post).bind fun after => called hx target after tid
  | some l => exact (targetPre l post).bind fun after => called hx target after tid

theorem jumpPre (post : Constr) (j : Jump) : Resolves side G (Walk.jumpPre expand side post j) := by
  unfold Walk.jumpPre
  split
  · exact (note ..).bind fun _ => pure _
  · exact targetPre ..
  · exact visitCall hx ..
  · exact returnPre ..
  · exact targetPre ..

theorem visitElt {e : Elt} (he : e.vars ⊆ G.vars) (post : Constr) :
    Resolves side G (Walk.visitElt expand side post e) := by
  cases e with
  | define d => exact assign (fun _ hv => he (List.mem_cons_of_mem _ hv)) ..
  | phi p => exact visitPhi he _
  | jump j =>
    have hcond : j.cond.freeVars ⊆ G.vars := fun _ hv =>
      he (List.mem_flatMap.mpr ⟨j.cond, List.mem_cons_self, hv⟩)
    refine env fun e _ _ => ?_
    split
    · exact forceJump hcond ..
    · exact (jumpPre hx post j).bind fun after => branched hcond ..

theorem visitElts {es : List Elt} (hes : ∀ e ∈ es, e.vars ⊆ G.vars) (post : Constr) :
    Resolves side G (Walk.visitElts expand side post es) := by
  induction es with
  | nil => exact pure _
  | cons e es ih =>
    exact (ih fun e' he' => hes e' (List.mem_cons_of_mem e he')).bind fun pre =>
      visitElt hx (hes e List.mem_cons_self) pre

theorem visitBlock {b : Blk} (hb : ∀ e ∈ b.elts, e.vars ⊆ G.vars) (post : Constr) :
    Resolves side G (Walk.visitBlock expand side post b) := by
  refine env fun e _ _ => ?_
  split
  · exact pure _
  · refine move ?_ (fun _ => rfl) (fun _ => rfl) fun _ => rfl
    refine (visitElts hx hb post).bind fun pre => ?_
    exact move (pure _) (fun _ => rfl) (fun _ => rfl) fun _ => rfl

end

/-! ### Subroutines -/

variable {settle : Settle} {g : Graph} {post : Constr}

theorem settleForward (hs : ∀ t u, Resolves side G (settle side post t u)) (u : Unroll)
    (succs : List String) : Resolves side G (Walk.settleForward settle side g post u succs) := by
  induction succs with
  | nil => exact pure _
  | cons s succs ih => exact (hs s _).bind fun _ => ih

theorem loopPre (hs : ∀ t u, Resolves side G (settle side post t u)) (header : String) (u : Unroll) :
    Resolves side G (Walk.loopPre settle side post header u) :=
  env fun _ _ _ => ite ((note ..).bind fun _ => .of .trivial fun _ => .mkGoal ..) (hs header _)

theorem successorPres (hs : ∀ t u, Resolves side G (settle side post t u)) (t : String) (u : Unroll)
    (succs : List String) : Resolves side G (Walk.successorPres settle side g post t u succs) := by
  induction succs with
  | nil => exact pure _
  | cons s succs ih =>
    rw [Walk.successorPres]
    split
    · exact (loopPre hs s u).bind fun _ => ih.bind fun _ => pure _
    · exact env fun _ _ _ => present fun _ _ => ih.bind fun _ => pure _

/-- The block of the graph is one of the subroutine, whose variables stand for terms. -/
theorem settleBlock {expand : Expand} {s : Sub} (hg : Graph.ofSub s = .ok g) (hv : s.vars ⊆ G.vars)
    (hx : ∀ post c, Resolves side G (expand side post c))
    (hs : ∀ t u, Resolves side G (settle side post t u)) (t : String) (u : Unroll) :
    Resolves side G (Walk.settleBlock settle expand side g post t u) := by
  refine (successorPres hs t u _).bind fun targets =>
    (of (prompt_trailing side g targets t) fun _ => Fills.trailing targets t).bind fun after =>
      present fun b hb => ?_
  refine move (visitBlock hx ?_ after) (fun _ => rfl) (fun _ => rfl) fun _ => rfl
  exact fun e he => List.Subset.trans (IR.Elt.vars_subset (block_mem hg hb).1 he) hv

end Resolves

theorem mkVar_stands {v : Var} {t : SomeTerm} (h : on side (Env.mkVar v) w = .ok t w₁) :
    (w₁.env side).vars.lookup v = some t := by
  obtain ⟨e, he, rfl⟩ := on_ok h
  rw [World.env_setEnv]
  obtain ⟨hv, rfl⟩ | ⟨n, s, e₁, -, -, -, -, rfl⟩ := Env.mkVar_ok he
  · exact hv
  · exact Table.lookup_put_self ..

/-- All variables that are asked for stand for terms afterwards. -/
theorem mkVars_grounded (vs : List Var) (hw : Grounded side G w) :
    Outcome (fun _ w' => Grounded side (G.bind vs) w') Fault.Resolved
      (forIn vs PUnit.unit fun v _ => do
        let _ ← on side (Env.mkVar v)
        pure (ForInStep.yield PUnit.unit)) w := by
  induction vs generalizing G w with
  | nil => exact .pure hw
  | cons v vs ih =>
    simp only [List.forIn_cons, bind_assoc, pure_bind]
    have hmk := ((Resolves.mkVar side v).ends hw).seen
    refine hmk.bind fun t w₁ ⟨hrun, hw₁⟩ => ?_
    have hbound : Grounded side (G.bind [v]) w₁ :=
      ⟨hw₁.rules, hw₁.graph, fun hu => (List.mem_cons.mp hu).elim
        (fun h => ⟨t, h ▸ mkVar_stands hrun⟩) hw₁.bound⟩
    -- the variable stays among those that stand for terms
    refine (ih hbound).mono (fun _ w' hw' => ⟨hw'.rules, hw'.graph, fun {u} hu => hw'.bound ?_⟩)
      fun _ hf => hf
    rcases List.mem_append.mp hu with hu | hu
    · rcases List.mem_cons.mp hu with rfl | hu
      · exact List.mem_append_right _ List.mem_cons_self
      · exact List.mem_append_left _ hu
    · exact List.mem_append_right _ (List.mem_cons_of_mem _ hu)

/-- A subroutine is entered with terms for its variables. -/
theorem Resolves.enterSub {settle : Settle} {post : Constr} {s : Sub}
    (hs : ∀ g G', Graph.ofSub s = .ok g → G'.graph = some g → s.vars ⊆ G'.vars →
      Resolves side G' (settle side post g.entry [])) :
    Resolves side G (enterSub settle side post s) := by
  rw [enterSub_eq]
  refine move ?_ (fun _ => rfl) (fun _ => rfl) fun _ => rfl
  cases hg : Graph.ofSub s with
  | error f => exact throw (Admits.own ((prompt_ofSub s).proper hg))
  | ok g =>
  refine ⟨fun {w} hw => ?_⟩
  refine (mkVars_grounded (sortByName s.vars) hw).bind fun _ w₁ hw₁ => ?_
  let G₁ : Ground := (G.bind (sortByName s.vars)).at (some g)
  have hvars : s.vars ⊆ G₁.vars := fun v hv => List.mem_append_left _ (List.mem_mergeSort.mpr hv)
  have hopened : Grounded side G₁ (opened w₁ side s post g) :=
    hw₁.moved rfl rfl rfl rfl fun _ hv => hv
  have hend := (hs g G₁ hg rfl hvars).ends hopened
  rw [Outcome] at hend ⊢
  rw [opening_eq]
  cases hrun : settle side post g.entry [] (opened w₁ side s post g) with
  | error f w₂ =>
    rw [hrun] at hend
    exact hend
  | ok pre w₂ =>
    rw [hrun] at hend
    exact hend.moved rfl rfl rfl hw₁.graph fun _ hv => List.mem_append_right _ hv

theorem settleNode_resolves (n : Nat) {s : Sub} {g : Graph} (hg : Graph.ofSub s = .ok g)
    (hgraph : G.graph = some g) (hv : s.vars ⊆ G.vars) (post : Constr) (t : String) (u : Unroll) :
    Resolves side G (settleNode n side post t u) := by
  induction n generalizing G s g post t u with
  | zero => exact .throw nofun
  | succ n ih =>
    refine .env fun e _ he => .present fun g' hg' => ?_
    obtain rfl : g = g' := Option.some.inj (hgraph.symm.trans (he.symm.trans hg'))
    refine .env fun e _ _ => ?_
    split
    · exact .pure _
    · have hx (post : Constr) (c : Sub) : Resolves side G (enterSub (settleNode n) side post c) :=
        .enterSub fun g' G' hg' hgraph' hv' => ih hg' hgraph' hv' post _ _
      exact (Resolves.settleForward (ih hg hgraph hv post) _ _).bind fun _ =>
        .settleBlock hg hv hx (ih hg hgraph hv post) ..

/-- Whatever is walked and whatever callees are expanded, a walk does not fail for a variable that stands
for nothing. Variables that a side rule reads itself have to stand for terms at the start; the rules on
accesses and divisions read none. -/
theorem visitSub_resolves (side : Side) (post : Constr) (s : Sub) (w : World)
    (hrules : ∀ r ∈ (w.env side).sideRules, ∀ v ∈ r.vars, ∃ t, (w.env side).vars.lookup v = some t)
    (name : String) (w' : World) :
    visitSub side post s w ≠ .error (.translation (.unbound name)) w' := by
  let G : Ground :=
    { rules := (w.env side).sideRules
      graph := (w.env side).frame.graph
      vars := (w.env side).sideRules.flatMap SideRule.vars
      covers := fun hr _ hv => List.mem_flatMap.mpr ⟨_, hr, hv⟩ }
  have hG : Grounded side G w := ⟨rfl, rfl, fun hv =>
    let ⟨r, hr, hv⟩ := List.mem_flatMap.mp hv
    hrules r hr _ hv⟩
  have hsub : Resolves side G (visitSub side post s) :=
    .env fun e _ _ => .enterSub fun g G' hg hgraph hv => settleNode_resolves _ hg hgraph hv post _ _
  exact fun h => (hsub.ends hG).of_error h name rfl

/-! The caller reads no variables, and its callee reads one inside a `let` that shadows another one. -/

def divisor : Var := ⟨"R2", .word 32⟩

/-- What memory holds at a register is divided by a second one; the first is bound meanwhile. -/
def lend : Sub where
  name := "lend"
  tid := "@lend"
  addr := none
  args := []
  blks := [{
    tid := "%only"
    phis := []
    defs := [⟨⟨"R0", .word 32⟩, .letIn ⟨"R1", .word 32⟩
      (.load (.var ⟨"mem", .memory 32 8⟩) (.var ⟨"R1", .word 32⟩) .little 32)
      (.bin .udiv (.var ⟨"R1", .word 32⟩) (.var divisor)), "%set"⟩]
    jumps := [⟨.ret (.direct "%exit"), .bin .eq (.var divisor) (.lit 0#32), "%ret"⟩] }]

def borrow : Sub where
  name := "borrow"
  tid := "@borrow"
  addr := none
  args := []
  blks := [⟨"%first", [], [], [⟨.call (.direct "@lend") none, .always, "%tail"⟩]⟩]

/-- Accesses and divisors are checked, and at each access one more register. -/
def lending : World where
  orig := { Env.start .arm [borrow, lend] with
    rules := [.inline ["@borrow", "@lend"]]
    vars := [(⟨"R3", .word 32⟩, ⟨.bv 32, .const "R3" (.bv 32)⟩)]
    sideRules := [.nonNull .load .verify, .validAccess .load .assume, .nonZeroDivisor,
      .custom .load .verify .before (.bin .ne (.var ⟨"R3", .word 32⟩) (.lit 0#32)) "set up"] }
  mod := Env.start .arm []
  nodes := 1
  translations := 0

theorem visitSub_resolves_lending :
    (∀ r ∈ (lending.env .orig).sideRules, ∀ v ∈ r.vars,
      ∃ t, (lending.env .orig).vars.lookup v = some t) ∧
    borrow.vars = [] ∧ divisor ∈ lend.vars ∧ (lending.env .orig).vars.lookup divisor = none ∧
    ∀ name w', visitSub .orig (.goal 0 "done" (.truth true) none) borrow lending ≠
      .error (.translation (.unbound name)) w' := by
  have hrules : ∀ r ∈ (lending.env .orig).sideRules, ∀ v ∈ r.vars,
      ∃ t, (lending.env .orig).vars.lookup v = some t := by
    intro r hr v hv
    simp only [lending, World.env, List.mem_cons, List.not_mem_nil, or_false] at hr
    rcases hr with rfl | rfl | rfl | rfl
    · cases hv
    · cases hv
    · cases hv
    · cases List.mem_singleton.mp hv
      exact ⟨_, rfl⟩
  exact ⟨hrules, by decide, by decide, rfl, visitSub_resolves .orig _ borrow lending hrules⟩

end Walk

end Precond

import Precond.Proofs.Constraint.Composed
import Precond.Proofs.Walk.Files
import Precond.Proofs.Walk.Respects
import Precond.Proofs.Walk.Success

/-! Which functions a walk puts into constraints. What a walk makes is composed of the constraints that
there were before it, and where a callee comes to be called it tells callee and output by the name of a
function (`Walk.visitSub_composed`). Two outputs share a function only if they are one output of one
callee, or if one name is cut in two ways (`Walk.visitSub_symbols`). -/

namespace Precond

open IR Precond.Flow

variable {p e : Env} {K : Constr → Prop}

/-- The constraints that a place of a walk holds are composed of earlier ones. -/
structure Env.Composing (p : Env) (K : Constr → Prop) (e : Env) : Prop where
  tidy : p.Tidy
  gives : p.Gives e
  retPost {c : Constr} : e.frame.retPost = some c → c.Composed p K
  target {t : String} {c : Constr} : e.frame.targets.lookup t = some c → c.Composed p K
  precond {k : String × Unroll} {c : Constr} : e.frame.preconds[k]? = some c → c.Composed p K

namespace Env.Composing

theorem now (h : p.Composing K e) : e.Tidy := h.gives.tidy h.tidy

theorem moved {e' : Env} (h : p.Composing K e) (hg : e.Gives e') (hf : e'.frame = e.frame) :
    p.Composing K e' :=
  ⟨h.tidy, h.gives.trans hg, hf ▸ h.retPost, hf ▸ h.target, hf ▸ h.precond⟩

end Env.Composing

namespace Walk

variable {side : Side} {w w₁ : World}

/-- An action makes what is composed of earlier constraints. -/
structure Composes (p : Env) (K : Constr → Prop) (side : Side) (Q : α → Prop) (x : Walk α) : Prop where
  run {w w₁ : World} {a : α} : p.Composing K (w.env side) → x w = .ok a w₁ →
    p.Composing K (w₁.env side) ∧ Q a

namespace Composes

variable {Q : α → Prop} {x : Walk α}

/-- An action that stays where it is. -/
theorem of (hk : ∀ P, Keeps.Rests (.any P) x) (hr : ∀ rules, Respects side rules .any Granting x)
    (hQ : ∀ {w w₁ a}, p.Composing K (w.env side) → x w = .ok a w₁ → Q a) : Composes p K side Q x := by
  refine ⟨fun {w w₁ a} hw h => ⟨hw.moved ?_ ?_, hQ hw h⟩⟩
  · exact ((hr _).of_ok rfl (.any _) h side).2
  · exact (((hk _).of_ok w.under_any h).env side).frame.symm

theorem pure {a : α} (h : Q a) : Composes p K side Q (Pure.pure a) := by
  refine ⟨fun hw ha => ?_⟩
  cases ha
  exact ⟨hw, h⟩

theorem throw (f : Fault) : Composes p K side Q (MonadExcept.throw f) := ⟨fun _ h => nomatch h⟩

theorem bind {R : β → Prop} {k : α → Walk β} (hx : Composes p K side Q x)
    (hk : ∀ a, Q a → Composes p K side R (k a)) : Composes p K side R (x >>= k) := by
  refine ⟨fun hw h => ?_⟩
  obtain ⟨a, w₂, ha, h⟩ := bind_ok h
  obtain ⟨hw₂, hQ⟩ := hx.run hw ha
  exact (hk a hQ).run hw₂ h

theorem ite {c : Prop} [Decidable c] {x y : Walk α} (hx : Composes p K side Q x)
    (hy : Composes p K side Q y) : Composes p K side Q (if c then x else y) := by
  split
  · exact hx
  · exact hy

theorem env {k : Env → Walk α} (h : ∀ e, p.Composing K e → Composes p K side Q (k e)) :
    Composes p K side Q (Walk.env side >>= k) := ⟨fun {w _ _} hw hk => (h (w.env side) hw).run hw hk⟩

theorem mapM {xs : List β} {f : β → Walk α} (h : ∀ x ∈ xs, Composes p K side Q (f x)) :
    Composes p K side (fun as => ∀ a ∈ as, Q a) (xs.mapM f) := by
  induction xs with
  | nil => exact pure nofun
  | cons x xs ih =>
    rw [List.mapM_cons]
    refine (h x List.mem_cons_self).bind fun a ha => ?_
    refine (ih fun y hy => h y (List.mem_cons_of_mem x hy)).bind fun as has => pure ?_
    exact List.forall_mem_cons.mpr ⟨ha, has⟩

theorem present {o : Option α} (h : ∀ a, o = some a → Q a) : Composes p K side Q (Walk.present o) := by
  cases o with
  | some a => exact pure (h a rfl)
  | none => exact throw _

theorem ofExcept (y : Except Fault α) : Composes p K side (fun _ => True) (Walk.ofExcept y) := by
  cases y with
  | ok a => exact pure True.intro
  | error f => exact throw f

theorem lift (y : Except Fault α) : Composes p K side (fun _ => True) (liftM y : Walk α) := ofExcept y

/-- An action on the environment, whatever it gives. -/
theorem on {act : EnvM α} (hk : ∀ P s, Env.Steady (.any P) s act)
    (hg : ∀ e : Env, e.Gives (ending act e)) : Composes p K side (fun _ => True) (Walk.on side act) :=
  .of (fun _ => .steady (.on (hk _ side)))
    (fun _ => .on fun e => ⟨sideRules_ending (fun _ => hk _ _) e, hg e⟩) fun _ _ => True.intro

theorem note (kind : WeakeningKind) (tid detail : String) :
    Composes p K side (fun _ => True) (Walk.on side (Env.note kind tid detail)) :=
  .of (fun _ => .note ..) (fun _ => .note ..) fun _ _ => True.intro

/-- The walk goes to another place that holds what is composed. -/
theorem move {f : Env → Env} (h : ∀ e, p.Composing K e → p.Composing K (f e)) :
    Composes p K side (fun _ => True) (Walk.modifyEnv side f) := by
  refine ⟨fun {w w₁ a} hw hm => ⟨?_, True.intro⟩⟩
  cases hm
  rw [World.env_setEnv]
  exact h _ hw

/-! ### Constraints -/

theorem mkGoal (name : String) (value : Term .bool) (tid : Option String) :
    Composes p K side (Constr.Composed p K) (Walk.mkGoal name value tid) := by
  refine .of (fun _ => .mkGoal ..) (fun _ => .mkGoal ..) fun _ h => ?_
  cases h
  exact .goal ..

theorem mkClause {hyps goals : List Constr} (hh : ∀ c ∈ hyps, c.Composed p K)
    (hg : ∀ c ∈ goals, c.Composed p K) :
    Composes p K side (Constr.Composed p K) (Walk.mkClause hyps goals) := by
  refine .of (fun _ => .mkClause ..) (fun _ => .mkClause ..) fun _ h => ?_
  cases h
  exact .clause _ hh hg

theorem mkBranch {yes no : Constr} (jump : String) (cond : Term .bool) (hy : yes.Composed p K)
    (hn : no.Composed p K) : Composes p K side (Constr.Composed p K) (Walk.mkBranch jump cond yes no) := by
  refine .of (fun _ => .mkBranch ..) (fun _ => .mkBranch ..) fun _ h => ?_
  cases h
  exact .branch _ _ _ hy hn

theorem guard (assumes verifies : List Hook) {post : Constr} (h : post.Composed p K) :
    Composes p K side (Constr.Composed p K) (Walk.guard assumes verifies post) := by
  refine ite (pure h) ?_
  refine (mapM fun _ _ => mkGoal ..).bind fun hyps hh => ?_
  refine (mapM fun _ _ => mkGoal ..).bind fun goals hg => mkClause hh fun c hc => ?_
  rcases List.mem_append.mp hc with hc | hc
  · exact hg c hc
  · exact List.mem_singleton.mp hc ▸ h

theorem substitute {c : Constr} {olds news : List SomeTerm} (hc : c.Composed p K)
    (h : p.Ascribes (olds.zip news)) :
    Composes p K side (Constr.Composed p K) (Walk.substitute c olds news) := by
  refine ite (pure hc) (ite (throw _) ?_)
  refine .of (fun _ => Keeps.newNode.bind fun _ => .pure _) (fun _ => Respects.newNode.bind fun _ => .pure _)
    fun _ h' => ?_
  cases h'
  exact .subst _ hc h

theorem replaceAll {c : Constr} {pairs : List (SomeTerm × SomeTerm)} (hc : c.Composed p K)
    (h : p.Ascribes pairs) : Composes p K side (Constr.Composed p K) (Walk.replaceAll c pairs) := by
  refine substitute hc ?_
  rwa [show (pairs.map (·.1)).zip (pairs.map (·.2)) = pairs from (List.zip_of_prod rfl rfl).symm]

/-! ### Calls -/

theorem mkVar (v : Var) : Composes p K side (fun t => t.1 ≠ .bool) (Walk.on side (Env.mkVar v)) := by
  refine .of (fun _ => .steady (.mkVar v)) (fun _ => .mkVar True.intro) fun {w w₁ t} hw h => ?_
  obtain ⟨hfetch, hl, -⟩ := (mkVar_fetches False.elim w).of_ok h
  obtain ⟨n, s, rfl, hs, -⟩ := (hfetch.gives.tidy hw.now).vars hl
  exact Ty.sort_ne_bool hs

theorem returnEffects (callee : Sub) :
    Composes p K side p.Ascribes (Walk.returnEffects side callee) := by
  refine .of (fun _ => .steady (.returnEffects callee)) (fun _ => .returnEffects callee)
    fun {w w₁ ps} hw h => ?_
  obtain ⟨hfetch, hreplaces⟩ := (returnEffects_fetches callee False.elim hw.now).of_ok h
  exact hreplaces.ascribes (hw.gives.trans hfetch.gives) (hfetch.gives.tidy hw.now) nofun

theorem firstArg : Composes p K side (fun _ => True) (Walk.firstArg side) :=
  .of (fun _ => .steady .firstArg) (fun _ => .firstArg) fun _ _ => True.intro

theorem formula (text : String) (d : Smt.Decls) :
    Composes p K side (Constr.Composed p K) (Walk.formula text d) := by
  unfold Walk.formula
  split
  · exact throw _
  · exact mkGoal ..
  · exact mkGoal ..

theorem contract {callee : Sub} {name pre post : String} {after : Constr} (h : after.Composed p K) :
    Composes p K side (Constr.Composed p K) (Walk.contract side callee name pre post after) := by
  refine env fun e _ => ?_
  refine (mapM (Q := fun q => q.2.1 ≠ .bool) fun r _ => (mkVar r).bind fun t ht => pure ht).bind
    fun current hcurrent => ?_
  refine (mapM (Q := fun _ => True) fun r _ => (on (fun _ _ => .fresh True.intro ..)
    (.fresh _ _)).bind fun _ _ => pure True.intro).bind fun chaos _ => ?_
  refine (formula ..).bind fun before hbefore => (formula ..).bind fun behind hbehind => ?_
  refine (mapM (Q := fun t => t.1 ≠ .bool) fun q _ => present fun t ht =>
    hcurrent _ (Table.mem_of_lookup ht)).bind fun olds holds => ?_
  refine (substitute h (.of_ne_bool fun q hq => holds _ (List.of_mem_zip hq).1)).bind fun c hc => ?_
  refine (returnEffects callee).bind fun ps hps => (replaceAll hc hps).bind fun returned hreturned => ?_
  refine (mkClause (List.forall_mem_singleton.mpr hbehind) (List.forall_mem_singleton.mpr hreturned)).bind
    fun inner hinner => mkClause nofun ?_
  exact List.forall_mem_cons.mpr ⟨hbefore, List.forall_mem_singleton.mpr hinner⟩

/-- Outputs of a summary get functions that are named for callee and output. -/
theorem summarized {rule : CallRule} (hr : rule ∈ summarizing) (callee : Sub) {post : Constr}
    (h : post.Composed p K) (tid : String) :
    Composes p K side (Constr.Composed p K) (Walk.summarize side rule callee post tid) := by
  refine .of (fun _ => .summarize (.inl True.intro) ..) (fun _ => .summarize (.any _) (.any ..) ..)
    fun {w w₁ pre} hw hrun => ?_
  obtain ⟨w₂, pairs, hw₂, hsums, rfl, -⟩ := (summarize_fetches rfl hw.now hr post tid).of_ok hrun
  exact .subst _ h (hsums.ascribes (hw.gives.trans hw₂.gives) (hw₂.gives.tidy hw.now) (hw₂.canonical _))

theorem summarize (rule : CallRule) (callee : Sub) {post : Constr} (h : post.Composed p K) (tid : String) :
    Composes p K side (Constr.Composed p K) (Walk.summarize side rule callee post tid) := by
  cases rule with
  | argTerms | raxOut | chaosRax | chaosCallerSaved | default => exact summarized (by decide) callee h tid
  | verifierError => exact env fun _ _ => mkGoal ..
  | verifierAssume =>
    refine env fun _ _ => firstArg.bind fun _ _ => (lift _).bind fun _ _ => (mkGoal ..).bind fun _ hg => ?_
    exact mkClause (List.forall_mem_singleton.mpr hg) (List.forall_mem_singleton.mpr h)
  | verifierNondet =>
    refine env fun e _ => ?_
    dsimp only
    split
    · exact throw _
    · exact (on (fun _ _ => .fresh True.intro ..) (.fresh _ _)).bind fun _ _ => (mkVar _).bind fun _ _ =>
        substitute h (.single _ _)
  | empty =>
    exact env fun _ _ => (on (fun _ _ => .getCalled _) (.getCalled _)).bind fun _ _ =>
      substitute h (.single _ _)
  | contract => exact env fun _ _ => contract h
  | inline => exact env fun _ _ => (returnEffects callee).bind fun _ hps => replaceAll h hps

/-! ### Blocks -/

theorem translateChecked (x : Exp) :
    Composes p K side (fun _ => True) (Walk.translateChecked side x) :=
  .of (fun _ => .steady (.translateChecked (s := default) True.intro (.inl True.intro)))
    (fun _ => .translateChecked x) fun _ _ => True.intro

theorem condition (x : Exp) : Composes p K side (fun _ => True) (Walk.condition side x) :=
  .of (fun _ => .steady (.condition (.inl True.intro))) (fun _ => .condition x) fun _ _ => True.intro

section

variable {post : Constr} (hpost : post.Composed p K)

include hpost

theorem assign (lhs : Var) (rhs : Exp) :
    Composes p K side (Constr.Composed p K) (Walk.assign side post lhs rhs) := by
  refine (translateChecked rhs).bind fun _ _ => (mkVar lhs).bind fun old _ => ite (throw _) ?_
  refine (guard _ _ hpost).bind fun c hc => (substitute hc (.single _ _)).bind fun d hd => ?_
  exact guard _ _ hd

theorem visitPhi (f : Phi) : Composes p K side (Constr.Composed p K) (Walk.visitPhi side post f) := by
  refine env fun e _ => ?_
  split
  · exact assign hpost ..
  · exact (note ..).bind fun _ _ => assign hpost ..

theorem targetPre (l : Label) : Composes p K side (Constr.Composed p K) (Walk.targetPre side l post) := by
  cases l with
  | indirect => exact pure hpost
  | direct tid =>
    refine env fun e he => pure ?_
    cases hl : e.frame.targets.lookup tid with
    | none => exact hpost
    | some c => exact he.target hl

theorem returnPre : Composes p K side (Constr.Composed p K) (Walk.returnPre side post) := by
  refine env fun e he => pure ?_
  cases hl : e.frame.retPost with
  | none => exact hpost
  | some c => exact he.retPost hl

theorem forceJump (j : Jump) (target : String) (taken : Bool) :
    Composes p K side (Constr.Composed p K) (Walk.forceJump side post j target taken) := by
  have hboth {goal c : Constr} (hg : goal.Composed p K) (hc : c.Composed p K) :
      ∀ d ∈ [goal, c], d.Composed p K := List.forall_mem_cons.mpr ⟨hg, List.forall_mem_singleton.mpr hc⟩
  refine (condition _).bind fun _ _ => ite ?_ ?_
  · exact (targetPre hpost _).bind fun c hc => (mkGoal ..).bind fun _ hg => mkClause nofun (hboth hg hc)
  · exact (mkGoal ..).bind fun _ hg => mkClause nofun (hboth hg hpost)

theorem branched {after : Constr} (hafter : after.Composed p K) (j : Jump) :
    Composes p K side (Constr.Composed p K) (Walk.branched side after post j) :=
  ite (pure hafter) ((translateChecked _).bind fun _ _ => (lift _).bind fun _ _ =>
    (mkBranch _ _ hafter hpost).bind fun _ h => guard _ _ h)

end

/-- The body of a callee is walked in a frame of its own, and the frame is there again behind it. -/
theorem nesting (hx : Composes p K side Q x) (tid : String) :
    Composes p K side Q (Walk.nesting side tid x) := by
  refine ⟨fun {w w₁ a} hw h => ?_⟩
  have hin : p.Composing K ((inside w side tid).env side) := by
    rw [inside, World.env_setEnv]
    refine ⟨hw.tidy, hw.gives.trans (.of_eq rfl rfl rfl rfl rfl rfl), hw.retPost, (fun hc => by cases hc), fun hc => ?_⟩
    rw [Frame.nested, Std.HashMap.getElem?_empty] at hc
    cases hc
  rw [nesting_eq] at h
  split at h
  · rename_i b w₂ hrun
    obtain ⟨hw₂, hQ⟩ := hx.run hin hrun
    cases h
    refine ⟨?_, hQ⟩
    rw [outside, World.env_setEnv]
    exact ⟨hw.tidy, hw₂.gives.trans (.of_eq rfl rfl rfl rfl rfl rfl), hw.retPost, hw.target, hw.precond⟩
  · cases h

section

variable {expand : Expand} (hx : ∀ {post : Constr}, post.Composed p K → ∀ c,
  Composes p K side (Constr.Composed p K) (expand side post c)) {post : Constr} (hpost : post.Composed p K)

include hx hpost

theorem inlineCall (callee : Sub) (tid : String) :
    Composes p K side (Constr.Composed p K) (Walk.inlineCall expand side callee post tid) := by
  unfold Walk.inlineCall
  refine ite ((note ..).bind fun _ _ => pure hpost) (env fun _ _ => ite ?_ (nesting (hx hpost callee) _))
  refine (note ..).bind fun _ _ => env fun _ _ => ?_
  split
  · exact summarize _ _ hpost _
  · exact throw _

theorem called (target : Label) (tid : String) :
    Composes p K side (Constr.Composed p K) (Walk.called expand side post tid target) := by
  have handled (callee : Sub) :
      Composes p K side (Constr.Composed p K) (dispatch expand side post tid callee) := by
    refine (on (fun _ _ => .handler fun _ _ => True.intro) (.handler _)).bind fun h _ => ?_
    split
    · exact inlineCall hx hpost ..
    · exact summarize _ _ hpost _
  cases target with
  | indirect => exact (note ..).bind fun _ _ => pure hpost
  | direct name =>
    refine env fun e _ => ?_
    split
    · exact handled _
    · exact (note ..).bind fun _ _ => handled _

theorem jumpPre (j : Jump) : Composes p K side (Constr.Composed p K) (Walk.jumpPre expand side post j) := by
  unfold Walk.jumpPre
  split
  · exact (note ..).bind fun _ _ => pure hpost
  · exact targetPre hpost _
  · rename_i target ret _
    cases ret with
    | none => exact (returnPre hpost).bind fun after h => called hx h target _
    | some l => exact (targetPre hpost l).bind fun after h => called hx h target _
  · exact returnPre hpost
  · exact targetPre hpost _

theorem visitElt (x : Elt) : Composes p K side (Constr.Composed p K) (Walk.visitElt expand side post x) := by
  cases x with
  | define d => exact assign hpost ..
  | phi f => exact visitPhi hpost f
  | jump j =>
    refine env fun e _ => ?_
    split
    · exact forceJump hpost ..
    · exact (jumpPre hx hpost j).bind fun after h => branched hpost h j

theorem visitElts (xs : List Elt) :
    Composes p K side (Constr.Composed p K) (Walk.visitElts expand side post xs) := by
  induction xs with
  | nil => exact pure hpost
  | cons x xs ih => exact ih.bind fun pre h => visitElt hx h x

theorem visitBlock (b : Blk) :
    Composes p K side (Constr.Composed p K) (Walk.visitBlock expand side post b) := by
  refine env fun e he => ?_
  split
  · rename_i c hc
    exact pure (he.precond hc)
  refine (move fun e h => ?_).bind fun _ _ => (visitElts hx hpost b.elts).bind fun pre hpre =>
    (move fun e h => ?_).bind fun _ _ => pure hpre
  · exact ⟨h.tidy, h.gives.trans (.of_eq rfl rfl rfl rfl rfl rfl), h.retPost, h.target, h.precond⟩
  · refine ⟨h.tidy, h.gives.trans (.of_eq rfl rfl rfl rfl rfl rfl), h.retPost, h.target, fun {k c} hc => ?_⟩
    rw [Env.addPrecond, Std.HashMap.getElem?_insert] at hc
    split at hc
    · cases hc
      exact hpre
    · exact h.precond hc

end

/-! ### Subroutines -/

section

variable {settle : Settle} {post : Constr}
  (hs : ∀ t u, Composes p K side (Constr.Composed p K) (settle side post t u))

include hs

theorem settleForward (g : Graph) (u : Unroll) (succs : List String) :
    Composes p K side (fun _ => True) (Walk.settleForward settle side g post u succs) := by
  induction succs with
  | nil => exact pure True.intro
  | cons s succs ih => exact (hs s _).bind fun _ _ => ih

theorem loopPre (header : String) (u : Unroll) :
    Composes p K side (Constr.Composed p K) (Walk.loopPre settle side post header u) :=
  env fun _ _ => ite ((note ..).bind fun _ _ => mkGoal ..) (hs header _)

theorem successorPres (g : Graph) (t : String) (u : Unroll) (succs : List String) :
    Composes p K side (fun targets => ∀ s c, targets.lookup s = some c → c.Composed p K)
      (Walk.successorPres settle side g post t u succs) := by
  induction succs with
  | nil => exact pure nofun
  | cons s succs ih =>
    have hcons {c : Constr} (hc : c.Composed p K) :
        Composes p K side (fun targets => ∀ s c, targets.lookup s = some c → c.Composed p K)
          (do return (s, c) :: (← Walk.successorPres settle side g post t u succs)) := by
      refine ih.bind fun targets htargets => pure fun s' c' hl => ?_
      rw [List.lookup_cons] at hl
      split at hl
      · cases hl
        exact hc
      · exact htargets s' c' hl
    rw [Walk.successorPres]
    split
    · exact (loopPre hs s u).bind fun c hc => hcons hc
    · exact env fun e he => (present fun c hc => he.precond hc).bind fun c hc => hcons hc

theorem settleBlock {expand : Expand} (hx : ∀ {post : Constr}, post.Composed p K → ∀ c,
    Composes p K side (Constr.Composed p K) (expand side post c)) (g : Graph) (t : String) (u : Unroll) :
    Composes p K side (Constr.Composed p K) (Walk.settleBlock settle expand side g post t u) := by
  refine (successorPres hs g t u _).bind fun targets htargets => ?_
  have htrailing : Composes p K side (Constr.Composed p K) (Walk.trailing side g targets t) := by
    unfold Walk.trailing
    split
    · exact present fun c hc => htargets _ c hc
    · exact env fun e he => present fun c hc => he.retPost hc
  refine htrailing.bind fun after hafter => (present (Q := fun _ => True) fun _ _ => True.intro).bind
    fun b _ => (move fun e h => ?_).bind fun _ _ => visitBlock hx hafter b
  exact ⟨h.tidy, h.gives.trans (.of_eq rfl rfl rfl rfl rfl rfl), h.retPost, htargets _ _, h.precond⟩

theorem enterSub (hpost : post.Composed p K) (s : Sub) :
    Composes p K side (Constr.Composed p K) (Walk.enterSub settle side post s) := by
  rw [enterSub_eq]
  refine (move fun e h => ?_).bind fun _ _ => (lift _).bind fun g _ => ?_
  · exact h.moved (.of_eq rfl rfl rfl rfl rfl rfl) rfl
  refine (Composes.of (Q := fun _ => True) (fun _ => .steady (.bindVars s)) (fun _ => .bindVars (.any s))
    fun _ _ => True.intro).bind fun _ _ => ⟨fun {w w₁ c} hw h => ?_⟩
  have hopened : p.Composing K ((opened w side s post g).env side) := by
    rw [opened, World.env_setEnv]
    refine ⟨hw.tidy, hw.gives.trans (.of_eq rfl rfl rfl rfl rfl rfl), fun hc => ?_, hw.target, fun hc => ?_⟩
    · cases hc
      exact hpost
    · dsimp only at hc
      split at hc
      · exact hw.precond hc
      · rw [Std.HashMap.getElem?_empty] at hc
        cases hc
  rw [opening_eq] at h
  split at h
  · rename_i c' w₂ hrun
    obtain ⟨hw₂, hpre⟩ := (hs g.entry []).run hopened hrun
    cases h
    refine ⟨?_, hpre⟩
    rw [closed, World.env_setEnv]
    exact ⟨hw.tidy, hw₂.gives.trans (.of_eq rfl rfl rfl rfl rfl rfl), hw.retPost, hw₂.target, hw₂.precond⟩
  · cases h

end

theorem settleNode (n : Nat) {post : Constr} (hpost : post.Composed p K) (t : String) (u : Unroll) :
    Composes p K side (Constr.Composed p K) (Walk.settleNode n side post t u) := by
  induction n generalizing post t u with
  | zero => exact throw _
  | succ n ih =>
    refine env fun e he => (present (Q := fun _ => True) fun _ _ => True.intro).bind fun g _ =>
      env fun e he => ?_
    split
    · rename_i c hc
      exact pure (he.precond hc)
    · exact (settleForward (ih hpost) g _ _).bind fun _ _ =>
        settleBlock (ih hpost) (fun hpost c => enterSub (ih hpost) hpost c) g t _

end Composes

/-- What a walk makes is composed of the constraints that there were, and of functions that are named for
callees and outputs. -/
theorem visitSub_composed {post : Constr} (hw : p.Composing K (w.env side)) (hpost : post.Composed p K)
    {s : Sub} {pre : Constr} (h : visitSub side post s w = .ok pre w₁) :
    p.Composing K (w₁.env side) ∧ pre.Composed p K :=
  (Composes.enterSub (.settleNode _ hpost) hpost s).run hw h

/-- A summary gives each output the value of a function. -/
theorem summarize_uses {rule : CallRule} {callee : Sub} {post pre : Constr} {tid : String} {out : Var}
    (hr : rule ∈ summarizing) (ht : (w.env side).Tidy)
    (h : summarize side rule callee post tid w = .ok pre w₁)
    (hout : out ∈ ((w.env side).interface rule callee).2) :
    ∃ f, (w₁.env side).Uses pre ((w.env side).canonical callee.name) out f := by
  obtain ⟨w₂, pairs, hw₂, hsums, rfl, hadds⟩ := (summarize_fetches rfl ht hr post tid).of_ok h
  rw [hadds.env]
  exact hsums.uses (hw₂.canonical _) hout ..

/-- A constraint is part of what a walk leaves behind: of its precondition, or of one that the frame
keeps for a block. -/
def LeftBehind (e : Env) (pre d : Constr) : Prop :=
  ∃ c, (c = pre ∨ ∃ k : String × Unroll, e.frame.preconds[k]? = some c) ∧ Constr.Part c d

section

variable {post pre d d' : Constr} {s : Sub} {callee callee' : String} {out out' : Var} {f : FuncDecl}
  (hK : Constr.Register K w.nodes) (hw : (w.env side).Composing K (w.env side)) (hpost : K post)
  (h : visitSub side post s w = .ok pre w₁)

include hK hw hpost h

/-- In what a walk has made, the function that gives the value of an output is named for callee and
output. -/
theorem visitSub_names (hd : LeftBehind (w₁.env side) pre d) (hnew : w.nodes ≤ d.id)
    (hu : (w₁.env side).Uses d callee out f) : f.name = callee ++ "_" ++ out.name := by
  obtain ⟨hw₁, hpre⟩ := visitSub_composed hw (.old hpost) h
  obtain ⟨c, hc, hpart⟩ := hd
  have hcomposed : c.Composed (w.env side) K := by
    rcases hc with rfl | ⟨k, hk⟩
    · exact hpre
    · exact hw₁.precond hk
  have hold : ¬ K d := fun hold => absurd (hK.lt hold) (by omega)
  exact (hcomposed.part hK.children hpart).name hold hw₁.gives hw₁.now hu

/-- Functions for outputs without an underscore in their names, as registers have them, tell callee and
output. -/
theorem visitSub_symbols_plain (hd : LeftBehind (w₁.env side) pre d)
    (hd' : LeftBehind (w₁.env side) pre d') (hnew : w.nodes ≤ d.id) (hnew' : w.nodes ≤ d'.id)
    (hu : (w₁.env side).Uses d callee out f) (hu' : (w₁.env side).Uses d' callee' out' f)
    (ho : '_' ∉ out.name.toList) (ho' : '_' ∉ out'.name.toList) :
    callee = callee' ∧ out.name = out'.name := by
  have hname := visitSub_names hK hw hpost h hd hnew hu
  have hname' := visitSub_names hK hw hpost h hd' hnew' hu'
  rcases glued_cases (hname.symm.trans hname') with heq | ⟨y, -, hy⟩ | ⟨y, -, hy⟩
  · exact heq
  · rw [hy] at ho
    exact absurd ho (by simp)
  · rw [hy] at ho'
    exact absurd ho' (by simp)

/-- Two calls of a walk use one function only if they are calls of one callee and the function gives the
value of one output, or else if the name of one callee goes on with a part of the name of an output, cut
at an underscore. -/
theorem visitSub_symbols (hd : LeftBehind (w₁.env side) pre d) (hd' : LeftBehind (w₁.env side) pre d')
    (hnew : w.nodes ≤ d.id) (hnew' : w.nodes ≤ d'.id) (hu : (w₁.env side).Uses d callee out f)
    (hu' : (w₁.env side).Uses d' callee' out' f) :
    (callee = callee' ∧ out.name = out'.name ∧ (d.Formal → d'.Formal → out = out')) ∨
      (∃ y, callee' = callee ++ "_" ++ y ∧ out.name = y ++ "_" ++ out'.name) ∨
      ∃ y, callee = callee' ++ "_" ++ y ∧ out'.name = y ++ "_" ++ out.name := by
  have hname := visitSub_names hK hw hpost h hd hnew hu
  have hname' := visitSub_names hK hw hpost h hd' hnew' hu'
  have ht := (visitSub_composed hw (.old hpost) h).1.now
  refine (glued_cases (hname.symm.trans hname')).imp_left fun ⟨hc, ho⟩ => ⟨hc, ho, fun hf hf' => ?_⟩
  exact Var.eq_of_sort ho (hu.sort ht hf) (hu'.sort ht hf')

end

/-! Two callees of different names, whose names are glued with those of their outputs to one name: the
outputs get one value. -/

def fetcher : Sub := ⟨"f", "@f", none, [⟨⟨"a_b", .word 4⟩, .output⟩], []⟩

def otherFetcher : Sub := ⟨"f_a", "@f_a", none, [⟨⟨"b", .word 4⟩, .output⟩], []⟩

def comparing : Sub where
  name := "compare"
  tid := "@compare"
  addr := none
  args := []
  blks := [
    { tid := "%first"
      phis := []
      defs := []
      jumps := [⟨.call (.direct "@f") (some (.direct "%second")), .always, "%fetch"⟩] },
    { tid := "%second"
      phis := []
      defs := []
      jumps := [⟨.call (.direct "@f_a") none, .always, "%fetch_other"⟩] }]

def clashing : World :=
  ⟨{ Env.start Arch.arm [comparing, fetcher, otherFetcher] with rules := [.argTerms] },
    Env.start Arch.arm [], 1, 0⟩

def equating : Constr :=
  .goal 0 "equated" (.eq (.const "a_b" (.bv 4)) (.const "b" (.bv 4))) none

def clash : FuncDecl := ⟨"f_a_b", [], .bv 4⟩

/-- What a call replaces that gives the value of the function to an output. -/
def fetched (flag out : String) : List (SomeTerm × SomeTerm) :=
  [(⟨.bv 4, .const out (.bv 4)⟩, ⟨.bv 4, .const clash.name (.bv 4)⟩),
    (⟨.bool, .const flag .bool⟩, ⟨.bool, .truth true⟩)]

def beforeOther : Constr := .subst 1 equating (fetched "called_f_a" "b")

def beforeBoth : Constr := .subst 2 beforeOther (fetched "called_f" "a_b")

theorem comparing_visited : Succeeds (visitSub .orig equating comparing) clashing fun pre w' =>
    pre = beforeBoth ∧
    (w'.env .orig).called = [("f_a", .const "called_f_a" .bool), ("f", .const "called_f" .bool)] ∧
    (w'.env .orig).vars = [(⟨"b", .word 4⟩, ⟨.bv 4, .const "b" (.bv 4)⟩),
      (⟨"a_b", .word 4⟩, ⟨.bv 4, .const "a_b" (.bv 4)⟩)] := by
  have hvars : sortByName comparing.vars = [] := List.mergeSort_of_pairwise (by decide)
  refine .step rfl (.enter (Graph.ofSub_chain rfl (by decide) rfl rfl rfl) hvars ?_)
  refine .step rfl (.step rfl (.step rfl (.step rfl (.restoring ?_))))
  refine .settle rfl (precond?_empty rfl ..) (.bind (.bind ?_))
  refine .settle rfl (precond?_empty rfl ..) (.step rfl (.step rfl ?_))
  refine .step rfl (.step rfl (.step rfl (.block (precond?_empty rfl ..) (.now rfl ?_))))
  dsimp only [World.setEnv, World.env, Env.addPrecond]
  refine .now rfl (.bind (.kept rfl ((precond?_insert rfl ..).trans (if_pos rfl)) (.now rfl ?_)))
  refine .step rfl (.step rfl (.step rfl ?_))
  refine .block ?_ (.now rfl ⟨rfl, rfl, rfl⟩)
  rw [precond?_insert rfl, if_neg (by decide)]
  exact Std.HashMap.getElem?_empty ..

theorem fetched_uses {callee flag out : String} (hf : e.called.lookup callee = some (.const flag .bool))
    (ho : e.vars.lookup ⟨out, .word 4⟩ = some ⟨.bv 4, .const out (.bv 4)⟩) (id : Nat) (body : Constr) :
    e.Uses (.subst id body (fetched flag out)) callee ⟨out, .word 4⟩ clash :=
  .subst hf (List.mem_cons_of_mem _ List.mem_cons_self) ho List.mem_cons_self rfl

theorem visitSub_symbols_comparing : ∃ w₁,
    visitSub .orig equating comparing clashing = .ok beforeBoth w₁ ∧
    (w₁.env .orig).Uses beforeBoth "f" ⟨"a_b", .word 4⟩ clash ∧
    (w₁.env .orig).Uses beforeOther "f_a" ⟨"b", .word 4⟩ clash ∧
    (("f" = "f_a" ∧ "a_b" = "b" ∧
        (beforeBoth.Formal → beforeOther.Formal → (⟨"a_b", .word 4⟩ : Var) = ⟨"b", .word 4⟩)) ∨
      (∃ y, "f_a" = "f" ++ "_" ++ y ∧ "a_b" = y ++ "_" ++ "b") ∨
      ∃ y, "f" = "f_a" ++ "_" ++ y ∧ "b" = y ++ "_" ++ "a_b") := by
  obtain ⟨_, w₁, h, rfl, hcalled, hvars⟩ := comparing_visited
  have hK : Constr.Register (Constr.Part equating) clashing.nodes :=
    ((Constr.Fresh.goal Nat.zero_lt_one ..).ledger (Constr.toFormula_goal ..)).register
  have hw : (clashing.env .orig).Composing (Constr.Part equating) (clashing.env .orig) :=
    ⟨⟨nofun, nofun, nofun, nofun⟩, .refl _, nofun, nofun,
      fun hc => nomatch Std.HashMap.getElem?_empty.symm.trans hc⟩
  have hu : (w₁.env .orig).Uses beforeBoth "f" ⟨"a_b", .word 4⟩ clash :=
    fetched_uses (hcalled ▸ rfl) (hvars ▸ rfl) ..
  have hu' : (w₁.env .orig).Uses beforeOther "f_a" ⟨"b", .word 4⟩ clash :=
    fetched_uses (hcalled ▸ rfl) (hvars ▸ rfl) ..
  exact ⟨w₁, h, hu, hu', visitSub_symbols hK hw .refl h ⟨_, .inl rfl, .refl⟩
    ⟨_, .inl rfl, .single List.mem_cons_self⟩ (by decide) (by decide) hu hu'⟩

end Walk

end Precond

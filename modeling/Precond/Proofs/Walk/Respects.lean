import Precond.Proofs.Env.Gives
import Precond.Proofs.Run.Readings
import Precond.Proofs.Walk.Keeps
import Precond.Proofs.Walk.Vocabulary

/-! What every change of a walk respects is respected by the walk. The changes of a walk are few: it
asks an environment for variables, flags, functions, handlers and names, all of the vocabulary that
governs the environment, it moves on, and for a while it lets a variable stand for a term. A relation
for each program that holds across these (`Walk.Changes`) holds across the walk of a subroutine,
however it ends (`Walk.respects_visitSub`). -/

namespace Precond.Walk

open IR Precond.Flow

variable {side : Side} {rules : List SideRule} {V : Vocabulary} {R : Side → Env → Env → Prop}

/-- Relations between environments, one for each program, that hold across each change of a walk of
the program on a side under side rules, with names of a vocabulary. -/
class Changes (side : Side) (rules : List SideRule) (V : Vocabulary)
    (R : Side → Env → Env → Prop) : Prop where
  refl (s : Side) (e : Env) : R s e e
  trans {s : Side} {e e₁ e₂ : Env} : R s e e₁ → R s e₁ e₂ → R s e e₂
  sideRules {e e' : Env} : R side e e' → e'.sideRules = e.sideRules
  governs {e e' : Env} : R side e e' → V.Governs e → V.Governs e'
  mkVar {v : Var} : V.var v → ∀ e : Env, R side e (ending (Env.mkVar v) e)
  getCalled (name : String) (e : Env) : R side e (ending (Env.getCalled name) e)
  declare {name : String} {ran : TSort} : V.result name ran → ∀ (dom : List TSort) (e : Env),
    R side e (ending (Env.declare name dom ran) e)
  fresh {name : String} : V.numbered name → ∀ (type : Ty) (e : Env),
    R side e (ending (Env.fresh name type) e)
  handler {s : Sub} : V.Covers s → ∀ e : Env, R side e (ending (Env.handler s) e)
  note (kind : WeakeningKind) (tid detail : String) (e : Env) :
    R side e (ending (Env.note kind tid detail) e)
  place {frame : Frame} : (∀ g, frame.graph = some g → V.CoversGraph g) →
    ∀ (e : Env) (inlining : List String) (attached : Bool), R side e { e with frame, inlining, attached }
  bound {u : Var} {t : SomeTerm} {e e₁ : Env} : R side { e with vars := Table.put e.vars u t } e₁ →
    R side e (Env.restoreVar u (e.vars.lookup u) e₁)
  /-- A read of the first program may ask for the memory of the second. -/
  offset {width : Nat} {distance : Int} : .offsetRead width distance ∈ rules →
    ∀ (v : Var) (e : Env), R .mod e (ending (Env.mkVar v) e)

/-- The environments after an action are related to those before. -/
structure Respects (side : Side) (rules : List SideRule) (V : Vocabulary) (R : Side → Env → Env → Prop)
    (x : Walk α) : Prop where
  ends {w : World} : (w.env side).sideRules = rules → V.Governs (w.env side) →
    ∀ s, R s (w.env s) ((ending x w).env s)

namespace Respects

variable [hR : Changes side rules V R] {x : Walk α} {w w₁ : World}

omit hR in
theorem of_ok (h : Respects side rules V R x) (hw : (w.env side).sideRules = rules)
    (hg : V.Governs (w.env side)) {a : α} (ha : x w = .ok a w₁) (s : Side) : R s (w.env s) (w₁.env s) :=
  ending_of_ok ha ▸ h.ends hw hg s

theorem of_envs (h : ∀ w s, (ending x w).env s = w.env s) : Respects side rules V R x :=
  ⟨fun _ _ s => by rw [h]; exact hR.refl s _⟩

theorem pure (a : α) : Respects side rules V R (Pure.pure a) := of_envs fun _ _ => rfl

theorem throw (f : Fault) : Respects side rules V R (MonadExcept.throw f : Walk α) :=
  of_envs fun _ _ => rfl

/-- What is known of a result may be used for what follows. -/
theorem seq {k : α → Walk β} {Q : α → Prop} (hx : Respects side rules V R x)
    (hQ : ∀ {w a w₁}, V.Governs (w.env side) → x w = .ok a w₁ → Q a)
    (hk : ∀ a, Q a → Respects side rules V R (k a)) : Respects side rules V R (x >>= k) := by
  refine ⟨fun {w} hw hg s => ?_⟩
  have h := hx.ends hw hg
  rw [ending] at h
  rw [ending_bind]
  cases hxw : x w with
  | error f w₁ =>
    rw [hxw] at h
    exact h s
  | ok a w₁ =>
    rw [hxw] at h
    exact hR.trans (h s) ((hk a (hQ hg hxw)).ends ((hR.sideRules (h side)).trans hw)
      (hR.governs (h side) hg) s)

theorem bind {k : α → Walk β} (hx : Respects side rules V R x) (hk : ∀ a, Respects side rules V R (k a)) :
    Respects side rules V R (x >>= k) := seq hx (fun _ _ => True.intro) fun a _ => hk a

omit hR in
theorem ite {c : Prop} [Decidable c] {x y : Walk α} (hx : Respects side rules V R x)
    (hy : Respects side rules V R y) : Respects side rules V R (if c then x else y) := by
  split
  · exact hx
  · exact hy

theorem mapM {xs : List β} {f : β → Walk α} (h : ∀ x ∈ xs, Respects side rules V R (f x)) :
    Respects side rules V R (xs.mapM f) := by
  induction xs with
  | nil => exact pure _
  | cons x xs ih =>
    rw [List.mapM_cons]
    exact bind (h x List.mem_cons_self) fun _ =>
      bind (ih fun y hy => h y (List.mem_cons_of_mem x hy)) fun _ => pure _

theorem ofExcept (x : Except Fault α) : Respects side rules V R (Walk.ofExcept x) := by
  cases x with
  | ok a => exact pure a
  | error f => exact throw f

theorem lift (x : Except Fault α) : Respects side rules V R (liftM x : Walk α) := ofExcept x

theorem present (o : Option α) : Respects side rules V R (Walk.present o) := by
  cases o with
  | some a => exact pure a
  | none => exact throw _

omit hR in
/-- What is read of the environment of the side. -/
theorem env {k : Env → Walk α}
    (h : ∀ e : Env, e.sideRules = rules → V.Governs e → Respects side rules V R (k e)) :
    Respects side rules V R (Walk.env side >>= k) :=
  ⟨fun {w} hw hg => (h (w.env side) hw hg).ends hw hg⟩

omit hR in
theorem setEnv (hR : Changes side rules V R) {s : Side} {e : Env} (h : R s (w.env s) e) (s' : Side) :
    R s' (w.env s') ((w.setEnv s e).env s') := by
  by_cases hs : s' = s
  · subst hs
    rw [World.env_setEnv]
    exact h
  · rw [World.env_setEnv_of_ne _ _ _ hs]
    exact hR.refl s' _

/-- A change of one environment. -/
theorem on {s : Side} {act : EnvM α} (h : ∀ e, R s e (ending act e)) :
    Respects side rules V R (Walk.on s act) := by
  refine ⟨fun {w} _ _ s' => ?_⟩
  have hend : ending (Walk.on s act) w = w.setEnv s (ending act (w.env s)) := by
    rw [ending, ending, Walk.on]
    cases act (w.env s) <;> rfl
  rw [hend]
  exact setEnv hR (h _) s'

theorem binding {u : Var} {t : SomeTerm} (h : Respects side rules V R x) :
    Respects side rules V R (Walk.binding side u t x) := by
  refine ⟨fun {w} hw hg s => ?_⟩
  rw [ending, binding_eq, ← ending, ending_restoring]
  have hput := h.ends (w := put w side u t) (by rw [put, World.env_setEnv]; exact hw)
    (by rw [put, World.env_setEnv]; exact hg.of_eq rfl rfl rfl rfl rfl (fun _ _ => id) fun _ => hg.graph) s
  by_cases hs : s = side
  · subst hs
    rw [put, World.env_setEnv] at hput
    rw [World.env_setEnv]
    exact hR.bound hput
  · rw [put, World.env_setEnv_of_ne _ _ _ hs] at hput
    rw [World.env_setEnv_of_ne _ _ _ hs]
    exact hput

theorem newNode : Respects side rules V R Walk.newNode := of_envs fun _ s => by cases s <;> rfl

theorem mkGoal (name : String) (value : Term .bool) (tid : Option String) :
    Respects side rules V R (Walk.mkGoal name value tid) := bind (newNode) fun _ => pure _

theorem mkClause (hyps goals : List Constr) : Respects side rules V R (Walk.mkClause hyps goals) :=
  bind (newNode) fun _ => pure _

theorem mkBranch (jump : String) (cond : Term .bool) (yes no : Constr) :
    Respects side rules V R (Walk.mkBranch jump cond yes no) := bind (newNode) fun _ => pure _

theorem substitute (c : Constr) (olds news : List SomeTerm) :
    Respects side rules V R (Walk.substitute c olds news) :=
  ite (pure _) (ite (throw _) (bind (newNode) fun _ => pure _))

theorem guard (assumes verifies : List Hook) (post : Constr) :
    Respects side rules V R (Walk.guard assumes verifies post) :=
  ite (pure _) (bind (mapM fun _ _ => mkGoal ..) fun _ =>
    bind (mapM fun _ _ => mkGoal ..) fun _ => mkClause ..)

/-! ### Translation -/

theorem getVar (u : Var) : Respects side rules V R (Walk.on side (Env.getVar u)) := by
  refine on fun e => ?_
  have h : ending (Env.getVar u) e = e := by
    rw [ending]
    cases hu : e.vars.lookup u with
    | some t => rw [Env.getVar_of_lookup hu]
    | none => rw [Env.getVar, EnvM.get_bind, hu]; rfl
  rw [h]
  exact hR.refl side e

theorem mkVar {u : Var} (hu : V.var u) : Respects side rules V R (Walk.on side (Env.mkVar u)) :=
  on (hR.mkVar hu)

theorem note (kind : WeakeningKind) (tid detail : String) :
    Respects side rules V R (Walk.on side (Env.note kind tid detail)) := on (hR.note kind tid detail)

theorem translateWith {watch : Exp → Walk (List Hook)} (hw : ∀ e, Respects side rules V R (watch e))
    (e : Exp) : Respects side rules V R (Walk.translateWith side watch e) := by
  induction e with
  | var v => exact bind (hw _) fun _ => bind (getVar v) fun _ => pure _
  | lit x => exact bind (hw _) fun _ => ite (throw _) (pure _)
  | bin op l r ihl ihr =>
    exact bind (hw _) fun _ => bind ihl fun _ => bind ihr fun _ => bind (lift _)
      fun _ => pure _
  | un op a ih | cast kind width a ih | extract hi lo a ih =>
    exact bind (hw _) fun _ => bind ih fun _ => bind (lift _) fun _ => pure _
  | load mem addr endian size ihm iha =>
    exact bind (hw _) fun _ => bind ihm fun _ => bind iha fun _ => bind (lift _)
      fun _ => pure _
  | store mem addr value endian size ihm iha ihv =>
    exact bind (hw _) fun _ => bind ihm fun _ => bind iha fun _ => bind ihv fun _ =>
      bind (lift _) fun _ => pure _
  | ite cond yes no ihc ihy ihn =>
    exact bind (hw _) fun _ => bind ihc fun _ => bind ihy fun _ => bind ihn fun _ =>
      bind (lift _) fun _ => pure _
  | concat l r ihl ihr =>
    exact bind (hw _) fun _ => bind ihl fun _ => bind (ofExcept _) fun _ =>
      bind ihr fun _ => bind (lift _) fun _ => pure _
  | letIn v value body ihv ihb =>
    exact bind (hw _) fun _ => bind ihv fun _ => bind (binding ihb) fun _ => pure _
  | unknown text type =>
    refine bind (hw _) fun _ => ?_
    refine ⟨fun hs hg => ?_⟩
    exact (bind (on (hR.fresh hg.unknown _)) fun _ => pure _).ends hs hg

theorem translate (e : Exp) : Respects side rules V R (Walk.translate side e) :=
  bind (translateWith (fun _ => pure _) e) fun _ => pure _

theorem condition (e : Exp) : Respects side rules V R (Walk.condition side e) :=
  bind (translate e) fun _ => lift _

theorem sideCondition (e : Exp) {rule : SideRule} (hr : rule ∈ rules) :
    Respects side rules V R (Walk.sideCondition side e rule) := by
  unfold Walk.sideCondition
  split
  · split
    · exact pure _
    · exact bind (translate _) fun _ => bind (lift _) fun _ => pure _
  · split
    · exact pure _
    · exact bind (translate _) fun _ => bind (lift _) fun _ => env fun _ _ _ => pure _
  · split
    · exact ite (bind (translate _) fun _ => bind (lift _) fun _ => pure _) (pure _)
    · exact pure _
  · split
    · exact bind (translate _) fun _ => bind (translate _) fun _ =>
        bind (lift _) fun _ => bind (on (hR.offset hr _)) fun _ =>
        ite (throw _) (bind (lift _) fun _ => bind (lift _) fun _ =>
          bind (lift _) fun _ => pure _)
    · exact pure _
  · exact ite (bind (condition _) fun _ => pure _) (pure _)

theorem sideConditions (e : Exp) {some : List SideRule} (hr : ∀ r ∈ some, r ∈ rules) :
    Respects side rules V R (Walk.sideConditions side some e) := by
  induction some with
  | nil => exact pure _
  | cons rule some ih =>
    exact bind (sideCondition e (hr rule List.mem_cons_self)) fun _ =>
      bind (ih fun r hr' => hr r (List.mem_cons_of_mem _ hr')) fun _ => pure _

theorem translateChecked (e : Exp) : Respects side rules V R (Walk.translateChecked side e) := by
  refine bind (of_envs fun _ s => by cases s <;> rfl) fun _ => env fun e₁ he₁ _ => ?_
  exact translateWith (fun _ => sideConditions _ fun _ hr => he₁ ▸ hr) e

/-! ### Calls -/

theorem conventional {e : Env} (hg : V.Governs e) {v : Var} (hv : v ∈ Walk.conventional e.arch) :
    Respects side rules V R (Walk.on side (Env.mkVar v)) := mkVar (hg.arch v hv)

theorem poppedSp : Respects side rules V R (Walk.poppedSp side) := by
  refine env fun e _ hg => bind (conventional hg (by simp [Walk.conventional])) fun _ =>
    bind (lift _) fun s => ?_
  cases s with
  | bv w => exact bind (lift _) fun _ => pure _
  | bool => exact throw _
  | mem => exact throw _

theorem returnEffects (callee : Sub) : Respects side rules V R (Walk.returnEffects side callee) := by
  have hrest (popped : List (SomeTerm × SomeTerm)) : Respects side rules V R (do
      let called ← Walk.on side (Env.getCalled callee.name)
      return popped ++ [(⟨_, called⟩, ⟨_, Term.truth true⟩)]) :=
    bind (on (hR.getCalled _)) fun _ => pure _
  refine env fun _ _ _ => ite (bind (poppedSp) fun _ => ?_) ?_
  · exact bind (pure _) hrest
  · exact bind (pure _) hrest

theorem replaceAll (c : Constr) (pairs : List (SomeTerm × SomeTerm)) :
    Respects side rules V R (Walk.replaceAll c pairs) := substitute ..

theorem summary {callee : Sub} {inputs outputs : List Var} (hc : V.callee callee.name)
    (hi : ∀ v ∈ inputs, V.var v) (ho : ∀ v ∈ outputs, V.var v) (post : Constr) :
    Respects side rules V R (Walk.summary side callee inputs outputs post) := by
  rw [summary_eq]
  refine bind ?_ fun _ => replaceAll ..
  refine bind (mapM fun v hv => mkVar (hi v hv)) fun _ => bind (mapM fun _ _ => ofExcept _) fun _ =>
    env fun e _ hg => bind (mapM fun out hout => ?_) fun _ => bind (returnEffects callee) fun _ => pure _
  refine seq (lift _) (fun _ h => (ofExcept_ok h).1) fun ran hran => ?_
  exact bind (on (hR.declare (hg.results hc (ho out hout) hran) _)) fun _ =>
    bind (mkVar (ho out hout)) fun _ => bind (lift _) fun _ => pure _

theorem firstArg : Respects side rules V R (Walk.firstArg side) := by
  refine env fun e _ hg => ?_
  split
  · rename_i r _ hregs
    exact conventional hg (by simp [Walk.conventional, hregs])
  · exact bind (poppedSp) fun _ => bind (conventional hg (by simp [Walk.conventional])) fun _ => lift _

theorem formula (text : String) (decls : Smt.Decls) :
    Respects side rules V R (Walk.formula text decls) := by
  unfold Walk.formula
  split
  · exact throw _
  · exact mkGoal ..
  · exact mkGoal ..

theorem contract {name : String} (callee : Sub)
    (hn : ∀ r, V.var r → V.numbered (name ++ "_" ++ r.name)) (pre post : String) (after : Constr) :
    Respects side rules V R (Walk.contract side callee name pre post after) := by
  refine env fun e _ hg => bind (mapM fun r hr => bind (conventional hg (by simp [Walk.conventional, hr]))
    fun _ => pure _) fun current => ?_
  refine bind (mapM fun r hr => bind (on (hR.fresh (hn r (hg.arch r
    (by simp [Walk.conventional, hr]))) _)) fun _ => pure _) fun chaos => ?_
  refine bind (formula ..) fun subPre => bind (formula ..) fun subPost => ?_
  refine bind (mapM fun r _ => present _) fun olds => bind (substitute ..) fun chaosed => ?_
  exact bind (returnEffects callee) fun _ => bind (replaceAll ..) fun _ =>
    bind (mkClause ..) fun _ => mkClause ..

theorem summarize {rule : CallRule} {callee : Sub} (hc : V.Covers callee)
    (hr : V.Serves callee.name rule) (post : Constr) (tid : String) :
    Respects side rules V R (Walk.summarize side rule callee post tid) := by
  have hargs (intents : List Intent) : ∀ v ∈ withIntents callee intents, V.var v := by
    intro v hv
    obtain ⟨a, ha, rfl⟩ := List.mem_map.mp hv
    exact hc.vars _ (List.mem_eraseDups.mpr (List.mem_append_left _
      (List.mem_map_of_mem (List.mem_of_mem_filter ha))))
  refine env fun e _ hg => ?_
  have hreg {v : Var} (hv : v ∈ Walk.conventional e.arch) : V.var v := hg.arch v hv
  cases rule with
  | verifierError => exact mkGoal ..
  | verifierAssume =>
    exact bind (firstArg) fun _ => bind (lift _) fun _ => bind (mkGoal ..) fun _ =>
      mkClause ..
  | verifierNondet =>
    dsimp only
    split
    · exact throw _
    · rename_i ret hret
      exact bind (on (hR.fresh hr _)) fun _ =>
        bind (conventional hg (by simp [Walk.conventional, hret])) fun _ => substitute ..
  | empty => exact bind (on (hR.getCalled _)) fun _ => substitute ..
  | argTerms => exact summary hc.name (hargs _) (hargs _) _
  | raxOut | chaosRax =>
    dsimp only
    split
    · exact throw _
    · rename_i ret hret
      refine env fun _ _ hg' => summary hc.name hg'.inputRegs (fun v hv => ?_) _
      rw [List.mem_singleton.mp hv]
      exact hreg (by simp [Walk.conventional, hret])
  | chaosCallerSaved =>
    exact env fun _ _ hg' => summary hc.name hg'.inputRegs
      (fun v hv => hreg (by simp [Walk.conventional, hv])) _
  | contract => exact contract callee hr ..
  | default | inline => exact bind (returnEffects callee) fun _ => replaceAll ..

/-! ### Blocks -/

theorem assign (post : Constr) {lhs : Var} (hl : V.var lhs) (rhs : Exp) :
    Respects side rules V R (Walk.assign side post lhs rhs) :=
  bind (translateChecked rhs) fun _ => bind (mkVar hl) fun _ => ite (throw _)
    (bind (guard ..) fun _ => bind (substitute ..) fun _ => guard ..)

theorem visitPhi (post : Constr) {p : Phi} (hp : V.var p.lhs) :
    Respects side rules V R (Walk.visitPhi side post p) := by
  refine env fun e _ _ => ?_
  split
  · exact assign _ hp _
  · exact bind (note ..) fun _ => assign _ hp _

theorem targetPre (l : Label) (default : Constr) :
    Respects side rules V R (Walk.targetPre side l default) := by
  cases l with
  | direct => exact env fun _ _ _ => pure _
  | indirect => exact pure _

theorem returnPre (post : Constr) : Respects side rules V R (Walk.returnPre side post) :=
  env fun _ _ _ => pure _

/-- Another place in the program. -/
def Moves (V : Vocabulary) (f : Env → Env) : Prop :=
  ∀ e : Env, V.Governs e → ∃ frame inlining attached, f e = { e with frame, inlining, attached } ∧
    ∀ g, frame.graph = some g → V.CoversGraph g

theorem move {f : Env → Env} (h : Moves V f) : Respects side rules V R (Walk.modifyEnv side f) := by
  refine ⟨fun {w} _ hg => ?_⟩
  obtain ⟨frame, inlining, attached, he, hf⟩ := h _ hg
  have hend : ending (Walk.modifyEnv side f) w = w.setEnv side (f (w.env side)) := rfl
  rw [hend, he]
  exact setEnv hR (hR.place hf ..)

theorem returning {f : Env → Env} (h : Moves V f) (hx : Respects side rules V R x) :
    Respects side rules V R (Walk.restoring side f x) := by
  refine ⟨fun hw hg s => ?_⟩
  rw [ending_restoring]
  have hend := hx.ends hw hg
  obtain ⟨frame, inlining, attached, he, hf⟩ := h _ (hR.governs (hend side) hg)
  rw [he]
  exact hR.trans (hend s) (setEnv hR (hR.place hf ..) s)

theorem handled {callee : Sub} (hc : V.Covers callee) {k : Handler → Walk α}
    (hk : ∀ h : Handler, V.Covers h.callee → V.Serves h.callee.name h.rule →
      Respects side rules V R (k h)) : Respects side rules V R (Walk.on side (Env.handler callee) >>= k) := by
  refine seq (on (hR.handler hc)) (Q := fun h => V.Covers h.callee ∧ V.Serves h.callee.name h.rule)
    (fun {w h w₁} hg hh => ?_) fun h hh => hk h hh.1 hh.2
  obtain ⟨e, he, rfl⟩ := on_ok hh
  exact hg.handler hc he

variable {expand : Expand} (hx : ∀ post c, V.Covers c → Respects side rules V R (expand side post c))

include hx

theorem inlineCall {callee : Sub} (hc : V.Covers callee) (after : Constr) (tid : String) :
    Respects side rules V R (Walk.inlineCall expand side callee after tid) := by
  have hstay {f : Env → Env} (h : ∀ e, ∃ inlining, f e = { e with inlining }) : Moves V f := fun e hg =>
    let ⟨inlining, he⟩ := h e
    ⟨e.frame, inlining, e.attached, he, fun _ => hg.graph⟩
  unfold Walk.inlineCall
  refine ite (bind (note ..) fun _ => pure _) (env fun e _ _ => ite ?_ ?_)
  · refine bind (note ..) fun _ => env fun e _ hg => ?_
    split
    · exact summarize hc (hg.fallback hc ‹_›) ..
    · exact throw _
  · refine bind (move (hstay fun e => ⟨_, rfl⟩)) fun _ => returning (hstay fun e => ⟨_, rfl⟩) ?_
    refine env fun e _ hg => bind (move fun e' hg' => ?_) fun _ => returning (fun e' hg' => ?_) (hx _ _ hc)
    · exact ⟨_, _, _, rfl, fun _ => hg.graph⟩
    · exact ⟨_, _, _, rfl, fun _ => hg.graph⟩

theorem called (after : Constr) (tid : String) {target : Label}
    (ht : ∀ name, target = .direct name → V.callee (unknownCallee name).name) :
    Respects side rules V R (Walk.called expand side after tid target) := by
  cases target with
  | indirect => exact bind (note ..) fun _ => pure _
  | direct name =>
    have hhandled {callee : Sub} (hc : V.Covers callee) :
        Respects side rules V R (dispatch expand side after tid callee) := by
      refine handled hc fun h hh hr => ?_
      split
      · exact inlineCall hx hc ..
      · exact summarize hh hr ..
    refine env fun e _ hg => ?_
    split
    · rename_i s hs
      refine seq (pure _) (Q := V.Covers) (fun _ h => ?_) fun c hc => hhandled hc
      cases h
      exact hg.subs _ (List.mem_of_find?_eq_some hs)
    · refine bind (note ..) fun _ => seq (pure _) (Q := V.Covers) (fun _ h => ?_) fun c hc => hhandled hc
      cases h
      exact .unknownCallee (ht name rfl)

theorem visitJump (post : Constr) {j : Jump}
    (hj : ∀ tid ret, j.kind = .call (.direct tid) ret → V.callee (unknownCallee tid).name) :
    Respects side rules V R (Walk.visitJump expand side post j) := by
  have hcall (post : Constr) {target : Label} {ret : Option Label} (hk : j.kind = .call target ret) :
      Respects side rules V R (Walk.visitCall expand side post j.tid target ret) := by
    have ht (name : String) (h : target = .direct name) : V.callee (unknownCallee name).name :=
      hj name ret (h ▸ hk)
    cases ret with
    | none => exact bind (returnPre post) fun after => called hx after j.tid ht
    | some l => exact bind (targetPre l post) fun after => called hx after j.tid ht
  have hpre : Respects side rules V R (Walk.jumpPre expand side post j) := by
    unfold Walk.jumpPre
    split
    · exact bind (note ..) fun _ => pure _
    · exact targetPre ..
    · exact hcall _ ‹_›
    · exact returnPre ..
    · exact targetPre ..
  refine env fun e _ _ => ?_
  split
  · exact bind (condition _) fun _ => ite
      (bind (targetPre ..) fun _ => bind (mkGoal ..) fun _ => mkClause ..)
      (bind (mkGoal ..) fun _ => mkClause ..)
  · exact bind hpre fun _ => ite (pure _) (bind (translateChecked _) fun _ =>
      bind (lift _) fun _ => bind (mkBranch ..) fun _ => guard ..)

theorem visitElts (post : Constr) {b : Blk} (hb : V.CoversBlk b) {es : List Elt}
    (hes : ∀ e ∈ es, e ∈ b.elts) : Respects side rules V R (Walk.visitElts expand side post es) := by
  induction es with
  | nil => exact pure _
  | cons e es ih =>
    refine bind (ih fun e he => hes e (List.mem_cons_of_mem _ he)) fun pre => ?_
    have he := hes e List.mem_cons_self
    have hvars := hb.elt he
    cases e with
    | define d => exact assign _ (hvars _ List.mem_cons_self) _
    | phi p => exact visitPhi _ (hvars _ List.mem_cons_self)
    | jump j => exact visitJump hx _ (hb.calls j (Blk.mem_jumps he))

theorem visitBlock (post : Constr) {b : Blk} (hb : V.CoversBlk b) :
    Respects side rules V R (Walk.visitBlock expand side post b) := by
  refine env fun e _ _ => ?_
  split
  · exact pure _
  · exact bind (move fun e hg => ⟨_, _, _, rfl, fun _ => hg.graph⟩) fun _ =>
      bind (visitElts hx _ hb fun _ => id) fun _ =>
        bind (move fun e hg => ⟨_, _, _, rfl, fun _ => hg.graph⟩) fun _ => pure _

omit hx

/-! ### Copies of blocks -/

variable {settle : Settle} (hsettle : ∀ post t u, Respects side rules V R (settle side post t u))

include hsettle

theorem settleForward (g : Graph) (post : Constr) (u : Unroll) (succs : List String) :
    Respects side rules V R (Walk.settleForward settle side g post u succs) := by
  induction succs with
  | nil => exact pure _
  | cons s succs ih => exact bind (hsettle ..) fun _ => ih

theorem successorPres (g : Graph) (post : Constr) (t : String) (u : Unroll) (succs : List String) :
    Respects side rules V R (Walk.successorPres settle side g post t u succs) := by
  induction succs with
  | nil => exact pure _
  | cons s succs ih =>
    have hloop : Respects side rules V R (Walk.loopPre settle side post s u) :=
      env fun _ _ _ => ite (bind (note ..) fun _ => mkGoal ..) (hsettle ..)
    rw [Walk.successorPres]
    split
    · exact bind hloop fun _ => bind ih fun _ => pure _
    · exact env fun _ _ _ => bind (present _) fun _ => bind ih fun _ => pure _

theorem settleBlock (hx : ∀ post c, V.Covers c → Respects side rules V R (expand side post c))
    {g : Graph} (hg : V.CoversGraph g) (post : Constr) (t : String) (u : Unroll) :
    Respects side rules V R (Walk.settleBlock settle expand side g post t u) := by
  have htrailing (targets : Table String Constr) : Respects side rules V R (Walk.trailing side g targets t) := by
    unfold Walk.trailing
    split
    · exact present _
    · exact env fun _ _ _ => present _
  refine bind (successorPres hsettle ..) fun targets => bind (htrailing _) fun after => ?_
  refine seq (present _) (Q := V.CoversBlk) (fun _ h => hg _ _ (present_ok h).1) fun b hb => ?_
  exact bind (move fun e he => ⟨_, _, _, rfl, fun _ => he.graph⟩) fun _ => visitBlock hx _ hb

omit hsettle in
theorem bindVars {s : Sub} (hs : V.Covers s) : Respects side rules V R (Walk.bindVars side s) := by
  have hcovered : ∀ v ∈ sortByName s.vars, V.var v := fun v hv =>
    hs.vars v (List.mem_mergeSort.mp hv)
  unfold Walk.bindVars
  generalize sortByName s.vars = vs at hcovered
  induction vs with
  | nil => exact pure _
  | cons v vs ih =>
    simp only [List.forIn_cons, bind_assoc, pure_bind]
    exact bind (mkVar (hcovered v List.mem_cons_self)) fun _ =>
      ih fun u hu => hcovered u (List.mem_cons_of_mem _ hu)

theorem enterSub (post : Constr) {s : Sub} (hs : V.Covers s) :
    Respects side rules V R (Walk.enterSub settle side post s) := by
  rw [enterSub_eq]
  refine bind (move fun e hg => ⟨_, _, _, rfl, fun _ => hg.graph⟩) fun _ => ?_
  refine seq (lift _) (fun _ h => (ofExcept_ok h).1) fun g hg => ?_
  have hgraph := hs.graph hg
  refine bind (bindVars hs) fun _ => env fun e _ hge =>
    bind (move fun e' _ => ⟨_, _, _, rfl, fun g' hg' => ?_⟩) fun _ => ?_
  · cases hg'
    exact hgraph
  · exact returning (fun e' _ => ⟨_, _, _, rfl, fun _ => hge.graph⟩) (hsettle ..)

omit hsettle

theorem settleNode (n : Nat) (post : Constr) (t : String) (u : Unroll) :
    Respects side rules V R (Walk.settleNode n side post t u) := by
  induction n generalizing post t u with
  | zero => exact throw _
  | succ n ih =>
    refine env fun e _ hg => ?_
    refine seq (present _) (Q := V.CoversGraph) (fun _ h => ?_) fun g hgraph => env fun e _ _ => ?_
    · exact hg.graph (present_ok h).1
    · split
      · exact pure _
      · exact bind (settleForward ih ..) fun _ => settleBlock ih (fun _ _ hc => enterSub ih _ hc) hgraph ..

end Respects

/-- The walk of a subroutine respects what its changes do. -/
theorem respects_visitSub [Changes side rules V R] (post : Constr) {s : Sub} (hs : V.Covers s) :
    Respects side rules V R (visitSub side post s) :=
  .env fun _ _ _ => .enterSub (.settleNode _) post hs

/-! ### What walks respect -/

theorem sideRules_ending {act : EnvM α} (h : ∀ e : Env, Env.Steady (.any fun _ => e.policy) .orig act)
    (e : Env) : (ending act e).sideRules = e.sideRules := by
  have hpolicy := congrArg Env.sideRules (Env.Steady.policy h e)
  exact hpolicy

/-- The program on the side keeps its side rules, and the other program stays as it is. -/
def Aside (side s : Side) (e e' : Env) : Prop := if s = side then e'.sideRules = e.sideRules else e' = e

/-- Both programs keep their side rules, and new constants are given for what they stand for. -/
def Granting (_ : Side) (e e' : Env) : Prop := e'.sideRules = e.sideRules ∧ e.Gives e'

theorem changes_aside (hr : ∀ r ∈ rules, r.isLocal) : Changes side rules .any (Aside side) where
  refl s e := by unfold Aside; split <;> rfl
  trans {s e e₁ e₂} h₁ h₂ := by
    unfold Aside at h₁ h₂ ⊢
    split
    · rename_i hs
      rw [if_pos hs] at h₁ h₂
      exact h₂.trans h₁
    · rename_i hs
      rw [if_neg hs] at h₁ h₂
      exact h₂.trans h₁
  sideRules h := by rwa [Aside, if_pos rfl] at h
  governs _ _ := .any _
  mkVar _ e := (if_pos rfl).mpr (sideRules_ending (fun _ => .mkVar _) e)
  getCalled name e := (if_pos rfl).mpr (sideRules_ending (fun _ => .getCalled name) e)
  declare _ dom e := (if_pos rfl).mpr (sideRules_ending (fun _ => .declare _ dom _) e)
  fresh _ type e := (if_pos rfl).mpr (sideRules_ending (fun _ => .fresh True.intro _ type) e)
  handler _ e := (if_pos rfl).mpr (sideRules_ending (fun _ => .handler fun _ _ => True.intro) e)
  note kind tid detail e := (if_pos rfl).mpr (sideRules_ending (fun _ => .note kind tid detail) e)
  place _ e inlining attached := (if_pos rfl).mpr rfl
  bound h := by
    rw [Aside, if_pos rfl] at h ⊢
    rw [Env.restoreVar_vars]
    exact h
  offset hm := absurd (hr _ hm) nofun

instance changes_granting : Changes side rules .any Granting where
  refl _ e := ⟨rfl, .refl e⟩
  trans h₁ h₂ := ⟨h₂.1.trans h₁.1, h₁.2.trans h₂.2⟩
  sideRules h := h.1
  governs _ _ := .any _
  mkVar _ e := ⟨sideRules_ending (fun _ => .mkVar _) e, .mkVar _ e⟩
  getCalled name e := ⟨sideRules_ending (fun _ => .getCalled name) e, .getCalled name e⟩
  declare _ dom e := ⟨sideRules_ending (fun _ => .declare _ dom _) e, .declare _ dom _ e⟩
  fresh _ type e := ⟨sideRules_ending (fun _ => .fresh True.intro _ type) e, .fresh _ type e⟩
  handler _ e := ⟨sideRules_ending (fun _ => .handler fun _ _ => True.intro) e, .handler _ e⟩
  note kind tid detail e := ⟨sideRules_ending (fun _ => .note kind tid detail) e, .note kind tid detail e⟩
  place _ e inlining attached := ⟨rfl, .of_eq rfl rfl rfl rfl rfl rfl⟩
  bound {u t e e₁} h := by
    refine ⟨?_, h.2.restoreVar⟩
    rw [Env.restoreVar_vars]
    exact h.1
  offset _ v e := ⟨sideRules_ending (fun _ => .mkVar v) e, .mkVar v e⟩

variable {w w₁ : World} {post c : Constr} {s : Sub}

/-- Under local side rules the walk of one program leaves the other one as it is. -/
theorem visitSub_other (hr : ∀ r ∈ (w.env side).sideRules, r.isLocal)
    (h : visitSub side post s w = .ok c w₁) {side' : Side} (hs : side' ≠ side) :
    w₁.env side' = w.env side' := by
  have : Changes side _ .any (Aside side) := changes_aside hr
  have haside := (respects_visitSub (R := Aside side) post (.any s)).of_ok rfl (.any _) h side'
  rwa [Aside, if_neg hs] at haside

/-- The constants of walked programs are ones that they have given. -/
theorem visitSub_gives (side : Side) (post : Constr) (s : Sub) (w : World) (side' : Side) :
    (w.env side').Gives ((ending (visitSub side post s) w).env side') :=
  ((respects_visitSub (R := Granting) post (.any s)).ends rfl (.any _) side').2

end Precond.Walk

import Precond.Proofs.Env.Verbatim
import Precond.Proofs.Exact.Cache

/-! Two walks of a subroutine on the same side and under the same policies, with unroll bounds of their
own (`Lanes`). Names are as they are, and the rules for calls have been chosen, so that whatever each of the
walks has come by, both get the same terms for the same expressions (`Lanes.Both.translateChecked`). -/

namespace Precond

open IR Precond.Flow Walk

/-- Two walks that draw no names, with the unroll bounds `bound` and `bound'`. The rules for the calls of
the subroutines that they walk have been chosen. -/
structure Lanes where
  side : Side
  policy : Env
  bound : Int
  bound' : Int
  body : Sub → Prop
  rules : Table String Handler
  sideRules : r ∈ policy.sideRules → r.known
  elts : body s → b ∈ s.blks → e ∈ b.elts → e.known
  handled : body s → s.CallsTo name → ∃ h, rules.lookup (policy.callee name).tid = some h ∧ h.rule.quiet ∧
    ∀ tids, h.rule = .inline tids →
      body (policy.callee name) ∧ ∀ r, policy.fallback = some r → r.quiet

namespace Lanes

/-- The worlds of the two walks, where the variables `B` stand for other terms for a while and the frames
are related by `F`. -/
structure Alongside (L : Lanes) (B : Side → List Var) (F : Frame → Frame → Prop) (w w' : World) : Prop where
  envs (side : Side) : (w.env side).Paired (B side) (w'.env side)
  policy : (w.env L.side).policy = L.policy
  inlining : (w'.env L.side).inlining = (w.env L.side).inlining
  rules : (w.env L.side).handlers = L.rules
  rules' : (w'.env L.side).handlers = L.rules
  bound : (w.env L.side).unrollBound = L.bound
  bound' : (w'.env L.side).unrollBound = L.bound'
  frame : F (w.env L.side).frame (w'.env L.side).frame

/-- Where both actions succeed, their results are related, and the walks are alongside each other still. -/
structure Both (L : Lanes) (B : Side → List Var) (F : Frame → Frame → Prop) (A : α → β → Prop)
    (x : Walk α) (x' : Walk β) : Prop where
  run {w w' w₁ w₁' : World} {a : α} {b : β} : L.Alongside B F w w' → x w = .ok a w₁ → x' w' = .ok b w₁' →
    A a b ∧ L.Alongside B F w₁ w₁'

variable {L : Lanes} {B : Side → List Var} {F : Frame → Frame → Prop} {w w' w₁ w₁' : World} {side : Side}
  {e e' e₁ e₁' : Env}

/-! ### Worlds -/

namespace Alongside

/-- One of the environments is changed in both walks. -/
theorem setEnv (h : L.Alongside B F w w') (he : e.Paired (B side) e') (hs : (w.env side).Remains e)
    (hs' : (w'.env side).Remains e') : L.Alongside B F (w.setEnv side e) (w'.setEnv side e') := by
  have henvs (s : Side) : ((w.setEnv side e).env s).Paired (B s) ((w'.setEnv side e').env s) ∧
      (w.env s).Remains ((w.setEnv side e).env s) ∧ (w'.env s).Remains ((w'.setEnv side e').env s) := by
    by_cases hside : s = side
    · subst hside
      rw [World.env_setEnv, World.env_setEnv]
      exact ⟨he, hs, hs'⟩
    · rw [World.env_setEnv_of_ne _ _ _ hside, World.env_setEnv_of_ne _ _ _ hside]
      exact ⟨h.envs s, ⟨rfl, rfl, rfl, rfl, rfl⟩, ⟨rfl, rfl, rfl, rfl, rfl⟩⟩
  obtain ⟨-, hl, hr⟩ := henvs L.side
  exact {
    envs := fun s => (henvs s).1
    policy := hl.policy.trans h.policy
    inlining := hr.inlining.trans (h.inlining.trans hl.inlining.symm)
    rules := hl.handlers.trans h.rules
    rules' := hr.handlers.trans h.rules'
    bound := hl.unrollBound.trans h.bound
    bound' := hr.unrollBound.trans h.bound'
    frame := by
      rw [hl.frame, hr.frame]
      exact h.frame }

/-- The walks are at other places. -/
theorem moved {G : Frame → Frame → Prop} (h : L.Alongside B F w w') (he : e.core = (w.env L.side).core)
    (he' : e'.core = (w'.env L.side).core) (hi : e'.inlining = e.inlining)
    (hb : e.unrollBound = (w.env L.side).unrollBound) (hb' : e'.unrollBound = (w'.env L.side).unrollBound)
    (hf : G e.frame e'.frame) : L.Alongside B G (w.setEnv L.side e) (w'.setEnv L.side e') where
  envs s := by
    by_cases hside : s = L.side
    · subst hside
      rw [World.env_setEnv, World.env_setEnv]
      exact (h.envs _).moved he he'
    · rw [World.env_setEnv_of_ne _ _ _ hside, World.env_setEnv_of_ne _ _ _ hside]
      exact h.envs s
  policy := by
    rw [World.env_setEnv]
    exact (Env.Before.of_core he).policy.trans h.policy
  inlining := by rw [World.env_setEnv, World.env_setEnv, hi]
  rules := by
    rw [World.env_setEnv, Env.eq_of_core he]
    exact h.rules
  rules' := by
    rw [World.env_setEnv, Env.eq_of_core he']
    exact h.rules'
  bound := by rw [World.env_setEnv, hb, h.bound]
  bound' := by rw [World.env_setEnv, hb', h.bound']
  frame := by
    rw [World.env_setEnv, World.env_setEnv]
    exact hf

theorem mono {G : Frame → Frame → Prop} (h : L.Alongside B F w w')
    (hf : F (w.env L.side).frame (w'.env L.side).frame → G (w.env L.side).frame (w'.env L.side).frame) :
    L.Alongside B G w w' := { h with frame := hf h.frame }

/-- Only environments matter. -/
theorem congr (h : L.Alongside B F w w') (hw : ∀ s, w₁.env s = w.env s) (hw' : ∀ s, w₁'.env s = w'.env s) :
    L.Alongside B F w₁ w₁' where
  envs s := by
    rw [hw, hw']
    exact h.envs s
  policy := by rw [hw, h.policy]
  inlining := by rw [hw, hw', h.inlining]
  rules := by rw [hw, h.rules]
  rules' := by rw [hw', h.rules']
  bound := by rw [hw, h.bound]
  bound' := by rw [hw', h.bound']
  frame := by
    rw [hw, hw']
    exact h.frame

end Alongside

namespace Both

variable {A : α → β → Prop} {C : γ → δ → Prop} {x : Walk α} {x' : Walk β} {k : α → Walk γ} {k' : β → Walk δ}

theorem pure {a : α} {b : β} (h : A a b) : L.Both B F A (Pure.pure a) (Pure.pure b) := by
  refine ⟨fun hw ha hb => ?_⟩
  cases ha
  cases hb
  exact ⟨h, hw⟩

theorem throw (f : Fault) : L.Both B F A (MonadExcept.throw f) x' := ⟨fun _ ha => nomatch ha⟩

theorem bind (hx : L.Both B F A x x') (hk : ∀ a b, A a b → L.Both B F C (k a) (k' b)) :
    L.Both B F C (x >>= k) (x' >>= k') := by
  refine ⟨fun hw hc hd => ?_⟩
  obtain ⟨a, w₁, ha, h₁⟩ := bind_ok hc
  obtain ⟨b, w₁', hb, h₁'⟩ := bind_ok hd
  obtain ⟨hA, hw₁⟩ := hx.run hw ha hb
  exact (hk a b hA).run hw₁ h₁ h₁'

/-- What gives the same, and then more. -/
theorem after {x' : Walk α} {k' : α → Walk δ} (hx : L.Both B F Eq x x')
    (hk : ∀ a, L.Both B F C (k a) (k' a)) : L.Both B F C (x >>= k) (x' >>= k') :=
  hx.bind fun a _ h => h ▸ hk a

theorem ite {p : Prop} [Decidable p] {y : Walk α} {y' : Walk β} (hx : L.Both B F A x x')
    (hy : L.Both B F A y y') : L.Both B F A (if p then x else y) (if p then x' else y') := by
  split
  · exact hx
  · exact hy

theorem mono {A' : α → β → Prop} (h : L.Both B F A x x') (hA : ∀ a b, A a b → A' a b) :
    L.Both B F A' x x' := ⟨fun hw ha hb => (h.run hw ha hb).imp_left (hA _ _)⟩

/-- Actions that make constraints only, if that. -/
theorem makes {P : α → Prop} {Q : β → Prop} (hx : ∀ {w a w₁}, x w = .ok a w₁ → (∀ s, w₁.env s = w.env s) ∧ P a)
    (hx' : ∀ {w b w₁}, x' w = .ok b w₁ → (∀ s, w₁.env s = w.env s) ∧ Q b)
    (hA : ∀ a b, P a → Q b → A a b) : L.Both B F A x x' :=
  ⟨fun hw ha hb => ⟨hA _ _ (hx ha).2 (hx' hb).2, hw.congr (hx ha).1 (hx' hb).1⟩⟩

theorem lifts {y : Except Fault α} {y' : Except Fault β} (h : ∀ a b, y = .ok a → y' = .ok b → A a b) :
    L.Both B F A (liftM y) (liftM y') := by
  refine ⟨fun hw ha hb => ?_⟩
  obtain ⟨hy, rfl⟩ := ofExcept_ok ha
  obtain ⟨hy', rfl⟩ := ofExcept_ok hb
  exact ⟨h _ _ hy hy', hw⟩

theorem ofExcept (y : Except Fault α) : L.Both B F Eq (Walk.ofExcept y) (Walk.ofExcept y) :=
  lifts fun _ _ ha hb => Except.ok.inj (ha.symm.trans hb)

theorem lift (y : Except Fault α) : L.Both B F Eq (liftM y : Walk α) (liftM y : Walk α) := ofExcept y

theorem present {o : Option α} {o' : Option β} (h : Option.Rel A o o') :
    L.Both B F A (Walk.present o) (Walk.present o') := by
  cases h with
  | some h => exact pure h
  | none => exact throw _

theorem mapM {f : γ → Walk α} {f' : γ → Walk β} {xs : List γ} (h : ∀ y, L.Both B F A (f y) (f' y)) :
    L.Both B F (List.Forall₂ A) (xs.mapM f) (xs.mapM f') := by
  induction xs with
  | nil => exact pure .nil
  | cons y ys ih =>
    rw [List.mapM_cons, List.mapM_cons]
    exact (h y).bind fun _ _ ha => ih.bind fun _ _ has => pure (.cons ha has)

theorem mapM_same {f f' : γ → Walk α} {xs : List γ} (h : ∀ y, L.Both B F Eq (f y) (f' y)) :
    L.Both B F Eq (xs.mapM f) (xs.mapM f') :=
  (mapM h).mono fun _ _ h => List.forall₂_eq_eq_eq ▸ h

/-- What is read of the environments. -/
theorem env {k : Env → Walk α} {k' : Env → Walk β} (h : ∀ e e', e.Paired (B L.side) e' → e.policy = L.policy →
    e'.inlining = e.inlining → e.unrollBound = L.bound → e'.unrollBound = L.bound' → F e.frame e'.frame →
    L.Both B F A (k e) (k' e')) : L.Both B F A (Walk.env L.side >>= k) (Walk.env L.side >>= k') :=
  ⟨fun hw ha hb => (h _ _ (hw.envs _) hw.policy hw.inlining hw.bound hw.bound' hw.frame).run hw ha hb⟩

/-- What is read of the environments are policies. -/
theorem policy {k : Env → Walk α} {k' : Env → Walk β} (h : L.Both B F A (k L.policy) (k' L.policy))
    (hk : ∀ e : Env, k e = k e.policy) (hk' : ∀ e : Env, k' e = k' e.policy) :
    L.Both B F A (Walk.env L.side >>= k) (Walk.env L.side >>= k') := by
  refine env fun e e' hp hpolicy _ _ _ _ => ?_
  rw [hk, hk', hp.policy, hpolicy]
  exact h

theorem on {act : EnvM α} {act' : EnvM β} (h : ∀ {e e' e₁ e₁' a b}, e.Paired (B side) e' →
    (side = L.side → e.policy = L.policy) → act e = .ok a e₁ → act' e' = .ok b e₁' →
    A a b ∧ e₁.Paired (B side) e₁' ∧ e.Remains e₁ ∧ e'.Remains e₁') :
    L.Both B F A (Walk.on side act) (Walk.on side act') := by
  refine ⟨fun hw ha hb => ?_⟩
  obtain ⟨e₁, he, rfl⟩ := on_ok ha
  obtain ⟨e₁', he', rfl⟩ := on_ok hb
  obtain ⟨hA, hp, hs, hs'⟩ := h (hw.envs side) (fun hside => hside ▸ hw.policy) he he'
  exact ⟨hA, hw.setEnv hp hs hs'⟩

theorem note (kind kind' : WeakeningKind) (tid tid' detail detail' : String) :
    L.Both B F Eq (Walk.on side (Env.note kind tid detail)) (Walk.on side (Env.note kind' tid' detail')) := by
  refine on fun hp _ ha hb => ?_
  obtain rfl := Env.note_ok ha
  obtain rfl := Env.note_ok hb
  exact ⟨rfl, hp.moved rfl rfl, ⟨rfl, rfl, rfl, rfl, rfl⟩, ⟨rfl, rfl, rfl, rfl, rfl⟩⟩

/-- The rule for a call has been chosen. -/
theorem handler {s : Sub} {h : Handler} (hl : L.rules.lookup s.tid = some h) :
    L.Both B F (fun a b => a = h ∧ b = h) (Walk.on L.side (Env.handler s))
      (Walk.on L.side (Env.handler s)) := by
  refine ⟨fun {w w' _ _ _ _} hw ha hb => ?_⟩
  have hgiven {w w₁ : World} {a : Handler} (hr : (w.env L.side).handlers = L.rules)
      (ha : Walk.on L.side (Env.handler s) w = .ok a w₁) : a = h ∧ ∀ side, w₁.env side = w.env side := by
    obtain ⟨e, he, rfl⟩ := on_ok ha
    cases (Env.handler_of_lookup (hr ▸ hl)).symm.trans he
    exact ⟨rfl, fun side => by rw [World.setEnv_env]⟩
  obtain ⟨ha, henv⟩ := hgiven hw.rules ha
  obtain ⟨hb, henv'⟩ := hgiven hw.rules' hb
  exact ⟨⟨ha, hb⟩, hw.congr henv henv'⟩

/-- A variable stands for the same in both walks, and for a constant unless it stands for another term for
a while. -/
theorem mkVar (v : Var) : L.Both B F (fun t t' => t' = t ∧ (v ∉ B side → t.IsConst))
    (Walk.on side (Env.mkVar v)) (Walk.on side (Env.mkVar v)) := by
  refine on fun hp _ ha hb => ?_
  obtain ⟨ht, hown, hp₁, hs, hs'⟩ := hp.mkVar ha hb
  exact ⟨⟨ht, fun hv => (hown hv).isConst⟩, hp₁, hs, hs'⟩

theorem mkVar_same (v : Var) :
    L.Both B F Eq (Walk.on side (Env.mkVar v)) (Walk.on side (Env.mkVar v)) :=
  (mkVar v).mono fun _ _ h => h.1.symm

theorem getVar (v : Var) : L.Both B F Eq (Walk.on side (Env.getVar v)) (Walk.on side (Env.getVar v)) := by
  refine on fun hp _ ha hb => ?_
  obtain ⟨ht, rfl, rfl⟩ := hp.getVar ha hb
  exact ⟨ht.symm, hp, ⟨rfl, rfl, rfl, rfl, rfl⟩, ⟨rfl, rfl, rfl, rfl, rfl⟩⟩

/-- A variable stands for a term while something is done. -/
theorem binding {v : Var} {t : SomeTerm}
    (h : L.Both (Function.update B L.side (v :: B L.side)) F A x x') :
    L.Both B F A (Walk.binding L.side v t x) (Walk.binding L.side v t x') := by
  refine ⟨fun {w w' _ _ a b} hw ha hb => ?_⟩
  rw [binding_eq] at ha hb
  obtain ⟨w₂, hx, rfl⟩ := restoring_ok ha
  obtain ⟨w₂', hx', rfl⟩ := restoring_ok hb
  have hput : L.Alongside (Function.update B L.side (v :: B L.side)) F (put w L.side v t)
      (put w' L.side v t) := by
    refine ⟨fun s => ?_, ?_, ?_, ?_, ?_, ?_, ?_, ?_⟩
    · by_cases hs : s = L.side
      · subst hs
        rw [put, put, World.env_setEnv, World.env_setEnv, Function.update_self]
        exact (hw.envs _).put v t
      · rw [put, put, World.env_setEnv_of_ne _ _ _ hs, World.env_setEnv_of_ne _ _ _ hs,
          Function.update_of_ne hs]
        exact hw.envs s
    all_goals simp only [put, World.env_setEnv]
    · exact hw.policy
    · exact hw.inlining
    · exact hw.rules
    · exact hw.rules'
    · exact hw.bound
    · exact hw.bound'
    · exact hw.frame
  obtain ⟨hA, h₂⟩ := h.run hput hx hx'
  have hrestored {o : Option SomeTerm} {e : Env} : Env.restoreVar v o e =
      { e with vars := (Env.restoreVar v o e).vars } := Env.restoreVar_vars v o e
  refine ⟨hA, fun s => ?_, ?_, ?_, ?_, ?_, ?_, ?_, ?_⟩
  · by_cases hs : s = L.side
    · subst hs
      rw [World.env_setEnv, World.env_setEnv]
      have hp := h₂.envs L.side
      rw [Function.update_self] at hp
      exact (hw.envs _).restoreVar hp
    · rw [World.env_setEnv_of_ne _ _ _ hs, World.env_setEnv_of_ne _ _ _ hs]
      have hp := h₂.envs s
      rwa [Function.update_of_ne hs] at hp
  all_goals simp only [World.env_setEnv]
  · rw [hrestored]
    exact h₂.policy
  · rw [hrestored, hrestored (e := w₂.env L.side)]
    exact h₂.inlining
  · rw [hrestored]
    exact h₂.rules
  · rw [hrestored]
    exact h₂.rules'
  · rw [hrestored]
    exact h₂.bound
  · rw [hrestored]
    exact h₂.bound'
  · rw [hrestored, hrestored (e := w₂'.env L.side)]
    exact h₂.frame

/-! ### Translation -/

theorem translateWith {watch : Exp → Walk (List Hook)}
    (hw : ∀ {B : Side → List Var} (e : Exp), e.known → L.Both B F Eq (watch e) (watch e)) (e : Exp)
    (he : e.known) :
    L.Both B F Eq (Walk.translateWith L.side watch e) (Walk.translateWith L.side watch e) := by
  have part {p q : Bool} (h : (p && q) = true) := Bool.and_eq_true_iff.mp h
  induction e generalizing B with
  | var v => exact (hw _ he).after fun _ => (getVar v).after fun _ => pure rfl
  | lit x => exact (hw _ he).after fun _ => ite (throw _) (pure rfl)
  | bin op l r ihl ihr =>
    exact (hw _ he).after fun _ => (ihl (part he).1).after fun _ => (ihr (part he).2).after fun _ =>
      (lift _).after fun _ => pure rfl
  | un op a ih => exact (hw _ he).after fun _ => (ih he).after fun _ => (lift _).after fun _ => pure rfl
  | cast kind width a ih =>
    exact (hw _ he).after fun _ => (ih he).after fun _ => (lift _).after fun _ => pure rfl
  | load mem addr endian size ihm iha =>
    exact (hw _ he).after fun _ => (ihm (part he).1).after fun _ => (iha (part he).2).after fun _ =>
      (lift _).after fun _ => pure rfl
  | store mem addr value endian size ihm iha ihv =>
    exact (hw _ he).after fun _ => (ihm (part (part he).1).1).after fun _ =>
      (iha (part (part he).1).2).after fun _ => (ihv (part he).2).after fun _ =>
      (lift _).after fun _ => pure rfl
  | ite cond yes no ihc ihy ihn =>
    exact (hw _ he).after fun _ => (ihc (part (part he).1).1).after fun _ =>
      (ihy (part (part he).1).2).after fun _ => (ihn (part he).2).after fun _ =>
      (lift _).after fun _ => pure rfl
  | extract hi lo a ih =>
    exact (hw _ he).after fun _ => (ih he).after fun _ => (lift _).after fun _ => pure rfl
  | concat l r ihl ihr =>
    exact (hw _ he).after fun _ => (ihl (part he).1).after fun _ => (ofExcept _).after fun _ =>
      (ihr (part he).2).after fun _ => (lift _).after fun _ => pure rfl
  | letIn v value body ihv ihb =>
    exact (hw _ he).after fun _ => (ihv (part he).1).after fun _ => (binding (ihb (part he).2)).after fun _ =>
      pure rfl
  | unknown text type => cases he

theorem translate {e : Exp} (he : e.known) :
    L.Both B F Eq (Walk.translate L.side e) (Walk.translate L.side e) :=
  (translateWith (fun _ _ => pure rfl) e he).after fun _ => pure rfl

theorem condition {e : Exp} (he : e.known) :
    L.Both B F Eq (Walk.condition L.side e) (Walk.condition L.side e) := (translate he).after fun _ => lift _

theorem sideCondition {e : Exp} (he : e.known) {rule : SideRule} (hr : rule.known) :
    L.Both B F Eq (Walk.sideCondition L.side e rule) (Walk.sideCondition L.side e rule) := by
  unfold Walk.sideCondition
  split
  · split
    · exact pure rfl
    · exact (translate (accessed_known ‹_› he)).after fun _ => (lift _).after fun _ => pure rfl
  · split
    · exact pure rfl
    · exact (translate (accessed_known ‹_› he)).after fun _ => (lift _).after fun _ =>
        policy (pure rfl) (fun _ => rfl) fun _ => rfl
  · split
    · refine ite ((translate ?_).after fun _ => (lift _).after fun _ => pure rfl) (pure rfl)
      exact (Bool.and_eq_true_iff.mp he).2
    · exact pure rfl
  · split
    · refine (translate ?_).after fun _ => (translate rfl).after fun _ => (lift _).after fun _ =>
        (mkVar_same _).after fun _ => ite (throw _) ?_
      · exact (Bool.and_eq_true_iff.mp he).2
      · exact (lift _).after fun _ => (lift _).after fun _ => (lift _).after fun _ => pure rfl
    · exact pure rfl
  · exact ite ((condition hr).after fun _ => pure rfl) (pure rfl)

theorem sideConditions {e : Exp} (he : e.known) {rules : List SideRule} (hr : ∀ r ∈ rules, r.known) :
    L.Both B F Eq (Walk.sideConditions L.side rules e) (Walk.sideConditions L.side rules e) := by
  induction rules with
  | nil => exact pure rfl
  | cons rule rules ih =>
    exact (sideCondition he (hr rule List.mem_cons_self)).after fun _ =>
      (ih fun r hr' => hr r (List.mem_cons_of_mem _ hr')).after fun _ => pure rfl

/-- Both walks get the same term for an expression, under the same conditions. -/
theorem translateChecked {e : Exp} (he : e.known) :
    L.Both B F Eq (Walk.translateChecked L.side e) (Walk.translateChecked L.side e) := by
  have hcount : L.Both B F Eq (modify fun w : World => { w with translations := w.translations + 1 })
      (modify fun w : World => { w with translations := w.translations + 1 }) := by
    refine ⟨fun hw ha hb => ?_⟩
    cases ha
    cases hb
    exact ⟨rfl, hw.congr (fun s => by cases s <;> rfl) fun s => by cases s <;> rfl⟩
  refine hcount.after fun _ => policy ?_ (fun _ => rfl) fun _ => rfl
  exact translateWith (fun _ he' => sideConditions he' fun _ hr => L.sideRules hr) e he

end Both

end Lanes

end Precond

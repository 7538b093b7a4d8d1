import Precond.Proofs.Env.Kept
import Precond.Walk.Block

/-! Actions of a walk that give the same again. -/

namespace Precond

open IR Precond.Flow

/-! ### Worlds -/

namespace World

/-- The environments have the policies of the scope, and the rules that have been chosen are of its
rules. -/
structure Under (w : World) (S : Scope) : Prop where
  policy (side : Side) : (w.env side).policy = S.policy side
  handlers : (w.env side).handlers.lookup t = some h → S.rule side t h.rule

def Before (w w' : World) : Prop := ∀ side, (w.env side).Before (w'.env side)

/-- The worlds differ at most in where the walks are and in what they have noted. -/
def Same (w w' : World) : Prop := ∀ side, (w'.env side).core = (w.env side).core

def Constant (w : World) : Prop := ∀ side, (w.env side).Constant

structure Kept (R : Side → String → CallRule → Prop) (F : Side → Frame → Frame → Prop)
    (w w' : World) : Prop where
  nodes : w.nodes ≤ w'.nodes
  env (side : Side) : (w.env side).Kept (R side) (F side) (w'.env side)

variable {R : Side → String → CallRule → Prop} {F G : Side → Frame → Frame → Prop} {w w₁ w₂ : World}

theorem Before.refl (w : World) : w.Before w := fun _ => .refl _

theorem Before.trans (h₁ : w.Before w₁) (h₂ : w₁.Before w₂) : w.Before w₂ :=
  fun side => (h₁ side).trans (h₂ side)

theorem Same.refl (w : World) : w.Same w := fun _ => rfl

theorem Same.symm (h : w.Same w₁) : w₁.Same w := fun side => (h side).symm

theorem Same.trans (h₁ : w.Same w₁) (h₂ : w₁.Same w₂) : w.Same w₂ :=
  fun side => (h₂ side).trans (h₁ side)

theorem Same.before (h : w.Same w₁) : w.Before w₁ := fun side => .of_core (h side)

theorem Kept.before (h : w.Kept R F w₁) : w.Before w₁ := fun side => (h.env side).toBefore

theorem Kept.under {S : Scope} (h : w.Kept S.rule F w₁) (hw : w.Under S) : w₁.Under S where
  policy side := (h.env side).policy.trans (hw.policy side)
  handlers {side} _ _ ht := ((h.env side).handlers_new ht).elim hw.handlers id

theorem Kept.constant (h : w.Kept R F w₁) (hc : w.Constant) : w₁.Constant :=
  fun side => (h.env side).constant (hc side)

theorem Kept.refl [∀ side, IsPreorder Frame (F side)] (w : World) : w.Kept R F w :=
  ⟨Nat.le_refl _, fun _ => .refl _⟩

theorem Kept.trans [∀ side, IsPreorder Frame (F side)] (h₁ : w.Kept R F w₁) (h₂ : w₁.Kept R F w₂) :
    w.Kept R F w₂ := ⟨h₁.nodes.trans h₂.nodes, fun side => (h₁.env side).trans (h₂.env side)⟩

theorem Kept.mono (h : w.Kept R F w₁) (hF : ∀ side f f', F side f f' → G side f f') :
    w.Kept R G w₁ := ⟨h.nodes, fun side => (h.env side).mono (hF _ _ _)⟩

theorem Kept.setEnv [∀ side, IsPreorder Frame (F side)] {side : Side} {e : Env}
    (h : (w.env side).Kept (R side) (F side) e) : w.Kept R F (w.setEnv side e) where
  nodes := by rw [nodes_setEnv]
  env side' := by
    by_cases hs : side' = side
    · subst hs
      rw [env_setEnv]
      exact h
    · rw [env_setEnv_of_ne _ _ _ hs]
      exact .refl _

theorem Under.congr {S : Scope} (hw : w.Under S) (h : ∀ side, w₁.env side = w.env side) :
    w₁.Under S where
  policy side := h side ▸ hw.policy side
  handlers {side _ _} ht := hw.handlers (h side ▸ ht)

theorem Under.setEnv {S : Scope} {side : Side} {e : Env} (hw : w.Under S)
    (hp : e.policy = (w.env side).policy) (hh : e.handlers = (w.env side).handlers) :
    (w.setEnv side e).Under S where
  policy side' := by
    by_cases hs : side' = side
    · rw [hs, env_setEnv, hp, hw.policy]
    · rw [env_setEnv_of_ne _ _ _ hs, hw.policy]
  handlers {side' t h} ht := by
    by_cases hs : side' = side
    · subst hs
      rw [env_setEnv, hh] at ht
      exact hw.handlers ht
    · rw [env_setEnv_of_ne _ _ _ hs] at ht
      exact hw.handlers ht

theorem under_any (w : World) : w.Under (.any fun side => (w.env side).policy) :=
  ⟨fun _ => rfl, fun _ => True.intro⟩

theorem Same.setEnv (side : Side) {e e' : Env} (h : w.Same w₁) (he : e'.core = e.core) :
    (w.setEnv side e).Same (w₁.setEnv side e') := by
  intro side'
  by_cases hs : side' = side
  · subst hs
    rw [env_setEnv, env_setEnv]
    exact he
  · rw [env_setEnv_of_ne _ _ _ hs, env_setEnv_of_ne _ _ _ hs]
    exact h side'

theorem Under.same {S : Scope} (hw : w.Under S) (h : w.Same w₁) : w₁.Under S where
  policy side := (Env.Before.of_core (h side)).policy.trans (hw.policy side)
  handlers {side t a} ht := hw.handlers (by rwa [Env.eq_of_core (h side)] at ht)

theorem Constant.same (hc : w.Constant) (h : w.Same w₁) : w₁.Constant := fun side =>
  { vars := fun ht => (hc side).vars (by rwa [Env.eq_of_core (h side)] at ht)
    called := fun ht => (hc side).called (by rwa [Env.eq_of_core (h side)] at ht) }

theorem same_setEnv {side : Side} {e : Env} (he : e.core = (w.env side).core) :
    w.Same (w.setEnv side e) := by
  intro side'
  by_cases hs : side' = side
  · rw [hs, env_setEnv, he]
  · rw [env_setEnv_of_ne _ _ _ hs]

theorem Before.setEnv (side : Side) {e e' : Env} (h : w.Before w₁) (he : e.Before e') :
    (w.setEnv side e).Before (w₁.setEnv side e') := by
  intro side'
  by_cases hs : side' = side
  · subst hs
    rw [env_setEnv, env_setEnv]
    exact he
  · rw [env_setEnv_of_ne _ _ _ hs, env_setEnv_of_ne _ _ _ hs]
    exact h side'

end World

namespace Walk

theorem accessed_known {access : Access} {e addr : Exp} {size : Int}
    (h : accessed? access e = some (addr, size)) (he : e.known) : addr.known := by
  cases e with
  | load m a =>
    rw [accessed?] at h
    split at h
    · cases h
      exact (Bool.and_eq_true_iff.mp he).2
    · cases h
  | store m a v =>
    rw [accessed?] at h
    split at h
    · cases h
      exact (Bool.and_eq_true_iff.mp (Bool.and_eq_true_iff.mp he).1).2
    · cases h
  | _ => cases h

variable {S : Scope} {F : Side → Frame → Frame → Prop} {z : Option World} {w w₁ v : World}
  {x : Walk α} {side : Side}

/-! ### What is kept -/

/-- However the action ends, policies and what tables hold are kept, and of the frames so much as `F`
tells. -/
structure Keeps (S : Scope) (F : Side → Frame → Frame → Prop) (x : Walk α) : Prop where
  kept {w : World} : w.Under S → w.Kept S.rule F (ending x w)

theorem ending_bind (x : Walk α) (k : α → Walk β) (w : World) : ending (x >>= k) w =
    match x w with
    | .ok a w₁ => ending (k a) w₁
    | .error _ w₁ => w₁ := by
  rw [ending, show (x >>= k) w = EStateM.bind x k w from rfl, EStateM.bind]
  cases x w <;> rfl

namespace Keeps

theorem of_ok (h : Keeps S F x) (hw : w.Under S) {a : α} (ha : x w = .ok a w₁) :
    w.Kept S.rule F w₁ := ending_of_ok ha ▸ h.kept hw

theorem of_error (h : Keeps S F x) (hw : w.Under S) {f : Fault} (hf : x w = .error f w₁) :
    w.Kept S.rule F w₁ := ending_of_error hf ▸ h.kept hw

theorem bind [∀ side, IsPreorder Frame (F side)] {k : α → Walk β} (hx : Keeps S F x)
    (hk : ∀ a, Keeps S F (k a)) : Keeps S F (x >>= k) := by
  refine ⟨fun {w} hw => ?_⟩
  have h := hx.kept hw
  rw [ending] at h
  rw [ending_bind]
  cases hx : x w with
  | error f w₁ =>
    rw [hx] at h
    exact h
  | ok a w₁ =>
    rw [hx] at h
    exact h.trans ((hk a).kept (h.under hw))

end Keeps

/-! ### What is given again -/

/-- The second world has the same tables as the first one, or those of a world that is later than the
first one. -/
def Tied (z : Option World) (w v : World) : Prop :=
  match z with
  | none => w.Same v
  | some z => w.Before z ∧ z.Same v

def UpTo (z : Option World) (w : World) : Prop :=
  match z with
  | none => True
  | some z => w.Before z

theorem Tied.before (h : Tied z w v) : w.Before v := by
  cases z with
  | none => exact World.Same.before h
  | some z => exact h.1.trans h.2.before

theorem Tied.congr (h : Tied z w v) {w' v' : World} (hw : ∀ side, w'.env side = w.env side)
    (hv : ∀ side, v'.env side = v.env side) : Tied z w' v' := by
  cases z with
  | none => exact fun side => by rw [hw, hv]; exact h side
  | some z => exact ⟨fun side => by rw [hw]; exact h.1 side, fun side => by rw [hv]; exact h.2 side⟩

theorem Tied.moved {w' v' : World} (h : Tied z w v) (hw : w.Same w') (hv : v.Same v') :
    Tied z w' v' := by
  cases z with
  | none => exact hw.symm.trans (World.Same.trans h hv)
  | some z => exact ⟨hw.symm.before.trans h.1, h.2.trans hv⟩

theorem UpTo.of_before (h : UpTo z w₁) (hw : w.Before w₁) : UpTo z w := by
  cases z with
  | none => trivial
  | some z => exact hw.trans h

/-- An action that stays where the walk is, and that gives the same again: in a world with the same
tables, and if it draws no names, also in a later one, without changing tables there. -/
structure Steady (S : Scope) (x : Walk α) : Prop extends Keeps S (fun _ => Eq) x where
  again {z : Option World} {w v : World} {a : α} {w₁ : World} : (S.draws → z = none) →
    w.Under S → Tied z w v → x w = .ok a w₁ → UpTo z w₁ → ∃ v₁, x v = .ok a v₁ ∧ Tied z w₁ v₁

/-- The world in which a variable stands for a term. -/
def put (w : World) (side : Side) (u : Var) (t : SomeTerm) : World :=
  w.setEnv side { w.env side with vars := Table.put (w.env side).vars u t }

theorem put_under (hw : w.Under S) {u : Var} {t : SomeTerm} : (put w side u t).Under S :=
  hw.setEnv rfl rfl

theorem binding_eq (u : Var) (t : SomeTerm) (w : World) : Walk.binding side u t x w =
    Walk.restoring side (Env.restoreVar u ((w.env side).vars.lookup u)) x (put w side u t) := rfl

theorem setEnv_setEnv_env (w : World) (side : Side) (e : Env) :
    (w.setEnv side e).setEnv side (w.env side) = w := by
  cases side <;> rfl

theorem ending_restoring (f : Env → Env) (w : World) : ending (Walk.restoring side f x) w =
    (ending x w).setEnv side (f ((ending x w).env side)) := by
  rw [ending, ending, Walk.restoring]
  cases x w <;> rfl

/-- What a summary replaces: outputs, the flag of the callee and what returns change. -/
def summaryPairs (side : Side) (callee : Sub) (inputs outputs : List Var) :
    Walk (List (SomeTerm × SomeTerm)) := do
  let args ← inputs.mapM fun v => Walk.on side (Env.mkVar v)
  let sorts ← inputs.mapM fun v => ofExcept v.type.sort
  let name := (← env side).canonical callee.name
  let changed ← outputs.mapM fun out => do
    let ran ← out.type.sort
    let f ← Walk.on side (Env.declare (name ++ "_" ++ out.name) sorts ran)
    let old ← Walk.on side (Env.mkVar out)
    return (old, ← f.apply args)
  let effects ← returnEffects side callee
  return effects.foldl (fun pairs p =>
    if pairs.any fun q => p.1.same q.1 then pairs else pairs ++ [p]) changed

theorem summary_eq (callee : Sub) (inputs outputs : List Var) (post : Constr) :
    summary side callee inputs outputs post =
      (summaryPairs side callee inputs outputs >>= fun pairs => replaceAll post pairs) := by
  simp only [summary, summaryPairs, bind_assoc, pure_bind]

theorem replaceAll_eq (c : Constr) (pairs : List (SomeTerm × SomeTerm)) : replaceAll c pairs =
    if pairs.isEmpty then pure c else do return Constr.subst (← newNode) c pairs := by
  have hzip : (pairs.map (·.1)).zip (pairs.map (·.2)) = pairs := (List.zip_of_prod rfl rfl).symm
  rw [replaceAll, substitute, List.isEmpty_map, List.length_map, List.length_map,
    if_neg (not_not_intro rfl), hzip]

theorem replaceAll_ok {p : SomeTerm × SomeTerm} {ps : List (SomeTerm × SomeTerm)} {w w' : World}
    {c d : Constr} (h : replaceAll c (p :: ps) w = .ok d w') :
    d = .subst w.nodes c (p :: ps) ∧ ∀ side, w'.env side = w.env side := by
  rw [replaceAll_eq] at h
  cases h
  exact ⟨rfl, fun side => by cases side <;> rfl⟩

namespace Steady

theorem pure (a : α) : Steady S (Pure.pure a) where
  kept _ := .refl _
  again _ _ h ha _ := by
    cases ha
    exact ⟨_, rfl, h⟩

theorem throw (f : Fault) : Steady S (MonadExcept.throw f : Walk α) where
  kept _ := .refl _
  again _ _ _ ha := nomatch ha

theorem bind {k : α → Walk β} (hx : Steady S x) (hk : ∀ a, Steady S (k a)) : Steady S (x >>= k) where
  toKeeps := hx.toKeeps.bind fun a => (hk a).toKeeps
  again hz hw h hb hwithin := by
    obtain ⟨a, w₁, ha, h₁⟩ := bind_ok hb
    have hw₁ := (hx.toKeeps.of_ok hw ha).under hw
    obtain ⟨v₁, ha', ht⟩ := hx.again hz hw h ha
      (hwithin.of_before ((hk a).toKeeps.of_ok hw₁ h₁).before)
    obtain ⟨v₂, hb', ht'⟩ := (hk a).again hz hw₁ ht h₁ hwithin
    exact ⟨v₂, (bind_of_ok ha').trans hb', ht'⟩

theorem ite {c : Prop} [Decidable c] {x y : Walk α} (hx : Steady S x) (hy : Steady S y) :
    Steady S (if c then x else y) := by
  split
  · exact hx
  · exact hy

theorem mapM {xs : List β} {f : β → Walk α} (h : ∀ x, Steady S (f x)) : Steady S (xs.mapM f) := by
  induction xs with
  | nil => exact pure _
  | cons x xs ih =>
    rw [List.mapM_cons]
    exact (h x).bind fun _ => ih.bind fun _ => pure _

theorem ofExcept (x : Except Fault α) : Steady S (Walk.ofExcept x) := by
  cases x with
  | ok a => exact pure a
  | error f => exact throw f

theorem lift (x : Except Fault α) : Steady S (liftM x : Walk α) := ofExcept x

theorem present (o : Option α) : Steady S (Walk.present o) := by
  cases o with
  | some a => exact pure a
  | none => exact throw _

/-- What is read of an environment are policies. -/
theorem env {k : Env → Walk α} (h : Steady S (k (S.policy side)))
    (hk : ∀ e : Env, k e = k e.policy) : Steady S (Walk.env side >>= k) where
  kept {w} hw := by
    have h' := h.kept hw
    rw [← hw.policy side, ← hk] at h'
    exact h'
  again {z w v a w₁} hz hw ht ha hwithin := by
    have hw' : k (S.policy side) w = .ok a w₁ := by
      rw [← hw.policy side, ← hk]
      exact ha
    obtain ⟨v₁, hv, ht₁⟩ := h.again hz hw ht hw' hwithin
    refine ⟨v₁, ?_, ht₁⟩
    rw [← hw.policy side, ← (ht.before side).policy, ← hk] at hv
    exact hv

/-- A change of one environment. -/
theorem on {act : EnvM α} (h : Env.Steady S side act) : Steady S (Walk.on side act) where
  kept {w} hw := by
    have he := h.kept (hw.policy side)
    have hend : ending (Walk.on side act) w = w.setEnv side (ending act (w.env side)) := by
      rw [ending, ending, Walk.on]
      cases act (w.env side) <;> rfl
    rw [hend]
    exact .setEnv he
  again {z w v a w₁} hz hw ht ha hwithin := by
    obtain ⟨e, he, rfl⟩ := on_ok ha
    have hon {v : World} {e' : Env} (h' : act (v.env side) = .ok a e') :
        Walk.on side act v = .ok a (v.setEnv side e') := by
      rw [Walk.on, h']
    cases z with
    | none =>
      obtain ⟨e', he', hc⟩ := h.again he (ht side)
      exact ⟨_, hon he', World.Same.setEnv side ht hc⟩
    | some z =>
      have hz' : e.Before (v.env side) := by
        have := (World.Before.trans hwithin ht.2.before) side
        rwa [World.env_setEnv] at this
      obtain ⟨e', he', hc⟩ := h.settled (fun hS => absurd (hz hS) (Option.some_ne_none z)) he hz'
      refine ⟨_, hon he', hwithin, ?_⟩
      have hsame := World.Same.setEnv side (World.Same.refl v) hc
      have hv : v.setEnv side (v.env side) = v := by cases side <;> rfl
      rw [hv] at hsame
      exact ht.2.trans hsame

/-- A variable is given back what it stood for. -/
theorem binding {u : Var} {t : SomeTerm} (h : Steady S x) :
    Steady S (Walk.binding side u t x) where
  kept {w} hw := by
    rw [ending, binding_eq, ← ending, ending_restoring]
    have hw₂ := h.kept (w := put w side u t) (put_under hw)
    refine ⟨?_, fun side' => ?_⟩
    · have hn := hw₂.nodes
      rw [put, World.nodes_setEnv] at hn
      rwa [World.nodes_setEnv]
    have he := hw₂.env side'
    by_cases hs : side' = side
    · subst hs
      rw [put, World.env_setEnv] at he
      rw [World.env_setEnv]
      exact he.restoreVar
    · rw [put, World.env_setEnv_of_ne _ _ _ hs] at he
      rw [World.env_setEnv_of_ne _ _ _ hs]
      exact he
  again {z w v a w₁} hz hw ht ha hwithin := by
    rw [binding_eq] at ha
    obtain ⟨w₂, hx, rfl⟩ := restoring_ok ha
    have hput : (put w side u t).Under S := put_under hw
    have hbinding {v₂ : World} (hv : x (put v side u t) = .ok a v₂) : Walk.binding side u t x v =
        .ok a (v₂.setEnv side (Env.restoreVar u ((v.env side).vars.lookup u) (v₂.env side))) := by
      rw [binding_eq, Walk.restoring, hv]
    cases z with
    | none =>
      obtain ⟨v₂, hv, hsame⟩ := h.again (z := none) hz hput
        (World.Same.setEnv side ht (Env.put_congr (ht side) u t)) hx True.intro
      have hvars : (v.env side).vars = (w.env side).vars := by rw [Env.eq_of_core (ht side)]
      refine ⟨_, hbinding hv, World.Same.setEnv side hsame ?_⟩
      rw [hvars]
      exact Env.restoreVar_congr (hsame side) u _
    | some z =>
      -- meanwhile the later world is the one in which the variable stands for the term
      have hu : (w₂.env side).vars.lookup u = some t := by
        refine ((h.toKeeps.of_ok hput hx).env side).vars _ _ ?_
        rw [put, World.env_setEnv]
        exact Table.lookup_put_self ..
      have hwithin₂ : w₂.Before (put z side u t) := by
        have he := hwithin side
        rw [World.env_setEnv] at he
        have := World.Before.setEnv side hwithin (he.of_restoreVar hu)
        rwa [setEnv_setEnv_env] at this
      obtain ⟨v₂, hv, -, hsame⟩ := h.again (z := some (put z side u t)) (fun hS => absurd (hz hS) (Option.some_ne_none z)) hput
        ⟨World.Before.setEnv side ht.1 ((ht.1 side).put u t),
          World.Same.setEnv side ht.2 (Env.put_congr (ht.2 side) u t)⟩ hx hwithin₂
      have hvars : (v.env side).vars = (z.env side).vars := by rw [Env.eq_of_core (ht.2 side)]
      refine ⟨_, hbinding hv, hwithin, ?_⟩
      have hs := hsame side
      rw [put, World.env_setEnv] at hs
      have := World.Same.setEnv side hsame (Env.restoreVar_core hs)
      rw [put, setEnv_setEnv_env] at this
      rwa [hvars]

/-! ### Translation -/

theorem getVar (u : Var) : Steady S (Walk.on side (Env.getVar u)) := on (.getVar u)

theorem mkVar (u : Var) : Steady S (Walk.on side (Env.mkVar u)) := on (.mkVar u)

theorem translateWith {watch : Exp → Walk (List Hook)}
    (hw : ∀ e, S.draws ∨ e.known → Steady S (watch e)) (e : Exp) (he : S.draws ∨ e.known) : Steady S (Walk.translateWith side watch e) := by
  have part {p : Bool} {q : Bool} (h : S.draws ∨ (p && q) = true) :
      (S.draws ∨ p) ∧ (S.draws ∨ q) :=
    ⟨h.imp_right fun h => (Bool.and_eq_true_iff.mp h).1, h.imp_right fun h => (Bool.and_eq_true_iff.mp h).2⟩
  induction e with
  | var v => exact (hw _ he).bind fun _ => (getVar v).bind fun _ => pure _
  | lit x => exact (hw _ he).bind fun _ => ite (throw _) (pure _)
  | bin op l r ihl ihr =>
    exact (hw _ he).bind fun _ => (ihl (part he).1).bind fun _ => (ihr (part he).2).bind fun _ =>
      (lift _).bind fun _ => pure _
  | un op a ih => exact (hw _ he).bind fun _ => (ih he).bind fun _ => (lift _).bind fun _ => pure _
  | cast kind width a ih =>
    exact (hw _ he).bind fun _ => (ih he).bind fun _ => (lift _).bind fun _ => pure _
  | load mem addr endian size ihm iha =>
    exact (hw _ he).bind fun _ => (ihm (part he).1).bind fun _ => (iha (part he).2).bind fun _ =>
      (lift _).bind fun _ => pure _
  | store mem addr value endian size ihm iha ihv =>
    exact (hw _ he).bind fun _ => (ihm (part (part he).1).1).bind fun _ =>
      (iha (part (part he).1).2).bind fun _ => (ihv (part he).2).bind fun _ =>
      (lift _).bind fun _ => pure _
  | ite cond yes no ihc ihy ihn =>
    exact (hw _ he).bind fun _ => (ihc (part (part he).1).1).bind fun _ =>
      (ihy (part (part he).1).2).bind fun _ => (ihn (part he).2).bind fun _ =>
      (lift _).bind fun _ => pure _
  | extract hi lo a ih =>
    exact (hw _ he).bind fun _ => (ih he).bind fun _ => (lift _).bind fun _ => pure _
  | concat l r ihl ihr =>
    exact (hw _ he).bind fun _ => (ihl (part he).1).bind fun _ => (ofExcept _).bind fun _ =>
      (ihr (part he).2).bind fun _ => (lift _).bind fun _ => pure _
  | letIn v value body ihv ihb =>
    exact (hw _ he).bind fun _ => (ihv (part he).1).bind fun _ => (binding (ihb (part he).2)).bind fun _ =>
      pure _
  | unknown text type =>
    exact (hw _ he).bind fun _ => (on (.fresh (he.resolve_right nofun) ..)).bind fun _ => pure _

theorem translate {e : Exp} (he : S.draws ∨ e.known) : Steady S (Walk.translate side e) :=
  (translateWith (fun _ _ => pure _) e he).bind fun _ => pure _

theorem condition {e : Exp} (he : S.draws ∨ e.known) : Steady S (Walk.condition side e) :=
  (translate he).bind fun _ => lift _

theorem sideCondition {e : Exp} (he : S.draws ∨ e.known) {rule : SideRule}
    (hr : S.draws ∨ rule.known) : Steady S (Walk.sideCondition side e rule) := by
  unfold Walk.sideCondition
  split
  · split
    · exact pure _
    · exact (translate (he.imp_right (accessed_known ‹_›))).bind fun _ => (lift _).bind fun _ => pure _
  · split
    · exact pure _
    · exact (translate (he.imp_right (accessed_known ‹_›))).bind fun _ => (lift _).bind fun _ =>
        env (pure _) fun _ => rfl
  · split
    · refine ite ((translate ?_).bind fun _ => (lift _).bind fun _ => pure _) (pure _)
      exact he.imp_right fun h => (Bool.and_eq_true_iff.mp h).2
    · exact pure _
  · split
    · refine (translate ?_).bind fun _ => (translate (.inr rfl)).bind fun _ => (lift _).bind fun _ =>
        (mkVar _).bind fun _ => ite (throw _) ?_
      · exact he.imp_right fun h => (Bool.and_eq_true_iff.mp h).2
      · exact (lift _).bind fun _ => (lift _).bind fun _ => (lift _).bind fun _ => pure _
    · exact pure _
  · exact ite ((condition hr).bind fun _ => pure _) (pure _)

theorem sideConditions {e : Exp} (he : S.draws ∨ e.known) {rules : List SideRule}
    (hr : ∀ r ∈ rules, S.draws ∨ r.known) : Steady S (Walk.sideConditions side rules e) := by
  induction rules with
  | nil => exact pure _
  | cons rule rules ih =>
    exact (sideCondition he (hr rule List.mem_cons_self)).bind fun _ =>
      (ih fun r hr' => hr r (List.mem_cons_of_mem _ hr')).bind fun _ => pure _

theorem countTranslation :
    Steady S (modify fun w : World => { w with translations := w.translations + 1 }) where
  kept {w} _ := ⟨Nat.le_refl _, fun side => by cases side <;> exact .refl _⟩
  again {z w v a w₁} _ _ ht ha _ := by
    cases ha
    exact ⟨_, rfl, ht.congr (fun side => by cases side <;> rfl) fun side => by cases side <;> rfl⟩

theorem translateChecked {s : Sub} (hs : S.body side s) {e : Exp} (he : S.draws ∨ e.known) :
    Steady S (Walk.translateChecked side e) := by
  refine countTranslation.bind fun _ => env ?_ fun _ => rfl
  exact translateWith (fun _ he' => sideConditions he' fun _ hr => S.sideRules hs hr) e he

/-! ### Calls -/

theorem poppedSp : Steady S (Walk.poppedSp side) := by
  refine env ((mkVar _).bind fun _ => (lift _).bind fun s => ?_) fun _ => rfl
  cases s with
  | bv w => exact (lift _).bind fun _ => pure _
  | bool => exact throw _
  | mem => exact throw _

theorem returnEffects (callee : Sub) : Steady S (Walk.returnEffects side callee) := by
  refine env (ite (poppedSp.bind fun _ => ?_) ?_) fun _ => rfl
  all_goals exact (pure _).bind fun _ => (on (.getCalled _)).bind fun _ => pure _

theorem summaryPairs (callee : Sub) (inputs outputs : List Var) :
    Steady S (Walk.summaryPairs side callee inputs outputs) := by
  refine (mapM fun v => mkVar v).bind fun args => (mapM fun _ => ofExcept _).bind fun sorts =>
    env ?_ fun _ => rfl
  refine (mapM fun out => ?_).bind fun changed => (returnEffects callee).bind fun effects => pure _
  exact (lift _).bind fun _ => (on (.declare ..)).bind fun _ => (mkVar _).bind fun _ =>
    (lift _).bind fun _ => pure _

theorem firstArg : Steady S (Walk.firstArg side) := by
  refine env ?_ fun _ => rfl
  split
  · exact mkVar _
  · exact poppedSp.bind fun _ => (mkVar _).bind fun _ => lift _

end Steady

end Walk

end Precond

import Precond.Walk.Basic

/-! Successful walks, step by step. For each action of the walk and of the environment one lemma
tells what its success says of the worlds before and after it; a walk is taken apart with
`Walk.bind_ok`. What is known of both ends of an action is put together along its steps; where no fault
is possible, the action succeeds (`Walk.Outcome.succeeds`). -/

namespace Precond

open IR Precond.Flow

theorem EnvM.bind_ok {x : EnvM α} {f : α → EnvM β} {e e' : Env} {b : β}
    (h : (x >>= f) e = .ok b e') : ∃ a e₁, x e = .ok a e₁ ∧ f a e₁ = .ok b e' := by
  rw [show (x >>= f) e = EStateM.bind x f e from rfl, EStateM.bind] at h
  split at h
  · exact ⟨_, _, ‹_›, h⟩
  · cases h

theorem EnvM.bind_of_ok {x : EnvM α} {f : α → EnvM β} {e e₁ : Env} {a : α} (h : x e = .ok a e₁) :
    (x >>= f) e = f a e₁ := by
  rw [show (x >>= f) e = EStateM.bind x f e from rfl, EStateM.bind, h]

theorem EnvM.get_ok {f : Env → EnvM β} {e e' : Env} {b : β}
    (h : ((get : EnvM Env) >>= f) e = .ok b e') : f e e = .ok b e' := h

theorem EnvM.get_bind (f : Env → EnvM β) (e : Env) : ((get : EnvM Env) >>= f) e = f e e := rfl

theorem EnvM.ofExcept_ok {x : Except Fault α} {e e' : Env} {a : α}
    (h : Env.ofExcept x e = .ok a e') : x = .ok a ∧ e' = e := by
  cases x <;> cases h
  exact ⟨rfl, rfl⟩

namespace World

variable (w : World) (side : Side) (e : Env)

@[simp] theorem env_setEnv : (w.setEnv side e).env side = e := by cases side <;> rfl

theorem setEnv_env : w.setEnv side (w.env side) = w := by cases side <;> rfl

@[simp] theorem nodes_setEnv : (w.setEnv side e).nodes = w.nodes := by cases side <;> rfl

theorem env_setEnv_of_ne {side' : Side} (h : side' ≠ side) :
    (w.setEnv side e).env side' = w.env side' := by
  cases side <;> cases side' <;> first | rfl | exact absurd rfl h

end World

namespace Walk

variable {w w' : World} {side : Side}

theorem bind_ok {x : Walk α} {f : α → Walk β} {b : β} (h : (x >>= f) w = .ok b w') :
    ∃ a w₁, x w = .ok a w₁ ∧ f a w₁ = .ok b w' := by
  rw [show (x >>= f) w = EStateM.bind x f w from rfl, EStateM.bind] at h
  split at h
  · exact ⟨_, _, ‹_›, h⟩
  · cases h

theorem bind_error {x : Walk α} {f : α → Walk β} {e : Fault} (h : (x >>= f) w = .error e w') :
    x w = .error e w' ∨ ∃ a w₁, x w = .ok a w₁ ∧ f a w₁ = .error e w' := by
  rw [show (x >>= f) w = EStateM.bind x f w from rfl, EStateM.bind] at h
  split at h
  · exact .inr ⟨_, _, ‹_›, h⟩
  · cases h
    exact .inl ‹_›

theorem bind_of_ok {x : Walk α} {f : α → Walk β} {a : α} {w₁ : World} (h : x w = .ok a w₁) :
    (x >>= f) w = f a w₁ := by
  rw [show (x >>= f) w = EStateM.bind x f w from rfl, EStateM.bind, h]

theorem bind_of_error {x : Walk α} {f : α → Walk β} {e : Fault} {w₁ : World}
    (h : x w = .error e w₁) : (x >>= f) w = .error e w₁ := by
  rw [show (x >>= f) w = EStateM.bind x f w from rfl, EStateM.bind, h]

theorem ofExcept_ok {x : Except Fault α} {a : α} (h : ofExcept x w = .ok a w') :
    x = .ok a ∧ w' = w := by
  cases x <;> cases h
  exact ⟨rfl, rfl⟩

theorem present_ok {o : Option α} {a : α} (h : present o w = .ok a w') : o = some a ∧ w' = w := by
  cases o <;> cases h
  exact ⟨rfl, rfl⟩

theorem env_ok {e : Env} (h : env side w = .ok e w') : w.env side = e ∧ w' = w := by
  cases h
  exact ⟨rfl, rfl⟩

theorem on_ok {act : EnvM α} {a : α} (h : on side act w = .ok a w') :
    ∃ e, act (w.env side) = .ok a e ∧ w' = w.setEnv side e := by
  unfold on at h
  split at h <;> cases h
  exact ⟨_, ‹_›, rfl⟩

theorem modifyEnv_ok {f : Env → Env} {u : Unit} (h : modifyEnv side f w = .ok u w') :
    w' = w.setEnv side (f (w.env side)) := by
  cases h
  rfl

theorem restoring_ok {f : Env → Env} {act : Walk α} {a : α}
    (h : restoring side f act w = .ok a w') :
    ∃ w₁, act w = .ok a w₁ ∧ w' = w₁.setEnv side (f (w₁.env side)) := by
  unfold restoring at h
  split at h <;> cases h
  exact ⟨_, ‹_›, rfl⟩

/-- What holds of each result of actions one after the other. -/
theorem mapM_mem {I : World → Prop} {Q : α → Prop} {xs : List β} {f : β → Walk α} {as : List α}
    (hw : I w) (h : ∀ {x w a w'}, I w → f x w = .ok a w' → Q a ∧ I w')
    (hm : xs.mapM f w = .ok as w') : (∀ a ∈ as, Q a) ∧ I w' := by
  induction xs generalizing w as with
  | nil =>
    cases hm
    exact ⟨nofun, hw⟩
  | cons x xs ih =>
    rw [List.mapM_cons] at hm
    obtain ⟨a, w₁, ha, h₁⟩ := bind_ok hm
    obtain ⟨as, w₂, has, h₂⟩ := bind_ok h₁
    cases h₂
    obtain ⟨hQ, hI⟩ := h hw ha
    obtain ⟨hall, hI'⟩ := ih hI has
    exact ⟨List.forall_mem_cons.mpr ⟨hQ, hall⟩, hI'⟩

theorem mkGoal_ok {name : String} {value : Term .bool} {tid : Option String} {c : Constr}
    (h : mkGoal name value tid w = .ok c w') :
    c = .goal w.nodes name value tid ∧ w' = { w with nodes := w.nodes + 1 } := by
  cases h
  exact ⟨rfl, rfl⟩

theorem mkClause_ok {hyps goals : List Constr} {c : Constr} (h : mkClause hyps goals w = .ok c w') :
    c = .clause w.nodes hyps goals ∧ w' = { w with nodes := w.nodes + 1 } := by
  cases h
  exact ⟨rfl, rfl⟩

theorem mkBranch_ok {jump : String} {cond : Term .bool} {yes no c : Constr}
    (h : mkBranch jump cond yes no w = .ok c w') :
    c = .branch w.nodes jump cond yes no ∧ w' = { w with nodes := w.nodes + 1 } := by
  cases h
  exact ⟨rfl, rfl⟩

theorem substitute_ok {c c' : Constr} {old new : SomeTerm}
    (h : substitute c [old] [new] w = .ok c' w') :
    c' = .subst w.nodes c [(old, new)] ∧ w' = { w with nodes := w.nodes + 1 } := by
  cases h
  exact ⟨rfl, rfl⟩

end Walk

namespace Env

variable {e e' : Env} {v : Var} {t : SomeTerm}

theorem getVar_ok (h : getVar v e = .ok t e') : e.vars.lookup v = some t ∧ e' = e := by
  have h₁ := EnvM.get_ok h
  cases hv : e.vars.lookup v with
  | some u =>
    rw [hv] at h₁
    cases h₁
    exact ⟨rfl, rfl⟩
  | none =>
    rw [hv] at h₁
    cases h₁

theorem getVar_of_lookup (h : e.vars.lookup v = some t) : getVar v e = .ok t e := by
  rw [getVar, EnvM.get_bind, h]
  rfl

theorem const_ok {name : String} {type : Ty} (h : const name type e = .ok t e') :
    e' = e ∧ ∃ s, type.sort = .ok s ∧ t = ⟨s, .const name s⟩ := by
  obtain ⟨s, e₁, hs, h₁⟩ := EnvM.bind_ok h
  obtain ⟨hs', rfl⟩ := EnvM.ofExcept_ok hs
  cases h₁
  exact ⟨rfl, s, hs', rfl⟩

theorem newName_ok {name full : String} (h : newName name e = .ok full e') :
    full = (e.names.fresh name).1 ∧ e' = { e with names := (e.names.fresh name).2 } := by
  cases h
  exact ⟨rfl, rfl⟩

theorem constName_ok {name full : String} (h : constName name e = .ok full e') :
    (e.freshen = true ∧ full = (e.names.fresh name).1 ∧
        e' = { e with names := (e.names.fresh name).2 }) ∨
      (e.freshen = false ∧ full = name ∧ e' = e) := by
  have h₁ := EnvM.get_ok h
  by_cases hf : e.freshen = true
  · rw [if_pos hf] at h₁
    exact .inl ⟨hf, newName_ok h₁⟩
  · rw [if_neg hf] at h₁
    cases h₁
    exact .inr ⟨Bool.eq_false_iff.mpr hf, rfl, rfl⟩

theorem fresh_ok {name : String} {type : Ty} (h : fresh name type e = .ok t e') :
    e' = { e with names := (e.names.fresh name).2 } ∧
      ∃ n s, type.sort = .ok s ∧ t = ⟨s, .const n s⟩ := by
  obtain ⟨n, e₁, hn, h₁⟩ := EnvM.bind_ok h
  obtain ⟨-, rfl⟩ := newName_ok hn
  obtain ⟨rfl, s, hs, ht⟩ := const_ok h₁
  exact ⟨rfl, n, s, hs, ht⟩

/-- A variable that is asked for stands for its term, or for a new constant. -/
theorem mkVar_ok (h : mkVar v e = .ok t e') :
    (e.vars.lookup v = some t ∧ e' = e) ∨
      ∃ n s e₁, e.vars.lookup v = none ∧ constName v.name e = .ok n e₁ ∧ v.type.sort = .ok s ∧
        t = ⟨s, .const n s⟩ ∧ e' = { e₁ with vars := Table.put e₁.vars v t } := by
  have h₁ := EnvM.get_ok h
  cases hv : e.vars.lookup v with
  | some u =>
    rw [hv] at h₁
    cases h₁
    exact .inl ⟨rfl, rfl⟩
  | none =>
    rw [hv] at h₁
    obtain ⟨n, e₁, hn, h₂⟩ := EnvM.bind_ok h₁
    obtain ⟨u, e₂, hu, h₃⟩ := EnvM.bind_ok h₂
    obtain ⟨rfl, s, hs, rfl⟩ := const_ok hu
    cases h₃
    exact .inr ⟨n, s, _, rfl, hn, hs, rfl, rfl⟩

theorem note_ok {kind : WeakeningKind} {tid detail : String} {u : Unit}
    (h : note kind tid detail e = .ok u e') :
    e' = { e with weakenings := e.weakenings ++ [⟨kind, tid, detail⟩] } := by
  cases h
  rfl

/-- The rule for calls of a subroutine, chosen already or to be chosen. -/
def rule? (e : Env) (s : Sub) : Option CallRule :=
  match e.handlers.lookup s.tid with
  | some h => some h.rule
  | none => (e.rules.find? (·.applies e.arch s)).or e.fallback

theorem handler_ok {s : Sub} {h : Handler} (hh : handler s e = .ok h e') :
    e.rule? s = some h.rule ∧
      (e' = e ∨ e.handlers.lookup s.tid = none ∧
        e' = { e with handlers := Table.put e.handlers s.tid h }) := by
  have h₁ := EnvM.get_ok hh
  rw [rule?]
  cases hl : e.handlers.lookup s.tid with
  | some h' =>
    rw [hl] at h₁
    cases h₁
    exact ⟨rfl, .inl rfl⟩
  | none =>
    rw [hl] at h₁
    cases hr : e.rules.find? (·.applies e.arch s) with
    | some rule =>
      rw [hr] at h₁
      cases h₁
      exact ⟨rfl, .inr ⟨rfl, rfl⟩⟩
    | none =>
      rw [hr] at h₁
      cases hf : e.fallback with
      | some rule =>
        rw [hf] at h₁
        cases h₁
        exact ⟨rfl, .inr ⟨rfl, by rw [← hf]⟩⟩
      | none =>
        rw [hf] at h₁
        cases h₁

end Env

end Precond

/-! ### Both ends of an action -/

namespace Precond.Walk

open IR

/-- An action ends with a result of which, with its world, `P` holds, or with a fault of which `F`
holds. -/
def Outcome (P : α → World → Prop) (F : Fault → Prop) (act : Walk α) (w : World) : Prop :=
  match act w with
  | .ok a w' => P a w'
  | .error f _ => F f

namespace Outcome

variable {side : Side} {w w' : World} {act : Walk α} {P Q : α → World → Prop} {F G : Fault → Prop}

theorem of_ok {a : α} (h : Outcome P F act w) (ha : act w = .ok a w') : P a w' := by
  rw [Outcome, ha] at h
  exact h

theorem of_error {f : Fault} (h : Outcome P F act w) (ha : act w = .error f w') : F f := by
  rw [Outcome, ha] at h
  exact h

theorem intro (hP : ∀ a w', act w = .ok a w' → P a w') (hF : ∀ f w', act w = .error f w' → F f) :
    Outcome P F act w := by
  rw [Outcome]
  cases h : act w with
  | ok a w' => exact hP a w' h
  | error f w' => exact hF f w' h

theorem succeeds (h : Outcome P F act w) (hF : ∀ f, ¬ F f) : ∃ a w', act w = .ok a w' ∧ P a w' := by
  rw [Outcome] at h
  cases hact : act w with
  | ok a w' =>
    rw [hact] at h
    exact ⟨a, w', rfl, h⟩
  | error f w' =>
    rw [hact] at h
    exact absurd h (hF f)

/-- What is known of a result is known of the one there is. -/
theorem seen (h : Outcome P F act w) : Outcome (fun a w' => act w = .ok a w' ∧ P a w') F act w :=
  .intro (fun _ _ ha => ⟨ha, h.of_ok ha⟩) fun _ _ hf => h.of_error hf

theorem mono (h : Outcome P F act w) (hP : ∀ a w', P a w' → Q a w') (hF : ∀ f, F f → G f) :
    Outcome Q G act w :=
  .intro (fun a w' ha => hP a w' (h.of_ok ha)) fun f _ hf => hF f (h.of_error hf)

theorem pure {a : α} (h : P a w) : Outcome P F (Pure.pure a) w := h

theorem throw {f : Fault} (h : F f) : Outcome P F (MonadExcept.throw f) w := h

theorem bind {k : α → Walk β} {Q : β → World → Prop} (h : Outcome P F act w)
    (hk : ∀ a w', P a w' → Outcome Q F (k a) w') : Outcome Q F (act >>= k) w := by
  rw [Outcome, show (act >>= k) w = EStateM.bind act k w from rfl, EStateM.bind]
  cases hact : act w with
  | ok a w' => exact hk a w' (h.of_ok hact)
  | error f w' => exact h.of_error hact

theorem env {P : Env → World → Prop} (h : P (w.env side) w) : Outcome P F (Walk.env side) w := h

theorem modifyEnv {f : Env → Env} {P : Unit → World → Prop}
    (h : P () (w.setEnv side (f (w.env side)))) : Outcome P F (Walk.modifyEnv side f) w := h

/-- An action on an environment, by its two ends. -/
theorem on {act : EnvM α}
    (hP : ∀ a e, act (w.env side) = .ok a e → P a (w.setEnv side e))
    (hF : ∀ f e, act (w.env side) = .error f e → F f) : Outcome P F (Walk.on side act) w := by
  rw [Outcome, Walk.on]
  cases h : act (w.env side) with
  | ok a e => exact hP a e h
  | error f e => exact hF f e h

theorem restoring {f : Env → Env}
    (h : Outcome (fun a w' => P a (w'.setEnv side (f (w'.env side)))) F act w) :
    Outcome P F (Walk.restoring side f act) w := by
  rw [Outcome, Walk.restoring]
  cases hact : act w with
  | ok a w' => exact h.of_ok hact
  | error e w' => exact h.of_error hact

theorem ofExcept {x : Except Fault α} (hP : ∀ a, x = .ok a → P a w)
    (hF : ∀ f, x = .error f → F f) : Outcome P F (Walk.ofExcept x) w := by
  cases x with
  | ok a => exact hP a rfl
  | error f => exact hF f rfl

end Outcome

end Precond.Walk

import Mathlib.Order.Defs.Unbundled
import Precond.Proofs.Env.Names
import Precond.Proofs.Run.Exp
import Precond.Walk.Block

/-! What changes of an environment keep. Policies stay as they are, and tables only grow, however a
change ends (`Env.Kept`). Where the walk is and what it has noted do not matter to what a change gives:
it gives the same in an environment with the same tables, and also in a later one, where it changes
nothing any more (`Env.Steady`). -/

namespace Precond

open IR Precond.Flow

/-! ### Environments -/

def SomeTerm.IsConst (t : SomeTerm) : Prop := ∃ n s, t = ⟨s, .const n s⟩

namespace Env

/-- What is set before a walk and stays. The unroll bound is told apart from it. -/
def policy (e : Env) : Env :=
  { e with
    unrollBound := 0, names := ⟨none, 0⟩, vars := [], inits := [], called := [], funcs := [],
    handlers := [], frame := .start, inlining := [], weakenings := [], attached := false }

/-- An environment without the place of the walk and what it has noted. -/
def core (e : Env) : Env :=
  { e with
    unrollBound := 0, frame := .start, inlining := [], weakenings := [], attached := false }

/-- The rule for calls of a subroutine that none has been chosen for. -/
def chosen? (e : Env) (s : Sub) : Option CallRule :=
  (e.rules.find? (·.applies e.arch s)).or e.fallback

/-- The second environment has the policies of the first and all that its tables hold. -/
structure Before (e e' : Env) : Prop where
  policy : e'.policy = e.policy
  vars : Table.Grows e.vars e'.vars
  inits : Table.Grows e.inits e'.inits
  called : Table.Grows e.called e'.called
  funcs : Table.Grows e.funcs e'.funcs
  handlers : Table.Grows e.handlers e'.handlers

/-- A later environment of a walk. New variables and flags stand for constants, and rules that are
chosen are of those that `R` allows. -/
structure Kept (R : String → CallRule → Prop) (F : Frame → Frame → Prop) (e e' : Env) : Prop
    extends Before e e' where
  unrollBound : e'.unrollBound = e.unrollBound
  inlining : e'.inlining = e.inlining
  frame : F e.frame e'.frame
  vars_new : e'.vars.lookup v = some t → e.vars.lookup v = some t ∨ t.IsConst
  called_new : e'.called.lookup n = some p → e.called.lookup n = some p ∨ ∃ c, p = .const c .bool
  handlers_new : e'.handlers.lookup t = some h → e.handlers.lookup t = some h ∨ R t h.rule

variable {R : String → CallRule → Prop} {F G : Frame → Frame → Prop} {e e₁ e₂ : Env}

theorem Before.refl (e : Env) : e.Before e := ⟨rfl, .refl _, .refl _, .refl _, .refl _, .refl _⟩

theorem Before.trans (h₁ : e.Before e₁) (h₂ : e₁.Before e₂) : e.Before e₂ where
  policy := h₂.policy.trans h₁.policy
  vars := h₁.vars.trans h₂.vars
  inits := h₁.inits.trans h₂.inits
  called := h₁.called.trans h₂.called
  funcs := h₁.funcs.trans h₂.funcs
  handlers := h₁.handlers.trans h₂.handlers

theorem eq_of_core (h : e₁.core = e.core) : e₁ = { e with
    unrollBound := e₁.unrollBound, frame := e₁.frame, inlining := e₁.inlining,
    weakenings := e₁.weakenings, attached := e₁.attached } := by
  calc e₁
    _ = { e₁.core with
          unrollBound := e₁.unrollBound, frame := e₁.frame, inlining := e₁.inlining,
          weakenings := e₁.weakenings, attached := e₁.attached } := rfl
    _ = _ := by rw [h]; rfl

theorem Before.of_core (h : e₁.core = e.core) : e.Before e₁ := by
  rw [eq_of_core h]
  exact ⟨rfl, .refl _, .refl _, .refl _, .refl _, .refl _⟩

/-- Where the walk is matters only to the frame. -/
theorem Kept.of_core (h : e₁.core = e.core) (hb : e₁.unrollBound = e.unrollBound)
    (hi : e₁.inlining = e.inlining) (hf : F e.frame e₁.frame) : e.Kept R F e₁ := by
  refine ⟨.of_core h, hb, hi, hf, fun ht => .inl ?_, fun ht => .inl ?_, fun ht => .inl ?_⟩
  all_goals
    rw [eq_of_core h] at ht
    exact ht

theorem Kept.refl [IsPreorder Frame F] (e : Env) : e.Kept R F e := .of_core rfl rfl rfl (refl_of F _)

theorem Kept.trans [IsPreorder Frame F] (h₁ : e.Kept R F e₁) (h₂ : e₁.Kept R F e₂) :
    e.Kept R F e₂ where
  toBefore := h₁.toBefore.trans h₂.toBefore
  unrollBound := h₂.unrollBound.trans h₁.unrollBound
  inlining := h₂.inlining.trans h₁.inlining
  frame := trans_of F h₁.frame h₂.frame
  vars_new h := (h₂.vars_new h).elim h₁.vars_new .inr
  called_new h := (h₂.called_new h).elim h₁.called_new .inr
  handlers_new h := (h₂.handlers_new h).elim h₁.handlers_new .inr

/-- What is kept from another place in the program on is kept at one's own place. -/
theorem Kept.around {e₃ : Env} (h : e₁.Kept R F e₂) (hc : e₁.core = e.core)
    (hb : e₁.unrollBound = e.unrollBound) (hc' : e₃.core = e₂.core)
    (hb' : e₃.unrollBound = e₂.unrollBound) (hi : e₃.inlining = e.inlining)
    (hf : G e.frame e₃.frame) : e.Kept R G e₃ := by
  have h₁ : e.Before e₁ := .of_core hc
  refine ⟨h₁.trans (h.toBefore.trans (.of_core hc')), hb'.trans (h.unrollBound.trans hb), hi, hf,
    fun {v t} ht => ?_, fun {n p} ht => ?_, fun {t a} ht => ?_⟩
  all_goals
    rw [eq_of_core hc'] at ht
    rw [eq_of_core hc] at h
  · exact h.vars_new ht
  · exact h.called_new ht
  · exact h.handlers_new ht

theorem Kept.mono (h : e.Kept R F e₁) (hF : F e.frame e₁.frame → G e.frame e₁.frame) :
    e.Kept R G e₁ := { h with frame := hF h.frame }

/-! A variable that stands for a term for a while -/

theorem lookup_without (T : Table Var SomeTerm) (u v : Var) :
    (Table.without T u).lookup v = if v = u then none else T.lookup v := by
  induction T with
  | nil => split <;> rfl
  | cons p T ih =>
    obtain ⟨x, t⟩ := p
    rw [Table.without] at ih ⊢
    by_cases hx : x = u
    · rw [List.filter_cons_of_neg (by simpa using hx), ih, List.lookup_cons]
      by_cases hv : v = u
      · rw [if_pos hv, if_pos hv]
      · rw [if_neg hv, if_neg hv, beq_false_of_ne (hx ▸ hv)]
    · rw [List.filter_cons_of_pos (by simpa using hx), List.lookup_cons, List.lookup_cons, ih]
      by_cases hv : v = x
      · simp only [hv, beq_self_eq_true, if_neg hx]
      · simp only [beq_false_of_ne hv]

theorem restoreVar_vars (u : Var) (before : Option SomeTerm) (e : Env) :
    restoreVar u before e = { e with vars := (restoreVar u before e).vars } := by
  cases before <;> rfl

theorem lookup_restoreVar (u v : Var) (before : Option SomeTerm) (e : Env) :
    (restoreVar u before e).vars.lookup v = if v = u then before else e.vars.lookup v := by
  cases before with
  | none => exact lookup_without ..
  | some t =>
    split
    · rename_i h
      rw [h]
      exact Table.lookup_put_self ..
    · exact Table.lookup_put_of_ne _ _ ‹_›

/-- A variable that has stood for a term gets back what it stood for before. -/
theorem Kept.restoreVar {u : Var} {t : SomeTerm}
    (h : ({ e with vars := Table.put e.vars u t } : Env).Kept R F e₁) :
    e.Kept R F (restoreVar u (e.vars.lookup u) e₁) := by
  rw [restoreVar_vars]
  refine ⟨⟨h.policy, fun v a hv => ?_, h.inits, h.called, h.funcs, h.handlers⟩, h.unrollBound,
    h.inlining, h.frame, fun {v a} hv => ?_, h.called_new, h.handlers_new⟩
  · dsimp only
    rw [lookup_restoreVar]
    split
    · rename_i hvu
      rw [← hvu, hv]
    · rename_i hvu
      exact h.vars _ _ ((Table.lookup_put_of_ne _ _ hvu).trans hv)
  · dsimp only at hv
    rw [lookup_restoreVar] at hv
    split at hv
    · rename_i hvu
      exact .inl (hvu ▸ hv)
    · rename_i hvu
      exact (h.vars_new hv).imp_left fun hv' => (Table.lookup_put_of_ne _ _ hvu).symm.trans hv'

/-- What has been kept meanwhile is kept while the variable stands for the term. -/
theorem Before.of_restoreVar {u : Var} {t : SomeTerm} {before : Option SomeTerm}
    (h : (restoreVar u before e).Before e₁) (ht : e.vars.lookup u = some t) :
    e.Before { e₁ with vars := Table.put e₁.vars u t } := by
  rw [restoreVar_vars] at h
  refine ⟨h.policy, fun v a hv => ?_, h.inits, h.called, h.funcs, h.handlers⟩
  dsimp only
  by_cases hvu : v = u
  · rw [hvu, Table.lookup_put_self, ← ht, ← hvu, hv]
  · rw [Table.lookup_put_of_ne _ _ hvu]
    refine h.vars _ _ ?_
    dsimp only
    rw [lookup_restoreVar, if_neg hvu, hv]

theorem Before.put (h : e.Before e₁) (u : Var) (t : SomeTerm) :
    ({ e with vars := Table.put e.vars u t } : Env).Before
      { e₁ with vars := Table.put e₁.vars u t } :=
  ⟨h.policy, h.vars.put u t, h.inits, h.called, h.funcs, h.handlers⟩

theorem put_congr (h : e₁.core = e.core) (u : Var) (t : SomeTerm) :
    ({ e₁ with vars := Table.put e₁.vars u t } : Env).core =
      ({ e with vars := Table.put e.vars u t } : Env).core := by
  rw [eq_of_core h]
  rfl

theorem restoreVar_congr (h : e₁.core = e.core) (u : Var) (before : Option SomeTerm) :
    (restoreVar u before e₁).core = (restoreVar u before e).core := by
  rw [eq_of_core h]
  cases before <;> rfl

/-- In the end the tables are those before. -/
theorem restoreVar_core {u : Var} {t : SomeTerm}
    (h : e₁.core = ({ e with vars := Table.put e.vars u t } : Env).core) :
    (restoreVar u (e.vars.lookup u) e₁).core = e.core := by
  rw [eq_of_core h]
  cases hv : e.vars.lookup u with
  | none =>
    show ({ e.core with vars := Table.without (Table.put e.vars u t) u } : Env) = e.core
    rw [Table.without_put hv]
    rfl
  | some b =>
    show ({ e.core with vars := Table.put (Table.put e.vars u t) u b } : Env) = e.core
    rw [Table.put_lookup hv]
    rfl

/-- Variables and flags stand for constants. -/
structure Constant (e : Env) : Prop where
  vars : e.vars.lookup v = some t → t.IsConst
  called : e.called.lookup n = some p → ∃ c, p = .const c .bool

theorem Kept.constant (h : e.Kept R F e₁) (hc : e.Constant) : e₁.Constant where
  vars ht := (h.vars_new ht).elim hc.vars id
  called ht := (h.called_new ht).elim hc.called id

end Env

/-- Where an action ends, with a result or with a fault. -/
def ending {ε σ α : Type} (x : EStateM ε σ α) (s : σ) : σ :=
  match x s with
  | .ok _ s' | .error _ s' => s'

theorem ending_of_ok {ε σ α : Type} {x : EStateM ε σ α} {s s' : σ} {a : α} (h : x s = .ok a s') :
    ending x s = s' := by rw [ending, h]

theorem ending_of_error {ε σ α : Type} {x : EStateM ε σ α} {s s' : σ} {f : ε} (h : x s = .error f s') :
    ending x s = s' := by rw [ending, h]

/-- No part of a condition that the rule adds is unknown. -/
def SideRule.known : SideRule → Bool
  | custom _ _ _ cond _ => cond.known
  | nonNull .. | validAccess .. | nonZeroDivisor | offsetRead .. => true

/-- A rule that draws no names. -/
def CallRule.quiet : CallRule → Bool
  | verifierNondet | contract .. => false
  | inline _ | verifierError | verifierAssume | empty | argTerms | raxOut | chaosRax | chaosCallerSaved
  | default => true

/-- No part of the element is unknown. -/
def IR.Elt.known : Elt → Bool
  | phi p => p.values.all (·.2.known)
  | define d => d.rhs.known
  | jump j => j.cond.known

theorem IR.Blk.mem_jumps {b : Blk} {j : Jump} (h : .jump j ∈ b.elts) : j ∈ b.jumps := by
  simpa [Blk.elts] using h

theorem IR.Elt.vars_subset {s : Sub} {b : Blk} {elt : Elt} (hb : b ∈ s.blks) (he : elt ∈ b.elts) :
    elt.vars ⊆ s.vars := by
  intro v hv
  refine List.mem_eraseDups.mpr (List.mem_append_right _ (List.mem_flatMap.mpr ⟨b, hb, ?_⟩))
  exact List.mem_flatMap.mpr ⟨elt, he, hv⟩

/-- The subroutine that a call of a known name leads to. -/
def Env.callee (e : Env) (name : String) : Sub :=
  (e.findSub? (.direct name)).getD (Walk.unknownCallee name)

/-- A rule for calls of a tid: the one that is chosen for the callee with that tid. -/
def Env.ruleOf (e : Env) (t : String) (r : CallRule) : Prop :=
  ∃ name, (e.callee name).tid = t ∧ e.chosen? (e.callee name) = some r

/-- What a walk is confined to: the policies, the subroutines that are walked, and the rules that are
chosen for calls of a tid. Where no names are drawn, nothing of this is unknown, and no rule draws
names. -/
structure Scope where
  policy : Side → Env
  draws : Prop
  body : Side → Sub → Prop
  rule : Side → String → CallRule → Prop
  sideRules : body side s → r ∈ (policy side).sideRules → draws ∨ r.known
  elts : body side s → b ∈ s.blks → e ∈ b.elts → draws ∨ e.known
  chosen : body side s → b ∈ s.blks → .jump j ∈ b.elts → j.kind = .call (.direct name) ret →
    (policy side).chosen? ((policy side).callee name) = some r →
    rule side ((policy side).callee name).tid r
  quiet : body side s → b ∈ s.blks → .jump j ∈ b.elts → j.kind = .call (.direct name) ret →
    rule side ((policy side).callee name).tid r → draws ∨ r.quiet
  expanded : body side s → b ∈ s.blks → .jump j ∈ b.elts → j.kind = .call (.direct name) ret →
    rule side ((policy side).callee name).tid (.inline tids) → ((policy side).callee name).blks ≠ [] →
    body side ((policy side).callee name) ∧ ∀ r, (policy side).fallback = some r → draws ∨ r.quiet

/-- Nothing is known of what is walked. -/
def Scope.any (policy : Side → Env) : Scope where
  policy := policy
  draws := True
  body _ _ := True
  rule _ _ _ := True
  sideRules _ _ := .inl True.intro
  elts _ _ _ := .inl True.intro
  chosen _ _ _ _ _ := True.intro
  quiet _ _ _ _ _ := .inl True.intro
  expanded _ _ _ _ _ _ := ⟨True.intro, fun _ _ => .inl True.intro⟩

/-- Anything may be walked; the rules are those that the policies choose. -/
def Scope.all (policy : Side → Env) : Scope where
  policy := policy
  draws := True
  body _ _ := True
  rule side := (policy side).ruleOf
  sideRules _ _ := .inl True.intro
  elts _ _ _ := .inl True.intro
  chosen _ _ _ _ hr := ⟨_, rfl, hr⟩
  quiet _ _ _ _ _ := .inl True.intro
  expanded _ _ _ _ _ _ := ⟨True.intro, fun _ _ => .inl True.intro⟩

/-! ### Changes -/

namespace Env

/-- A change that depends on the core of the environment only. -/
structure Local (act : EnvM α) : Prop where
  again : act e = .ok a e₁ → e₂.core = e.core → ∃ e₃, act e₂ = .ok a e₃ ∧ e₃.core = e₁.core

namespace Local

theorem pure (a : α) : Local (Pure.pure a : EnvM α) := ⟨fun h hc => by cases h; exact ⟨_, rfl, hc⟩⟩

theorem throw (f : Fault) : Local (MonadExcept.throw f : EnvM α) := ⟨nofun⟩

theorem bind {x : EnvM α} {k : α → EnvM β} (hx : Local x) (hk : ∀ a, Local (k a)) :
    Local (x >>= k) := by
  refine ⟨fun h hc => ?_⟩
  obtain ⟨a, e₁, ha, h₁⟩ := EnvM.bind_ok h
  obtain ⟨e₃, ha', hc₁⟩ := hx.again ha hc
  obtain ⟨e₄, hb, hc₂⟩ := (hk a).again h₁ hc₁
  refine ⟨e₄, ?_, hc₂⟩
  rw [show (x >>= k) _ = EStateM.bind x k _ from rfl, EStateM.bind, ha']
  exact hb

/-- What is read of an environment is part of its core. -/
theorem get {k : Env → EnvM α} (hk : ∀ e, Local (k e))
    (hc : ∀ e e₂ : Env, e₂.core = e.core → k e₂ = k e) : Local ((MonadState.get : EnvM Env) >>= k) := by
  refine ⟨fun {e a e₁ e₂} h hc₂ => ?_⟩
  obtain ⟨e₃, h₃, hc₃⟩ := (hk e).again (EnvM.get_ok h) hc₂
  exact ⟨e₃, by rw [← hc e e₂ hc₂] at h₃; exact h₃, hc₃⟩

theorem modify {f : Env → Env} (hf : ∀ e e₂ : Env, e₂.core = e.core → (f e₂).core = (f e).core) :
    Local (modify f : EnvM Unit) :=
  ⟨fun h hc => by cases h; exact ⟨_, rfl, hf _ _ hc⟩⟩

theorem ofExcept (x : Except Fault α) : Local (Env.ofExcept x) := by
  cases x with
  | ok a => exact pure a
  | error f => exact throw f

theorem newName (name : String) : Local (Env.newName name) := by
  refine ⟨fun h hc => ?_⟩
  cases h
  rw [eq_of_core hc]
  exact ⟨_, rfl, rfl⟩

theorem constName (name : String) : Local (Env.constName name) := by
  refine get (fun e => ?_) fun e e₂ hc => by rw [eq_of_core hc]
  split
  · exact newName name
  · exact pure name

theorem const (name : String) (type : Ty) : Local (Env.const name type) :=
  (ofExcept _).bind fun _ => pure _

theorem mkVar (v : Var) : Local (Env.mkVar v) := by
  refine get (fun e => ?_) fun e e₂ hc => by rw [eq_of_core hc]
  split
  · exact pure _
  · refine (constName _).bind fun _ => (const ..).bind fun _ => (modify ?_).bind fun _ => pure _
    intro e e₂ hc
    rw [eq_of_core hc]
    rfl

theorem getVar (v : Var) : Local (Env.getVar v) := by
  refine get (fun e => ?_) fun e e₂ hc => by rw [eq_of_core hc]
  split
  · exact pure _
  · exact throw _

theorem fresh (name : String) (type : Ty) : Local (Env.fresh name type) :=
  (newName name).bind fun _ => const ..

theorem declare (name : String) (dom : List TSort) (ran : TSort) :
    Local (Env.declare name dom ran) := by
  refine get (fun e => ?_) fun e e₂ hc => by rw [eq_of_core hc]
  split
  · exact pure _
  · refine (modify ?_).bind fun _ => pure _
    intro e e₂ hc
    rw [eq_of_core hc]
    rfl

theorem getCalled (name : String) : Local (Env.getCalled name) := by
  refine get (fun e => get (fun e' => ?_) fun e e₂ hc => by rw [eq_of_core hc]) fun e e₂ hc => by
    rw [eq_of_core hc]; rfl
  split
  · exact pure _
  · refine (constName _).bind fun _ => (modify ?_).bind fun _ => pure _
    intro e e₂ hc
    rw [eq_of_core hc]
    rfl

theorem handler (s : Sub) : Local (Env.handler s) := by
  have hkeep (h : Handler) : Local (Env.handler.keep s h) := by
    refine (modify ?_).bind fun _ => pure h
    intro e e₂ hc
    rw [eq_of_core hc]
    rfl
  refine get (fun e => ?_) fun e e₂ hc => by rw [eq_of_core hc]
  split
  · exact pure _
  split
  · exact hkeep _
  split
  · exact hkeep _
  · exact throw _

theorem note (kind : WeakeningKind) (tid detail : String) : Local (Env.note kind tid detail) :=
  modify fun e e₂ hc => by rw [eq_of_core hc]; rfl

end Local

/-- A change that keeps what there is, and that gives the same again in a later environment, without
changing it. -/
structure Steady (S : Scope) (side : Side) (act : EnvM α) : Prop extends Local act where
  kept {e : Env} : e.policy = S.policy side → e.Kept (S.rule side) Eq (ending act e)
  settled : ¬ S.draws → act e = .ok a e₁ → e₁.Before z → ∃ z', act z = .ok a z' ∧ z'.core = z.core

theorem kept_names {R : String → CallRule → Prop} (e : Env) (names : NameSupply) :
    e.Kept R Eq { e with names } :=
  ⟨⟨rfl, .refl _, .refl _, .refl _, .refl _, .refl _⟩, rfl, rfl, rfl, .inl, .inl, .inl⟩

/-- A name is given, and at most the supply of names changes. -/
theorem constName_eq (name : String) (e : Env) :
    ∃ full names, constName name e = .ok full { e with names } := by
  show ∃ full names, (if e.freshen = true then newName name else pure name) e = .ok full { e with names }
  split
  · exact ⟨_, _, rfl⟩
  · exact ⟨_, _, rfl⟩

theorem mkVar_of_lookup {e : Env} {v : Var} {t : SomeTerm} (h : e.vars.lookup v = some t) :
    mkVar v e = .ok t e := by
  rw [mkVar, EnvM.get_bind, h]
  rfl

/-- A variable without a term gets a constant, unless its type has no sort. -/
theorem mkVar_of_none {e e₁ : Env} {v : Var} {full : String} (h : e.vars.lookup v = none)
    (hn : constName v.name e = .ok full e₁) : mkVar v e = match v.type.sort with
      | .ok s => .ok ⟨s, .const full s⟩ { e₁ with vars := Table.put e₁.vars v ⟨s, .const full s⟩ }
      | .error f => .error f e₁ := by
  rw [mkVar, EnvM.get_bind, h]
  refine (EnvM.bind_of_ok hn).trans ?_
  unfold const
  cases v.type.sort <;> rfl

theorem mkInitVar_of_lookup {e : Env} {v : Var} {t : SomeTerm} (h : e.inits.lookup v = some t) :
    mkInitVar v e = .ok t e := by
  rw [mkInitVar, EnvM.get_bind, h]
  rfl

theorem mkInitVar_of_none {e e₁ : Env} {v : Var} {full : String} (h : e.inits.lookup v = none)
    (hn : constName (initFront ++ v.name) e = .ok full e₁) : mkInitVar v e = match v.type.sort with
      | .ok s => .ok ⟨s, .const full s⟩ { e₁ with inits := Table.put e₁.inits v ⟨s, .const full s⟩ }
      | .error f => .error f e₁ := by
  rw [mkInitVar, EnvM.get_bind, h]
  refine (EnvM.bind_of_ok hn).trans ?_
  unfold const
  cases v.type.sort <;> rfl

theorem getCalled_of_lookup {e : Env} {name : String} {t : Term .bool}
    (h : e.called.lookup (e.canonical name) = some t) : getCalled name e = .ok t e := by
  rw [getCalled, EnvM.get_bind, EnvM.get_bind, h]
  rfl

theorem getCalled_of_none {e : Env} {name : String}
    (h : e.called.lookup (e.canonical name) = none) : ∃ full names, getCalled name e =
      .ok (.const full .bool) { e with
        names, called := Table.put e.called (e.canonical name) (.const full .bool) } := by
  obtain ⟨full, names, hname⟩ := constName_eq (calledFront ++ e.canonical name) e
  refine ⟨full, names, ?_⟩
  rw [getCalled, EnvM.get_bind, EnvM.get_bind, h]
  exact EnvM.bind_of_ok hname

/-- The flag of a function is kept from now on, and no other one is new. -/
theorem getCalled_ok {e e' : Env} {name : String} {p : Term .bool} (h : getCalled name e = .ok p e') :
    ∃ names called, e' = { e with names, called } ∧ called.lookup (e.canonical name) = some p ∧
      Table.Grows e.called called ∧
      ∀ f q, called.lookup f = some q → f = e.canonical name ∨ e.called.lookup f = some q := by
  cases hc : e.called.lookup (e.canonical name) with
  | some q =>
    cases (getCalled_of_lookup hc).symm.trans h
    exact ⟨_, _, rfl, hc, .refl _, fun _ _ => .inr⟩
  | none =>
    obtain ⟨full, names, hnew⟩ := getCalled_of_none hc
    cases hnew.symm.trans h
    refine ⟨_, _, rfl, Table.lookup_put_self .., Table.grows_put hc _, fun f q hf => ?_⟩
    by_cases hname : f = e.canonical name
    · exact .inl hname
    · exact .inr (Table.lookup_put_of_ne _ _ hname ▸ hf)

theorem declare_of_lookup {e : Env} {name : String} {dom : List TSort} {ran : TSort} {f : FuncDecl}
    (h : e.funcs.lookup name = some f) : declare name dom ran e = .ok f e := by
  rw [declare, EnvM.get_bind, h]
  rfl

theorem declare_of_none {e : Env} {name : String} {dom : List TSort} {ran : TSort}
    (h : e.funcs.lookup name = none) : declare name dom ran e =
      .ok ⟨name, dom, ran⟩ { e with funcs := Table.put e.funcs name ⟨name, dom, ran⟩ } := by
  rw [declare, EnvM.get_bind, h]
  rfl

theorem handler_of_lookup {e : Env} {s : Sub} {h : Handler} (hh : e.handlers.lookup s.tid = some h) :
    handler s e = .ok h e := by
  rw [handler, EnvM.get_bind, hh]
  rfl

theorem handler_of_none {e : Env} {s : Sub} (hh : e.handlers.lookup s.tid = none) :
    handler s e = (match e.chosen? s with
      | some r => handler.keep s ⟨r, s⟩
      | none => throw .noDefaultSpec : EnvM Handler) e := by
  rw [handler, EnvM.get_bind, hh, chosen?]
  cases e.rules.find? (·.applies e.arch s) with
  | some rule => rfl
  | none => cases e.fallback <;> rfl

namespace Steady

variable {S : Scope} {side : Side}

theorem mkVar (v : Var) : Steady S side (Env.mkVar v) where
  toLocal := .mkVar v
  kept {e} _ := by
    cases hv : e.vars.lookup v with
    | some t =>
      rw [ending, mkVar_of_lookup hv]
      exact .refl e
    | none =>
      obtain ⟨full, names, hname⟩ := constName_eq v.name e
      have hn := kept_names (R := S.rule side) e names
      rw [ending, mkVar_of_none hv hname]
      cases v.type.sort with
      | error f => exact hn
      | ok s =>
        refine hn.trans ⟨⟨rfl, Table.grows_put hv _, .refl _, .refl _, .refl _, .refl _⟩, rfl, rfl, rfl,
          fun {u t} hu => ?_, .inl, .inl⟩
        by_cases huv : u = v
        · subst huv
          cases (Table.lookup_put_self ..).symm.trans hu
          exact .inr ⟨_, _, rfl⟩
        · exact .inl ((Table.lookup_put_of_ne _ _ huv).symm.trans hu)
  settled _ h hz := by
    refine ⟨_, mkVar_of_lookup (hz.vars _ _ ?_), rfl⟩
    obtain ⟨hv, rfl⟩ | ⟨n, s, e₂, -, -, -, -, rfl⟩ := mkVar_ok h
    · exact hv
    · exact Table.lookup_put_self ..

theorem getVar (v : Var) : Steady S side (Env.getVar v) where
  toLocal := .getVar v
  kept {e} _ := by
    cases hv : e.vars.lookup v with
    | some t =>
      rw [ending, getVar_of_lookup hv]
      exact .refl e
    | none =>
      rw [ending, show Env.getVar v e = .error (.translation (.unbound v.name)) e from ?_]
      · exact .refl e
      rw [Env.getVar, EnvM.get_bind, hv]
      rfl
  settled _ h hz := by
    obtain ⟨hv, rfl⟩ := getVar_ok h
    exact ⟨_, getVar_of_lookup (hz.vars _ _ hv), rfl⟩

theorem getCalled (name : String) : Steady S side (Env.getCalled name) where
  toLocal := .getCalled name
  kept {e} _ := by
    cases hc : e.called.lookup (e.canonical name) with
    | some t =>
      rw [ending, getCalled_of_lookup hc]
      exact .refl e
    | none =>
      obtain ⟨full, names, h⟩ := getCalled_of_none hc
      rw [ending, h]
      refine (kept_names (R := S.rule side) e names).trans ⟨⟨rfl, .refl _, .refl _,
        Table.grows_put hc _, .refl _, .refl _⟩, rfl, rfl, rfl, .inl, fun {n p} hn => ?_, .inl⟩
      by_cases hnc : n = e.canonical name
      · subst hnc
        cases (Table.lookup_put_self ..).symm.trans hn
        exact .inr ⟨_, rfl⟩
      · exact .inl ((Table.lookup_put_of_ne _ _ hnc).symm.trans hn)
  settled {e a e₁ z} _ h hz := by
    have hcanon : z.policy.canonical name = e₁.policy.canonical name := by rw [hz.policy]
    refine ⟨_, getCalled_of_lookup (t := a) ?_, rfl⟩
    rw [show z.canonical name = e₁.canonical name from hcanon]
    refine hz.called _ _ ?_
    cases hc : e.called.lookup (e.canonical name) with
    | some t =>
      rw [getCalled_of_lookup hc] at h
      cases h
      exact hc
    | none =>
      obtain ⟨full, names, h'⟩ := getCalled_of_none hc
      rw [h'] at h
      cases h
      exact Table.lookup_put_self ..

theorem declare (name : String) (dom : List TSort) (ran : TSort) :
    Steady S side (Env.declare name dom ran) where
  toLocal := .declare name dom ran
  kept {e} _ := by
    cases hf : e.funcs.lookup name with
    | some f =>
      rw [ending, declare_of_lookup hf]
      exact .refl e
    | none =>
      rw [ending, declare_of_none hf]
      exact ⟨⟨rfl, .refl _, .refl _, .refl _, Table.grows_put hf _, .refl _⟩, rfl, rfl, rfl, .inl,
        .inl, .inl⟩
  settled {e a e₁ z} _ h hz := by
    refine ⟨_, declare_of_lookup (f := a) (hz.funcs _ _ ?_), rfl⟩
    cases hf : e.funcs.lookup name with
    | some f =>
      rw [declare_of_lookup hf] at h
      cases h
      exact hf
    | none =>
      rw [declare_of_none hf] at h
      cases h
      exact Table.lookup_put_self ..

/-- The rule for a callee is chosen once. -/
theorem handler {s : Sub} (hs : ∀ r, (S.policy side).chosen? s = some r → S.rule side s.tid r) :
    Steady S side (Env.handler s) where
  toLocal := .handler s
  kept {e} he := by
    have hchosen : e.chosen? s = (S.policy side).chosen? s := by rw [← he]; rfl
    cases hh : e.handlers.lookup s.tid with
    | some h =>
      rw [ending, handler_of_lookup hh]
      exact .refl e
    | none =>
      rw [ending, handler_of_none hh]
      cases hr : e.chosen? s with
      | none => exact .refl e
      | some r =>
        refine ⟨⟨rfl, .refl _, .refl _, .refl _, .refl _, Table.grows_put hh _⟩, rfl, rfl, rfl, .inl,
          .inl, fun {t h} ht => ?_⟩
        by_cases hts : t = s.tid
        · subst hts
          cases (Table.lookup_put_self ..).symm.trans ht
          exact .inr (hs r (hchosen.symm.trans hr))
        · exact .inl ((Table.lookup_put_of_ne _ _ hts).symm.trans ht)
  settled {e a e₁ z} _ h hz := by
    refine ⟨_, handler_of_lookup (h := a) (hz.handlers _ _ ?_), rfl⟩
    cases hh : e.handlers.lookup s.tid with
    | some h' =>
      rw [handler_of_lookup hh] at h
      cases h
      exact hh
    | none =>
      rw [handler_of_none hh] at h
      cases hr : e.chosen? s with
      | none =>
        rw [hr] at h
        cases h
      | some r =>
        rw [hr] at h
        cases h
        exact Table.lookup_put_self ..

theorem note (kind : WeakeningKind) (tid detail : String) : Steady S side (Env.note kind tid detail) where
  toLocal := .note kind tid detail
  kept _ := .of_core rfl rfl rfl rfl
  settled _ h _ := by
    cases h
    exact ⟨_, rfl, rfl⟩

/-- A constant that has not been used before is drawn only where names may be drawn. -/
theorem fresh (hS : S.draws) (name : String) (type : Ty) : Steady S side (Env.fresh name type) where
  toLocal := .fresh name type
  kept {e} _ := by
    have h : ending (Env.fresh name type) e = { e with names := (e.names.fresh name).2 } := by
      unfold ending Env.fresh const
      cases type.sort <;> rfl
    rw [h]
    exact kept_names e _
  settled hn := absurd hS hn

/-- The policies stay. -/
theorem policy {act : EnvM α} (h : ∀ e : Env, Steady (.any fun _ => e.policy) side act) (e : Env) :
    (ending act e).policy = e.policy := ((h e).kept rfl).policy

end Steady

end Env

end Precond

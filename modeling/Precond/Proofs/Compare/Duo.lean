import Precond.Compare.Basic
import Precond.Proofs.Compare.Mirror
import Precond.Proofs.Walk.Respects
import Precond.Proofs.Walk.Sparing

/-! Two walks of one subroutine, one of each program, side by side. The environments follow each other:
variables are bound alike, and the same functions are declared and the same rules chosen
(`Duo.Facing`). Actions of both programs that succeed from such environments leave such environments,
and what they give is related (`Duo.Abreast`): terms have agreeing values wherever one program shows
the state of the other, and constraints are paired. -/

namespace Precond

open IR Precond.Flow Walk

/-- Two walks of a subroutine: the environments at their starts, the constraints they start from, and
the goals that need not be proved. -/
structure Duo where
  base : Side → Env
  sub : Sub
  spared : String → Bool
  ret : Constr
  ret' : Constr
  tidy (side : Side) : (base side).Tidy

namespace Duo

variable (D : Duo)

/-- Flags are tied that are compared from the start. -/
def mirror : Mirror where
  vars side := (D.base side).vars
  flag side n := ∃ f e, (D.base side).Gives e ∧ e.Gave (calledFront ++ f) n
  tied n n' := ∃ f, (D.base .orig).called.lookup f = some (.const n .bool) ∧
    (D.base .mod).called.lookup f = some (.const n' .bool)
  spared := D.spared
  separate side := (D.tidy side).named.separate
  sorted side hv := by
    obtain ⟨n, s, rfl, hs, -⟩ := (D.tidy side).vars hv
    exact Ty.sort_ne_bool hs
  flagged := by
    rintro n n' ⟨f, hf, hf'⟩
    obtain ⟨k, hk, hg⟩ := (D.tidy .orig).called hf
    obtain ⟨k', hk', hg'⟩ := (D.tidy .mod).called hf'
    cases hk
    cases hk'
    exact ⟨⟨f, _, .refl _, hg⟩, f, _, .refl _, hg'⟩

def arch : Arch := (D.base .orig).arch

/-- The names that functions are called by. -/
def callees : List String := PairRel.callees (D.base .orig) D.sub

/-- The terms have agreeing values where the second program shows the state of the first one. -/
def Alike (t t' : SomeTerm) : Prop :=
  ∀ m₁ m₂, D.mirror.Shows m₁ m₂ → (t.value m₁).Agrees (t'.value m₂)

/-- The terms of a variable. -/
def Binds (v : Var) (t t' : SomeTerm) : Prop :=
  (D.base .orig).vars.lookup v = some t ∧ (D.base .mod).vars.lookup v = some t'

abbrev Pair (c c' : Constr) : Prop := D.mirror.Paired D.ret D.ret' c c'

/-- The variables of the subroutine and the registers. -/
def Shared (v : Var) : Prop := v ∈ D.sub.vars ∨ v ∈ D.arch.registers

/-- The results of called functions, by their names. -/
def Declares (n : String) (f : FuncDecl) : Prop := ∃ callee ∈ D.callees, ∃ r ∈ D.arch.callerSaved,
  n = callee ++ "_" ++ r.name ∧ f.name = n ∧ r.type.sort = .ok f.ran

/-- The rules for calls when none are asked for, other than the one for unknown results. -/
def usual : List CallRule := [.verifierAssume, .empty, .chaosCallerSaved, .default]

def Handles (h : Handler) : Prop := h.rule ∈ usual ∧ h.callee.name ∈ D.callees

/-- What both programs are given is alike: the programs, the policies, and variables that are bound. The
first program takes for granted what the second one has to establish, and nothing else. -/
structure Fair : Prop where
  known_arch : D.arch ∈ Arch.all
  arch : (D.base .mod).arch = D.arch
  subs : (D.base .mod).subs = (D.base .orig).subs
  rules (side : Side) : (D.base side).rules = .inline [] :: CallRule.standard
  fallback (side : Side) : (D.base side).fallback = some .default
  reach (side : Side) : (D.base side).reach = []
  renames (side : Side) : (D.base side).renames = []
  unrollBound : (D.base .mod).unrollBound = (D.base .orig).unrollBound
  useInputRegs : (D.base .mod).useInputRegs = (D.base .orig).useInputRegs
  stack : (D.base .mod).stack = (D.base .orig).stack
  heap : (D.base .mod).heap = (D.base .orig).heap
  isLocal (side : Side) : ∀ r ∈ (D.base side).sideRules, r.isLocal
  trusts : ∀ r ∈ (D.base .orig).sideRules, r.trusts
  nonNull : .nonNull access .verify ∈ (D.base .mod).sideRules →
    .nonNull access .assume ∈ (D.base .orig).sideRules
  validAccess : .validAccess access .verify ∈ (D.base .mod).sideRules →
    .validAccess access .assume ∈ (D.base .orig).sideRules
  spares : Spares D.spared (D.base .mod).sideRules
  bound : D.Shared v → ∃ t t', D.Binds v t t'
  known : b ∈ D.sub.blks → e ∈ b.elts → e.known
  determined : n ∈ D.callees → ¬ CallRule.startsWith CallRule.nondetFront n
  free : n ∈ D.callees → r ∈ D.arch.callerSaved → r.type.sort = .ok s →
    ∀ side, ¬ D.mirror.Owns side (n ++ "_" ++ r.name) s

/-- A walk that has come so far from its start. -/
structure Follows (side : Side) (e : Env) : Prop where
  policy : e.policy = (D.base side).policy
  unrollBound : e.unrollBound = (D.base side).unrollBound
  vars : e.vars = (D.base side).vars
  gives : (D.base side).Gives e
  called : Table.Grows (D.base side).called e.called
  funcs : e.funcs.lookup n = some f → D.Declares n f
  handlers : e.handlers.lookup t = some h → D.Handles h

/-- The walks are at one place, and what they keep there is paired. -/
structure Frames (f f' : Frame) : Prop where
  graph : f'.graph = f.graph
  built : f.graph = some g → Graph.ofSub D.sub = .ok g
  pred : f'.pred = f.pred
  unroll : f'.unroll = f.unroll
  retPost : Option.Rel D.Pair f.retPost f'.retPost
  targets (t : String) : Option.Rel D.Pair (f.targets.lookup t) (f'.targets.lookup t)
  preconds (c : String × Unroll) : Option.Rel D.Pair f.preconds[c]? f'.preconds[c]?

/-- The environments of the two walks. -/
structure Facing (e e' : Env) : Prop where
  orig : D.Follows .orig e
  mod : D.Follows .mod e'
  funcs (n : String) : e'.funcs.lookup n = e.funcs.lookup n
  handlers (t : String) : e'.handlers.lookup t = e.handlers.lookup t
  frames : D.Frames e.frame e'.frame

/-- Where both actions succeed, the environments face each other still, and the results are related. -/
structure Abreast (A : α → β → Prop) (x : Walk α) (x' : Walk β) : Prop where
  run {w v w₁ v₁ : World} {a : α} {b : β} : D.Facing (w.env .orig) (v.env .mod) →
    x w = .ok a w₁ → x' v = .ok b v₁ → D.Facing (w₁.env .orig) (v₁.env .mod) ∧ A a b

/-- Replacements of the variable with this key by a term of its sort, or of a call flag by the truth. -/
inductive Keyed (side : Side) : Option Var → SomeTerm × SomeTerm → Prop
  | var : (D.base side).vars.lookup v = some old → new.1 = old.1 → Keyed side (some v) (old, new)
  | flag : Keyed side none (⟨_, .const n .bool⟩, ⟨_, .truth true⟩)

/-- Replacements in both programs. -/
structure Moving (key : Option Var) (p p' : SomeTerm × SomeTerm) : Prop where
  orig : D.Keyed .orig key p
  mod : D.Keyed .mod key p'
  moves : D.mirror.Moves p p'

/-- What is found for each of some keys on both sides is related. -/
inductive Each (A : γ → α → β → Prop) : List γ → List α → List β → Prop
  | nil : Each A [] [] []
  | cons : A x a b → Each A xs as bs → Each A (x :: xs) (a :: as) (b :: bs)

variable {D : Duo} {e e' : Env} {t t' : SomeTerm} {v : Var} {c c' d d' : Constr} {side : Side}

@[simp] theorem mirror_vars (side : Side) : D.mirror.vars side = (D.base side).vars := rfl

@[simp] theorem mirror_spared : D.mirror.spared = D.spared := rfl

/-! ### Environments -/

namespace Follows

theorem arch (h : D.Follows side e) : e.arch = (D.base side).arch := by
  have hp := congrArg Env.arch h.policy
  exact hp

theorem subs (h : D.Follows side e) : e.subs = (D.base side).subs := by
  have hp := congrArg Env.subs h.policy
  exact hp

theorem rules (h : D.Follows side e) : e.rules = (D.base side).rules := by
  have hp := congrArg Env.rules h.policy
  exact hp

theorem fallback (h : D.Follows side e) : e.fallback = (D.base side).fallback := by
  have hp := congrArg Env.fallback h.policy
  exact hp

theorem reach (h : D.Follows side e) : e.reach = (D.base side).reach := by
  have hp := congrArg Env.reach h.policy
  exact hp

theorem renames (h : D.Follows side e) : e.renames = (D.base side).renames := by
  have hp := congrArg Env.renames h.policy
  exact hp

theorem useInputRegs (h : D.Follows side e) : e.useInputRegs = (D.base side).useInputRegs := by
  have hp := congrArg Env.useInputRegs h.policy
  exact hp

theorem sideRules (h : D.Follows side e) : e.sideRules = (D.base side).sideRules := by
  have hp := congrArg Env.sideRules h.policy
  exact hp

theorem regions (h : D.Follows side e) :
    (⟨e.stack, e.heap⟩ : Regions) = ⟨(D.base side).stack, (D.base side).heap⟩ := by
  have hs := congrArg Env.stack h.policy
  have hh := congrArg Env.heap h.policy
  exact congr (congrArg Regions.mk hs) hh

theorem tidy (h : D.Follows side e) : e.Tidy := h.gives.tidy (D.tidy side)

theorem drawn {names : NameSupply} (h : D.Follows side e) (hs : names.space = e.names.space)
    (hn : e.names.next ≤ names.next) : D.Follows side { e with names } :=
  { h with gives := h.gives.trans (.drawn hs hn) }

/-- Where the walk is and what it has noted is not told. -/
theorem moved (h : D.Follows side e) (frame : Frame) (weakenings : List Weakening) (attached : Bool) :
    D.Follows side { e with frame, weakenings, attached } :=
  { h with gives := h.gives.trans (.of_eq rfl rfl rfl rfl rfl rfl) }

theorem canonical (hD : D.Fair) (h : D.Follows side e) (name : String) : e.canonical name = name := by
  rw [Env.canonical, h.renames, hD.renames]
  rfl

end Follows

/-- A copy of a block has been settled. -/
theorem Frames.settled {f f' : Frame} (h : D.Frames f f') (hc : D.Pair c c') (tid : String) :
    D.Frames { f with preconds := f.preconds.insert (tid, f.unroll) c }
      { f' with preconds := f'.preconds.insert (tid, f'.unroll) c' } :=
  { h with
    preconds := fun k => by
      rw [h.unroll, Std.HashMap.getElem?_insert, Std.HashMap.getElem?_insert]
      split
      · exact .some hc
      · exact h.preconds k }

namespace Facing

/-- Names have been drawn for expressions. -/
theorem drawn {w v w₁ v₁ : World} (h : D.Facing (w.env .orig) (v.env .mod)) (hw : w.Drawn .orig w₁)
    (hv : v.Drawn .mod v₁) : D.Facing (w₁.env .orig) (v₁.env .mod) := by
  obtain ⟨names, he, hs, hn⟩ := hw.env
  obtain ⟨names', he', hs', hn'⟩ := hv.env
  rw [he, he']
  exact ⟨h.orig.drawn hs hn, h.mod.drawn hs' hn', h.funcs, h.handlers, h.frames⟩

theorem moved (h : D.Facing e e') {f f' : Frame} (hf : D.Frames f f') (ws ws' : List Weakening)
    (a a' : Bool) : D.Facing { e with frame := f, weakenings := ws, attached := a }
      { e' with frame := f', weakenings := ws', attached := a' } where
  orig := h.orig.moved f ws a
  mod := h.mod.moved f' ws' a'
  funcs := h.funcs
  handlers := h.handlers
  frames := hf

end Facing

/-! ### Terms -/

theorem Binds.alike (h : D.Binds v t t') : D.Alike t t' := by
  intro m₁ m₂ hm
  have hv := hm.store v
  rwa [mirror_vars, mirror_vars, Model.store_of_lookup h.1, Model.store_of_lookup h.2] at hv

/-- Words that are alike have one value. -/
theorem Alike.word {w w' : Nat} {x : Term (.bv w)} {y : Term (.bv w')} (h : D.Alike ⟨_, x⟩ ⟨_, y⟩)
    {m₁ m₂ : Model} (hm : D.mirror.Shows m₁ m₂) :
    Value.word (y.bits m₂) = Value.word (x.bits m₁) := (h m₁ m₂ hm).word

/-- Conditions of terms that are alike. -/
theorem Alike.condition (h : D.Alike t t') {p p' : Term .bool} (hp : t.condition = .ok p)
    (hp' : t'.condition = .ok p') {m₁ m₂ : Model} (hm : D.mirror.Shows m₁ m₂) :
    p.holds m₁ = p'.holds m₂ := by
  have hz := (h m₁ m₂ hm).nonZero?
  rw [SomeTerm.condition_value hp, SomeTerm.condition_value hp'] at hz
  exact Option.some.inj hz

/-! ### Actions -/

namespace Abreast

variable {A : α → β → Prop} {B : γ → δ → Prop} {x : Walk α} {x' : Walk β}

theorem pure {a : α} {b : β} (h : A a b) : D.Abreast A (Pure.pure a) (Pure.pure b) :=
  ⟨fun hf ha hb => by cases ha; cases hb; exact ⟨hf, h⟩⟩

theorem throw (f : Fault) : D.Abreast A (MonadExcept.throw f) x' := ⟨fun _ ha => nomatch ha⟩

theorem bind {k : α → Walk γ} {k' : β → Walk δ} (hx : D.Abreast A x x')
    (hk : ∀ a b, A a b → D.Abreast B (k a) (k' b)) : D.Abreast B (x >>= k) (x' >>= k') := by
  refine ⟨fun hf hc hd => ?_⟩
  obtain ⟨a, w₁, ha, h₁⟩ := bind_ok hc
  obtain ⟨b, v₁, hb, h₂⟩ := bind_ok hd
  obtain ⟨hf₁, hA⟩ := hx.run hf ha hb
  exact (hk a b hA).run hf₁ h₁ h₂

theorem mono {A' : α → β → Prop} (h : D.Abreast A x x') (hA : ∀ a b, A a b → A' a b) :
    D.Abreast A' x x' := ⟨fun hf ha hb => (h.run hf ha hb).imp_right (hA _ _)⟩

theorem ite {p q : Prop} [Decidable p] [Decidable q] {y : Walk α} {y' : Walk β} (hpq : p ↔ q)
    (hx : p → q → D.Abreast A x x') (hy : ¬ p → ¬ q → D.Abreast A y y') :
    D.Abreast A (if p then x else y) (if q then x' else y') := by
  by_cases hp : p
  · rw [if_pos hp, if_pos (hpq.mp hp)]
    exact hx hp (hpq.mp hp)
  · rw [if_neg hp, if_neg fun hq => hp (hpq.mpr hq)]
    exact hy hp fun hq => hp (hpq.mpr hq)

theorem lift {x : Except Fault α} {x' : Except Fault β} (h : ∀ a b, x = .ok a → x' = .ok b → A a b) :
    D.Abreast A (liftM x) (liftM x') := by
  refine ⟨fun hf ha hb => ?_⟩
  obtain ⟨rfl, rfl⟩ := ofExcept_ok ha
  obtain ⟨rfl, rfl⟩ := ofExcept_ok hb
  exact ⟨hf, h _ _ rfl rfl⟩

theorem present {o : Option α} {o' : Option β} (h : Option.Rel A o o') :
    D.Abreast A (Walk.present o) (Walk.present o') := by
  cases h with
  | some h => exact pure h
  | none => exact throw _

/-- What is read of the environments. -/
theorem env {k : Env → Walk α} {k' : Env → Walk β}
    (h : ∀ e e', D.Facing e e' → D.Abreast A (k e) (k' e')) :
    D.Abreast A (Walk.env .orig >>= k) (Walk.env .mod >>= k') :=
  ⟨fun hf ha hb => (h _ _ hf).run hf ha hb⟩

theorem mapM {xs : List γ} {f : γ → Walk α} {f' : γ → Walk β} {A : γ → α → β → Prop}
    (h : ∀ x ∈ xs, D.Abreast (A x) (f x) (f' x)) :
    D.Abreast (Each A xs) (xs.mapM f) (xs.mapM f') := by
  induction xs with
  | nil => exact pure .nil
  | cons x xs ih =>
    rw [List.mapM_cons, List.mapM_cons]
    exact (h x List.mem_cons_self).bind fun a b hab =>
      (ih fun y hy => h y (List.mem_cons_of_mem x hy)).bind fun as bs habs => pure (.cons hab habs)

/-- Changes of both environments. -/
theorem on {act : EnvM α} {act' : EnvM β}
    (h : ∀ {e e' e₁ e₁' a b}, D.Facing e e' → act e = .ok a e₁ → act' e' = .ok b e₁' →
      D.Facing e₁ e₁' ∧ A a b) : D.Abreast A (Walk.on .orig act) (Walk.on .mod act') := by
  refine ⟨fun hf ha hb => ?_⟩
  obtain ⟨e, he, rfl⟩ := on_ok ha
  obtain ⟨e', he', rfl⟩ := on_ok hb
  rw [World.env_setEnv, World.env_setEnv]
  exact h hf he he'

theorem note (kind kind' : WeakeningKind) (tid tid' detail detail' : String) :
    D.Abreast (fun _ _ => True) (Walk.on .orig (Env.note kind tid detail))
      (Walk.on .mod (Env.note kind' tid' detail')) := by
  refine on fun {e e' e₁ e₁' a b} hf ha hb => ?_
  cases ha
  cases hb
  exact ⟨hf.moved hf.frames _ _ e.attached e'.attached, True.intro⟩

/-- The walks are somewhere else. -/
theorem move {f f' : Env → Env} (h : ∀ e e', D.Facing e e' → D.Facing (f e) (f' e')) :
    D.Abreast (fun _ _ => True) (Walk.modifyEnv .orig f) (Walk.modifyEnv .mod f') := by
  refine ⟨fun hf ha hb => ?_⟩
  obtain rfl := modifyEnv_ok ha
  obtain rfl := modifyEnv_ok hb
  rw [World.env_setEnv, World.env_setEnv]
  exact ⟨h _ _ hf, True.intro⟩

/-- An action that leaves the environments as they are, and of what it gives something is known. -/
theorem makes {Q : α → Prop} {R : β → Prop}
    (h : ∀ {w a w₁}, x w = .ok a w₁ → (∀ side, w₁.env side = w.env side) ∧ Q a)
    (h' : ∀ {v b v₁}, x' v = .ok b v₁ → (∀ side, v₁.env side = v.env side) ∧ R b) :
    D.Abreast (fun a b => Q a ∧ R b) x x' := by
  refine ⟨fun hf ha hb => ?_⟩
  obtain ⟨hw, hQ⟩ := h ha
  obtain ⟨hv, hR⟩ := h' hb
  rw [hw, hv]
  exact ⟨hf, hQ, hR⟩

/-- A variable that is bound from the start. -/
theorem mkVar (hD : D.Fair) (hv : D.Shared v) :
    D.Abreast (D.Binds v) (Walk.on .orig (Env.mkVar v)) (Walk.on .mod (Env.mkVar v)) := by
  obtain ⟨t, t', ht⟩ := hD.bound hv
  refine on fun hf ha hb => ?_
  rw [Env.mkVar_of_lookup (hf.orig.vars ▸ ht.1)] at ha
  rw [Env.mkVar_of_lookup (hf.mod.vars ▸ ht.2)] at hb
  cases ha
  cases hb
  exact ⟨hf, ht⟩

end Abreast

end Duo

end Precond

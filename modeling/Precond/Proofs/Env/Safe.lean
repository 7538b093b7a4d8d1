import Precond.Proofs.Constraint.Formula
import Precond.Proofs.Env.Kept
import Precond.Proofs.Run.Typing
import Precond.Proofs.Term.Contained

/-! Environments in which what the walk takes for granted holds. Under safe policies every function
that summaries are made of has one signature (`Env.Safe`), and in a fitting state everything stands
for terms of its sort and all constraints of the frame have formulas (`Env.Fits`). The operations on
an environment keep it fitting, and fail in a contained way only. -/

namespace Precond

open IR

/-- The variables that a summary under a rule reads, and those that it changes. -/
def Env.interface (e : Env) (rule : CallRule) (callee : Sub) : List Var × List Var :=
  match rule with
  | .argTerms =>
    (Walk.withIntents callee [.input, .both], Walk.withIntents callee [.output, .both])
  | .raxOut | .chaosRax => (e.inputRegs, e.arch.returnReg.toList)
  | .chaosCallerSaved => (e.inputRegs, e.arch.callerSaved)
  | .inline _ | .verifierError | .verifierAssume | .verifierNondet | .empty | .contract .. |
    .default => ([], [])

/-- A function that calls of a subroutine under a rule are summarized by. -/
structure Env.Summarizes (e : Env) (callee : Sub) (rule : CallRule) (out : Var) (f : FuncDecl) :
    Prop where
  output : out ∈ (e.interface rule callee).2
  name : f.name = e.canonical callee.name ++ "_" ++ out.name
  dom : (e.interface rule callee).1.mapM (·.type.sort) = .ok f.dom
  ran : out.type.sort = .ok f.ran

/-- A function that some call is summarized by. -/
def Env.Symbol (e : Env) (f : FuncDecl) : Prop :=
  ∃ tid rule out, e.chosen? (e.callee tid) = some rule ∧ e.Summarizes (e.callee tid) rule out f

/-- What walks under the policies of an environment take for granted. -/
structure Env.Safe (e : Env) : Prop where
  arch : e.arch ∈ Arch.all
  fallback : e.fallback = some .default
  subs : ∀ s ∈ e.subs, s.safeUnder e.sideRules
  symbols : e.Symbol f → e.Symbol g → f.name = g.name → f = g

theorem Env.Safe.policy {e : Env} (h : e.Safe) : e.policy.Safe where
  arch := h.arch
  fallback := h.fallback
  subs := h.subs
  symbols := fun ⟨_, _, _, hr, hs⟩ ⟨_, _, _, hr', hs'⟩ hname =>
    h.symbols ⟨_, _, _, hr, hs.output, hs.name, hs.dom, hs.ran⟩
      ⟨_, _, _, hr', hs'.output, hs'.name, hs'.dom, hs'.ran⟩ hname

/-- All constraints that a frame refers to have formulas. -/
structure Frame.Formal (f : Frame) : Prop where
  preconds {k : String × Flow.Unroll} : f.preconds[k]? = some c → c.Formal
  targets : f.targets.lookup t = some c → c.Formal
  retPost : f.retPost = some c → c.Formal

/-- The environment fits the policies: all terms are of the sorts of what they belong to. -/
structure Env.Fits (e p : Env) : Prop where
  policy : e.policy = p
  vars : e.vars.lookup v = some t → v.type.sort = .ok t.1
  inits : e.inits.lookup v = some t → v.type.sort = .ok t.1
  funcs : e.funcs.lookup n = some f → f.name = n ∧ p.Symbol f
  handlers : e.handlers.lookup t = some h →
    ∃ tid, h.callee = p.callee tid ∧ p.chosen? h.callee = some h.rule
  frame : e.frame.Formal

namespace Env

variable {p e e₁ : Env} {v : Var} {t : SomeTerm}

theorem Fits.arch (h : e.Fits p) : e.arch = p.arch := by rw [← h.policy]; rfl

theorem Fits.sideRules (h : e.Fits p) : e.sideRules = p.sideRules := by rw [← h.policy]; rfl

theorem Fits.findSub? (h : e.Fits p) (l : Label) : e.findSub? l = p.findSub? l := by
  rw [← h.policy]; rfl

theorem Fits.inputRegs (h : e.Fits p) : e.inputRegs = p.inputRegs := by rw [← h.policy]; rfl

theorem Fits.canonical (h : e.Fits p) (name : String) : e.canonical name = p.canonical name := by
  rw [← h.policy]; rfl

/-- A state of the same tables, at a place whose constraints have formulas. -/
theorem Fits.of_core (h : e.Fits p) (hc : e₁.core = e.core) (hf : e₁.frame.Formal) : e₁.Fits p := by
  rw [eq_of_core hc] at hf ⊢
  exact ⟨h.policy, h.vars, h.inits, h.funcs, h.handlers, hf⟩

theorem Fits.names (h : e.Fits p) (names : NameSupply) : ({ e with names } : Env).Fits p :=
  ⟨h.policy, h.vars, h.inits, h.funcs, h.handlers, h.frame⟩

/-- A variable may stand for a term of its sort. -/
theorem Fits.put (h : e.Fits p) (ht : v.type.sort = .ok t.1) :
    ({ e with vars := Table.put e.vars v t } : Env).Fits p := by
  refine ⟨h.policy, fun {u t'} hu => ?_, h.inits, h.funcs, h.handlers, h.frame⟩
  by_cases huv : u = v
  · subst huv
    cases (Table.lookup_put_self ..).symm.trans hu
    exact ht
  · exact h.vars ((Table.lookup_put_of_ne _ _ huv).symm.trans hu)

/-- A variable gets back what it stood for. -/
theorem Fits.restoreVar (h : e.Fits p) (h₁ : e₁.Fits p) (v : Var) :
    (restoreVar v (e.vars.lookup v) e₁).Fits p := by
  rw [restoreVar_vars]
  refine ⟨h₁.policy, fun {u t} hu => ?_, h₁.inits, h₁.funcs, h₁.handlers, h₁.frame⟩
  dsimp only at hu
  rw [lookup_restoreVar] at hu
  split at hu
  · rename_i huv
    exact huv ▸ h.vars hu
  · exact h₁.vars hu

/-- An operation keeps an environment fitting, with a result of which `Q` holds or with a contained
fault. -/
structure Tame (p : Env) (Q : α → Prop) (act : EnvM α) : Prop where
  ok {e e₁ : Env} {a : α} : e.Fits p → act e = .ok a e₁ → e₁.Fits p ∧ Q a
  error {e e₁ : Env} {f : Fault} : e.Fits p → act e = .error f e₁ → f.Contained

/-- The term is of the sort of the type. -/
abbrev OfType (type : Ty) (t : SomeTerm) : Prop := type.sort = .ok t.1

theorem Fits.mkVar_ok {s : TSort} (he : e.Fits p) (hs : v.type.sort = .ok s) :
    ∃ t e₁, mkVar v e = .ok t e₁ ∧ e₁.Fits p ∧ OfType v.type t := by
  cases hl : e.vars.lookup v with
  | some t => exact ⟨t, e, mkVar_of_lookup hl, he, he.vars hl⟩
  | none =>
    obtain ⟨full, names, hname⟩ := constName_eq v.name e
    exact ⟨_, _, (mkVar_of_none hl hname).trans (by rw [hs]), (he.names names).put hs, hs⟩

namespace Tame

theorem of_succeeds {act : EnvM α} {Q : α → Prop}
    (h : ∀ e : Env, e.Fits p → ∃ a e₁, act e = .ok a e₁ ∧ e₁.Fits p ∧ Q a) : Tame p Q act := by
  refine ⟨fun {e e₁ a} he ha => ?_, fun {e e₁ f} he hf => ?_⟩
  · obtain ⟨b, e₂, hb, hfits, hQ⟩ := h e he
    cases hb.symm.trans ha
    exact ⟨hfits, hQ⟩
  · obtain ⟨b, e₂, hb, -⟩ := h e he
    cases hb.symm.trans hf

theorem mkVar (hv : v.sorted) : Tame p (OfType v.type) (Env.mkVar v) :=
  have ⟨_, hs⟩ := Var.sorted_iff.mp hv
  of_succeeds fun _ he => he.mkVar_ok hs

theorem mkInitVar (hv : v.sorted) : Tame p (OfType v.type) (Env.mkInitVar v) := by
  obtain ⟨s, hs⟩ := Var.sorted_iff.mp hv
  refine of_succeeds fun e he => ?_
  cases hl : e.inits.lookup v with
  | some t => exact ⟨t, e, mkInitVar_of_lookup hl, he, he.inits hl⟩
  | none =>
    obtain ⟨full, names, hname⟩ := constName_eq (initFront ++ v.name) e
    refine ⟨_, _, (mkInitVar_of_none hl hname).trans (by rw [hs]), ?_, hs⟩
    refine ⟨he.policy, he.vars, fun {u t} hu => ?_, he.funcs, he.handlers, he.frame⟩
    by_cases huv : u = v
    · subst huv
      cases (Table.lookup_put_self ..).symm.trans hu
      exact hs
    · exact he.inits ((Table.lookup_put_of_ne _ _ huv).symm.trans hu)

theorem getVar (v : Var) : Tame p (OfType v.type) (Env.getVar v) := by
  refine ⟨fun {e e₁ t} he h => ?_, fun {e e₁ f} he h => ?_⟩
  · obtain ⟨hl, rfl⟩ := getVar_ok h
    exact ⟨he, he.vars hl⟩
  · rw [Env.getVar, EnvM.get_bind] at h
    cases hl : e.vars.lookup v with
    | some t =>
      rw [hl] at h
      cases h
    | none =>
      rw [hl] at h
      cases h
      exact True.intro

theorem fresh {type : Ty} (ht : type.sort?.isSome) (name : String) :
    Tame p (OfType type) (Env.fresh name type) := by
  obtain ⟨s, hs⟩ := Option.isSome_iff_exists.mp ht
  have hs := Ty.sort?_eq_some.mp hs
  refine of_succeeds fun e he => ⟨⟨s, .const (e.names.fresh name).1 s⟩, _, ?_,
    he.names (e.names.fresh name).2, hs⟩
  refine (EnvM.bind_of_ok (show newName name e = .ok _ _ from rfl)).trans ?_
  unfold const
  rw [hs]
  rfl

theorem getCalled (name : String) : Tame p (fun _ => True) (Env.getCalled name) := by
  refine of_succeeds fun e he => ?_
  cases hl : e.called.lookup (e.canonical name) with
  | some t => exact ⟨t, e, getCalled_of_lookup hl, he, True.intro⟩
  | none =>
    obtain ⟨full, names, hnew⟩ := getCalled_of_none hl
    exact ⟨_, _, hnew, ⟨he.policy, he.vars, he.inits, he.funcs, he.handlers, he.frame⟩, True.intro⟩

/-- The function is the one that there is of its name. -/
theorem declare (hp : p.Safe) {f : FuncDecl} (hf : p.Symbol f) :
    Tame p (· = f) (Env.declare f.name f.dom f.ran) := by
  refine of_succeeds fun e he => ?_
  cases hl : e.funcs.lookup f.name with
  | some g =>
    obtain ⟨hname, hg⟩ := he.funcs hl
    exact ⟨g, e, declare_of_lookup hl, he, hp.symbols hg hf hname⟩
  | none =>
    refine ⟨f, _, declare_of_none hl, ?_, rfl⟩
    refine ⟨he.policy, he.vars, he.inits, fun {n g} hg => ?_, he.handlers, he.frame⟩
    by_cases hn : n = f.name
    · subst hn
      cases (Table.lookup_put_self ..).symm.trans hg
      exact ⟨rfl, hf⟩
    · exact he.funcs ((Table.lookup_put_of_ne _ _ hn).symm.trans hg)

/-- The rule for a callee, which may have been chosen for another one of its tid. -/
theorem handler (hp : p.Safe) (tid : String) : Tame p
    (fun h => ∃ tid, h.callee = p.callee tid ∧ p.chosen? h.callee = some h.rule)
    (Env.handler (p.callee tid)) := by
  obtain ⟨r, hr⟩ : ∃ r, p.chosen? (p.callee tid) = some r := by
    rw [chosen?, hp.fallback]
    cases p.rules.find? (·.applies p.arch (p.callee tid)) <;> exact ⟨_, rfl⟩
  refine of_succeeds fun e he => ?_
  cases hl : e.handlers.lookup (p.callee tid).tid with
  | some h => exact ⟨h, e, handler_of_lookup hl, he, he.handlers hl⟩
  | none =>
    have hchosen : e.chosen? (p.callee tid) = some r := by
      rw [← hr, ← he.policy]
      rfl
    refine ⟨_, _, (handler_of_none hl).trans (by rw [hchosen]; rfl), ?_, tid, rfl, hr⟩
    refine ⟨he.policy, he.vars, he.inits, he.funcs, fun {t h} hh => ?_, he.frame⟩
    by_cases ht : t = (p.callee tid).tid
    · subst ht
      cases (Table.lookup_put_self ..).symm.trans hh
      exact ⟨tid, rfl, hr⟩
    · exact he.handlers ((Table.lookup_put_of_ne _ _ ht).symm.trans hh)

/-- The stack pointer has a width. -/
theorem spRange {n : Nat} (h : p.arch.sp.type.sort = .ok (.bv n)) :
    Tame p (fun _ => True) Env.spRange := by
  refine of_succeeds fun e he => ?_
  obtain ⟨t, e₁, hv, he₁, ht⟩ := he.mkVar_ok h
  obtain ⟨x, hx⟩ : ∃ x, t.sized = .ok x := by
    obtain ⟨s, t⟩ := t
    cases h.symm.trans ht
    exact ⟨_, rfl⟩
  refine ⟨e₁.inStack x.2, e₁, ?_, he₁, True.intro⟩
  rw [Env.spRange, EnvM.get_bind, he.arch, EnvM.bind_of_ok hv, hx]
  rfl

theorem note (kind : WeakeningKind) (tid detail : String) :
    Tame p (fun _ => True) (Env.note kind tid detail) :=
  of_succeeds fun _ he => ⟨(), _, rfl, he.of_core rfl he.frame, True.intro⟩

end Tame

end Env

end Precond

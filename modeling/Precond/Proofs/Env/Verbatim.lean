import Precond.Proofs.Env.Gives

/-! Names as they are. Where names are not freshened, what stands in the tables of an environment is told
by its keys (`Env.Verbatim`), apart from variables that stand for other terms for a while. So what has been
asked for before makes no difference: two such environments with the same policies give the same
(`Env.Paired`). -/

namespace Precond

open IR

/-- The constant of a variable that has the name of the variable. -/
def IR.Var.Own (v : Var) (t : SomeTerm) : Prop := ∃ s, v.type.sort = .ok s ∧ t = ⟨s, .const v.name s⟩

theorem IR.Var.Own.unique {v : Var} {t t' : SomeTerm} (h : v.Own t) (h' : v.Own t') : t' = t := by
  obtain ⟨s, hs, rfl⟩ := h
  obtain ⟨s', hs', rfl⟩ := h'
  cases hs.symm.trans hs'
  rfl

theorem IR.Var.Own.isConst {v : Var} {t : SomeTerm} (h : v.Own t) : t.IsConst :=
  let ⟨s, _, ht⟩ := h
  ⟨_, s, ht⟩

namespace Env

/-- Names are not freshened, and the tables hold what their keys tell. The variables `B` stand for other
terms for a while. -/
structure Verbatim (B : List Var) (e : Env) : Prop where
  freshen : e.freshen = false
  vars : v ∉ B → e.vars.lookup v = some t → v.Own t
  called : e.called.lookup n = some p → p = .const (calledFront ++ n) .bool
  funcs : e.funcs.lookup n = some d → d.name = n

/-- Two environments with names as they are and with the same policies, in which the variables `B` stand
for the same terms. -/
structure Paired (B : List Var) (e e' : Env) : Prop where
  policy : e'.policy = e.policy
  left : e.Verbatim B
  right : e'.Verbatim B
  held : v ∈ B → ∃ t, e.vars.lookup v = some t ∧ e'.vars.lookup v = some t

/-- An environment in which only tables of names and notes are different. -/
structure Remains (e e₁ : Env) : Prop where
  policy : e₁.policy = e.policy
  unrollBound : e₁.unrollBound = e.unrollBound
  frame : e₁.frame = e.frame
  inlining : e₁.inlining = e.inlining
  handlers : e₁.handlers = e.handlers

variable {B : List Var} {e e' e₁ e₁' : Env} {v : Var} {t t' : SomeTerm}

theorem Verbatim.of_blank (hf : e.freshen = false) (hv : e.vars = []) (hc : e.called = [])
    (hd : e.funcs = []) : e.Verbatim B where
  freshen := hf
  vars _ h := by rw [hv] at h; cases h
  called h := by rw [hc] at h; cases h
  funcs h := by rw [hd] at h; cases h

/-- Where the walk is makes no difference. -/
theorem Verbatim.moved (h : e.Verbatim B) (hc : e₁.core = e.core) : e₁.Verbatim B := by
  rw [eq_of_core hc]
  exact ⟨h.freshen, h.vars, h.called, h.funcs⟩

/-- New constants are given the names that they are asked for by. -/
theorem Verbatim.of_gives (h : e.Verbatim B) (hg : e.Gives e₁) : e₁.Verbatim B := by
  have hf : e₁.freshen = false := hg.freshen.trans h.freshen
  have hname {name full : String} (hn : e₁.Gave name full) : full = name := by
    rwa [Gave, if_neg (by rw [hf]; exact Bool.false_ne_true)] at hn
  refine ⟨hf, fun hv ht => ?_, fun hp => ?_, fun hd => (hg.funcs hd).elim h.funcs id⟩
  · rcases hg.vars ht with ht | ⟨n, s, rfl, hs, hn⟩
    · exact h.vars hv ht
    · exact ⟨s, hs, by rw [hname hn]⟩
  · rcases hg.called hp with hp | ⟨n, rfl, hn⟩
    · exact h.called hp
    · rw [hname hn]

theorem Paired.moved (h : e.Paired B e') (hc : e₁.core = e.core) (hc' : e₁'.core = e'.core) :
    e₁.Paired B e₁' where
  policy := by
    rw [eq_of_core hc, eq_of_core hc']
    exact h.policy
  left := h.left.moved hc
  right := h.right.moved hc'
  held hv := by
    rw [eq_of_core hc, eq_of_core hc']
    exact h.held hv

theorem Paired.symm_left (h : e.Paired [] e') : e.Paired [] e := ⟨rfl, h.left, h.left, nofun⟩

/-! ### Variables -/

theorem constName_verbatim {name full : String} (hf : e.freshen = false)
    (h : constName name e = .ok full e₁) : full = name ∧ e₁ = e := by
  obtain ⟨hf', -⟩ | ⟨-, h⟩ := constName_ok h
  · rw [hf] at hf'
    cases hf'
  · exact h

/-- A variable stands for its own constant, unless it stands for another term for a while. -/
theorem Verbatim.mkVar (he : e.Verbatim B) (hheld : v ∈ B → ∃ t, e.vars.lookup v = some t)
    (h : Env.mkVar v e = .ok t e₁) : e₁.Verbatim B ∧ e.Remains e₁ ∧ (v ∈ B → e.vars.lookup v = some t) ∧
      (v ∉ B → v.Own t) ∧ ∀ u ∈ B, e₁.vars.lookup u = e.vars.lookup u := by
  obtain ⟨hv, rfl⟩ | ⟨n, s, e₂, hv, hname, hs, rfl, rfl⟩ := mkVar_ok h
  · exact ⟨he, ⟨rfl, rfl, rfl, rfl, rfl⟩, fun _ => hv, fun hB => he.vars hB hv, fun _ _ => rfl⟩
  obtain ⟨rfl, rfl⟩ := constName_verbatim he.freshen hname
  have hB : v ∉ B := fun hB => by
    obtain ⟨t, ht⟩ := hheld hB
    exact nomatch hv.symm.trans ht
  have hown : v.Own ⟨s, .const v.name s⟩ := ⟨s, hs, rfl⟩
  refine ⟨⟨he.freshen, fun {u t} hu ht => ?_, he.called, he.funcs⟩, ⟨rfl, rfl, rfl, rfl, rfl⟩,
    fun hB' => absurd hB' hB, fun _ => hown,
    fun u hu => Table.lookup_put_of_ne _ _ fun heq => hB (heq ▸ hu)⟩
  by_cases heq : u = v
  · subst heq
    cases (Table.lookup_put_self ..).symm.trans ht
    exact hown
  · exact he.vars hu ((Table.lookup_put_of_ne _ _ heq).symm.trans ht)

theorem Paired.mkVar (hp : e.Paired B e') (h : Env.mkVar v e = .ok t e₁)
    (h' : Env.mkVar v e' = .ok t' e₁') :
    t' = t ∧ (v ∉ B → v.Own t) ∧ e₁.Paired B e₁' ∧ e.Remains e₁ ∧ e'.Remains e₁' := by
  obtain ⟨hl, hs, hin, hout, hB⟩ := hp.left.mkVar (fun hv => (hp.held hv).imp fun _ h => h.1) h
  obtain ⟨hr, hs', hin', hout', hB'⟩ := hp.right.mkVar (fun hv => (hp.held hv).imp fun _ h => h.2) h'
  refine ⟨?_, hout, ⟨hs'.policy.trans (hp.policy.trans hs.policy.symm), hl, hr, fun hu => ?_⟩, hs, hs'⟩
  · by_cases hv : v ∈ B
    · obtain ⟨u, hu, hu'⟩ := hp.held hv
      cases hu.symm.trans (hin hv)
      exact Option.some.inj ((hin' hv).symm.trans hu')
    · exact (hout hv).unique (hout' hv)
  · rw [hB _ hu, hB' _ hu]
    exact hp.held hu

theorem Paired.getVar (hp : e.Paired B e') (h : Env.getVar v e = .ok t e₁)
    (h' : Env.getVar v e' = .ok t' e₁') : t' = t ∧ e₁ = e ∧ e₁' = e' := by
  obtain ⟨hv, rfl⟩ := getVar_ok h
  obtain ⟨hv', rfl⟩ := getVar_ok h'
  refine ⟨?_, rfl, rfl⟩
  by_cases hB : v ∈ B
  · obtain ⟨u, hu, hu'⟩ := hp.held hB
    cases hu.symm.trans hv
    exact Option.some.inj (hv'.symm.trans hu')
  · exact (hp.left.vars hB hv).unique (hp.right.vars hB hv')

/-- A variable stands for a term for a while. -/
theorem Verbatim.put (he : e.Verbatim B) (u : Var) (t : SomeTerm) :
    ({ e with vars := Table.put e.vars u t } : Env).Verbatim (u :: B) where
  freshen := he.freshen
  vars {v _} hv ht := by
    have hne : v ≠ u := fun heq => hv (heq ▸ List.mem_cons_self)
    exact he.vars (fun hB => hv (List.mem_cons_of_mem u hB)) ((Table.lookup_put_of_ne _ _ hne).symm.trans ht)
  called := he.called
  funcs := he.funcs

theorem Paired.put (hp : e.Paired B e') (u : Var) (t : SomeTerm) :
    ({ e with vars := Table.put e.vars u t } : Env).Paired (u :: B)
      { e' with vars := Table.put e'.vars u t } where
  policy := hp.policy
  left := hp.left.put u t
  right := hp.right.put u t
  held {v} hv := by
    by_cases hvu : v = u
    · subst hvu
      exact ⟨t, Table.lookup_put_self .., Table.lookup_put_self ..⟩
    · obtain ⟨t', h, h'⟩ := hp.held ((List.mem_cons.mp hv).resolve_left hvu)
      exact ⟨t', (Table.lookup_put_of_ne _ _ hvu).trans h, (Table.lookup_put_of_ne _ _ hvu).trans h'⟩

/-- The variable stands again for what it stood for. -/
theorem Verbatim.restoreVar {u : Var} {before : Option SomeTerm} (h : e₁.Verbatim (u :: B))
    (hb : u ∉ B → ∀ t, before = some t → u.Own t) : (restoreVar u before e₁).Verbatim B := by
  rw [restoreVar_vars]
  refine ⟨h.freshen, fun {v t} hv ht => ?_, h.called, h.funcs⟩
  dsimp only at ht
  rw [lookup_restoreVar] at ht
  split at ht
  · rename_i hvu
    exact hvu ▸ hb (hvu ▸ hv) t ht
  · rename_i hvu
    exact h.vars (fun hB => hv ((List.mem_cons.mp hB).resolve_left hvu)) ht

theorem Paired.restoreVar {u : Var} (hp : e.Paired B e') (h : e₁.Paired (u :: B) e₁') :
    (restoreVar u (e.vars.lookup u) e₁).Paired B (Env.restoreVar u (e'.vars.lookup u) e₁') where
  policy := by
    rw [restoreVar_vars u (e.vars.lookup u), restoreVar_vars u (e'.vars.lookup u)]
    exact h.policy
  left := h.left.restoreVar fun hu _ => hp.left.vars hu
  right := h.right.restoreVar fun hu _ => hp.right.vars hu
  held {v} hv := by
    rw [lookup_restoreVar, lookup_restoreVar]
    split
    · rename_i hvu
      exact hp.held (hvu ▸ hv)
    · exact h.held (List.mem_cons_of_mem u hv)

/-! ### Flags and functions -/

theorem Verbatim.getCalled (he : e.Verbatim B) {f : String} {p : Term .bool}
    (h : Env.getCalled f e = .ok p e₁) : p = .const (calledFront ++ e.canonical f) .bool ∧
      e₁.Verbatim B ∧ e.Remains e₁ ∧ e₁.vars = e.vars := by
  cases hl : e.called.lookup (e.canonical f) with
  | some q =>
    cases (getCalled_of_lookup hl).symm.trans h
    exact ⟨he.called hl, he, ⟨rfl, rfl, rfl, rfl, rfl⟩, rfl⟩
  | none =>
    rw [Env.getCalled, EnvM.get_bind, EnvM.get_bind, hl] at h
    obtain ⟨full, e₂, hname, h₁⟩ := EnvM.bind_ok h
    obtain ⟨rfl, rfl⟩ := constName_verbatim he.freshen hname
    cases h₁
    refine ⟨rfl, ⟨he.freshen, he.vars, fun {n p} hp => ?_, he.funcs⟩, ⟨rfl, rfl, rfl, rfl, rfl⟩, rfl⟩
    by_cases heq : n = e₂.canonical f
    · subst heq
      cases (Table.lookup_put_self ..).symm.trans hp
      rfl
    · exact he.called ((Table.lookup_put_of_ne _ _ heq).symm.trans hp)

theorem Paired.getCalled (hp : e.Paired B e') {f : String} {p p' : Term .bool}
    (h : Env.getCalled f e = .ok p e₁) (h' : Env.getCalled f e' = .ok p' e₁') :
    p' = p ∧ SomeTerm.IsConst ⟨_, p⟩ ∧ e₁.Paired B e₁' ∧ e.Remains e₁ ∧ e'.Remains e₁' := by
  obtain ⟨rfl, hl, hs, hv⟩ := hp.left.getCalled h
  obtain ⟨rfl, hr, hs', hv'⟩ := hp.right.getCalled h'
  have hname := congrArg (Env.canonical · f) hp.policy
  have hname : e'.canonical f = e.canonical f := hname
  refine ⟨by rw [hname], ⟨_, _, rfl⟩, ⟨hs'.policy.trans (hp.policy.trans hs.policy.symm), hl, hr, ?_⟩, hs,
    hs'⟩
  rw [hv, hv']
  exact hp.held

theorem Verbatim.declare (he : e.Verbatim B) {f : String} {dom : List TSort} {ran : TSort} {d : FuncDecl}
    (h : Env.declare f dom ran e = .ok d e₁) :
    d.name = f ∧ e₁.Verbatim B ∧ e.Remains e₁ ∧ e₁.vars = e.vars := by
  cases hl : e.funcs.lookup f with
  | some q =>
    cases (declare_of_lookup hl).symm.trans h
    exact ⟨he.funcs hl, he, ⟨rfl, rfl, rfl, rfl, rfl⟩, rfl⟩
  | none =>
    cases (declare_of_none hl).symm.trans h
    refine ⟨rfl, ⟨he.freshen, he.vars, he.called, fun {n d} hd => ?_⟩, ⟨rfl, rfl, rfl, rfl, rfl⟩, rfl⟩
    by_cases heq : n = f
    · subst heq
      cases (Table.lookup_put_self ..).symm.trans hd
      rfl
    · exact he.funcs ((Table.lookup_put_of_ne _ _ heq).symm.trans hd)

/-- The functions may have been declared differently, but they have the same name. -/
theorem Paired.declare (hp : e.Paired B e') {f : String} {dom : List TSort} {ran : TSort} {d d' : FuncDecl}
    (h : Env.declare f dom ran e = .ok d e₁) (h' : Env.declare f dom ran e' = .ok d' e₁') :
    d'.name = d.name ∧ e₁.Paired B e₁' ∧ e.Remains e₁ ∧ e'.Remains e₁' := by
  obtain ⟨hd, hl, hs, hv⟩ := hp.left.declare h
  obtain ⟨hd', hr, hs', hv'⟩ := hp.right.declare h'
  refine ⟨hd'.trans hd.symm, ⟨hs'.policy.trans (hp.policy.trans hs.policy.symm), hl, hr, ?_⟩, hs, hs'⟩
  rw [hv, hv']
  exact hp.held

end Env

end Precond

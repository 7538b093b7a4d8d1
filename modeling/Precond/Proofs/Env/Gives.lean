import Precond.Proofs.Env.Names
import Precond.Proofs.Env.Kept

/-! The constants that an environment gives. What is new in a table stands for a constant that has
been given for it (`Env.Gives`), so that all constants of the tables are ones that the environment has
given (`Env.Tidy`), and what they stand for is told by their names (`Env.Gave.inj`). -/

namespace Precond

open IR

namespace NameSupply

theorem numbered_toList (s : NameSupply) (k : Nat) : ∃ front : List Char, ∀ name : String,
    (s.numbered k name).toList = front ++ (name.toList ++ '_' :: (Nat.repr k).toList) := by
  have hplain (name : String) : (name ++ "_" ++ toString k).toList =
      ([] : List Char) ++ (name.toList ++ '_' :: (Nat.repr k).toList) := by
    rw [String.toList_append, String.toList_append, List.append_assoc]
    rfl
  unfold numbered fresh
  dsimp only
  split
  · exact ⟨[], hplain⟩
  · exact ⟨[], hplain⟩
  · rename_i front _ _
    refine ⟨front.toList ++ ['.'], fun name => ?_⟩
    rw [String.toList_append, String.toList_append, hplain]
    rfl

/-- The name that is numbered can be told. -/
theorem numbered_name_inj {s : NameSupply} {j k : Nat} {x y : String}
    (h : s.numbered j x = s.numbered k y) : x = y := by
  obtain rfl := numbered_inj h
  obtain ⟨front, hfront⟩ := s.numbered_toList j
  have hl := congrArg String.toList h
  rw [hfront, hfront] at hl
  exact String.toList_inj.mp (List.append_cancel_right (List.append_cancel_left hl))

end NameSupply

namespace Env

variable {e e₁ e₂ : Env} {name full : String}

/-- A name that an environment gives to a constant for a name, now or later. -/
def Numbers (e : Env) (name full : String) : Prop :=
  if e.freshen then ∃ k, full = e.names.numbered k name else full = name

theorem Numbers.inj {x y : String} (hx : e.Numbers x full) (hy : e.Numbers y full) : x = y := by
  unfold Numbers at hx hy
  split at hx
  · rename_i hf
    rw [if_pos hf] at hy
    obtain ⟨j, hj⟩ := hx
    obtain ⟨k, hk⟩ := hy
    exact NameSupply.numbered_name_inj (hj.symm.trans hk)
  · rename_i hf
    rw [if_neg hf] at hy
    exact hx.symm.trans hy

/-- Names that are given by one supply, however far it has got. -/
theorem Gave.numbers (hf : e₁.freshen = e.freshen) (hs : e₁.names.space = e.names.space)
    (h : e₁.Gave name full) : e.Numbers name full := by
  unfold Gave at h
  unfold Numbers
  rw [hf] at h
  split at h
  · rename_i hf
    rw [if_pos hf]
    obtain ⟨k, -, hk⟩ := h
    exact ⟨k, hk.trans (NameSupply.numbered_congr hs k name)⟩
  · rename_i hf
    rwa [if_neg hf]

/-- A constant tells the name that it has been given for. -/
theorem Gave.inj {x y : String} (hx : e.Gave x full) (hy : e.Gave y full) : x = y :=
  (hx.numbers rfl rfl).inj (hy.numbers rfl rfl)

/-- The term is a constant of its own for a name and a type. -/
def Grants (e : Env) (name : String) (type : Ty) (t : SomeTerm) : Prop :=
  ∃ n s, t = ⟨s, .const n s⟩ ∧ type.sort = .ok s ∧ e.Gave name n

theorem Grants.inj {x y : String} {a b : Ty} {t : SomeTerm} (hx : e.Grants x a t)
    (hy : e.Grants y b t) : x = y ∧ a = b := by
  obtain ⟨n, s, rfl, hsort, hg⟩ := hx
  obtain ⟨n', s', ht, hsort', hg'⟩ := hy
  cases ht
  exact ⟨hg.inj hg', Ty.sort_inj hsort hsort'⟩

/-- The flag is a constant of its own for the name of a function. -/
def Flags (e : Env) (name : String) (p : Term .bool) : Prop :=
  ∃ n, p = .const n .bool ∧ e.Gave (calledFront ++ name) n

/-- A later environment: names are drawn from the same supply, and what is new in a table stands for
a constant that the environment has given for it. -/
structure Gives (e e' : Env) : Prop where
  freshen : e'.freshen = e.freshen
  space : e'.names.space = e.names.space
  next : e.names.next ≤ e'.names.next
  vars : e'.vars.lookup v = some t → e.vars.lookup v = some t ∨ e'.Grants v.name v.type t
  inits : e'.inits.lookup v = some t →
    e.inits.lookup v = some t ∨ e'.Grants (initFront ++ v.name) v.type t
  called : e'.called.lookup f = some p → e.called.lookup f = some p ∨ e'.Flags f p
  funcs : e'.funcs.lookup n = some d → e.funcs.lookup n = some d ∨ d.name = n

/-- All constants of the tables are ones that the environment has given. -/
structure Tidy (e : Env) : Prop where
  vars : e.vars.lookup v = some t → e.Grants v.name v.type t
  inits : e.inits.lookup v = some t → e.Grants (initFront ++ v.name) v.type t
  called : e.called.lookup f = some p → e.Flags f p
  funcs : e.funcs.lookup n = some d → d.name = n

namespace Gives

theorem gave (h : e.Gives e₁) (hg : e.Gave name full) : e₁.Gave name full :=
  hg.mono h.freshen h.space h.next

theorem grants (h : e.Gives e₁) {type : Ty} {t : SomeTerm} (hg : e.Grants name type t) :
    e₁.Grants name type t :=
  let ⟨n, s, ht, hs, hn⟩ := hg
  ⟨n, s, ht, hs, h.gave hn⟩

theorem flags (h : e.Gives e₁) {p : Term .bool} (hg : e.Flags name p) : e₁.Flags name p :=
  let ⟨n, hp, hn⟩ := hg
  ⟨n, hp, h.gave hn⟩

theorem refl (e : Env) : e.Gives e := ⟨rfl, rfl, Nat.le_refl _, .inl, .inl, .inl, .inl⟩

theorem trans (h₁ : e.Gives e₁) (h₂ : e₁.Gives e₂) : e.Gives e₂ where
  freshen := h₂.freshen.trans h₁.freshen
  space := h₂.space.trans h₁.space
  next := h₁.next.trans h₂.next
  vars h := (h₂.vars h).elim (fun h => (h₁.vars h).imp_right h₂.grants) .inr
  inits h := (h₂.inits h).elim (fun h => (h₁.inits h).imp_right h₂.grants) .inr
  called h := (h₂.called h).elim (fun h => (h₁.called h).imp_right h₂.flags) .inr
  funcs h := (h₂.funcs h).elim h₁.funcs .inr

theorem tidy (h : e.Gives e₁) (he : e.Tidy) : e₁.Tidy where
  vars hv := (h.vars hv).elim (fun hv => h.grants (he.vars hv)) id
  inits hv := (h.inits hv).elim (fun hv => h.grants (he.inits hv)) id
  called hf := (h.called hf).elim (fun hf => h.flags (he.called hf)) id
  funcs hd := (h.funcs hd).elim he.funcs id

/-- Constants of their own keep the variables apart. -/
theorem named (h : e.Gives e₁) (he : e.Named) : e₁.Named := by
  have hconst {v : Var} {t : SomeTerm} (hv : e₁.vars.lookup v = some t) :
      e₁.Grants v.name v.type t := (h.vars hv).elim (fun hv => h.grants (he.const hv)) id
  refine ⟨hconst, fun {u t v} hu hv => ?_⟩
  obtain ⟨hname, htype⟩ := (hconst hu).inj (hconst hv)
  exact congr (congrArg Var.mk hname) htype

/-- Nothing of this is read of a change. -/
theorem of_eq (hf : e₁.freshen = e.freshen) (hn : e₁.names = e.names) (hv : e₁.vars = e.vars)
    (hi : e₁.inits = e.inits) (hc : e₁.called = e.called) (hd : e₁.funcs = e.funcs) : e.Gives e₁ where
  freshen := hf
  space := by rw [hn]
  next := by rw [hn]
  vars h := .inl (hv ▸ h)
  inits h := .inl (hi ▸ h)
  called h := .inl (hc ▸ h)
  funcs h := .inl (hd ▸ h)

/-- Names have been drawn. -/
theorem drawn {names : NameSupply} (hs : names.space = e.names.space) (hn : e.names.next ≤ names.next) :
    e.Gives { e with names } := ⟨rfl, hs, hn, .inl, .inl, .inl, .inl⟩

/-- A name is given for a constant. -/
theorem constName {full : String} (h : Env.constName name e = .ok full e₁) :
    e.Gives e₁ ∧ e₁.Gave name full ∧ ∃ names, e₁ = { e with names } := by
  have hg := (constName_gave h).2.1
  obtain ⟨-, -, rfl⟩ | ⟨-, -, rfl⟩ := constName_ok h
  · exact ⟨drawn rfl (Nat.le_succ _), hg, _, rfl⟩
  · exact ⟨refl _, hg, _, rfl⟩

theorem newVar {v : Var} {t : SomeTerm} (h : e.Grants v.name v.type t) :
    e.Gives { e with vars := Table.put e.vars v t } := by
  refine ⟨rfl, rfl, Nat.le_refl _, fun {u s} hu => ?_, .inl, .inl, .inl⟩
  by_cases huv : u = v
  · subst huv
    cases (Table.lookup_put_self ..).symm.trans hu
    exact .inr h
  · exact .inl ((Table.lookup_put_of_ne _ _ huv).symm.trans hu)

theorem newInit {v : Var} {t : SomeTerm} (h : e.Grants (initFront ++ v.name) v.type t) :
    e.Gives { e with inits := Table.put e.inits v t } := by
  refine ⟨rfl, rfl, Nat.le_refl _, .inl, fun {u s} hu => ?_, .inl, .inl⟩
  by_cases huv : u = v
  · subst huv
    cases (Table.lookup_put_self ..).symm.trans hu
    exact .inr h
  · exact .inl ((Table.lookup_put_of_ne _ _ huv).symm.trans hu)

theorem newFlag {f : String} {p : Term .bool} (h : e.Flags f p) :
    e.Gives { e with called := Table.put e.called f p } := by
  refine ⟨rfl, rfl, Nat.le_refl _, .inl, .inl, fun {g q} hg => ?_, .inl⟩
  by_cases hgf : g = f
  · subst hgf
    cases (Table.lookup_put_self ..).symm.trans hg
    exact .inr h
  · exact .inl ((Table.lookup_put_of_ne _ _ hgf).symm.trans hg)

/-- A variable that has stood for a term for a while is given back what it stood for. -/
theorem restoreVar {u : Var} {t : SomeTerm}
    (h : ({ e with vars := Table.put e.vars u t } : Env).Gives e₁) :
    e.Gives (Env.restoreVar u (e.vars.lookup u) e₁) := by
  rw [restoreVar_vars]
  refine ⟨h.freshen, h.space, h.next, fun {v a} hv => ?_, h.inits, h.called, h.funcs⟩
  dsimp only at hv
  rw [lookup_restoreVar] at hv
  split at hv
  · rename_i hvu
    exact .inl (hvu ▸ hv)
  · rename_i hvu
    exact (h.vars hv).imp_left fun hv' => (Table.lookup_put_of_ne _ _ hvu).symm.trans hv'

/-! ### Operations -/

theorem mkVar (v : Var) (e : Env) : e.Gives (ending (Env.mkVar v) e) := by
  cases hv : e.vars.lookup v with
  | some t =>
    rw [ending, mkVar_of_lookup hv]
    exact refl e
  | none =>
    obtain ⟨full, names, hname⟩ := constName_eq v.name e
    obtain ⟨hgives, hgave, -⟩ := constName hname
    rw [ending, mkVar_of_none hv hname]
    cases hs : v.type.sort with
    | error f => exact hgives
    | ok s => exact hgives.trans (newVar ⟨full, s, rfl, hs, hgave⟩)

theorem mkInitVar (v : Var) (e : Env) : e.Gives (ending (Env.mkInitVar v) e) := by
  cases hv : e.inits.lookup v with
  | some t =>
    rw [ending, mkInitVar_of_lookup hv]
    exact refl e
  | none =>
    obtain ⟨full, names, hname⟩ := constName_eq (initFront ++ v.name) e
    obtain ⟨hgives, hgave, -⟩ := constName hname
    rw [ending, mkInitVar_of_none hv hname]
    cases hs : v.type.sort with
    | error f => exact hgives
    | ok s => exact hgives.trans (newInit ⟨full, s, rfl, hs, hgave⟩)

theorem getCalled (f : String) (e : Env) : e.Gives (ending (Env.getCalled f) e) := by
  cases hc : e.called.lookup (e.canonical f) with
  | some t =>
    rw [ending, getCalled_of_lookup hc]
    exact refl e
  | none =>
    obtain ⟨full, names, hname⟩ := constName_eq (calledFront ++ e.canonical f) e
    obtain ⟨hgives, hgave, -⟩ := constName hname
    have hmk : Env.getCalled f e = .ok (.const full .bool) { e with
        names, called := Table.put e.called (e.canonical f) (.const full .bool) } := by
      rw [Env.getCalled, EnvM.get_bind, EnvM.get_bind, hc]
      exact EnvM.bind_of_ok hname
    rw [ending, hmk]
    exact hgives.trans (newFlag (e := { e with names }) ⟨full, rfl, hgave⟩)

theorem declare (n : String) (dom : List TSort) (ran : TSort) (e : Env) :
    e.Gives (ending (Env.declare n dom ran) e) := by
  cases hf : e.funcs.lookup n with
  | some f =>
    rw [ending, declare_of_lookup hf]
    exact refl e
  | none =>
    rw [ending, declare_of_none hf]
    refine ⟨rfl, rfl, Nat.le_refl _, .inl, .inl, .inl, fun {k d} hd => ?_⟩
    by_cases hk : k = n
    · subst hk
      cases (Table.lookup_put_self ..).symm.trans hd
      exact .inr rfl
    · exact .inl ((Table.lookup_put_of_ne _ _ hk).symm.trans hd)

theorem fresh (n : String) (type : Ty) (e : Env) : e.Gives (ending (Env.fresh n type) e) := by
  have h : ending (Env.fresh n type) e = { e with names := (e.names.fresh n).2 } := by
    unfold ending Env.fresh const
    cases type.sort <;> rfl
  rw [h]
  exact drawn rfl (Nat.le_succ _)

theorem handler (s : Sub) (e : Env) : e.Gives (ending (Env.handler s) e) := by
  cases hh : e.handlers.lookup s.tid with
  | some h =>
    rw [ending, handler_of_lookup hh]
    exact refl e
  | none =>
    rw [ending, handler_of_none hh]
    cases e.chosen? s with
    | none => exact refl e
    | some r => exact of_eq rfl rfl rfl rfl rfl rfl

theorem note (kind : WeakeningKind) (tid detail : String) (e : Env) :
    e.Gives (ending (Env.note kind tid detail) e) := of_eq rfl rfl rfl rfl rfl rfl

end Gives

namespace Tidy

theorem named (h : e.Tidy) : e.Named where
  const := h.vars
  inj hu hv :=
    let ⟨hname, htype⟩ := (h.vars hu).inj (h.vars hv)
    congr (congrArg Var.mk hname) htype

/-- An environment without constants. -/
theorem start (arch : Arch) (subs : List Sub) : (Env.start arch subs).Tidy := ⟨nofun, nofun, nofun, nofun⟩

end Tidy

end Env

end Precond

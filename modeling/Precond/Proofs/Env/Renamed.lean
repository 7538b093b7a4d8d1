import Precond.Proofs.Env.Verbatim
import Precond.Proofs.Flow.Renaming
import Precond.Proofs.Term.Renamed
import Precond.Proofs.Walk.Vocabulary

/-! The environment of a program, and that of the program with other names for variables
(`Guise.Renders`). What is asked for in both is found in both or in neither, and new constants have the same
names (`Guise.Renders.mkVar`, `Guise.Renders.fresh`). -/

namespace Precond

open IR Precond.Flow Walk

/-! ### Actions that end alike -/

/-- Both results are faults, or both are values that are related, as are the states. -/
inductive Conform {σ τ : Type} (A : α → β → Prop) (P : σ → τ → Prop) :
    EStateM.Result Fault σ α → EStateM.Result Fault τ β → Prop
  | ok : A a b → P s t → Conform A P (.ok a s) (.ok b t)
  | error : Conform A P (.error f s) (.error f' t)

/-! ### Programs with other names -/

/-- A callee is a subroutine of the program, or not part of it. -/
theorem Env.callee_mem (e : Env) (n : String) : e.callee n ∈ e.subs ∨ e.callee n = unknownCallee n := by
  rw [callee]
  cases h : e.findSub? (.direct n) with
  | some s => exact .inl (List.mem_of_find?_eq_some h)
  | none => exact .inr rfl

/-- What is set before a walk and stays, the unroll bound and the space of new names among it. -/
def Env.settings (e : Env) : Env :=
  { e with
    names := ⟨e.names.space, 0⟩, vars := [], inits := [], called := [], funcs := [], handlers := [],
    frame := .start, inlining := [], weakenings := [], attached := false }

namespace IR.Renaming

/-- No new name of a supply is that of a variable with another name. -/
def Spares (ρ : Renaming) (names : NameSupply) (name : String) : Prop :=
  ∀ k v, ρ.Moves v → v.name ≠ names.numbered k name

/-- The results of a summary do not have the names of variables with other names. -/
def SparesResults (ρ : Renaming) (e : Env) (callee : Sub) : Prop :=
  ∀ out, out ∈ conventional e.arch ∨ out ∈ callee.args.map (·.var) →
    ∀ v, ρ.Moves v → v.name ≠ e.canonical callee.name ++ "_" ++ out.name

/-- What a rule makes of calls does not have the names of variables with other names. -/
def SparesRule (ρ : Renaming) (e : Env) (callee : Sub) : CallRule → Prop
  | .verifierNondet => ρ.Spares e.names (callee.name ++ "_ret")
  | .argTerms => ρ.SparesResults e callee ∧ ∀ a ∈ callee.args, ¬ ρ.Moves a.var
  | .raxOut | .chaosRax | .chaosCallerSaved => ρ.SparesResults e callee
  | .contract name _ _ => ∀ r ∈ e.arch.callerSaved, ρ.Spares e.names (name ++ "_" ++ r.name)
  | _ => True

/-- The rule does not tell names: a condition of its own reads no variable with another name, and nothing
is asked of the other program. -/
def Keeps (ρ : Renaming) : SideRule → Prop
  | .offsetRead .. => False
  | .custom _ _ _ cond _ => ρ.exp cond = cond
  | _ => True

end IR.Renaming

/-- Two walks of a subroutine, of which the second one is in a program with other names for variables. -/
structure Guise where
  side : Side
  /-- The settings of the first walk. -/
  base : Env
  root : Sub
  ρ : Renaming

namespace Guise

variable (G : Guise)

/-- The subroutine or one of the program. -/
def Has (s : Sub) : Prop := s = G.root ∨ s ∈ G.base.subs

/-- A subroutine of the program may call what has the name. -/
def Calls (name : String) : Prop :=
  ∃ s, G.Has s ∧ ∃ b ∈ s.blks, ∃ j ∈ b.jumps, ∃ ret, j.kind = .call (.direct name) ret

/-- The other names are not those of anything that a walk makes by itself. -/
structure Apart : Prop where
  conventional : v ∈ Walk.conventional G.base.arch → ¬ G.ρ.Moves v
  unknown : G.ρ.Spares G.base.names "unknown"
  chosen : G.Calls n → G.base.chosen? (G.base.callee n) = some r → G.ρ.SparesRule G.base (G.base.callee n) r
  fallback : G.Calls n → G.base.fallback = some r → G.ρ.SparesRule G.base (G.base.callee n) r
  sideRules : r ∈ G.base.sideRules → G.ρ.Keeps r

/-- The other names make no difference: names are taken as they are, and each variable that gets another one
is assigned before it is read, wherever the program has it. -/
structure Fair : Prop extends G.Apart where
  verbatim : G.base.freshen = false
  settles : G.Has s → G.ρ.Moves v → s.Settles v

/-- The constants of a variable, with its own name and with its new one. -/
def Own (v : Var) (t t' : SomeTerm) : Prop := v.Own t ∧ (G.ρ v).Own t'

/-- A rule that has been chosen for a callee, and for the callee with other names. -/
structure Handled (h h' : Handler) : Prop where
  rule : h'.rule = h.rule
  callee : h'.callee = G.ρ.sub h.callee
  chosen : ∃ n, G.Calls n ∧ h.callee = G.base.callee n ∧ G.base.chosen? h.callee = some h.rule

/-- The environments of both walks. Variables stand for terms that are related by `T`, and the frames are
related by `F`. -/
structure Renders (T : Var → SomeTerm → SomeTerm → Prop) (F : Frame → Frame → Prop) (e e' : Env) : Prop where
  left : e.settings = G.base
  right : e'.settings = { G.base with subs := G.base.subs.map G.ρ.sub }
  names : e'.names = e.names
  inlining : e'.inlining = e.inlining
  vars (v : Var) : Option.Rel (T v) (e.vars.lookup v) (e'.vars.lookup (G.ρ v))
  called : e'.called = e.called
  flag : e.called.lookup n = some p → p = .const (calledFront ++ n) .bool
  funcs : e'.funcs = e.funcs
  declared : e.funcs.lookup n = some d → d.name = n
  handlers (t : String) : Option.Rel G.Handled (e.handlers.lookup t) (e'.handlers.lookup t)
  frame : F e.frame e'.frame

variable {G} {T : Var → SomeTerm → SomeTerm → Prop} {F : Frame → Frame → Prop} {e e' : Env} {v : Var}
  {t t' : SomeTerm} {X : Var → Prop} {n : String} {s : TSort}

/-- Names that a walk makes have separators, so that those without are apart from them. -/
theorem Apart.of_plain (hplain : ∀ v, G.ρ.Moves v → '_' ∉ v.name.toList)
    (hconventional : ∀ v ∈ Walk.conventional G.base.arch, ¬ G.ρ.Moves v)
    (hargs : ∀ n, ∀ a ∈ (G.base.callee n).args, ¬ G.ρ.Moves a.var) (hrules : ∀ r ∈ G.base.sideRules, G.ρ.Keeps r) :
    G.Apart := by
  have hsep {front back : String} {v : Var} (hv : G.ρ.Moves v) : v.name ≠ front ++ "_" ++ back := by
    intro h
    refine hplain v hv ?_
    rw [h, String.toList_append, String.toList_append]
    exact List.mem_append_left _ (List.mem_append_right _ (by decide))
  have hspares (name : String) : G.ρ.Spares G.base.names name := by
    intro k v hv
    obtain ⟨front, h⟩ := NameSupply.numbered_eq G.base.names k name
    rw [h]
    exact hsep hv
  have hresults (callee : Sub) : G.ρ.SparesResults G.base callee := fun _ _ _ hv => hsep hv
  have hrule (n : String) (r : CallRule) : G.ρ.SparesRule G.base (G.base.callee n) r := by
    cases r with
    | verifierNondet => exact hspares _
    | argTerms => exact ⟨hresults _, hargs n⟩
    | raxOut | chaosRax | chaosCallerSaved => exact hresults _
    | contract => exact fun _ _ => hspares _
    | _ => exact True.intro
  exact ⟨fun hv => hconventional _ hv, hspares _, fun _ _ => hrule .., fun _ _ => hrule .., fun hr => hrules _ hr⟩

/-! ### Constants -/

theorem Own.consts (h : G.Own v t t') : G.ρ.Consts t t' := by
  obtain ⟨⟨s, hs, rfl⟩, ⟨s', hs', rfl⟩⟩ := h
  rw [G.ρ.type] at hs'
  cases hs.symm.trans hs'
  exact ⟨v.name, s, rfl, by rw [Renaming.name_of_type hs]⟩

theorem Own.same (h : G.Own v t t') (hX : G.ρ.Moves v → X v) : G.ρ.Same X t t' := by
  refine h.consts.same fun n s ht type htype hm => ?_
  obtain ⟨⟨s', hs', ht'⟩, -⟩ := h
  cases ht.symm.trans ht'
  have hv : (⟨v.name, type⟩ : Var) = v := Var.eq_of_sort rfl (TSort.type?_eq.mp htype) hs'
  rw [hv] at hm ⊢
  exact hX hm

/-- A variable has a constant if it has one under its new name. -/
theorem exists_own : (∃ t, (G.ρ v).Own t) ↔ ∃ t, v.Own t := by
  simp only [Var.Own, G.ρ.type]
  exact ⟨fun ⟨_, s, hs, _⟩ => ⟨_, s, hs, rfl⟩, fun ⟨_, s, hs, _⟩ => ⟨_, s, hs, rfl⟩⟩

/-- A constant that is not that of a variable with another name. -/
theorem same_const (h : ∀ v, G.ρ.Moves v → v.type.sort = .ok s → v.name ≠ n) :
    G.ρ.Same X ⟨s, .const n s⟩ ⟨s, .const n s⟩ := by
  have hfix {type : Ty} (htype : s.type? = some type) : ¬ G.ρ.Moves ⟨n, type⟩ :=
    fun hm => h ⟨n, type⟩ hm (TSort.type?_eq.mp htype) rfl
  have hname : G.ρ.name n s = n := by
    unfold Renaming.name
    cases hs : s.type? with
    | none => rfl
    | some type => exact congrArg Var.name (not_not.mp (hfix hs))
  refine Renaming.Consts.same ⟨n, s, rfl, by rw [hname]⟩ fun n' s' heq type htype hm => ?_
  cases heq
  exact absurd hm (hfix htype)

/-! ### Actions -/

namespace Renders

/-- What is set is the same in both environments, apart from the subroutines. -/
theorem setting (h : G.Renders T F e e') (f : Env → α)
    (hf : ∀ (e : Env) subs, f { e.settings with subs } = f e) : f e = f G.base ∧ f e' = f G.base := by
  constructor
  · calc f e
      _ = f { e.settings with subs := e.subs } := (hf e e.subs).symm
      _ = f G.base := congrArg f h.left
  · calc f e'
      _ = f { e'.settings with subs := G.base.subs } := (hf e' G.base.subs).symm
      _ = f G.base := by rw [h.right]

/-- A variable stands for a term in both environments or in neither. -/
theorem lookup_eq_none (h : G.Renders T F e e') (v : Var) :
    e'.vars.lookup (G.ρ v) = none ↔ e.vars.lookup v = none := by
  have hv := h.vars v
  revert hv
  cases e.vars.lookup v <;> cases e'.vars.lookup (G.ρ v) <;> intro hv
  · exact ⟨fun _ => rfl, fun _ => rfl⟩
  · cases hv
  · cases hv
  · exact ⟨nofun, nofun⟩

/-- Names are taken as they are. -/
theorem constName (hG : G.Fair) (h : G.Renders T F e e') (n n' : String) :
    Env.constName n e = .ok n e ∧ Env.constName n' e' = .ok n' e' := by
  obtain ⟨hf, hf'⟩ := h.setting Env.freshen fun _ _ => rfl
  rw [Env.constName, Env.constName, EnvM.get_bind, EnvM.get_bind, hf, hf', hG.verbatim]
  exact ⟨rfl, rfl⟩

/-- A new name, which is the same in both environments. -/
theorem fresh (h : G.Renders T F e e') {name : String} (hn : G.ρ.Spares G.base.names name) (type : Ty) :
    Conform (fun t t' => t' = t ∧ ∀ X, G.ρ.Same X t t) (G.Renders T F) (Env.fresh name type e)
      (Env.fresh name type e') := by
  have hnames : e.names = { G.base.names with next := e.names.next } := by
    rw [← h.left]
    rfl
  have hnew (e : Env) : Env.fresh name type e = Env.const (e.names.fresh name).1 type
      { e with names := (e.names.fresh name).2 } := rfl
  rw [hnew, hnew]
  unfold Env.const
  cases type.sort with
  | error => exact .error
  | ok s =>
    refine .ok ⟨by rw [h.names], fun X => same_const fun v hv _ => ?_⟩ ?_
    · rw [hnames]
      exact hn e.names.next v hv
    · exact { h with
        names := by rw [h.names]
        left := h.left
        right := h.right }

/-- A variable stands for its own constant, unless it stands for another term. -/
theorem mkVar (hG : G.Fair) (h : G.Renders T F e e') (hT : ∀ t t', G.Own v t t' → T v t t') :
    Conform (T v) (G.Renders T F) (Env.mkVar v e) (Env.mkVar (G.ρ v) e') := by
  have hv := h.vars v
  cases hl : e.vars.lookup v with
  | some t =>
    cases hr : e'.vars.lookup (G.ρ v) with
    | none => rw [hl, hr] at hv; cases hv
    | some t' =>
      rw [hl, hr] at hv
      rw [Env.mkVar_of_lookup hl, Env.mkVar_of_lookup hr]
      cases hv with
      | some ht => exact .ok ht h
  | none =>
    cases hr : e'.vars.lookup (G.ρ v) with
    | some t' => rw [hl, hr] at hv; cases hv
    | none =>
      obtain ⟨hn, hn'⟩ := h.constName hG v.name (G.ρ v).name
      rw [Env.mkVar_of_none hl hn, Env.mkVar_of_none hr hn', G.ρ.type]
      cases hs : v.type.sort with
      | error => exact .error
      | ok s =>
        have hown : G.Own v ⟨s, .const v.name s⟩ ⟨s, .const (G.ρ v).name s⟩ :=
          ⟨⟨s, hs, rfl⟩, ⟨s, by rw [G.ρ.type, hs], rfl⟩⟩
        refine .ok (hT _ _ hown) { h with
          left := h.left
          right := h.right
          vars := fun u => ?_ }
        by_cases hu : u = v
        · subst hu
          rw [Table.lookup_put_self, Table.lookup_put_self]
          exact .some (hT _ _ hown)
        · rw [Table.lookup_put_of_ne _ _ hu, Table.lookup_put_of_ne _ _ fun h => hu (Renaming.inj.mp h)]
          exact h.vars u

theorem getVar (h : G.Renders T F e e') (v : Var) :
    Conform (T v) (G.Renders T F) (Env.getVar v e) (Env.getVar (G.ρ v) e') := by
  have hv := h.vars v
  rw [Env.getVar, Env.getVar, EnvM.get_bind, EnvM.get_bind]
  revert hv
  cases e.vars.lookup v <;> cases e'.vars.lookup (G.ρ v) <;> intro hv
  · exact .error
  · cases hv
  · cases hv
  · cases hv with
    | some ht => exact .ok ht h

/-- A variable stands for another term for a while. -/
theorem put (h : G.Renders T F e e') {T' : Var → SomeTerm → SomeTerm → Prop} (hv : T' v t t')
    (hT : ∀ u, u ≠ v → T' u = T u) :
    G.Renders T' F { e with vars := Table.put e.vars v t } { e' with vars := Table.put e'.vars (G.ρ v) t' } := by
  refine { h with
    left := h.left
    right := h.right
    vars := fun u => ?_ }
  by_cases hu : u = v
  · subst hu
    rw [Table.lookup_put_self, Table.lookup_put_self]
    exact .some hv
  · rw [Table.lookup_put_of_ne _ _ hu, Table.lookup_put_of_ne _ _ fun h => hu (Renaming.inj.mp h), hT u hu]
    exact h.vars u

/-- The variable stands again for what it stood for. -/
theorem restoreVar {T' : Var → SomeTerm → SomeTerm → Prop} {e₁ e₁' : Env} (h : G.Renders T' F e₁ e₁')
    {before before' : Option SomeTerm} (hv : Option.Rel (T v) before before') (hT : ∀ u, u ≠ v → T' u = T u) :
    G.Renders T F (Env.restoreVar v before e₁) (Env.restoreVar (G.ρ v) before' e₁') := by
  have hvars (u : Var) : Option.Rel (T u) ((Env.restoreVar v before e₁).vars.lookup u)
      ((Env.restoreVar (G.ρ v) before' e₁').vars.lookup (G.ρ u)) := by
    rw [Env.lookup_restoreVar, Env.lookup_restoreVar]
    by_cases hu : u = v
    · rw [if_pos hu, if_pos (by rw [hu]), hu]
      exact hv
    · rw [if_neg hu, if_neg fun h => hu (Renaming.inj.mp h), ← hT u hu]
      exact h.vars u
  rw [Env.restoreVar_vars v before, Env.restoreVar_vars (G.ρ v) before']
  exact { h with
    left := h.left
    right := h.right
    vars := hvars }

/-- The flag of a function has the same name in both environments. -/
theorem getCalled (hG : G.Fair) (h : G.Renders T F e e') (f : String) :
    Conform (fun p p' => p' = p ∧ ∃ n, p = .const n .bool) (G.Renders T F) (Env.getCalled f e)
      (Env.getCalled f e') := by
  obtain ⟨hc, hc'⟩ := h.setting (·.canonical f) fun _ _ => rfl
  cases hl : e.called.lookup (G.base.canonical f) with
  | some p =>
    rw [Env.getCalled_of_lookup (by rw [hc, hl]), Env.getCalled_of_lookup (by rw [hc', h.called, hl])]
    exact .ok ⟨rfl, _, h.flag hl⟩ h
  | none =>
    obtain ⟨hn, hn'⟩ := h.constName hG (calledFront ++ G.base.canonical f) (calledFront ++ G.base.canonical f)
    have hnew {e : Env} (hc : e.canonical f = G.base.canonical f)
        (hl : e.called.lookup (G.base.canonical f) = none)
        (hn : Env.constName (calledFront ++ G.base.canonical f) e = .ok (calledFront ++ G.base.canonical f) e) :
        Env.getCalled f e = .ok (.const (calledFront ++ G.base.canonical f) .bool) { e with
          called := Table.put e.called (G.base.canonical f)
            (.const (calledFront ++ G.base.canonical f) .bool) } := by
      rw [Env.getCalled, EnvM.get_bind, EnvM.get_bind, hc, hl]
      exact EnvM.bind_of_ok hn
    rw [hnew hc hl hn, hnew hc' (by rw [h.called, hl]) hn']
    refine .ok ⟨rfl, _, rfl⟩ { h with
      left := h.left
      right := h.right
      called := by rw [h.called]
      flag := fun {n p} hp => ?_ }
    by_cases heq : n = G.base.canonical f
    · subst heq
      cases (Table.lookup_put_self ..).symm.trans hp
      rfl
    · exact h.flag ((Table.lookup_put_of_ne _ _ heq).symm.trans hp)

theorem declare (h : G.Renders T F e e') (f : String) (dom : List TSort) (ran : TSort) :
    Conform (fun d d' => d' = d ∧ d.name = f) (G.Renders T F) (Env.declare f dom ran e)
      (Env.declare f dom ran e') := by
  cases hl : e.funcs.lookup f with
  | some d =>
    rw [Env.declare_of_lookup hl, Env.declare_of_lookup (by rw [h.funcs, hl])]
    exact .ok ⟨rfl, h.declared hl⟩ h
  | none =>
    rw [Env.declare_of_none hl, Env.declare_of_none (by rw [h.funcs, hl])]
    refine .ok ⟨rfl, rfl⟩ { h with
      left := h.left
      right := h.right
      funcs := by rw [h.funcs]
      declared := fun {n d} hd => ?_ }
    by_cases heq : n = f
    · subst heq
      cases (Table.lookup_put_self ..).symm.trans hd
      rfl
    · exact h.declared ((Table.lookup_put_of_ne _ _ heq).symm.trans hd)

theorem note (h : G.Renders T F e e') (kind kind' : WeakeningKind) (tid tid' detail detail' : String) :
    Conform (fun _ _ => True) (G.Renders T F) (Env.note kind tid detail e) (Env.note kind' tid' detail' e') :=
  .ok True.intro { h with left := h.left, right := h.right }

/-! ### Callees -/

/-- A callee is found in both programs or in neither. -/
theorem findSub (h : G.Renders T F e e') (l : Label) :
    e.findSub? l = G.base.findSub? l ∧ e'.findSub? l = (G.base.findSub? l).map G.ρ.sub := by
  have hl := congrArg (Env.findSub? · l) h.left
  have hr := congrArg (Env.findSub? · l) h.right
  refine ⟨hl, hr.trans ?_⟩
  cases l with
  | indirect => rfl
  | direct tid =>
    show List.find? _ (G.base.subs.map G.ρ.sub) = _
    rw [List.find?_map]
    rfl

/-- The rule for calls of a callee is chosen alike. -/
theorem handler (hG : G.Fair) (h : G.Renders T F e e') (hn : G.Calls n) :
    Conform G.Handled (G.Renders T F) (Env.handler (G.base.callee n) e)
      (Env.handler (G.ρ.sub (G.base.callee n)) e') := by
  have hh := h.handlers (G.base.callee n).tid
  cases hl : e.handlers.lookup (G.base.callee n).tid with
  | some k =>
    cases hr : e'.handlers.lookup (G.base.callee n).tid with
    | none => rw [hl, hr] at hh; cases hh
    | some k' =>
      rw [hl, hr] at hh
      rw [Env.handler_of_lookup hl, Env.handler_of_lookup (s := G.ρ.sub (G.base.callee n)) hr]
      cases hh with
      | some hk => exact .ok hk h
  | none =>
    cases hr : e'.handlers.lookup (G.base.callee n).tid with
    | some k' => rw [hl, hr] at hh; cases hh
    | none =>
      have hret (r : Var) (hr : G.base.arch.returnReg = some r) : ¬ G.ρ.Moves r :=
        hG.conventional (by simp [Walk.conventional, hr])
      have hchosen : e.chosen? (G.base.callee n) = G.base.chosen? (G.base.callee n) := by
        have := congrArg (Env.chosen? · (G.base.callee n)) h.left
        exact this
      have hchosen' : e'.chosen? (G.ρ.sub (G.base.callee n)) = G.base.chosen? (G.base.callee n) := by
        have hr := congrArg (Env.chosen? · (G.ρ.sub (G.base.callee n))) h.right
        refine Eq.trans hr ?_
        show Option.or (G.base.rules.find? fun r => r.applies G.base.arch (G.ρ.sub (G.base.callee n))) _ = _
        simp only [Renaming.applies_sub hret]
        rfl
      rw [Env.handler_of_none hl, Env.handler_of_none (s := G.ρ.sub (G.base.callee n)) hr, hchosen, hchosen']
      cases hr : G.base.chosen? (G.base.callee n) with
      | none => exact .error
      | some r =>
        have hk : G.Handled ⟨r, G.base.callee n⟩ ⟨r, G.ρ.sub (G.base.callee n)⟩ := ⟨rfl, rfl, n, hn, rfl, hr⟩
        refine .ok hk { h with
          left := h.left
          right := h.right
          handlers := fun t => ?_ }
        show Option.Rel _ ((Table.put e.handlers (G.base.callee n).tid _).lookup t)
          ((Table.put e'.handlers (G.base.callee n).tid _).lookup t)
        by_cases ht : t = (G.base.callee n).tid
        · subst ht
          rw [Table.lookup_put_self, Table.lookup_put_self]
          exact .some hk
        · rw [Table.lookup_put_of_ne _ _ ht, Table.lookup_put_of_ne _ _ ht]
          exact h.handlers t

end Renders

end Guise

end Precond

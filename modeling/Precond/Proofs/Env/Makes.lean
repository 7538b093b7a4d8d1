import Precond.Proofs.Env.Gives
import Precond.Proofs.Walk.Vocabulary

/-! The constants that an environment makes, in order, while it is asked for names of a vocabulary
(`Env.Makes`). Constants that get numbers have names of their own, and the others have the names that
they are made for (`Env.Makes.names`). -/

namespace Precond

open IR Walk

/-- What a constant is made for: a variable, its value at entry, the flag of a function, a value that
is not known, or the result of a function without inputs. -/
inductive Purpose
  | var (v : Var)
  | entry (v : Var)
  | flag (function : String)
  | fresh (name : String)
  | result (function : String)
  deriving DecidableEq

namespace Purpose

/-- The name that is asked for. -/
def base : Purpose → String
  | var v => v.name
  | entry v => initFront ++ v.name
  | flag f => calledFront ++ f
  | fresh name => name
  | result f => f

/-- Whether the name gets a number. -/
def numbered (freshen : Bool) : Purpose → Bool
  | fresh _ => true
  | result _ => false
  | var _ | entry _ | flag _ => freshen

/-- Functions belong to all programs, and the other constants to one. -/
def own : Purpose → Prop
  | result _ => False
  | var _ | entry _ | flag _ | fresh _ => True

end Purpose

/-- A constant and what it has been made for. -/
structure Made where
  purpose : Purpose
  name : String
  sort : TSort
  deriving DecidableEq

def Made.term (m : Made) : SomeTerm := ⟨m.sort, .const m.name m.sort⟩

/-- The constant is made for names of the vocabulary, and its sort is that of its type. -/
def Made.Within (V : Vocabulary) (m : Made) : Prop :=
  match m.purpose with
  | .var v | .entry v => V.var v ∧ v.type.sort = .ok m.sort
  | .flag _ => m.sort = .bool
  | .fresh name => V.numbered name ∧ ∃ type : Ty, type.sort = .ok m.sort
  | .result f => V.result f m.sort

namespace Env

/-- Operations on an environment one after the other, and the constants that they make. A variable
that stands for a term for a while stands for what it did before afterwards. -/
inductive Makes (V : Vocabulary) : Env → List Made → Env → Prop
  | refl (e : Env) : Makes V e [] e
  | trans : Makes V e made e₁ → Makes V e₁ made' e₂ → Makes V e (made ++ made') e₂
  | var : V.var v → e.vars.lookup v = none → Env.mkVar v e = .ok ⟨s, .const n s⟩ e₁ →
      Makes V e [⟨.var v, n, s⟩] e₁
  | entry : V.var v → e.inits.lookup v = none → Env.mkInitVar v e = .ok ⟨s, .const n s⟩ e₁ →
      Makes V e [⟨.entry v, n, s⟩] e₁
  | flag : e.called.lookup (e.canonical f) = none → Env.getCalled f e = .ok (.const n .bool) e₁ →
      Makes V e [⟨.flag (e.canonical f), n, .bool⟩] e₁
  | fresh : V.numbered name → Env.fresh name type e = .ok ⟨s, .const n s⟩ e₁ →
      Makes V e [⟨.fresh name, n, s⟩] e₁
  | result : V.result f ran → e.funcs.lookup f = none → Env.declare f [] ran e = .ok d e₁ →
      Makes V e [⟨.result f, f, ran⟩] e₁
  /-- A function with inputs is not a constant. -/
  | function : e.funcs.lookup f = none → dom ≠ [] → Env.declare f dom ran e = .ok d e₁ → Makes V e [] e₁
  /-- A name is drawn before the sort of a type is found missing. -/
  | failed (name : String) : Makes V e [] { e with names := (e.names.fresh name).2 }
  | moved (frame : Frame) (inlining : List String) (attached : Bool) (handlers : Table String Handler)
      (weakenings : List Weakening) :
      Makes V e [] { e with frame, inlining, attached, handlers, weakenings }
  | bound : Makes V { e with vars := Table.put e.vars u t } made e₁ →
      Makes V e made (Env.restoreVar u (e.vars.lookup u) e₁)

variable {V : Vocabulary} {e e₁ e₂ : Env} {made made' : List Made} {m : Made}

/-! ### Names -/

/-- Names are drawn from one supply. -/
structure Draws (e e₁ : Env) : Prop where
  freshen : e₁.freshen = e.freshen
  space : e₁.names.space = e.names.space
  next : e.names.next ≤ e₁.names.next

namespace Draws

theorem refl (e : Env) : e.Draws e := ⟨rfl, rfl, Nat.le_refl _⟩

theorem trans (h₁ : e.Draws e₁) (h₂ : e₁.Draws e₂) : e.Draws e₂ :=
  ⟨h₂.freshen.trans h₁.freshen, h₂.space.trans h₁.space, h₁.next.trans h₂.next⟩

theorem numbered (h : e.Draws e₁) (k : Nat) (name : String) :
    e₁.names.numbered k name = e.names.numbered k name := by
  simp only [NameSupply.numbered, NameSupply.fresh, h.space]

end Draws

/-- The name of a constant is a new one, if it is to be numbered, and else the name that it is made
for. -/
def Names (e e₁ : Env) (m : Made) : Prop :=
  if m.purpose.numbered e.freshen then
    ∃ k, e.names.next ≤ k ∧ k < e₁.names.next ∧ m.name = e.names.numbered k m.purpose.base
  else m.name = m.purpose.base

/-- Numbered names are used once, and all names are right. -/
structure Naming (e : Env) (made : List Made) (e₁ : Env) : Prop where
  draws : e.Draws e₁
  names : ∀ m ∈ made, e.Names e₁ m
  apart : made.Pairwise fun m m' => m.purpose.numbered e.freshen → m'.purpose.numbered e.freshen →
    m.name ≠ m'.name

namespace Naming

theorem none (h : e.Draws e₁) : e.Naming [] e₁ := ⟨h, nofun, .nil⟩

theorem single (h : e.Draws e₁) (hm : e.Names e₁ m) : e.Naming [m] e₁ :=
  ⟨h, fun _ h => List.mem_singleton.mp h ▸ hm, List.pairwise_singleton ..⟩

theorem trans (h₁ : e.Naming made e₁) (h₂ : e₁.Naming made' e₂) : e.Naming (made ++ made') e₂ where
  draws := h₁.draws.trans h₂.draws
  names m hm := by
    rcases List.mem_append.mp hm with hm | hm
    · have hname := h₁.names m hm
      unfold Names at hname ⊢
      split
      · rename_i hn
        rw [if_pos hn] at hname
        obtain ⟨k, hk, hk', hname⟩ := hname
        exact ⟨k, hk, Nat.lt_of_lt_of_le hk' h₂.draws.next, hname⟩
      · rename_i hn
        rwa [if_neg hn] at hname
    · have hname := h₂.names m hm
      unfold Names at hname ⊢
      rw [h₁.draws.freshen] at hname
      split
      · rename_i hn
        rw [if_pos hn] at hname
        obtain ⟨k, hk, hk', hname⟩ := hname
        exact ⟨k, h₁.draws.next.trans hk, hk', hname.trans (h₁.draws.numbered ..)⟩
      · rename_i hn
        rwa [if_neg hn] at hname
  apart := by
    refine List.pairwise_append.mpr ⟨h₁.apart, ?_, fun m hm m' hm' hn hn' heq => ?_⟩
    · have h := h₂.apart
      rwa [h₁.draws.freshen] at h
    · have hname := h₁.names m hm
      have hname' := h₂.names m' hm'
      rw [Names, if_pos hn] at hname
      rw [Names, h₁.draws.freshen, if_pos hn'] at hname'
      obtain ⟨j, -, hj, hname⟩ := hname
      obtain ⟨k, hk, -, hname'⟩ := hname'
      rw [h₁.draws.numbered] at hname'
      have hjk := NameSupply.numbered_inj (hname.symm.trans (heq.trans hname'))
      omega

end Naming

theorem Names.constName {full : String} (h : Env.constName m.purpose.base e = .ok full e₁)
    (hn : m.purpose.numbered e.freshen = e.freshen) (hm : m.name = full) (he : e₁.Draws e₂) :
    e.Draws e₂ ∧ e.Names e₂ m := by
  rw [Names, hn]
  obtain ⟨hf, rfl, rfl⟩ | ⟨hf, rfl, rfl⟩ := constName_ok h
  · have hd : e.Draws { e with names := (e.names.fresh m.purpose.base).2 } := ⟨rfl, rfl, Nat.le_succ _⟩
    exact ⟨hd.trans he, if_pos hf ▸ ⟨_, Nat.le_refl _, he.next, hm⟩⟩
  · exact ⟨he, by rw [hf]; exact hm⟩

theorem mkInitVar_new {v : Var} {t : SomeTerm} (hn : e.inits.lookup v = none)
    (h : Env.mkInitVar v e = .ok t e₂) : ∃ n s e₁, Env.constName (initFront ++ v.name) e = .ok n e₁ ∧
      v.type.sort = .ok s ∧ t = ⟨s, .const n s⟩ ∧ e₂ = { e₁ with inits := Table.put e₁.inits v t } := by
  have h₁ := EnvM.get_ok h
  rw [hn] at h₁
  obtain ⟨n, e₁, hname, h₂⟩ := EnvM.bind_ok h₁
  obtain ⟨u, e₃, hu, h₃⟩ := EnvM.bind_ok h₂
  obtain ⟨rfl, s, hs, rfl⟩ := const_ok hu
  cases h₃
  exact ⟨n, s, _, hname, hs, rfl, rfl⟩

theorem getCalled_new {f : String} {p : Term .bool} (hn : e.called.lookup (e.canonical f) = none)
    (h : Env.getCalled f e = .ok p e₂) : ∃ n e₁,
      Env.constName (calledFront ++ e.canonical f) e = .ok n e₁ ∧ p = .const n .bool ∧
      e₂ = { e₁ with called := Table.put e₁.called (e.canonical f) p } := by
  obtain ⟨full, names, hname⟩ := constName_eq (calledFront ++ e.canonical f) e
  rw [getCalled, EnvM.get_bind, EnvM.get_bind, hn] at h
  cases (EnvM.bind_of_ok hname).symm.trans h
  exact ⟨full, _, hname, rfl, rfl⟩

theorem fresh_new {name : String} {type : Ty} {s : TSort} {n : String}
    (h : Env.fresh name type e = .ok ⟨s, .const n s⟩ e₁) : type.sort = .ok s ∧
      n = e.names.numbered e.names.next name ∧ e₁ = { e with names := (e.names.fresh name).2 } := by
  unfold Env.fresh at h
  obtain ⟨full, e₂, hn, h₁⟩ := EnvM.bind_ok h
  obtain ⟨rfl, rfl⟩ := newName_ok hn
  obtain ⟨rfl, s', hs, ht⟩ := const_ok h₁
  cases ht
  exact ⟨hs, rfl, rfl⟩

theorem Naming.one (h : e.Draws e₁ ∧ e.Names e₁ m) (hw : m.Within V) :
    e.Naming [m] e₁ ∧ ∀ m' ∈ [m], m'.Within V :=
  ⟨.single h.1 h.2, fun _ h => List.mem_singleton.mp h ▸ hw⟩

/-- The constants that are made have the names they should have, and the sorts of their types. -/
theorem Makes.names (h : Makes V e made e₁) : e.Naming made e₁ ∧ ∀ m ∈ made, m.Within V := by
  induction h with
  | refl e => exact ⟨.none (.refl e), nofun⟩
  | trans _ _ ih₁ ih₂ =>
    exact ⟨ih₁.1.trans ih₂.1, fun m hm => (List.mem_append.mp hm).elim (ih₁.2 m) (ih₂.2 m)⟩
  | var hv hn h =>
    obtain ⟨hlook, -⟩ | ⟨n, s, e₀, -, hname, hsort, ht, rfl⟩ := mkVar_ok h
    · cases hn.symm.trans hlook
    · cases ht
      exact Naming.one (Names.constName hname rfl rfl ⟨rfl, rfl, Nat.le_refl _⟩) ⟨hv, hsort⟩
  | entry hv hn h =>
    obtain ⟨n, s, e₀, hname, hsort, ht, rfl⟩ := mkInitVar_new hn h
    cases ht
    exact Naming.one (Names.constName hname rfl rfl ⟨rfl, rfl, Nat.le_refl _⟩) ⟨hv, hsort⟩
  | flag hn h =>
    obtain ⟨n, e₀, hname, ht, rfl⟩ := getCalled_new hn h
    cases ht
    exact Naming.one (Names.constName hname rfl rfl ⟨rfl, rfl, Nat.le_refl _⟩) rfl
  | fresh hv h =>
    obtain ⟨hsort, ht, rfl⟩ := fresh_new h
    refine Naming.one ⟨⟨rfl, rfl, Nat.le_succ _⟩, ?_⟩ ⟨hv, _, hsort⟩
    exact ⟨_, Nat.le_refl _, Nat.lt_succ_self _, ht⟩
  | result hv hn h =>
    rw [declare_of_none hn] at h
    cases h
    exact Naming.one ⟨⟨rfl, rfl, Nat.le_refl _⟩, rfl⟩ hv
  | function hn hd h =>
    rw [declare_of_none hn] at h
    cases h
    exact ⟨.none ⟨rfl, rfl, Nat.le_refl _⟩, nofun⟩
  | failed name => exact ⟨.none ⟨rfl, rfl, Nat.le_succ _⟩, nofun⟩
  | moved => exact ⟨.none ⟨rfl, rfl, Nat.le_refl _⟩, nofun⟩
  | bound _ ih =>
    obtain ⟨hn, hw⟩ := ih
    refine ⟨⟨?_, ?_, ?_⟩, hw⟩
    · rw [restoreVar_vars]
      exact ⟨hn.draws.freshen, hn.draws.space, hn.draws.next⟩
    · rw [restoreVar_vars]
      exact hn.names
    · exact hn.apart

/-! ### Tables -/

/-- What is new in the tables stands for constants that have been made. -/
structure Records (e : Env) (made : List Made) (e₁ : Env) : Prop where
  vars : e₁.vars.lookup v = some t →
    e.vars.lookup v = some t ∨ ∃ m ∈ made, m.purpose = .var v ∧ t = m.term
  inits : e₁.inits.lookup v = some t →
    e.inits.lookup v = some t ∨ ∃ m ∈ made, m.purpose = .entry v ∧ t = m.term
  called : e₁.called.lookup f = some p →
    e.called.lookup f = some p ∨ ∃ m ∈ made, m.purpose = .flag f ∧ p = .const m.name .bool
  funcs : e₁.funcs.lookup f = some d →
    e.funcs.lookup f = some d ∨ d.dom ≠ [] ∨ ∃ m ∈ made, m.purpose = .result f ∧ m.sort = d.ran

namespace Records

theorem of_eq (hv : e₁.vars = e.vars) (hi : e₁.inits = e.inits) (hc : e₁.called = e.called)
    (hf : e₁.funcs = e.funcs) : e.Records made e₁ where
  vars h := .inl (hv ▸ h)
  inits h := .inl (hi ▸ h)
  called h := .inl (hc ▸ h)
  funcs h := .inl (hf ▸ h)

theorem trans (h₁ : e.Records made e₁) (h₂ : e₁.Records made' e₂) :
    e.Records (made ++ made') e₂ := by
  have hfst {P : Made → Prop} : (∃ m ∈ made, P m) → ∃ m ∈ made ++ made', P m :=
    fun ⟨m, hm, hP⟩ => ⟨m, List.mem_append_left _ hm, hP⟩
  have hsnd {P : Made → Prop} : (∃ m ∈ made', P m) → ∃ m ∈ made ++ made', P m :=
    fun ⟨m, hm, hP⟩ => ⟨m, List.mem_append_right _ hm, hP⟩
  constructor
  · exact fun h => (h₂.vars h).elim (fun h => (h₁.vars h).imp_right hfst) (.inr ∘ hsnd)
  · exact fun h => (h₂.inits h).elim (fun h => (h₁.inits h).imp_right hfst) (.inr ∘ hsnd)
  · exact fun h => (h₂.called h).elim (fun h => (h₁.called h).imp_right hfst) (.inr ∘ hsnd)
  · exact fun h => (h₂.funcs h).elim (fun h => (h₁.funcs h).imp_right (·.imp_right hfst))
      (.inr ∘ (·.imp_right hsnd))

/-- One entry of a table is new. -/
theorem put {κ α : Type} [DecidableEq κ] {t : Table κ α} {k k' : κ} {x x' : α} {P : Prop}
    (h : (Table.put t k x).lookup k' = some x') (hP : k' = k → x' = x → P) :
    t.lookup k' = some x' ∨ P := by
  by_cases hk : k' = k
  · subst hk
    exact .inr (hP rfl (Option.some.inj (h.symm.trans (Table.lookup_put_self ..))))
  · exact .inl ((Table.lookup_put_of_ne _ _ hk).symm.trans h)

end Records

/-- Operations record the constants that they make. -/
theorem Makes.records (h : Makes V e made e₁) : e.Records made e₁ := by
  induction h with
  | refl e => exact .of_eq rfl rfl rfl rfl
  | trans _ _ ih₁ ih₂ => exact ih₁.trans ih₂
  | var _ hn h =>
    obtain ⟨hlook, -⟩ | ⟨n, s, e₀, -, hname, -, ht, rfl⟩ := mkVar_ok h
    · cases hn.symm.trans hlook
    · obtain ⟨-, -, names, rfl⟩ := Gives.constName hname
      refine ⟨fun hv => Records.put hv ?_, .inl, .inl, .inl⟩
      rintro rfl rfl
      exact ⟨_, List.mem_singleton.mpr rfl, rfl, rfl⟩
  | entry _ hn h =>
    obtain ⟨n, s, e₀, hname, -, ht, rfl⟩ := mkInitVar_new hn h
    obtain ⟨-, -, names, rfl⟩ := Gives.constName hname
    refine ⟨.inl, fun hv => Records.put hv ?_, .inl, .inl⟩
    rintro rfl rfl
    exact ⟨_, List.mem_singleton.mpr rfl, rfl, rfl⟩
  | flag hn h =>
    obtain ⟨n, e₀, hname, ht, rfl⟩ := getCalled_new hn h
    obtain ⟨-, -, names, rfl⟩ := Gives.constName hname
    refine ⟨.inl, .inl, fun hv => Records.put hv ?_, .inl⟩
    rintro rfl rfl
    exact ⟨_, List.mem_singleton.mpr rfl, rfl, rfl⟩
  | fresh _ h =>
    obtain ⟨-, -, rfl⟩ := fresh_new h
    exact .of_eq rfl rfl rfl rfl
  | result _ hn h =>
    rw [declare_of_none hn] at h
    cases h
    refine ⟨.inl, .inl, .inl, fun hv => Records.put hv ?_⟩
    rintro rfl rfl
    exact .inr ⟨_, List.mem_singleton.mpr rfl, rfl, rfl⟩
  | function hn hd h =>
    rw [declare_of_none hn] at h
    cases h
    refine ⟨.inl, .inl, .inl, fun hv => Records.put hv ?_⟩
    rintro rfl rfl
    exact .inl hd
  | failed | moved => exact .of_eq rfl rfl rfl rfl
  | @bound e u t made e₁ _ ih =>
    rw [restoreVar_vars]
    refine ⟨fun {v a} hv => ?_, ih.inits, ih.called, ih.funcs⟩
    dsimp only at hv
    rw [lookup_restoreVar] at hv
    split at hv
    · rename_i hvu
      exact .inl (hvu ▸ hv)
    · rename_i hvu
      refine (ih.vars hv).imp_left fun h => ?_
      exact (Table.lookup_put_of_ne _ _ hvu).symm.trans h

/-! ### Operations -/

namespace Makes

/-- Some constants are made on the way. -/
def Some (V : Vocabulary) (e e₁ : Env) : Prop := ∃ made, Makes V e made e₁

theorem Some.refl (e : Env) : Some V e e := ⟨[], .refl e⟩

theorem Some.trans (h₁ : Some V e e₁) (h₂ : Some V e₁ e₂) : Some V e e₂ :=
  let ⟨_, h₁⟩ := h₁
  let ⟨_, h₂⟩ := h₂
  ⟨_, h₁.trans h₂⟩

/-- The names that are drawn for a constant whose type has no sort. -/
theorem Some.lost {name full : String} (h : Env.constName name e = .ok full e₁) : Some V e e₁ := by
  obtain ⟨-, -, rfl⟩ | ⟨-, -, rfl⟩ := constName_ok h
  · exact ⟨[], .failed name⟩
  · exact .refl _

theorem Some.mkVar {v : Var} (hv : V.var v) (e : Env) : Some V e (ending (Env.mkVar v) e) := by
  cases hl : e.vars.lookup v with
  | some t =>
    rw [ending, mkVar_of_lookup hl]
    exact .refl e
  | none =>
    obtain ⟨full, names, hname⟩ := constName_eq v.name e
    have hmk := mkVar_of_none hl hname
    cases hs : v.type.sort <;> rw [hs] at hmk <;> rw [ending, hmk]
    · exact .lost hname
    · exact ⟨_, .var hv hl hmk⟩

theorem Some.mkInitVar {v : Var} (hv : V.var v) (e : Env) :
    Some V e (ending (Env.mkInitVar v) e) := by
  cases hl : e.inits.lookup v with
  | some t =>
    rw [ending, mkInitVar_of_lookup hl]
    exact .refl e
  | none =>
    obtain ⟨full, names, hname⟩ := constName_eq (initFront ++ v.name) e
    have hmk := mkInitVar_of_none hl hname
    cases hs : v.type.sort <;> rw [hs] at hmk <;> rw [ending, hmk]
    · exact .lost hname
    · exact ⟨_, .entry hv hl hmk⟩

theorem Some.getCalled (f : String) (e : Env) : Some V e (ending (Env.getCalled f) e) := by
  cases hl : e.called.lookup (e.canonical f) with
  | some p =>
    rw [ending, getCalled_of_lookup hl]
    exact .refl e
  | none =>
    obtain ⟨full, names, hmk⟩ := getCalled_of_none hl
    rw [ending, hmk]
    exact ⟨_, .flag hl hmk⟩

theorem Some.declare {f : String} {ran : TSort} (hf : V.result f ran) (dom : List TSort) (e : Env) :
    Some V e (ending (Env.declare f dom ran) e) := by
  cases hl : e.funcs.lookup f with
  | some d =>
    rw [ending, declare_of_lookup hl]
    exact .refl e
  | none =>
    have hmk : Env.declare f dom ran e = _ := declare_of_none hl
    rw [ending, hmk]
    cases dom with
    | nil => exact ⟨_, .result hf hl hmk⟩
    | cons => exact ⟨_, .function hl (List.cons_ne_nil _ _) hmk⟩

theorem Some.fresh {name : String} (hn : V.numbered name) (type : Ty) (e : Env) :
    Some V e (ending (Env.fresh name type) e) := by
  cases hs : type.sort with
  | error f =>
    have h : ending (Env.fresh name type) e = { e with names := (e.names.fresh name).2 } := by
      unfold ending Env.fresh const
      rw [hs]
      rfl
    rw [h]
    exact ⟨_, .failed name⟩
  | ok s =>
    have hmk : Env.fresh name type e = .ok ⟨s, .const (e.names.fresh name).1 s⟩
        { e with names := (e.names.fresh name).2 } := by
      unfold Env.fresh const
      rw [hs]
      rfl
    rw [ending, hmk]
    exact ⟨_, .fresh hn hmk⟩

theorem Some.moved (e : Env) (frame : Frame) (inlining : List String) (attached : Bool)
    (handlers : Table String Handler) (weakenings : List Weakening) :
    Some V e { e with frame, inlining, attached, handlers, weakenings } := ⟨[], .moved ..⟩

theorem Some.handler (s : Sub) (e : Env) : Some V e (ending (Env.handler s) e) := by
  cases hl : e.handlers.lookup s.tid with
  | some h =>
    rw [ending, handler_of_lookup hl]
    exact .refl e
  | none =>
    rw [ending, handler_of_none hl]
    cases e.chosen? s with
    | none => exact .refl e
    | some r => exact .moved ..

theorem Some.bound {u : Var} {t : SomeTerm} (h : Some V { e with vars := Table.put e.vars u t } e₁) :
    Some V e (Env.restoreVar u (e.vars.lookup u) e₁) :=
  let ⟨_, h⟩ := h
  ⟨_, h.bound⟩

end Makes

end Env

end Precond

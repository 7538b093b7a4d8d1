import Precond.Proofs.Constraint.Given
import Precond.Proofs.Walk.Effects

/-! Which functions stand in a constraint. A constraint is composed of others by goals, clauses, branches
and substitutions (`Constr.Composed`), and a function that takes the place of a variable, where a callee
comes to be called, is named for the callee and the variable (`Env.Ascribes`). -/

namespace Precond

open IR

/-! ### Functions of terms -/

/-- The function that a term applies; a constant is a function without arguments. -/
def Spine.symbol? {dom : List TSort} {ran : TSort} : Spine dom ran → Option FuncDecl
  | const n s => some ⟨n, [], s⟩
  | op (.func n dom ran) => some ⟨n, dom, ran⟩
  | op _ => none
  | app f _ => f.symbol?

theorem Spine.symbol?_applyTo {ran : TSort} {args : List SomeTerm} {dom : List TSort} {f : Spine dom ran}
    {t : Term ran} (h : f.applyTo args = .ok t) : t.symbol? = f.symbol? := by
  induction args generalizing dom with
  | nil =>
    cases dom with
    | nil =>
      cases h
      rfl
    | cons => cases h
  | cons x args ih =>
    cases dom with
    | nil => cases h
    | cons s dom =>
      obtain ⟨y, -, hrest⟩ := bind_eq_ok h
      exact (ih hrest).trans rfl

theorem FuncDecl.symbol?_apply {f : FuncDecl} {args : List SomeTerm} {t : SomeTerm}
    (h : f.apply args = .ok t) : t.2.symbol? = some f := by
  obtain ⟨name, dom, ran⟩ := f
  unfold FuncDecl.apply at h
  split at h
  · rename_i hdom
    cases h
    obtain rfl : dom = [] := hdom
    rfl
  · obtain ⟨x, hx, h⟩ := bind_eq_ok h
    cases h
    exact Spine.symbol?_applyTo hx

theorem Spine.symbol?_ran {dom : List TSort} {ran : TSort} {t : Spine dom ran} {f : FuncDecl}
    (h : t.symbol? = some f) : f.ran = ran := by
  induction t with
  | const n s =>
    cases h
    rfl
  | op o =>
    cases o <;> cases h
    rfl
  | app _ _ ih => exact ih h

/-! ### Names -/

/-- Two names that are glued are the same ones, or a part of one of them has gone over to the other. -/
theorem glued_cases {c c' o o' : String} (h : c ++ "_" ++ o = c' ++ "_" ++ o') :
    (c = c' ∧ o = o') ∨ (∃ y, c' = c ++ "_" ++ y ∧ o = y ++ "_" ++ o') ∨
      ∃ y, c = c' ++ "_" ++ y ∧ o' = y ++ "_" ++ o := by
  have hsplit {c c' o o' : String} {as : List Char} (hc : c'.toList = c.toList ++ as)
      (ho : '_' :: o.toList = as ++ '_' :: o'.toList) :
      (c = c' ∧ o = o') ∨ ∃ y, c' = c ++ "_" ++ y ∧ o = y ++ "_" ++ o' := by
    cases as with
    | nil =>
      rw [List.append_nil] at hc
      exact .inl ⟨String.toList_inj.mp hc.symm, String.toList_inj.mp (List.cons.inj ho).2⟩
    | cons x as =>
      obtain ⟨rfl, hrest⟩ := List.cons.inj ho
      refine .inr ⟨String.ofList as, String.toList_inj.mp ?_, String.toList_inj.mp ?_⟩
      · simp [hc]
      · rw [hrest]
        simp
  have hlists : c.toList ++ '_' :: o.toList = c'.toList ++ '_' :: o'.toList := by
    simpa using congrArg String.toList h
  rcases List.append_eq_append_iff.mp hlists with ⟨as, hc, ho⟩ | ⟨as, hc, ho⟩
  · exact (hsplit hc ho).imp_right .inl
  · exact (hsplit hc ho).imp (fun h => ⟨h.1.symm, h.2.symm⟩) .inr

namespace Env

variable {p e : Env} {x y full : String} {pairs : List (SomeTerm × SomeTerm)}

/-- The term is the flag that a function has been called. -/
def Flagged (p : Env) (callee : String) (flag : Term .bool) : Prop :=
  ∃ n, flag = .const n .bool ∧ p.Numbers (calledFront ++ callee) n

/-- The term is the constant of a variable. -/
def Denotes (p : Env) (v : Var) (t : SomeTerm) : Prop :=
  ∃ n s, t = ⟨s, .const n s⟩ ∧ v.type.sort = .ok s ∧ p.Numbers v.name n

theorem Gives.flagged {callee : String} {flag : Term .bool} (h : p.Gives e) (hf : e.Flags callee flag) :
    p.Flagged callee flag :=
  let ⟨n, hn, hg⟩ := hf
  ⟨n, hn, hg.numbers h.freshen h.space⟩

theorem Gives.denotes {v : Var} {t : SomeTerm} (h : p.Gives e) (ht : e.Grants v.name v.type t) :
    p.Denotes v t :=
  let ⟨n, s, hn, hs, hg⟩ := ht
  ⟨n, s, hn, hs, hg.numbers h.freshen h.space⟩

/-- A flag tells which function has been called. -/
theorem Flagged.inj {f g : String} {flag : Term .bool} (hf : p.Flagged f flag) (hg : p.Flagged g flag) :
    f = g := by
  obtain ⟨n, rfl, hn⟩ := hf
  obtain ⟨k, hk, hn'⟩ := hg
  cases hk
  exact (String.append_right_inj _).mp (hn.inj hn')

/-- A constant tells which variable it is of. -/
theorem Denotes.inj {u v : Var} {t : SomeTerm} (hu : p.Denotes u t) (hv : p.Denotes v t) : u = v := by
  obtain ⟨n, s, rfl, hs, hn⟩ := hu
  obtain ⟨k, s', ht, hs', hk⟩ := hv
  cases ht
  exact Var.eq_of_sort (hn.inj hk) hs hs'

/-! ### Functions that take the place of variables -/

/-- Where a callee comes to be called, a function that takes the place of a term is named for the callee
and a variable, whose constant the term is. -/
def Ascribes (p : Env) (pairs : List (SomeTerm × SomeTerm)) : Prop :=
  ∀ flag old new f, (⟨.bool, flag⟩, ⟨.bool, .truth true⟩) ∈ pairs → (old, new) ∈ pairs →
    new.2.symbol? = some f →
      ∃ callee out, p.Flagged callee flag ∧ p.Denotes out old ∧ f.name = callee ++ "_" ++ out.name

theorem Ascribes.single (old new : SomeTerm) : p.Ascribes [(old, new)] := by
  intro flag old' new' f hflag hnew hf
  cases List.mem_singleton.mp hflag
  cases List.mem_singleton.mp hnew
  cases hf

theorem Ascribes.of_ne_bool (h : ∀ q ∈ pairs, q.1.1 ≠ .bool) : p.Ascribes pairs :=
  fun _ _ _ _ hflag _ _ => absurd rfl (h _ hflag)

/-- The stack pointer behind a return is no function of its own. -/
theorem Pops.symbol {q : SomeTerm × SomeTerm} (h : e.Pops q) : q.2.2.symbol? = none := by
  cases h
  rfl

theorem Marks.symbol {callee : Sub} {q : SomeTerm × SomeTerm} (h : e.Marks callee q) :
    q.2.2.symbol? = none := by
  cases h
  rfl

/-- The only callee that comes to be called is the one whose flag is replaced. -/
theorem Replaces.flagged {callee : Sub} {values : List (Var × SomeTerm)} {flag : Term .bool}
    (h : e.Replaces callee values pairs) (hp : p.Gives e) (ht : e.Tidy)
    (hflag : (⟨.bool, flag⟩, ⟨.bool, .truth true⟩) ∈ pairs) : p.Flagged (e.canonical callee.name) flag := by
  rcases h.only hflag with hmark | ⟨c, -, hl, -⟩ | ⟨-, -, hpop⟩
  · cases hmark with
    | flag hl => exact hp.flagged (ht.called hl)
  · obtain ⟨n, s, hold, hs, -⟩ := ht.vars hl
    exact absurd (congrArg Sigma.fst hold).symm (Ty.sort_ne_bool hs)
  · exact absurd rfl hpop.ne_bool

theorem Replaces.ascribes {callee : Sub} {values : List (Var × SomeTerm)}
    (h : e.Replaces callee values pairs) (hp : p.Gives e) (ht : e.Tidy)
    (hvalues : ∀ c ∈ values, ∀ f, c.2.2.symbol? = some f →
      f.name = e.canonical callee.name ++ "_" ++ c.1.name) : p.Ascribes pairs := by
  intro flag old new f hflag hnew hf
  rcases h.only hnew with hmark | ⟨c, hc, hl, hvalue⟩ | ⟨-, -, hpop⟩
  · exact absurd (hmark.symbol.symm.trans hf) nofun
  · exact ⟨_, c.1, h.flagged hp ht hflag, hp.denotes (ht.vars hl), hvalues c hc f (hvalue ▸ hf)⟩
  · exact absurd (hpop.symbol.symm.trans hf) nofun

/-- Results of a summary are functions that are named for callee and output. -/
theorem Sums.ascribes {e' : Env} {rule : CallRule} {callee : Sub} (h : e.Sums rule callee e' pairs)
    (hp : p.Gives e') (ht : e'.Tidy) (hc : e'.canonical callee.name = e.canonical callee.name) :
    p.Ascribes pairs := by
  obtain ⟨args, news, -, hnews, hreplaces⟩ := h
  refine hreplaces.ascribes hp ht fun c hmem f hf => ?_
  obtain ⟨g, hname, -, happly⟩ := List.forall₂_zip hnews hmem
  cases hf.symm.trans (FuncDecl.symbol?_apply happly)
  rw [hc]
  exact hname

/-- In a constraint a call of a callee gives a variable the value of a function. -/
inductive Uses (e : Env) : Constr → String → Var → FuncDecl → Prop
  | subst {id : Nat} {body : Constr} {ps : List (SomeTerm × SomeTerm)} {callee : String} {flag : Term .bool}
    {out : Var} {old new : SomeTerm} {f : FuncDecl} : e.called.lookup callee = some flag →
    (⟨.bool, flag⟩, ⟨.bool, .truth true⟩) ∈ ps → e.vars.lookup out = some old → (old, new) ∈ ps →
    new.2.symbol? = some f → Uses e (.subst id body ps) callee out f

/-- A summary gives each of its outputs the value of a function. -/
theorem Sums.uses {e' : Env} {rule : CallRule} {callee : Sub} {out : Var} (h : e.Sums rule callee e' pairs)
    (hc : e'.canonical callee.name = e.canonical callee.name) (hout : out ∈ (e.interface rule callee).2)
    (id : Nat) (body : Constr) :
    ∃ f, e'.Uses (.subst id body pairs) (e.canonical callee.name) out f := by
  obtain ⟨args, news, -, hnews, hreplaces⟩ := h
  obtain ⟨_, hflag, ⟨hl⟩⟩ := hreplaces.marks
  obtain ⟨new, hmem⟩ : ∃ new, (out, new) ∈ (e.interface rule callee).2.zip news := by
    obtain ⟨i, hi, rfl⟩ := List.getElem_of_mem hout
    have hi' : i < news.length := hnews.length_eq ▸ hi
    exact ⟨news[i], List.mem_iff_getElem.mpr ⟨i, by simp [hi, hi'], List.getElem_zip⟩⟩
  obtain ⟨f, -, -, happly⟩ := List.forall₂_zip hnews hmem
  obtain ⟨old, hold, hpair⟩ := hreplaces.gives hmem
  exact ⟨f, .subst (hc ▸ hl) hflag hold hpair (FuncDecl.symbol?_apply happly)⟩

/-- Where the constraint has a formula, the function is of the sort of the variable. -/
theorem Uses.sort {d : Constr} {callee : String} {out : Var} {f : FuncDecl} (h : e.Uses d callee out f)
    (ht : e.Tidy) (hd : d.Formal) : out.type.sort = .ok f.ran := by
  obtain ⟨-, -, hold, hnew, hf⟩ := h
  obtain ⟨n, s, rfl, hs, -⟩ := ht.vars hold
  rw [hs, Spine.symbol?_ran hf, hd.sorts _ hnew]

end Env

/-! ### Constraints -/

namespace Constr

/-- What can be made of constraints by goals, clauses, branches and substitutions that tell callee and
output by the names of functions. -/
inductive Composed (p : Env) (K : Constr → Prop) : Constr → Prop
  | old : K c → Composed p K c
  | goal (id : Nat) (name : String) (value : Term .bool) (tid : Option String) :
    Composed p K (.goal id name value tid)
  | clause (id : Nat) : (∀ c ∈ hyps, Composed p K c) → (∀ c ∈ goals, Composed p K c) →
    Composed p K (.clause id hyps goals)
  | branch (id : Nat) (jump : String) (cond : Term .bool) : Composed p K yes → Composed p K no →
    Composed p K (.branch id jump cond yes no)
  | subst (id : Nat) : Composed p K body → p.Ascribes pairs → Composed p K (.subst id body pairs)

variable {p : Env} {K : Constr → Prop} {c d : Constr}

/-- Parts of what is composed are composed. -/
theorem Composed.part (hK : ∀ {c d}, K c → d ∈ c.children → K d) (h : c.Composed p K) (hd : Part c d) :
    d.Composed p K := by
  induction hd with
  | refl => exact h
  | tail _ hmem ih =>
    cases ih with
    | old hc => exact .old (hK hc hmem)
    | goal => cases hmem
    | clause _ hhyps hgoals => exact (List.mem_append.mp hmem).elim (hhyps _) (hgoals _)
    | branch _ _ _ hyes hno =>
      rcases List.mem_cons.mp hmem with rfl | hmem
      · exact hyes
      · exact List.mem_singleton.mp hmem ▸ hno
    | subst _ hbody _ => exact List.mem_singleton.mp hmem ▸ hbody

/-- In a constraint that is new, functions are named for callee and variable. -/
theorem Composed.name {e : Env} {callee : String} {out : Var} {f : FuncDecl} (h : d.Composed p K)
    (hnew : ¬ K d) (hp : p.Gives e) (ht : e.Tidy) (hu : e.Uses d callee out f) :
    f.name = callee ++ "_" ++ out.name := by
  obtain ⟨hcalled, hflag, hvar, hpair, hf⟩ := hu
  cases h with
  | old hc => exact absurd hc hnew
  | subst _ _ hpairs =>
    obtain ⟨callee', out', hflagged, hdenotes, hname⟩ := hpairs _ _ _ _ hflag hpair hf
    rw [hname, hflagged.inj (hp.flagged (ht.called hcalled)), hdenotes.inj (hp.denotes (ht.vars hvar))]

end Constr

end Precond

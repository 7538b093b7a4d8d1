import Mathlib.Logic.Relation
import Precond.Constraint.Formula
import Precond.Proofs.Run.Store
import Precond.Proofs.Term.Operators

/-! The formula of a constraint and what it says of models. Where different nodes have different
numbers, keeping the formulas of nodes makes no difference (`Constr.toFormula_eq`), so that the
formula of a node is made from those of its parts; `Constr.truth` is its truth. A ledger is a set of
nodes to which the walk adds one node after the other. -/

namespace Precond

open Relation

namespace Constr

mutual

/-- The formula of a constraint, built anew at each occurrence of a node. -/
def plain : Constr → Except Fault (Term .bool)
  | goal _ _ value _ => return value
  | clause _ hyps goals => do
    let hs ← plains hyps
    let gs ← plains goals
    return if hs.isEmpty then Term.conj gs else (Term.conj hs).implies (Term.conj gs)
  | branch _ _ cond yes no => do return Term.ite cond (← plain yes) (← plain no)
  | subst _ body pairs => do (← plain body).under pairs

def plains : List Constr → Except Fault (List (Term .bool))
  | [] => return []
  | c :: cs => do return (← plain c) :: (← plains cs)

end

/-- Whether the formula of a constraint is true in a model. -/
def truth (c : Constr) (m : Model) : Bool :=
  match c.plain with
  | .ok t => t.holds m
  | .error _ => false

/-- A node of a constraint. -/
def Part : Constr → Constr → Prop := ReflTransGen fun c d => d ∈ c.children

/-- A set of nodes that are told apart by their numbers. -/
structure Numbered (K : Constr → Prop) : Prop where
  children : K c → d ∈ c.children → K d
  inj : K c → K d → c.id = d.id → c = d

theorem Numbered.part {K : Constr → Prop} {c d : Constr} (hK : Numbered K) (hc : K c)
    (h : Part c d) : K d := by
  induction h with
  | refl => exact hc
  | tail _ hd ih => exact hK.children ih hd

/-! ### Kept formulas -/

/-- The kept formulas are those of the nodes. -/
def Memo.Sound (K : Constr → Prop) (memo : Memo) : Prop :=
  ∀ c t, K c → memo[c.id]? = some t → c.plain = .ok t

/-- A result that keeps formulas is one that does not, and what is kept is right. -/
def Agrees {α : Type} (K : Constr → Prop) (r : Except Fault (α × Memo)) (p : Except Fault α) :
    Prop :=
  match r with
  | .ok (x, memo) => p = .ok x ∧ memo.Sound K
  | .error f => p = .error f

theorem Agrees.bind {α β : Type} {K : Constr → Prop} {x : Memoized α} {p : Except Fault α}
    {f : α → Memoized β} {q : α → Except Fault β} {memo : Memo} (hx : Agrees K (x.run memo) p)
    (hf : ∀ a memo', p = .ok a → memo'.Sound K → Agrees K ((f a).run memo') (q a)) :
    Agrees K ((x >>= f).run memo) (p >>= q) := by
  rw [StateT.run_bind]
  cases hr : x.run memo with
  | ok r =>
    rw [hr] at hx
    rw [hx.1]
    exact hf _ _ hx.1 hx.2
  | error e =>
    rw [hr] at hx
    rw [show p = .error e from hx]
    exact rfl

theorem Agrees.pure {α : Type} {K : Constr → Prop} {memo : Memo} (hm : memo.Sound K) (a : α) :
    Agrees K ((Pure.pure a : Memoized α).run memo) (Pure.pure a) := ⟨rfl, hm⟩

theorem Numbered.remember {K : Constr → Prop} (hK : Numbered K) {c : Constr} (hc : K c)
    {make : Memoized (Term .bool)} {memo : Memo} (hm : memo.Sound K)
    (h : Agrees K (make.run memo) c.plain) : Agrees K ((remember c.id make).run memo) c.plain := by
  unfold Constr.remember
  rw [StateT.run_bind, StateT.run_get, pure_bind]
  split
  · rename_i t ht
    exact ⟨hm c t hc ht, hm⟩
  · rw [← bind_pure c.plain]
    refine h.bind fun t memo' ht hm' => ⟨rfl, fun d t' hd ht' => ?_⟩
    dsimp only at ht'
    rw [Std.HashMap.getElem?_insert] at ht'
    split at ht'
    · rename_i hid
      cases ht'
      cases hK.inj hc hd (eq_of_beq hid)
      exact ht
    · exact hm' d t' hd ht'

mutual

theorem Numbered.formula {K : Constr → Prop} (hK : Numbered K) : (c : Constr) → K c →
    (memo : Memo) → memo.Sound K → Agrees K ((formula c).run memo) c.plain
  | c@(goal _ _ value _), hc, memo, hm => by
    rw [Constr.formula]
    exact hK.remember hc hm (.pure hm value)
  | c@(clause _ hyps goals), hc, memo, hm => by
    rw [Constr.formula]
    refine hK.remember hc hm ?_
    rw [plain]
    refine .bind (hK.formulas hyps (fun d hd => hK.children hc (List.mem_append_left _ hd)) memo hm)
      fun hs memo _ hm => ?_
    exact .bind
      (hK.formulas goals (fun d hd => hK.children hc (List.mem_append_right _ hd)) memo hm)
      fun gs memo _ hm => .pure hm _
  | c@(branch _ _ cond yes no), hc, memo, hm => by
    rw [Constr.formula]
    refine hK.remember hc hm ?_
    rw [plain]
    refine .bind (hK.formula yes (hK.children hc List.mem_cons_self) memo hm) fun y memo _ hm => ?_
    exact .bind (hK.formula no (hK.children hc (List.mem_cons_of_mem _ List.mem_cons_self)) memo hm)
      fun n memo _ hm => .pure hm _
  | c@(subst _ body pairs), hc, memo, hm => by
    rw [Constr.formula]
    refine hK.remember hc hm ?_
    rw [plain]
    refine .bind (hK.formula body (hK.children hc List.mem_cons_self) memo hm) fun t memo _ hm => ?_
    cases h : t.under pairs with
    | ok t' => exact ⟨rfl, hm⟩
    | error f => exact rfl

theorem Numbered.formulas {K : Constr → Prop} (hK : Numbered K) : (cs : List Constr) →
    (∀ c ∈ cs, K c) → (memo : Memo) → memo.Sound K → Agrees K ((formulas cs).run memo) (plains cs)
  | [], _, memo, hm => by
    rw [Constr.formulas, plains]
    exact .pure hm _
  | c :: cs, hcs, memo, hm => by
    rw [Constr.formulas, plains]
    refine .bind (hK.formula c (hcs c List.mem_cons_self) memo hm) fun t memo _ hm => ?_
    exact .bind (hK.formulas cs (fun d hd => hcs d (List.mem_cons_of_mem _ hd)) memo hm)
      fun ts memo _ hm => .pure hm _

end

theorem Memo.sound_empty (K : Constr → Prop) : Memo.Sound K {} := by
  intro c t _ h
  rw [Std.HashMap.getElem?_empty] at h
  cases h

/-- Keeping formulas makes no difference. -/
theorem Numbered.toFormula_eq {K : Constr → Prop} (hK : Numbered K) {c : Constr} (hc : K c) :
    c.toFormula = c.plain := by
  have h := hK.formula c hc {} (Memo.sound_empty K)
  rw [toFormula, formulaWithMemo]
  cases hr : (Constr.formula c).run {} with
  | ok r =>
    rw [hr] at h
    exact h.1.symm
  | error f =>
    rw [hr] at h
    exact Eq.symm h

/-! ### Formulas of nodes -/

theorem truth_of_plain {c : Constr} {t : Term .bool} (h : c.plain = .ok t) (m : Model) :
    c.truth m = t.holds m := by
  rw [truth, h]

theorem holds_conj (ps : List (Term .bool)) (m : Model) :
    (Term.conj ps).holds m = ps.all fun p => p.holds m := by
  unfold Term.conj
  split
  · rfl
  · simp
  · exact Spine.holds_and m _

/-- The constraint has a formula. -/
def Formal (c : Constr) : Prop := ∃ t, c.plain = .ok t

theorem Formal.plains {cs : List Constr} (h : ∀ c ∈ cs, c.Formal) :
    ∃ ts, Constr.plains cs = .ok ts ∧
      ∀ m, (ts.all fun t => t.holds m) = cs.all fun c => c.truth m := by
  induction cs with
  | nil => exact ⟨[], rfl, fun _ => rfl⟩
  | cons c cs ih =>
    obtain ⟨t, ht⟩ := h c List.mem_cons_self
    obtain ⟨ts, hts, hm⟩ := ih fun d hd => h d (List.mem_cons_of_mem _ hd)
    refine ⟨t :: ts, ?_, fun m => ?_⟩
    · rw [Constr.plains, ht, hts]
      rfl
    · rw [List.all_cons, List.all_cons, hm, truth_of_plain ht]

variable {id : Nat} {name : String} {m : Model}

theorem formal_goal (value : Term .bool) (tid : Option String) :
    (goal id name value tid).Formal := ⟨value, rfl⟩

theorem truth_goal (value : Term .bool) (tid : Option String) :
    (goal id name value tid).truth m = value.holds m := rfl

theorem plain_clause {hyps goals : List Constr} (hh : ∀ c ∈ hyps, c.Formal)
    (hg : ∀ c ∈ goals, c.Formal) : ∃ t, (clause id hyps goals).plain = .ok t ∧
      ∀ m, t.holds m = (!(hyps.all fun c => c.truth m) || goals.all fun c => c.truth m) := by
  obtain ⟨hs, hhs, hm⟩ := Formal.plains hh
  obtain ⟨gs, hgs, gm⟩ := Formal.plains hg
  refine ⟨if hs.isEmpty then Term.conj gs else (Term.conj hs).implies (Term.conj gs), ?_,
    fun m => ?_⟩
  · rw [plain, hhs, hgs]
    rfl
  · rw [← hm, ← gm]
    split
    · rename_i he
      rw [List.isEmpty_iff.mp he, holds_conj]
      rfl
    · rw [Spine.holds_implies, holds_conj, holds_conj]

theorem formal_clause {hyps goals : List Constr} (hh : ∀ c ∈ hyps, c.Formal)
    (hg : ∀ c ∈ goals, c.Formal) : (clause id hyps goals).Formal :=
  let ⟨t, ht, _⟩ := plain_clause hh hg
  ⟨t, ht⟩

theorem truth_clause {hyps goals : List Constr} (hh : ∀ c ∈ hyps, c.Formal)
    (hg : ∀ c ∈ goals, c.Formal) : (clause id hyps goals).truth m =
      (!(hyps.all fun c => c.truth m) || goals.all fun c => c.truth m) :=
  let ⟨_, ht, hm⟩ := plain_clause hh hg
  (truth_of_plain ht m).trans (hm m)

theorem formal_branch {cond : Term .bool} {yes no : Constr} (hy : yes.Formal) (hn : no.Formal) :
    (branch id name cond yes no).Formal := by
  obtain ⟨y, hy⟩ := hy
  obtain ⟨n, hn⟩ := hn
  exact ⟨Term.ite cond y n, by rw [plain, hy, hn]; rfl⟩

theorem truth_branch {cond : Term .bool} {yes no : Constr} (hy : yes.Formal) (hn : no.Formal) :
    (branch id name cond yes no).truth m = if cond.holds m then yes.truth m else no.truth m := by
  obtain ⟨y, hy⟩ := hy
  obtain ⟨n, hn⟩ := hn
  have h : (branch id name cond yes no).plain = .ok (Term.ite cond y n) := by
    rw [plain, hy, hn]; rfl
  rw [truth_of_plain h, truth_of_plain hy, truth_of_plain hn, Spine.holds_ite]

theorem plain_subst {body : Constr} {t : Term .bool} {s : TSort} (h : body.plain = .ok t)
    (old new : Term s) :
    (subst id body [(⟨s, old⟩, ⟨s, new⟩)]).plain = .ok (t.replace [⟨old, new⟩]) := by
  have hp : Swap.ofPairs [((⟨s, old⟩ : SomeTerm), (⟨s, new⟩ : SomeTerm))] = .ok [⟨old, new⟩] := by
    simp only [Swap.ofPairs, Swap.ofPair?, dite_true]
    rfl
  rw [plain, h]
  change Term.under t _ = _
  rw [Term.under, hp]
  rfl

theorem formal_subst {body : Constr} {s : TSort} (h : body.Formal) (old new : Term s) :
    (subst id body [(⟨s, old⟩, ⟨s, new⟩)]).Formal :=
  let ⟨_, ht⟩ := h
  ⟨_, plain_subst ht old new⟩

/-- A substitution for the constant of a variable is an assignment. -/
theorem truth_subst {body : Constr} {s : TSort} (h : body.Formal) (n : String) (new : Term s) :
    (subst id body [(⟨s, .const n s⟩, ⟨s, new⟩)]).truth m = body.truth (m.withConst n new) := by
  obtain ⟨t, ht⟩ := h
  rw [truth_of_plain (plain_subst ht _ new), truth_of_plain ht]
  refine Spine.eval_replace (fun w hw => ?_) m t
  cases List.mem_singleton.mp hw
  exact ⟨n, rfl⟩

/-! ### Ledgers -/

/-- A set of nodes with numbers below `n`. -/
structure Register (K : Constr → Prop) (n : Nat) : Prop extends Numbered K where
  lt : K c → c.id < n

/-- A set of nodes with numbers below `n`, each with a formula. -/
structure Ledger (K : Constr → Prop) (n : Nat) : Prop extends Numbered K where
  lt : K c → c.id < n
  formal : K c → c.Formal

theorem Register.mono {K : Constr → Prop} {n n' : Nat} (hK : Register K n) (h : n ≤ n') :
    Register K n' := ⟨hK.toNumbered, fun hc => (hK.lt hc).trans_le h⟩

theorem Register.add {K : Constr → Prop} {n : Nat} (hK : Register K n) {c : Constr} (hid : c.id = n)
    (hc : ∀ d ∈ c.children, K d) : Register (fun d => K d ∨ d = c) (n + 1) where
  children := by
    rintro d e (hd | rfl) he
    · exact .inl (hK.children hd he)
    · exact .inl (hc e he)
  inj := by
    rintro d e (hd | rfl) (he | rfl) hde
    · exact hK.inj hd he hde
    · exact absurd (hK.lt hd) (by omega)
    · exact absurd (hK.lt he) (by omega)
    · rfl
  lt := by
    rintro d (hd | rfl)
    · exact Nat.lt_succ_of_lt (hK.lt hd)
    · omega

theorem Ledger.register {K : Constr → Prop} {n : Nat} (hK : Ledger K n) : Register K n :=
  ⟨hK.toNumbered, hK.lt⟩

theorem Ledger.empty {n : Nat} : Ledger (fun _ => False) n where
  children := nofun
  inj := nofun
  lt := nofun
  formal := nofun

theorem Ledger.add {K : Constr → Prop} {n : Nat} (hK : Ledger K n) {c : Constr} (hid : c.id = n)
    (hf : c.Formal) (hc : ∀ d ∈ c.children, K d) : Ledger (fun d => K d ∨ d = c) (n + 1) where
  toNumbered := (hK.register.add hid hc).toNumbered
  lt := (hK.register.add hid hc).lt
  formal := by
    rintro d (hd | rfl)
    · exact hK.formal hd
    · exact hf

/-- A node of a ledger has a formula, which says what the node says. -/
theorem Ledger.formula {K : Constr → Prop} {n : Nat} (hK : Ledger K n) {c : Constr} (hc : K c) :
    ∃ t, c.toFormula = .ok t ∧ ∀ m, t.holds m = c.truth m := by
  obtain ⟨t, ht⟩ := hK.formal hc
  exact ⟨t, (hK.toNumbered.toFormula_eq hc).trans ht, fun m => (truth_of_plain ht m).symm⟩

/-- The nodes of a constraint have numbers below `n`, each its own. -/
structure Fresh (c : Constr) (n : Nat) : Prop where
  lt : Part c d → d.id < n
  inj : Part c d → Part c e → d.id = e.id → d = e

theorem Fresh.numbered {c : Constr} {n : Nat} (h : c.Fresh n) : Numbered (Part c) where
  children hd he := hd.tail he
  inj := h.inj

theorem Fresh.goal {n : Nat} (h : id < n) (value : Term .bool) (tid : Option String) :
    (goal id name value tid).Fresh n := by
  have hpart : ∀ d, Part (Constr.goal id name value tid) d → Constr.goal id name value tid = d := by
    intro d hd
    rcases hd.cases_head with rfl | ⟨e, he, -⟩
    · rfl
    · cases he
  exact ⟨fun hd => hpart _ hd ▸ h, fun hd he _ => (hpart _ hd).symm.trans (hpart _ he)⟩

theorem toFormula_goal (id : Nat) (name : String) (value : Term .bool) (tid : Option String) :
    (goal id name value tid).toFormula = .ok value :=
  (Fresh.goal (Nat.lt_succ_self id) value tid).numbered.toFormula_eq .refl

/-- The truth of a fresh constraint is that of its formula. -/
theorem Fresh.truth {c : Constr} {n : Nat} {t : Term .bool} (h : c.Fresh n)
    (ht : c.toFormula = .ok t) (m : Model) : c.truth m = t.holds m :=
  truth_of_plain ((h.numbered.toFormula_eq .refl).symm.trans ht) m

theorem plains_mem {cs : List Constr} {ts : List (Term .bool)} (h : plains cs = .ok ts) {d : Constr}
    (hd : d ∈ cs) : d.Formal := by
  induction cs generalizing ts with
  | nil => cases hd
  | cons c cs ih =>
    rw [plains] at h
    obtain ⟨t, ht, h⟩ := bind_eq_ok h
    obtain ⟨ts, hts, -⟩ := bind_eq_ok h
    rcases List.mem_cons.mp hd with rfl | hd
    · exact ⟨t, ht⟩
    · exact ih hts hd

theorem Formal.child {c d : Constr} (h : c.Formal) (hd : d ∈ c.children) : d.Formal := by
  obtain ⟨t, ht⟩ := h
  cases c with
  | goal => cases hd
  | clause _ hyps goals =>
    rw [plain] at ht
    obtain ⟨hs, hhs, ht⟩ := bind_eq_ok ht
    obtain ⟨gs, hgs, -⟩ := bind_eq_ok ht
    exact (List.mem_append.mp hd).elim (plains_mem hhs) (plains_mem hgs)
  | branch _ _ _ yes no =>
    rw [plain] at ht
    obtain ⟨y, hy, ht⟩ := bind_eq_ok ht
    obtain ⟨n, hn, -⟩ := bind_eq_ok ht
    rcases List.mem_cons.mp hd with rfl | hd
    · exact ⟨y, hy⟩
    · cases List.mem_singleton.mp hd
      exact ⟨n, hn⟩
  | subst _ body _ =>
    rw [plain] at ht
    obtain ⟨y, hy, -⟩ := bind_eq_ok ht
    cases List.mem_singleton.mp hd
    exact ⟨y, hy⟩

/-- The nodes of a constraint that has a formula are a ledger. -/
theorem Fresh.ledger {c : Constr} {n : Nat} {t : Term .bool} (h : c.Fresh n)
    (ht : c.toFormula = .ok t) : Ledger (Part c) n where
  toNumbered := h.numbered
  lt := h.lt
  formal := by
    intro d hd
    induction hd with
    | refl => exact ⟨t, (h.numbered.toFormula_eq .refl).symm.trans ht⟩
    | tail _ he ih => exact ih.child he

end Constr

end Precond
